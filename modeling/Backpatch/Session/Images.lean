import Backpatch.Session

/-!
# Steps on images and layouts
-/

namespace Backpatch.Session

inductive ImageStep where
  | flatten (r image : String) (config : FlattenConfig) (observer : Option Observer)
  | toBytes (r : String) (config : FlattenConfig)
  | view (r : String)
  | layout (r image l : String) (observer : Option Observer)
  | layoutInfo (l : String)
  | finalize (l : String) (config : FlattenConfig) (observer : Option Observer)
  | dropLayout (l : String)
  | append (image : String) (bs : Bytes) (note : Note)
  | overwrite (image : String) (offset : Nat) (bs : Bytes) (note : Note)
  | read (image : String) (start stop : Nat)
  | row (image : String) (offset : Nat)
  | info (image : String)

open Script

/-- The observer that a script asks for, or else the one of the configuration. -/
def chosenObserver (config : FlattenConfig) (observer : Option Observer) : Observer :=
  observer.getD config.observer

/-- Runs an observed operation. What a recording observer heard becomes one entry of the log, also
if the operation fails. -/
def observed {α : Type} (observer : Observer) (x : Op α) : Script α := do
  let flush (s : Store) : Store :=
    if observer == .recording then
      { s with log := s.log.push (.checkpoints s.reports.toList), reports := #[] }
    else s
  let result ← op (Failable.attempt x)
  modify fun s => { s with store := flush s.store }
  Script.ofExcept result

/-- Takes a layout out of the session; it may be missing, if laying out failed. -/
def takeLayout (name : String) : Script (Option Layout) := do
  let l := (← get).layouts.lookup name
  modify fun s => { s with layouts := Names.drop s.layouts name }
  return l

def ImageStep.run : ImageStep → Script Outcome
  | flatten r image config observer => do
    let r ← region r
    let i ← Script.image image
    let observer := chosenObserver config observer
    return .summary (← observed observer (r.flattenObserved i config observer))
  | toBytes r config => do
    let r ← region r
    return .bytes (← op (r.toBytes config))
  | view r => do
    let r ← region r
    return .view (← op r.view)
  | layout r image l observer => do
    let r ← region r
    let i ← Script.image image
    let observer := observer.getD .silent
    let made ← observed observer (r.layoutObserved i observer)
    -- The name may stand for an older layout, which ends here.
    if let some old ← takeLayout l then
      op old.drop
    modify fun s => { s with layouts := Names.define s.layouts l made }
    return .done
  | layoutInfo l => do
    let s ← get
    match s.layouts.lookup l with
    | none => return .absent
    | some l =>
      return .layout (l.pendingFields s.store) (s.store.image l.image) (l.display s.store)
  | finalize l config observer => do
    match ← takeLayout l with
    | none => return .absent
    | some l =>
      let observer := chosenObserver config observer
      return .summary (← observed observer (l.finalizeObserved config observer))
  | dropLayout l => do
    match ← takeLayout l with
    | none => return .absent
    | some l =>
      op l.drop
      return .done
  | append image bs note => do
    op (Store.append (← Script.image image) bs note)
    return .done
  | overwrite image offset bs note => do
    op (Store.overwrite (← Script.image image) offset bs note)
    return .done
  | read image start stop => do
    let i ← Script.image image
    return .bytes (← Script.ofExcept (((← get).store.image i).read start stop))
  | row image offset => do
    let i ← Script.image image
    match ((← get).store.image i).rowAt? offset with
    | none => return .absent
    | some found => return .row found
  | info image => do
    let i ← Script.image image
    return .image ((← get).store.image i)

end Backpatch.Session
