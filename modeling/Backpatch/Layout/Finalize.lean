import Backpatch.Image.View
import Backpatch.Layout

/-!
# Finalizing a layout

Post-processing entries run in order; their results may patch further fields. An entry is put off
for good if its range has an unknown bound or still holds a placeholder. What is missing at the
end is an error, unless the caller asked for a tolerant run.
-/

namespace Backpatch

structure FlattenConfig where
  /-- Missing values are errors. -/
  enforceComplete : Bool
  /-- Checkpoints go to the trace. -/
  traceCheckpoints : Bool
deriving DecidableEq

namespace FlattenConfig

def strict : FlattenConfig := ⟨true, false⟩

def diagnostic : FlattenConfig := ⟨false, true⟩

def quiet : FlattenConfig := ⟨false, false⟩

def observer (c : FlattenConfig) : Observer :=
  if c.traceCheckpoints then .tracing else .silent

end FlattenConfig

structure FlattenSummary where
  size : Nat
  deferredFields : Nat
  unresolved : List UnresolvedField
  postProcessed : Nat
  skipped : Nat
deriving DecidableEq

/-- Nothing was left out. -/
def FlattenSummary.isComplete (s : FlattenSummary) : Bool :=
  s.unresolved.isEmpty && s.skipped == 0

/-- The outcome of the post-processing entries so far. -/
structure Tally where
  applied : Nat := 0
  skipped : Nat := 0
  errors : List Error := []

open Store

namespace Layout

/-- The bounds of an entry, as far as they are known. -/
def bounds (e : Entry) (s : Store) : Option Nat × Option Nat :=
  (s.offset? e.start, s.offset? e.stop)

/-- Settles the result of an entry with the digest of its range. -/
def applyEntry (l : Layout) (e : Entry) (start stop : Nat) : Op Unit := do
  let bytes ← Failable.ofExcept (((← get).image l.image).read start stop)
  settleOrConfirm e.result (e.digest bytes)

def runEntry (l : Layout) (enforce : Bool) (index : Nat) (e : Entry) (t : Tally) : Op Tally := do
  match bounds e (← get) with
  | (some start, some stop) =>
    if (l.pending (← get)).any (·.overlaps start stop) then
      emit (.skippedCovered index start stop)
      return { t with skipped := t.skipped + 1 }
    match ← Failable.failures (l.applyEntry e start stop) with
    | [] => return { t with applied := t.applied + 1 }
    | errors => return { t with errors := t.errors ++ errors }
  | (start, stop) =>
    if enforce then
      return { t with
        skipped := t.skipped + 1
        errors := t.errors ++ [.postProcessingRange index start stop] }
    emit (.skippedUnbounded index)
    return { t with skipped := t.skipped + 1 }

/-- Runs the entries, numbered from `index`. -/
def runEntries (l : Layout) (enforce : Bool) : Nat → List Entry → Tally → Op Tally
  | _, [], t => return t
  | index, e :: rest, t => do
    runEntries l enforce (index + 1) rest (← l.runEntry enforce index e t)

/-- Reports what is missing after post-processing, and gives it up. -/
def close (l : Layout) (config : FlattenConfig) (observer : Observer) (tally : Tally) :
    Op FlattenSummary := do
  checkpoint observer l.image (.postProcessed tally.applied tally.skipped)
  let unresolved := l.pendingFields (← get)
  let missing := !unresolved.isEmpty
  if missing then
    emit (.unresolvedFields unresolved.length)
  let size ← imageSize l.image
  checkpoint observer l.image (.finalized size unresolved.length)
  l.drop
  Failable.raise (tally.errors ++
    if missing && config.enforceComplete then [.unresolved unresolved] else [])
  return {
    size
    deferredFields := l.deferredFields
    unresolved
    postProcessed := tally.applied
    skipped := tally.skipped }

/-- Post-processes the image and gives up what is still pending. -/
def finalizeObserved (l : Layout) (config : FlattenConfig) (observer : Observer) :
    Op FlattenSummary := do
  l.close config observer (← l.runEntries config.enforceComplete 0 l.entries {})

def finalize (l : Layout) (config : FlattenConfig) : Op FlattenSummary :=
  l.finalizeObserved config config.observer

end Layout

namespace Region

/-- Lays a region out and finalizes it. -/
def flattenObserved (r : Region) (i : ImageId) (config : FlattenConfig) (observer : Observer) :
    Op FlattenSummary := do
  let l ← r.layoutObserved i observer
  let summary ← l.finalizeObserved config observer
  emit (.flattened summary.size summary.deferredFields summary.unresolved.length)
  return summary

def flatten (r : Region) (i : ImageId) (config : FlattenConfig) : Op FlattenSummary :=
  r.flattenObserved i config config.observer

/-- The bytes of the region in an image of its own. -/
def toBytes (r : Region) (config : FlattenConfig) : Op Bytes := do
  let i ← newImage
  discard (r.flatten i config)
  return ((← get).image i).bytes

/-- The region in an image of its own, as far as it is known. -/
def view (r : Region) : Op View := do
  let i ← newImage
  discard (r.flatten i .quiet)
  return ((← get).image i).view

end Region

end Backpatch
