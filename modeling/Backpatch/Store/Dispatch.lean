import Backpatch.Store

/-!
# Dispatch

When a cell gets its value, the subscribers of its queue run once each, in the order in which
they came. A subscriber may settle other cells, so dispatch is nested. Every subscriber weighs
more than what it queues while it runs; the weight of all subscribers ever queued therefore
bounds the depth of the nesting, and `settle` starts with that bound.
-/

namespace Backpatch.Store

/-- Derives a cell of some kind from `source` by a function that may fail: at once if the value of
`source` is known, and otherwise when it arrives. -/
def tryMap (source : CellId) (kind : Kind) (f : Datum → Except Error Datum) : Op CellId := do
  match ← valueOf source with
  | some v => newCell kind (some (← Failable.ofExcept (f v))) true
  | none =>
    let target ← newCell kind none true
    discard (queue source (.derive target f))
    return target

section Subscribers

/-! How subscribers run, given what it means to settle a cell. -/

variable (settle : CellId → Datum → Op Unit)

/-- Gives a cell its value from outside. -/
def resolveBy (c : CellId) (v : Datum) : Op Unit := do
  if ((← get).cell c).derived then throw .derivedResolve
  settle c v

/-- Gives a cell its value from outside, unless it holds an equal one. -/
def confirmBy (c : CellId) (v : Datum) : Op Unit := do
  if ((← get).cell c).holds v then return
  resolveBy settle c v

/-- Settles `target` with the value of `inner`, now or later. -/
def connect (inner target : CellId) : Op Unit := do
  match ← valueOf inner with
  | some v => settle target v
  | none => discard (queue inner (.derive target .ok))

/-- Runs an action with the delivered value. A name that stands for no cell is passed over, and so
is a literal that its target cannot hold. -/
def runAction : Action → Datum → Op Unit
  | .done, _ => return
  | .log tag, v => logEntry (.delivered tag v)
  | .fail e, _ => throw e
  | .forward t, v => do
    let some c := (← get).find? t | return
    resolveBy settle c v
  | .resolve t w, _ => do
    let some c := (← get).find? t | return
    let some w := w.read (← kindOf c) | return
    resolveBy settle c w
  | .confirm t w, _ => do
    let some c := (← get).find? t | return
    let some w := w.read (← kindOf c) | return
    confirmBy settle c w
  | .unresolve t, _ => do
    let some c := (← get).find? t | return
    unresolve c
  | .watch t callback, _ => do
    let some c := (← get).find? t | return
    match ← valueOf c with
    | some w => runAction callback w
    | none => discard (queue c (.act callback))
  | .unsubscribe name, _ => do
    match (← get).subscriptions.lookup name with
    | none => logEntry (.cancelled name none)
    | some sub =>
      let removed ← unsubscribe sub.cell sub.id
      logEntry (.cancelled name (some removed))
  | .andThen first second, v => do
    runAction first v
    runAction second v

def runSubscriber : Subscriber → Datum → Op Unit
  | .derive target f, v => do settle target (← Failable.ofExcept (f v))
  | .follow target choose, v => do connect settle (← Failable.ofExcept (choose v)) target
  | .minus target kind subtrahend, v => do
    connect settle (← tryMap subtrahend (.int kind) (Datum.difference kind v)) target
  | .patch field, v => patch field v
  | .act action, v => runAction settle action v

/-- Runs all subscribers, and collects the failures of those that fail. -/
def runQueue : List (Nat × Subscriber) → Datum → Op (List Error)
  | [], _ => return []
  | (_, sub) :: rest, v => do
    let first ← Failable.failures (runSubscriber settle sub v)
    let others ← runQueue rest v
    return first ++ others

end Subscribers

/-- Like `settle`, with at most `depth` nested dispatches. -/
def settleWithin : Nat → CellId → Datum → Op Unit
  | 0, _, _ => return
  | depth + 1, c, v => do
    match ← valueOf c with
    | some existing => throw (.alreadyResolved existing.display v.display)
    | none =>
      let waiting ← deliver c v
      Failable.raise (← runQueue (settleWithin depth) waiting v)

/-- Gives a cell its value and runs its queue. All subscribers run, whatever fails, and the value
stays; the failures are reported together. -/
def settle (c : CellId) (v : Datum) : Op Unit := do
  settleWithin ((← get).issued + 1) c v

def resolve (c : CellId) (v : Datum) : Op Unit := resolveBy settle c v

def confirm (c : CellId) (v : Datum) : Op Unit := confirmBy settle c v

/-- Like `settle`, unless the cell holds an equal value. -/
def settleOrConfirm (c : CellId) (v : Datum) : Op Unit := do
  if ((← get).cell c).holds v then return
  settle c v

/-- Runs a subscriber with the value of a cell: at once if it is known, with the number zero, and
otherwise when it arrives. -/
def onResolve (c : CellId) (sub : Subscriber) : Op Nat := do
  match ← valueOf c with
  | some v =>
    runSubscriber settle sub v
    return 0
  | none => queue c sub

end Backpatch.Store
