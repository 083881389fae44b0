import Backpatch.Store.Dispatch

/-!
# Derived cells

Cells whose value is a function of other cells. Each is made at once if its sources are known,
and otherwise waits for them; either way it ends with the same value.
-/

namespace Backpatch.Store

/-- A cell with a function of the value of `source`. -/
def map (source : CellId) (kind : Kind) (f : Datum → Datum) : Op CellId :=
  tryMap source kind fun v => .ok (f v)

/-- A cell that takes over the value of `inner`. -/
def follow (inner : CellId) : Op CellId := do
  tryMap inner (← kindOf inner) .ok

/-- A cell that follows another one, which the value of `source` chooses or refuses. -/
def tryBind (source : CellId) (kind : Kind) (choose : Datum → Except Error CellId) :
    Op CellId := do
  match ← valueOf source with
  | some v => follow (← Failable.ofExcept (choose v))
  | none =>
    let target ← newCell kind none true
    discard (queue source (.follow target choose))
    return target

def bind (source : CellId) (kind : Kind) (choose : Datum → CellId) : Op CellId :=
  tryBind source kind fun v => .ok (choose v)

/-- A cell with the difference of two cells. It is chosen by the minuend, so the subtrahend is
looked at only when the minuend is known. -/
def subtract (kind : IntKind) (minuend subtrahend : CellId) : Op CellId := do
  match ← valueOf minuend with
  | some v => follow (← tryMap subtrahend (.int kind) (Datum.difference kind v))
  | none =>
    let target ← newCell (.int kind) none true
    discard (queue minuend (.minus target kind subtrahend))
    return target

/-- A cell with an offset as the value of a signed field. -/
def signedOffset (source : CellId) : Op CellId :=
  tryMap source (.int .i64) Datum.signedOffset

end Backpatch.Store
