import Mathlib
import Backpatch.Layout
import Backpatch.Snapshot.Builder

/-!
# Handles

Cells, images and placeholders are named by numbers, and whoever uses a number got it from the
operation that made the thing. `Within` says that all numbers in a piece of data stand for things
that exist, given how many there are.
-/

namespace Backpatch

def Target.Within (cells : Nat) : Target → Prop
  | .cell c => c < cells
  | .named _ => True

def Action.Within (cells : Nat) : Action → Prop
  | .done | .log _ | .fail _ | .unsubscribe _ => True
  | .forward t | .resolve t _ | .confirm t _ | .unresolve t => t.Within cells
  | .watch t a => t.Within cells ∧ a.Within cells
  | .andThen a b => a.Within cells ∧ b.Within cells

def Entry.Within (cells : Nat) (e : Entry) : Prop :=
  e.start < cells ∧ e.stop < cells ∧ e.result < cells

mutual

def Segment.Within (cells : Nat) : Segment → Prop
  | .direct .. => True
  | .deferred _ c _ | .mark c => c < cells
  | .postProcess e => e.Within cells
  | .nested segments => Segment.WithinAll cells segments

def Segment.WithinAll (cells : Nat) : List Segment → Prop
  | [] => True
  | s :: rest => s.Within cells ∧ Segment.WithinAll cells rest

end

def Region.Within (cells : Nat) (r : Region) : Prop := Segment.WithinAll cells r.segments

def Snapshot.Builder.Within (cells : Nat) (b : Snapshot.Builder) : Prop :=
  ∀ part ∈ b.sections, part.region.Within cells

/-- The cell that a subscriber is going to settle. -/
def Subscriber.target? : Subscriber → Option CellId
  | .derive target _ | .follow target _ | .minus target _ _ => some target
  | .patch _ | .act _ => none

/-- What a subscriber in the queue of `c` refers to exists. The cells that subscribers settle are
derived, and a patch waits for the cell of its field. -/
def Subscriber.Sound (s : Store) (c : CellId) : Subscriber → Prop
  | .derive target _ => target < s.cells.size ∧ (s.cell target).derived
  | .follow target choose => target < s.cells.size ∧ (s.cell target).derived ∧
    ∀ v inner, choose v = .ok inner → inner < s.cells.size
  | .minus target _ subtrahend => target < s.cells.size ∧ (s.cell target).derived ∧
    subtrahend < s.cells.size
  | .patch field => ∃ p, s.placeholders[field]? = some p ∧ p.cell = c
  | .act a => a.Within s.cells.size

section Mono

variable {m n : Nat}

theorem Target.Within.mono {t : Target} (h : t.Within m) (hm : m ≤ n) : t.Within n := by
  cases t with
  | cell c => exact Nat.lt_of_lt_of_le h hm
  | named => trivial

theorem Action.Within.mono {a : Action} (h : a.Within m) (hm : m ≤ n) : a.Within n := by
  induction a with
  | done | log | fail | unsubscribe => trivial
  | forward t | resolve t | confirm t | unresolve t => exact Target.Within.mono h hm
  | watch t a ih => exact ⟨Target.Within.mono h.1 hm, ih h.2⟩
  | andThen a b iha ihb => exact ⟨iha h.1, ihb h.2⟩

theorem Entry.Within.mono {e : Entry} (h : e.Within m) (hm : m ≤ n) : e.Within n :=
  ⟨Nat.lt_of_lt_of_le h.1 hm, Nat.lt_of_lt_of_le h.2.1 hm, Nat.lt_of_lt_of_le h.2.2 hm⟩

mutual

theorem Segment.Within.mono {s : Segment} (h : s.Within m) (hm : m ≤ n) : s.Within n := by
  cases s with
  | direct => trivial
  | deferred | mark => exact Nat.lt_of_lt_of_le h hm
  | postProcess e => exact Entry.Within.mono h hm
  | nested segments => exact Segment.WithinAll.mono h hm

theorem Segment.WithinAll.mono {segments : List Segment} (h : Segment.WithinAll m segments)
    (hm : m ≤ n) : Segment.WithinAll n segments := by
  cases segments with
  | nil => trivial
  | cons s rest => exact ⟨Segment.Within.mono h.1 hm, Segment.WithinAll.mono h.2 hm⟩

end

end Mono

end Backpatch
