import Mathlib
import Backpatch.Proofs.Outcomes

/-!
# The leaves of an error

An aggregate holds errors, which may be aggregates again. Its leaves are the single failures in it,
at any depth. Reporting failures together keeps their leaves, in order (`leaves_ofMany?`). It
unpacks what it collects by one level only, but where all errors are flat this is enough: the
report is flat again (`Flat.ofMany?`).
-/

namespace Backpatch.Error

mutual

/-- The single failures that an error reports, at any depth. -/
def leaves : Error → List Error
  | aggregate errors => allLeaves errors
  | e => [e]

def allLeaves : List Error → List Error
  | [] => []
  | e :: es => leaves e ++ allLeaves es

end

theorem allLeaves_eq (errors : List Error) : allLeaves errors = errors.flatMap leaves := by
  induction errors with
  | nil => rfl
  | cons e es ih => rw [allLeaves, ih, List.flatMap_cons]

@[simp] theorem leaves_aggregate (errors : List Error) :
    (aggregate errors).leaves = errors.flatMap leaves := by
  rw [leaves, allLeaves_eq]

theorem flatMap_leaves_parts (e : Error) : e.parts.flatMap leaves = e.leaves := by
  cases e with
  | aggregate errors => simp [parts]
  | _ => simp [parts, leaves]

/-- A report of several failures has their leaves. -/
theorem leaves_ofMany? (errors : List Error) :
    (ofMany? errors).toList.flatMap leaves = errors.flatMap leaves := by
  have hparts : (errors.flatMap parts).flatMap leaves = errors.flatMap leaves := by
    rw [List.flatMap_assoc]
    simp only [flatMap_leaves_parts]
  rw [← hparts]
  unfold ofMany?
  split
  next hnil => simp [hnil]
  next e hone => simp [hone]
  next => simp

/-- Failures are reported as none exactly if each of them is the empty aggregate. -/
theorem ofMany?_eq_none_iff {errors : List Error} :
    ofMany? errors = none ↔ ∀ e ∈ errors, e = aggregate [] := by
  have hparts : ∀ e : Error, e.parts = [] ↔ e = aggregate [] := by
    intro e
    cases e <;> simp [parts]
  have hnil : ofMany? errors = none ↔ errors.flatMap parts = [] := by
    unfold ofMany?
    rcases errors.flatMap parts with _ | ⟨_, _ | ⟨_, _⟩⟩
    · simp
    · simp
    · simp
  simp only [hnil, List.flatMap_eq_nil_iff, hparts]

mutual

theorem leaves_eq_nil_iff (e : Error) : e.leaves = [] ↔ e.isHollow = true := by
  cases e with
  | aggregate errors => exact allLeaves_eq_nil_iff errors
  | _ => simp [leaves, isHollow]

theorem allLeaves_eq_nil_iff (errors : List Error) :
    allLeaves errors = [] ↔ allHollow errors = true := by
  cases errors with
  | nil => simp [allLeaves, allHollow]
  | cons e es =>
    simp [allLeaves, allHollow, leaves_eq_nil_iff e, allLeaves_eq_nil_iff es]

end

/-! ## Flat errors -/

/-- The error is a single failure. -/
def isPlain : Error → Bool
  | aggregate _ => false
  | _ => true

theorem isPlain_of_parts {e : Error} (h : e.parts = [e]) : e.isPlain = true := by
  cases e with
  | aggregate errors => exact absurd h (parts_aggregate_ne errors)
  | _ => rfl

/-- A single failure, or an aggregate of at least two of them. -/
def Flat : Error → Prop
  | aggregate errors => 2 ≤ errors.length ∧ ∀ e ∈ errors, e.isPlain = true
  | _ => True

theorem Flat.of_isPlain {e : Error} (h : e.isPlain = true) : e.Flat := by
  cases e with
  | aggregate errors => simp [isPlain] at h
  | _ => trivial

theorem Flat.parts {e : Error} (h : e.Flat) : ∀ x ∈ e.parts, x.isPlain = true := by
  cases e with
  | aggregate errors => exact h.2
  | _ => simp [Error.parts, isPlain]

/-- A report of flat errors is flat. -/
theorem Flat.ofMany? {errors : List Error} {e : Error} (h : ∀ x ∈ errors, x.Flat)
    (he : Error.ofMany? errors = some e) : e.Flat := by
  have hplain : ∀ x ∈ errors.flatMap Error.parts, x.isPlain = true := by
    intro x hx
    obtain ⟨y, hy, hx⟩ := List.mem_flatMap.1 hx
    exact (h y hy).parts x hx
  unfold Error.ofMany? at he
  split at he
  next => cases he
  next x hone =>
    cases he
    exact .of_isPlain (hplain e (by simp [hone]))
  next hnil hone =>
    cases he
    refine ⟨?_, hplain⟩
    match hparts : errors.flatMap Error.parts with
    | [] => exact absurd hparts hnil
    | [x] => exact absurd hparts (hone x)
    | _ :: _ :: _ => simp

end Backpatch.Error
