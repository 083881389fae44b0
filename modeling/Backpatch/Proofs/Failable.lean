import Mathlib
import Backpatch.Failable

/-!
# The state after an operation

A failure keeps the changes made before it, so every operation leaves a state, and the state after a
composed operation comes from those after its parts.
-/

namespace Backpatch.Failable

variable {σ α β : Type} {s t : σ}

/-- The state that an operation leaves, whether it fails or not. -/
def after (x : Failable σ α) (s : σ) : σ :=
  match x s with
  | .ok _ t => t
  | .error _ t => t

theorem after_of_ok {x : Failable σ α} {a : α} (h : x s = .ok a t) : x.after s = t := by
  simp [after, h]

theorem after_of_error {x : Failable σ α} {e : Error} (h : x s = .error e t) :
    x.after s = t := by
  simp [after, h]

/-! ## Running operations -/

@[simp] theorem bind_run (x : Failable σ α) (f : α → Failable σ β) (s : σ) :
    (x >>= f) s = match x s with
      | .ok a t => f a t
      | .error e t => .error e t := by
  simp only [bind, EStateM.bind]
  cases x s <;> rfl

@[simp] theorem pure_run (a : α) (s : σ) : (pure a : Failable σ α) s = .ok a s := rfl

@[simp] theorem throw_run (e : Error) (s : σ) : (throw e : Failable σ α) s = .error e s := rfl

@[simp] theorem get_run (s : σ) : (get : Failable σ σ) s = .ok s s := rfl

@[simp] theorem modify_run (f : σ → σ) (s : σ) :
    (modify f : Failable σ PUnit) s = .ok ⟨⟩ (f s) := rfl

@[simp] theorem ofExcept_ok_run (a : α) (s : σ) :
    (ofExcept (.ok a) : Failable σ α) s = .ok a s := rfl

@[simp] theorem ofExcept_error_run (e : Error) (s : σ) :
    (ofExcept (.error e) : Failable σ α) s = .error e s := rfl

@[simp] theorem map_run (f : α → β) (x : Failable σ α) (s : σ) :
    (f <$> x) s = match x s with
      | .ok a t => .ok (f a) t
      | .error e t => .error e t := by
  simp only [Functor.map, EStateM.map]
  cases x s <;> rfl

@[simp] theorem discard_run (x : Failable σ α) (s : σ) :
    (discard x) s = match x s with
      | .ok _ t => .ok ⟨⟩ t
      | .error e t => .error e t := by
  simp only [discard, Functor.discard, Functor.mapConst, EStateM.map, Function.comp]
  cases x s <;> rfl

theorem bind_eq_ok {x : Failable σ α} {f : α → Failable σ β} {b : β} :
    (x >>= f) s = .ok b t ↔ ∃ a u, x s = .ok a u ∧ f a u = .ok b t := by
  rw [bind_run]
  cases h : x s with
  | ok a u => simp
  | error e u => simp

/-- An operation whose result can be computed succeeds. -/
theorem exists_ok_of_run' {x : Failable σ α} {f : α → β} {b : β} (h : (x.run' s).map f = some b) :
    ∃ a t, x s = .ok a t ∧ f a = b := by
  cases hx : x s with
  | ok a t => exact ⟨a, t, rfl, by simpa [EStateM.run', EStateM.run, hx] using h⟩
  | error e t => simp [EStateM.run', EStateM.run, hx] at h

/-- An operation whose failure can be computed fails. -/
theorem exists_error_of_failures {x : Failable σ α} {f : Error → β} {b : β}
    (h : ((failures (discard x)).run' s).map (·.map f) = some [b]) :
    ∃ e t, x s = .error e t ∧ f e = b := by
  cases hx : x s with
  | ok a t => simp [EStateM.run', EStateM.run, failures, hx] at h
  | error e t => exact ⟨e, t, rfl, by simpa [EStateM.run', EStateM.run, failures, hx] using h⟩

theorem exists_error_of_isNone {x : Failable σ α} (h : (x.run' s).isNone = true) :
    ∃ e, x s = .error e (x.after s) := by
  cases hx : x s with
  | ok a t => simp [EStateM.run', EStateM.run, hx] at h
  | error e t => exact ⟨e, congrArg _ (after_of_error hx).symm⟩

theorem after_bind (x : Failable σ α) (f : α → Failable σ β) (s : σ) :
    (x >>= f).after s = match x s with
      | .ok a t => (f a).after t
      | .error _ t => t := by
  unfold after
  rw [bind_run]
  cases x s <;> rfl

@[simp] theorem after_pure (a : α) (s : σ) : (pure a : Failable σ α).after s = s := rfl

@[simp] theorem after_throw (e : Error) (s : σ) : (throw e : Failable σ α).after s = s := rfl

@[simp] theorem after_ofExcept (x : Except Error α) (s : σ) :
    (ofExcept x : Failable σ α).after s = s := by
  cases x <;> rfl

@[simp] theorem after_failures (x : Failable σ Unit) (s : σ) :
    (failures x).after s = x.after s := by
  simp only [failures, after]
  cases x s <;> rfl

@[simp] theorem after_raise (errors : List Error) (s : σ) :
    (raise errors : Failable σ Unit).after s = s := by
  unfold raise
  cases Error.ofMany? errors <;> rfl

@[simp] theorem after_discard (x : Failable σ α) (s : σ) : (discard x).after s = x.after s := by
  simp only [after, discard_run]
  cases x s <;> rfl

theorem ofExcept_eq_ok {x : Except Error α} {a : α} :
    (ofExcept x : Failable σ α) s = .ok a t ↔ x = .ok a ∧ s = t := by
  cases x <;> simp

theorem raise_eq_ok {errors : List Error} :
    (raise errors : Failable σ Unit) s = .ok () t ↔ Error.ofMany? errors = none ∧ s = t := by
  unfold raise
  cases Error.ofMany? errors with
  | none => simp
  | some e => simp

end Backpatch.Failable
