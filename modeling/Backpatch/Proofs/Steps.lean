import Mathlib
import Backpatch.Proofs.Validity

/-!
# Operations as steps

An operation, whether it fails or not, leads from store to store by moves, each carried out to the
end of its cascade. `Steps P s t` says so, with a condition `P` on the moves that are made. What
every reaction keeps then holds after every operation (`Steps.invariant`).
-/

namespace Backpatch

open Store Failable

/-- Moves that satisfy `P` lead from the first store to the second. -/
def Steps (P : Move → Prop) : Store → Store → Prop :=
  Relation.ReflTransGen fun s t => ∃ m, P m ∧ Cascade s [.move m] t

theorem Valid.start {s : Store} (h : Valid s []) (m : Move) : Valid s [.move m] :=
  { h with
    running := by simp
    acting := by simp
    driven := h.driven }

namespace Steps

variable {P Q : Move → Prop} {s t u : Store} {α β : Type}

theorem refl (s : Store) : Steps P s s := Relation.ReflTransGen.refl

theorem trans (h : Steps P s t) (g : Steps P t u) : Steps P s u := Relation.ReflTransGen.trans h g

theorem single {m : Move} (hm : P m) (h : Cascade s [.move m] t) : Steps P s t :=
  Relation.ReflTransGen.single ⟨m, hm, h⟩

/-- A move that sets nothing off. -/
theorem quiet {m : Move} (hm : P m) (hf : m.Fits s) (hq : (m.apply s).2 = []) :
    Steps P s (m.apply s).1 := by
  have hr := Reacts.move hf
  rw [hq] at hr
  exact single hm (.done hr)

theorem mono (h : Steps P s t) (hPQ : ∀ m, P m → Q m) : Steps Q s t :=
  Relation.ReflTransGen.mono (fun _ _ ⟨m, hm, hc⟩ => ⟨m, hPQ m hm, hc⟩) _ _ h

/-- What the moves bring about and every reaction keeps holds after any number of steps. -/
theorem invariant {I : Store → List Task → Prop}
    (start : ∀ {s m}, P m → I s [] → I s [.move m])
    (step : ∀ {s task t ts k}, Reacts s task t ts → I s (task :: k) → I t (ts ++ k))
    (h : Steps P s t) (hi : I s []) : I t [] := by
  induction h with
  | refl => exact hi
  | tail _ hstep ih =>
    obtain ⟨m, hm, hc⟩ := hstep
    exact hc.invariant step (start hm ih)

theorem valid (h : Steps P s t) (hs : Valid s []) : Valid t [] :=
  h.invariant (I := Valid) (fun _ hs => hs.start _) Valid.step hs

theorem grows (h : Steps P s t) : Grows s t :=
  h.invariant (I := fun t _ => Grows s t) (fun _ hg => hg) (fun hr hg => hg.trans hr.grows)
    (.refl s)

theorem bind {x : Op α} {f : α → Op β} (hx : Steps P s (x.after s))
    (hf : ∀ a t, x s = .ok a t → Steps P s t → Steps P t ((f a).after t)) :
    Steps P s ((x >>= f).after s) := by
  rw [after_bind]
  unfold after at hx
  cases hr : x s with
  | ok a t =>
    simp only [hr] at hx
    exact hx.trans (hf a t hr hx)
  | error e t => simpa [hr] using hx

theorem onFailure {x : Op α} {cleanup : Op Unit} (hx : Steps P s (x.after s))
    (hc : ∀ t, Steps P s t → Steps P t (cleanup.after t)) :
    Steps P s ((onFailure x cleanup).after s) := by
  unfold after at hx ⊢
  unfold Failable.onFailure
  cases hr : x s with
  | ok a t => simpa [hr] using hx
  | error e t =>
    simp only [hr] at hx
    exact hx.trans ((hc t hx).bind fun _ t _ _ => .refl t)

end Steps

/-- The move makes a cell. -/
def Move.Creates : Move → Prop
  | .create .. | .attach .. => True
  | _ => False

/-- The action never takes a value back. -/
def Action.Lasting : Action → Prop
  | .unresolve _ => False
  | .watch _ a => a.Lasting
  | .andThen a b => a.Lasting ∧ b.Lasting
  | .done | .log _ | .fail _ | .forward _ | .resolve .. | .confirm .. | .unsubscribe _ => True

/-- The move neither takes a value back, now or later, nor writes over the bytes of an image. -/
def Move.Plain : Move → Prop
  | .unresolve _ | .overwrite .. => False
  | .watch _ a | .run _ a _ => a.Lasting
  | .journal .. | .define .. | .create .. | .attach .. | .resolve .. | .settle .. | .unsubscribe ..
  | .newImage | .append .. | .place .. => True

theorem Move.Creates.plain {m : Move} (h : m.Creates) : m.Plain := by
  cases m <;> trivial

namespace Store

variable {s : Store} {P : Move → Prop}

/-! ## Settling -/

theorem steps_settle {c : CellId} {v : Datum} (h : Valid s []) (hc : c < s.cells.size)
    (hP : P (.settle c v)) : Steps P s ((settle c v).after s) := by
  have hfire := (cascades_settle (s.load + 1) c v s h.load (by omega)).1
  exact .single hP (.single (.move (m := .settle c v) hc) hfire)

theorem steps_settleOrConfirm {c : CellId} {v : Datum} (h : Valid s []) (hc : c < s.cells.size)
    (hP : P (.settle c v)) : Steps P s ((settleOrConfirm c v).after s) := by
  simp only [settleOrConfirm, after_bind, get_run]
  split_ifs
  · exact .refl s
  · exact steps_settle h hc hP

theorem steps_resolve {c : CellId} {v : Datum} (h : Valid s []) (hc : c < s.cells.size)
    (hP : P (.resolve c v)) : Steps P s ((resolve c v).after s) := by
  rw [resolve, after_resolveBy]
  split_ifs with hd
  · exact .refl s
  · have hfire := (cascades_settle (s.load + 1) c v s h.load (by omega)).1
    exact .single hP (.single (.move (m := .resolve c v) ⟨hc, by simpa using hd⟩) hfire)

theorem steps_confirm {c : CellId} {v : Datum} (h : Valid s []) (hc : c < s.cells.size)
    (hP : P (.resolve c v)) : Steps P s ((confirm c v).after s) := by
  rw [confirm, after_confirmBy]
  split_ifs
  · exact .refl s
  · exact steps_resolve h hc hP

theorem steps_onResolve {c : CellId} {a : Action} (h : Valid s []) (hc : c < s.cells.size)
    (ha : a.Within s.cells.size) (hw : P (.watch c a)) (hr : ∀ v, P (.run c a v)) :
    Steps P s ((onResolve c (.act a)).after s) := by
  simp only [onResolve, after_bind, valueOf_run]
  cases hv : s.value? c with
  | none => exact .quiet (m := .watch c a) hw ⟨hc, hv, ha⟩ rfl
  | some v =>
    have hact := (cascade_runAction (cascades_settle _) a v s h.load
      (Nat.lt_succ_self (s.load + a.weight))).1
    refine Steps.bind (.single (hr v) (.single (.move (m := .run c a v) ⟨hv, ha⟩) hact)) ?_
    exact fun _ t _ _ => .refl t

/-! ## Derived cells -/

theorem steps_tryMap {source : CellId} (hc : source < s.cells.size) (kind : Kind)
    (f : Datum → Except Error Datum) : Steps Move.Creates s ((tryMap source kind f).after s) := by
  unfold after
  rw [tryMap_run]
  cases hv : s.value? source with
  | none =>
    refine .quiet (m := .attach kind source (.derive · f)) trivial ⟨hc, hv, rfl, ?_⟩ rfl
    exact ⟨by simp, by simp [newDerived, cell_addCell]⟩
  | some v =>
    cases hf : f v with
    | error e =>
      simp only [hf]
      exact .refl s
    | ok w =>
      simp only [hf]
      exact .quiet (m := .create kind (some w) true) trivial trivial rfl

theorem steps_follow {inner : CellId} (hc : inner < s.cells.size) :
    Steps Move.Creates s ((follow inner).after s) := by
  simp only [follow, after_bind, kindOf_run]
  exact steps_tryMap hc ..

/-- The cell of a derivation is a new one. -/
theorem tryMap_eq_ok {source c : CellId} {kind : Kind} {f : Datum → Except Error Datum} {t : Store}
    (h : tryMap source kind f s = .ok c t) :
    c = s.cells.size ∧ t.cells.size = s.cells.size + 1 := by
  rw [tryMap_run] at h
  cases hv : s.value? source with
  | none =>
    simp only [hv, EStateM.Result.ok.injEq] at h
    obtain ⟨rfl, rfl⟩ := h
    simp
  | some v =>
    cases hf : f v with
    | error e => simp [hv, hf] at h
    | ok w =>
      simp only [hv, hf, EStateM.Result.ok.injEq] at h
      obtain ⟨rfl, rfl⟩ := h
      simp

theorem steps_tryBind {source : CellId} (hc : source < s.cells.size) (kind : Kind)
    {choose : Datum → Except Error CellId}
    (hch : ∀ v inner, choose v = .ok inner → inner < s.cells.size) :
    Steps Move.Creates s ((tryBind source kind choose).after s) := by
  simp only [tryBind, after_bind, valueOf_run]
  cases hv : s.value? source with
  | none =>
    refine .quiet (m := .attach kind source (.follow · choose)) trivial ⟨hc, hv, rfl, ?_⟩ rfl
    refine ⟨by simp, by simp [newDerived, cell_addCell], fun v inner hi => ?_⟩
    exact (hch v inner hi).trans (by simp)
  | some v =>
    cases hi : choose v with
    | error e =>
      simp only [hi, after_bind, ofExcept_error_run]
      exact .refl s
    | ok inner =>
      simp only [hi, after_bind, ofExcept_ok_run]
      exact steps_follow (hch v inner hi)

theorem steps_subtract {minuend subtrahend : CellId} (kind : IntKind)
    (hm : minuend < s.cells.size) (hs : subtrahend < s.cells.size) :
    Steps Move.Creates s ((subtract kind minuend subtrahend).after s) := by
  simp only [subtract, after_bind, valueOf_run]
  cases hv : s.value? minuend with
  | none =>
    refine .quiet (m := .attach (.int kind) minuend (.minus · kind subtrahend)) trivial
      ⟨hm, hv, rfl, ?_⟩ rfl
    exact ⟨by simp, by simp [newDerived, cell_addCell], hs.trans (by simp)⟩
  | some v =>
    refine Steps.bind (steps_tryMap hs ..) fun c t ht _ => ?_
    obtain ⟨rfl, hsize⟩ := tryMap_eq_ok ht
    exact steps_follow (hsize ▸ Nat.lt_succ_self _)

end Store

end Backpatch
