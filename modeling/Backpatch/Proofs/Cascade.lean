import Mathlib
import Backpatch.Proofs.Reaction

/-!
# Dispatch as a cascade

`cascades_settle`: settling a cell is a cascade. Every task weighs more than what it queues, so the
bound on nested dispatches with which `settle` starts is never reached, as long as it is not below
the weight of what is waiting.
-/

namespace Backpatch
open Store Failable

namespace Store

variable {s : Store} {n : Nat} {settle : CellId → Datum → Op Unit}

theorem patch_cases (s : Store) (source : CellId) (field : FieldId) (v : Datum) :
    (Task.Refused s (.notify source (.patch field) v) ∧ (patch field v).after s = s) ∨
    ∃ p bs, s.placeholders[field]? = some p ∧ p.format.encode v = .ok bs ∧
      p.offset + bs.length ≤ (s.image p.image).size ∧
      patch field v s = .ok () (s.patched v field p bs) := by
  cases hp : s.placeholders[field]? with
  | none => exact .inl ⟨by simp [Task.Refused, hp], by simp [after, patch, hp]⟩
  | some p =>
    cases he : p.format.encode v with
    | error e =>
      refine .inl ⟨?_, by simp [after, patch, hp, he]⟩
      intro q bs hq hbs
      obtain rfl : p = q := by simpa [hp] using hq
      simp [he] at hbs
    | ok bs =>
      by_cases hr : p.offset + bs.length ≤ (s.image p.image).size
      · refine .inr ⟨p, bs, rfl, he, hr, ?_⟩
        simp [patch, hp, he, overwrite, Image.checkRange, hr, patched, modifyImage]
      · refine .inl ⟨?_, ?_⟩
        · intro q bs' hq hbs
          obtain rfl : p = q := by simpa [hp] using hq
          obtain rfl : bs = bs' := by simpa [he] using hbs
          omega
        · simp [after, patch, hp, he, overwrite, Image.checkRange, hr]

theorem cascade_patch (s : Store) (source : CellId) (field : FieldId) (v : Datum) :
    Cascade s [.notify source (.patch field) v] ((patch field v).after s) ∧
      ((patch field v).after s).load = s.load := by
  obtain ⟨hr, ha⟩ | ⟨p, bs, hp, he, hb, hrun⟩ := patch_cases s source field v
  · rw [ha]
    exact ⟨.done (.refuse hr), rfl⟩
  · rw [after_of_ok hrun]
    exact ⟨.done (.patch hp he hb), rfl⟩

/-- Settling by `settle` is a cascade and adds no weight, as long as less than `n` is waiting. -/
def Cascades (settle : CellId → Datum → Op Unit) (n : Nat) : Prop :=
  ∀ c v s, s.load ≤ s.issued → s.load < n →
    Cascade (s.fire c v).1 (s.fire c v).2 ((settle c v).after s) ∧
      ((settle c v).after s).load ≤ s.load

theorem after_resolveBy (c : CellId) (w : Datum) (s : Store) :
    (resolveBy settle c w).after s = if (s.cell c).derived then s else (settle c w).after s := by
  unfold resolveBy
  by_cases hd : (s.cell c).derived = true <;> simp [after, hd]

theorem after_confirmBy (c : CellId) (w : Datum) (s : Store) :
    (confirmBy settle c w).after s =
      if (s.cell c).holds w then s else (resolveBy settle c w).after s := by
  unfold confirmBy
  by_cases hd : (s.cell c).holds w = true <;> simp [after, hd]

theorem cascade_resolveBy (hs : Cascades settle n) {a : Action} {c : CellId} {v w : Datum}
    (ha : a.assigns? s v = some (c, w)) (hi : s.load ≤ s.issued) (h : s.load < n) :
    Cascade s [.act a v] ((resolveBy settle c w).after s) ∧
      ((resolveBy settle c w).after s).load ≤ s.load := by
  rw [after_resolveBy]
  by_cases hd : (s.cell c).derived = true
  · rw [if_pos hd]
    exact ⟨.done (.refuse trivial), le_rfl⟩
  · rw [if_neg hd]
    obtain ⟨hc, hl⟩ := hs c w s hi h
    exact ⟨.single (.assign ha (by simpa using hd)) hc, hl⟩

theorem cascade_confirmBy (hs : Cascades settle n) {a : Action} {c : CellId} {v w : Datum}
    (ha : a.assigns? s v = some (c, w)) (hi : s.load ≤ s.issued) (h : s.load < n) :
    Cascade s [.act a v] ((confirmBy settle c w).after s) ∧
      ((confirmBy settle c w).after s).load ≤ s.load := by
  rw [after_confirmBy]
  split_ifs
  · exact ⟨.done (.refuse trivial), le_rfl⟩
  · exact cascade_resolveBy hs ha hi h

theorem cascade_runAction (hs : Cascades settle n) (a : Action) (v : Datum) (s : Store)
    (hi : s.load ≤ s.issued) (h : s.load + a.weight < n) :
    Cascade s [.act a v] ((runAction settle a v).after s) ∧
      ((runAction settle a v).after s).load ≤ s.load + a.weight := by
  induction a generalizing v s with
  | done => exact ⟨.done (.refuse trivial), Nat.le_add_right ..⟩
  | log tag => exact ⟨.done (.log _), Nat.le_add_right s.load _⟩
  | fail e => exact ⟨.done (.refuse trivial), Nat.le_add_right ..⟩
  | forward t =>
    simp only [runAction, after_bind, get_run]
    cases hf : s.find? t with
    | none => exact ⟨.done (.refuse trivial), Nat.le_add_right ..⟩
    | some c =>
      have ha : (Action.forward t).assigns? s v = some (c, v) := by simp [Action.assigns?, hf]
      obtain ⟨hc, hl⟩ := cascade_resolveBy hs ha hi (by omega)
      exact ⟨hc, hl.trans (Nat.le_add_right ..)⟩
  | resolve t w =>
    simp only [runAction, after_bind, get_run]
    cases hf : s.find? t with
    | none => exact ⟨.done (.refuse trivial), Nat.le_add_right ..⟩
    | some c =>
      simp only [after_bind, kindOf_run]
      cases hw : w.read (s.kind c) with
      | none => exact ⟨.done (.refuse trivial), Nat.le_add_right ..⟩
      | some x =>
        have ha : (Action.resolve t w).assigns? s v = some (c, x) := by
          simp [Action.assigns?, hf, hw]
        obtain ⟨hc, hl⟩ := cascade_resolveBy hs ha hi (by omega)
        exact ⟨hc, hl.trans (Nat.le_add_right ..)⟩
  | confirm t w =>
    simp only [runAction, after_bind, get_run]
    cases hf : s.find? t with
    | none => exact ⟨.done (.refuse trivial), Nat.le_add_right ..⟩
    | some c =>
      simp only [after_bind, kindOf_run]
      cases hw : w.read (s.kind c) with
      | none => exact ⟨.done (.refuse trivial), Nat.le_add_right ..⟩
      | some x =>
        have ha : (Action.confirm t w).assigns? s v = some (c, x) := by
          simp [Action.assigns?, hf, hw]
        obtain ⟨hc, hl⟩ := cascade_confirmBy hs ha hi (by omega)
        exact ⟨hc, hl.trans (Nat.le_add_right ..)⟩
  | unresolve t =>
    simp only [runAction, after_bind, get_run]
    cases hf : s.find? t with
    | none => exact ⟨.done (.refuse trivial), Nat.le_add_right ..⟩
    | some c =>
      refine ⟨.done (.unresolve hf), ?_⟩
      change (s.cleared c).load ≤ _
      simp
  | watch t a ih =>
    simp only [runAction, after_bind, get_run]
    cases hf : s.find? t with
    | none => exact ⟨.done (.refuse trivial), Nat.le_add_right ..⟩
    | some c =>
      simp only [after_bind, valueOf_run]
      cases hw : s.value? c with
      | none =>
        refine ⟨.done (.watchLater hf hw), ?_⟩
        have := load_enqueue_le s c (.act a)
        change (s.enqueue c (.act a)).load ≤ _
        simp only [Subscriber.weight, Action.weight] at this ⊢
        omega
      | some w =>
        simp only [Action.weight] at h ⊢
        obtain ⟨hc, hl⟩ := ih w s hi (by omega)
        exact ⟨.single (.watch hf hw) hc, by omega⟩
  | unsubscribe name =>
    simp only [runAction, after_bind, get_run]
    cases hn : s.subscriptions.lookup name with
    | none => exact ⟨.done (.log _), Nat.le_add_right s.load _⟩
    | some sub =>
      refine ⟨.done (.unsubscribe hn _), ?_⟩
      exact (load_withdrawn_le s sub.cell sub.id).trans (Nat.le_add_right ..)
  | andThen a b iha ihb =>
    simp only [Action.weight] at h ⊢
    obtain ⟨hc, hl⟩ := iha v s hi (by omega)
    simp only [runAction, after_bind]
    unfold after at hc hl
    cases hr : runAction settle a v s with
    | ok _ t =>
      simp only [hr] at hc hl
      obtain ⟨hc', hl'⟩ := ihb v t (hc.load_le hi) (by omega)
      exact ⟨.single .andThen (hc.append hc'), by simp only; omega⟩
    | error e t =>
      simp only [hr] at hc hl
      exact ⟨.single .andThen (hc.append (.done (.refuse trivial))), by simp only; omega⟩

theorem tryMap_run (source : CellId) (kind : Kind) (f : Datum → Except Error Datum) (s : Store) :
    tryMap source kind f s = match s.value? source with
      | some v => match f v with
        | .ok w => .ok s.cells.size (s.newDerived kind (some w))
        | .error e => .error e s
      | none =>
        .ok s.cells.size ((s.newDerived kind none).enqueue source (.derive s.cells.size f)) := by
  simp only [tryMap, bind_run, valueOf_run]
  cases s.value? source with
  | none => simp [newDerived]
  | some v => cases hf : f v <;> simp [hf, newDerived]

theorem after_connect (inner target : CellId) (s : Store) :
    (connect settle inner target).after s = match s.value? inner with
      | some v => (settle target v).after s
      | none => s.enqueue inner (.derive target .ok) := by
  simp only [connect, after_bind, valueOf_run]
  cases s.value? inner <;> simp [after]

theorem cascade_runSubscriber (hs : Cascades settle n) (source : CellId) (sub : Subscriber)
    (v : Datum) (s : Store) (hi : s.load ≤ s.issued) (h : s.load + sub.weight ≤ n) :
    Cascade s [.notify source sub v] ((runSubscriber settle sub v).after s) ∧
      ((runSubscriber settle sub v).after s).load ≤ s.load + sub.weight := by
  cases sub with
  | derive target f =>
    simp only [Subscriber.weight, runSubscriber, after_bind] at h ⊢
    cases hf : f v with
    | error e => exact ⟨.done (.refuse ⟨e, hf⟩), Nat.le_add_right ..⟩
    | ok w =>
      obtain ⟨hc, hl⟩ := hs target w s hi (by omega)
      exact ⟨.single (.derive hf) hc, hl.trans (Nat.le_add_right ..)⟩
  | follow target choose =>
    simp only [Subscriber.weight, runSubscriber, after_bind] at h ⊢
    cases hf : choose v with
    | error e => exact ⟨.done (.refuse ⟨e, hf⟩), Nat.le_add_right ..⟩
    | ok inner =>
      simp only [ofExcept_ok_run, after_connect]
      cases hw : s.value? inner with
      | none =>
        have := load_enqueue_le s inner (.derive target .ok)
        simp only [Subscriber.weight] at this
        exact ⟨.done (.followLater hf hw), by simp only; omega⟩
      | some w =>
        obtain ⟨hc, hl⟩ := hs target w s hi (by omega)
        exact ⟨.single (.follow hf hw) hc, hl.trans (Nat.le_add_right ..)⟩
  | minus target kind subtrahend =>
    simp only [Subscriber.weight, runSubscriber, after_bind, tryMap_run] at h ⊢
    cases hy : s.value? subtrahend with
    | none =>
      -- The new cell waits for the subtrahend, and the target for the new cell.
      let t := (s.newDerived (.int kind) none).enqueue subtrahend
        (.derive s.cells.size (Datum.difference kind v))
      have hn : t.value? s.cells.size = none := by simp [t, value?_newDerived]
      have h₁ : t.load ≤ s.load + 1 := by
        simpa [Subscriber.weight] using load_enqueue_le (s.newDerived (.int kind) none) subtrahend
          (.derive s.cells.size (Datum.difference kind v))
      have h₂ := load_enqueue_le t s.cells.size (.derive target .ok)
      simp only [Subscriber.weight] at h₂
      change Cascade s _ ((connect settle s.cells.size target).after t) ∧
        ((connect settle s.cells.size target).after t).load ≤ _
      simp only [after_connect, hn]
      exact ⟨.done (.minusLater hy), by omega⟩
    | some y =>
      cases hd : Datum.difference kind v y with
      | error e =>
        simp only [hd]
        exact ⟨.done (.refuse ⟨y, e, hy, hd⟩), Nat.le_add_right ..⟩
      | ok w =>
        have hn : (s.newDerived (.int kind) (some w)).value? s.cells.size = some w := by
          simp [value?_newDerived]
        obtain ⟨hc, hl⟩ := hs target w (s.newDerived (.int kind) (some w))
          ((load_newDerived ..).le.trans hi) (by
            rw [load_newDerived]
            omega)
        rw [load_newDerived] at hl
        simp only [hd, after_connect, hn]
        exact ⟨.single (.minus hy hd) hc, by omega⟩
  | patch field =>
    obtain ⟨hc, hl⟩ := cascade_patch s source field v
    exact ⟨hc, hl.le.trans (Nat.le_add_right ..)⟩
  | act a =>
    simp only [Subscriber.weight] at h ⊢
    obtain ⟨hc, hl⟩ := cascade_runAction hs a v s hi (by omega)
    exact ⟨.single .start hc, hl.trans (by omega)⟩

theorem cascade_runQueue (hs : Cascades settle n) (source : CellId) (v : Datum)
    (queue : List (Nat × Subscriber)) (s : Store)
    (hi : s.load ≤ s.issued) (h : s.load + (queue.map fun q => q.2.weight).sum ≤ n) :
    Cascade s (queue.map fun q => .notify source q.2 v) ((runQueue settle queue v).after s) ∧
      ((runQueue settle queue v).after s).load ≤
        s.load + (queue.map fun q => q.2.weight).sum := by
  induction queue generalizing s with
  | nil => exact ⟨.nil s, Nat.le_add_right ..⟩
  | cons q queue ih =>
    simp only [List.map_cons, List.sum_cons] at h ⊢
    obtain ⟨hc, hl⟩ := cascade_runSubscriber hs source q.2 v s hi (by omega)
    have hrun : (runQueue settle (q :: queue) v).after s =
        (runQueue settle queue v).after ((runSubscriber settle q.2 v).after s) := by
      simp only [runQueue, after_bind, failures]
      unfold after
      cases runSubscriber settle q.2 v s <;> simp
    rw [hrun]
    obtain ⟨hc', hl'⟩ := ih ((runSubscriber settle q.2 v).after s) (hc.load_le hi) (by omega)
    exact ⟨hc.append hc', by omega⟩

theorem cascades_settleWithin (n : Nat) : Cascades (settleWithin n) n := by
  induction n with
  | zero => exact fun _ _ _ _ h => absurd h (Nat.not_lt_zero _)
  | succ n ih =>
    intro c v s hi h
    simp only [settleWithin, after_bind, valueOf_run, fire]
    cases hv : s.value? c with
    | some w => exact ⟨.nil s, le_rfl⟩
    | none =>
      have hl := load_delivered s c v
      obtain ⟨hc, hl'⟩ := cascade_runQueue ih c v (s.cell c).queue (s.delivered c v)
        (Nat.le_trans (by omega) hi) (by
        simp only [Cell.total] at hl
        omega)
      have hrun : (do
          let waiting ← deliver c v
          Failable.raise (← runQueue (settleWithin n) waiting v) : Op Unit).after s =
            (runQueue (settleWithin n) (s.cell c).queue v).after (s.delivered c v) := by
        simp only [after_bind, deliver_run, after_raise]
        unfold after
        cases runQueue (settleWithin n) (s.cell c).queue v (s.delivered c v) <;> rfl
      rw [hrun]
      exact ⟨hc, hl'.trans hl.le⟩

/-- Settling a cell is a cascade: the bound with which it starts is never reached. -/
theorem cascades_settle (n : Nat) : Cascades Store.settle n :=
  fun c v s hi _ => cascades_settleWithin (s.issued + 1) c v s hi (by omega)

end Store

end Backpatch
