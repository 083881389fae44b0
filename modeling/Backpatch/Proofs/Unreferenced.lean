import Mathlib
import Backpatch.Proofs.Programs
import Backpatch.Proofs.Queues

/-!
# Cells that nothing refers to

A cell that the library makes on the way is known to nobody but the subscribers that are going to
settle it. As long as these stay in their queues, nothing that others do can change it
(`Unreferenced.cascade`). And if a pending cell has lost all those who could settle it, then it
stays pending for good: whoever settles one of its kind waits for another one (`Unsettleable`).
-/

namespace Backpatch

open Store Failable

/-! ## Serving a queue -/

/-- The subscribers of `c`, as tasks that run with the value `v`. -/
def notices (c : CellId) (v : Datum) (waiting : List (Nat × Subscriber)) : List Task :=
  waiting.map fun q => .notify c q.2 v

/-- The store after a subscriber that ran with `v`. -/
def Serving.finish (v : Datum) (x : Serving) : Store :=
  (runSubscriber settle x.subscriber v).after x.start

section Serving

variable {s u : Store} {c : CellId} {v : Datum} {sub : Subscriber} {k : List Task}
  {waiting : List (Nat × Subscriber)}

theorem Store.servings_append (v : Datum) (waiting others : List (Nat × Subscriber)) (s : Store) :
    servings v (waiting ++ others) s =
      servings v waiting s ++ servings v others (served v waiting s) := by
  induction waiting generalizing s with
  | nil => rfl
  | cons q rest ih => simp [servings, served, ih]

theorem Store.served_append (v : Datum) (waiting others : List (Nat × Subscriber)) (s : Store) :
    served v (waiting ++ others) s = served v others (served v waiting s) :=
  List.foldl_append

namespace Maintained

theorem serve (h : Maintained u (.notify c sub v :: k)) :
    Cascade u [.notify c sub v] ((runSubscriber settle sub v).after u) ∧
      Maintained ((runSubscriber settle sub v).after u) k := by
  have hc := (cascade_runSubscriber (cascades_settle _) c sub v u h.valid.load le_rfl).1
  have htasks : Maintained u ([.notify c sub v] ++ k) := h
  exact ⟨hc, (htasks.cascade hc).1⟩

theorem grows_serve (h : Maintained u (.notify c sub v :: k)) :
    Grows u ((runSubscriber settle sub v).after u) :=
  h.serve.1.invariant (I := fun t _ => Grows u t) (fun hr hg => hg.trans hr.grows) (.refl u)

theorem served (h : Maintained u (notices c v waiting ++ k)) :
    Maintained (served v waiting u) k ∧ u.cells.size ≤ (Store.served v waiting u).cells.size := by
  induction waiting generalizing u with
  | nil => exact ⟨h, le_rfl⟩
  | cons q rest ih =>
    obtain ⟨hrest, hsize⟩ := ih (Maintained.serve h).2
    exact ⟨hrest, (Maintained.grows_serve h).cells.trans hsize⟩

theorem delivered (h : Maintained s []) (hc : c < s.cells.size)
    (hd : (s.cell c).derived = false) (hv : s.value? c = none) (v : Datum) :
    Maintained (s.delivered c v) (notices c v (s.cell c).queue) := by
  have hfire := (h.start (.resolve c v)).step (.move ⟨hc, hd⟩)
  simpa [Move.apply, fire, hv, notices] using hfire

theorem run_eq {account : List Incident} {errors : List Error} {t : Store} (h : Maintained u k)
    (hx : Executes u (.serve sub v) account errors t) :
    runSubscriber settle sub v u = report errors t := by
  have hexecuted :=
    executed_runSubscriber (faithful_settle _) (cascades_settle _) sub v u h.valid.load le_rfl
  exact hexecuted.unique ⟨account, errors, t, hx, rfl⟩

/-- A subscriber does what its execution says. -/
theorem failureOf_eq {account : List Incident} {errors : List Error} {t : Store}
    (h : Maintained u k) (hx : Executes u (.serve sub v) account errors t) :
    failureOf sub v u = errors.head? ∧ (runSubscriber settle sub v).after u = t := by
  have hrun := h.run_eq hx
  cases errors with
  | nil => exact ⟨by simp [failureOf, hrun, report], after_of_ok hrun⟩
  | cons e es => exact ⟨by simp [failureOf, hrun, report], after_of_error hrun⟩

/-- Resolving a pending cell runs its queue, and fails with what fails there. -/
theorem resolve_run (h : Maintained s []) (hd : (s.cell c).derived = false)
    (hv : s.value? c = none) (v : Datum) :
    resolve c v s = (raise ((servings v (s.cell c).queue (s.delivered c v)).filterMap
      Serving.failure) : Op Unit) (Store.served v (s.cell c).queue (s.delivered c v)) := by
  have hsettle : resolve c v s = settle c v s := by simp [resolve, resolveBy, hd]
  rw [hsettle, settle_run v h.valid.load hv, bind_run, runQueue_run]

theorem after_resolve (h : Maintained s []) (hd : (s.cell c).derived = false)
    (hv : s.value? c = none) (v : Datum) :
    (resolve c v).after s = Store.served v (s.cell c).queue (s.delivered c v) := by
  unfold after
  rw [h.resolve_run hd hv]
  exact after_raise ..

end Maintained

end Serving

/-! ## Unreferenced cells -/

/-- The content of `e` is `cell`, and nothing refers to `e`: no name, no subscription, no task that
is still to run, and no subscriber that waits for another cell, those in `own` apart. -/
structure Unreferenced (e : CellId) (cell : Cell) (own : List (CellId × Nat × Subscriber))
    (s : Store) (tasks : List Task) : Prop where
  same : s.cell e = cell
  unnamed : Unnamed e (e + 1) s
  queues : ∀ c, c ≠ e → ∀ q ∈ (s.cell c).queue, q.2.Spares e (e + 1) ∨ (c, q) ∈ own
  tasks : ∀ x ∈ tasks, x.Spares e (e + 1)

theorem outside_self {e c : Nat} : Outside e (e + 1) c ↔ c ≠ e := by
  unfold Outside
  omega

theorem Subscriber.Spares.target {sub : Subscriber} {e t : CellId} (h : sub.Spares e (e + 1))
    (ht : sub.target? = some t) : t ≠ e := by
  cases sub with
  | derive =>
    cases ht
    exact outside_self.1 h
  | follow | minus =>
    cases ht
    exact outside_self.1 h.1
  | patch | act => cases ht

namespace Unreferenced

variable {e c : CellId} {cell : Cell} {own own' : List (CellId × Nat × Subscriber)} {s t : Store}
  {sub : Subscriber} {v : Datum} {tasks tasks' k : List Task}

theorem lt_size (h : Unreferenced e cell own s tasks) : e < s.cells.size := h.unnamed.size

/-- A new cell is unreferenced, with the one subscriber that is made for it. -/
theorem made (hv : Valid s []) (hc : c < s.cells.size) (cell : Cell) (sub : Subscriber) :
    Unreferenced s.cells.size cell [(c, (s.cell c).next, sub)]
      ((s.addCell cell).enqueue c sub) [] where
  same := by
    rw [cell_enqueue, if_neg fun h => hc.ne' h.1, cell_addCell, if_pos rfl]
  unnamed :=
    ⟨by simp, fun p hp => .inl (hv.names p hp), fun p hp => .inl (hv.subscriptions p hp)⟩
  queues d hd q hq := by
    rw [cell_enqueue, cell_addCell, cell_addCell, if_neg hc.ne, if_neg hd] at hq
    split_ifs at hq with hdc
    · obtain ⟨rfl, -⟩ := hdc
      obtain hq | hq := List.mem_append.1 hq
      · exact .inl (hv.queues d q hq).spares
      · exact .inr (by rw [List.mem_singleton.1 hq]; exact .head _)
    · exact .inl (hv.queues d q hq).spares
  tasks := by simp

/-- Whoever is going to settle the cell is one of its own subscribers. -/
theorem mem_own {q : Nat × Subscriber} (h : Unreferenced e cell own s tasks) (hc : c ≠ e)
    (hq : q ∈ (s.cell c).queue) (htarget : q.2.target? = some e) : (c, q) ∈ own :=
  (h.queues c hc q hq).resolve_left fun hspares => hspares.target htarget rfl

theorem mono (h : Unreferenced e cell own s tasks) (hown : own ⊆ own')
    (htasks : ∀ x ∈ tasks', x.Spares e (e + 1)) : Unreferenced e cell own' s tasks' :=
  { h with
    queues := fun c hc q hq => (h.queues c hc q hq).imp_right fun hq => hown hq
    tasks := htasks }

theorem addCell (h : Unreferenced e cell own s tasks) (kind : Kind) (value : Option Datum)
    (derived : Bool) : Unreferenced e cell own (s.addCell { kind, value, derived }) tasks where
  same := by rw [cell_addCell, if_neg h.lt_size.ne, h.same]
  unnamed := ⟨h.unnamed.size.trans (by simp), h.unnamed.names, h.unnamed.subscriptions⟩
  queues c hc q hq := h.queues c hc q (mem_queue_addCell s c hq)
  tasks := h.tasks

/-- A subscriber comes into the queue of another cell. -/
theorem enqueue (h : Unreferenced e cell own s tasks) (hc : c ≠ e)
    (hsub : sub.Spares e (e + 1) ∨ (c, (s.cell c).next, sub) ∈ own') (hown : own ⊆ own') :
    Unreferenced e cell own' (s.enqueue c sub) tasks where
  same := by rw [cell_enqueue, if_neg fun h => hc h.1.symm, h.same]
  unnamed := ⟨by simpa using h.unnamed.size, h.unnamed.names, h.unnamed.subscriptions⟩
  queues d hd q hq := by
    have old : q ∈ (s.cell d).queue → q.2.Spares e (e + 1) ∨ (d, q) ∈ own' :=
      fun hq => (h.queues d hd q hq).imp_right fun hq => hown hq
    rw [cell_enqueue] at hq
    split_ifs at hq with hdc
    · obtain ⟨rfl, -⟩ := hdc
      obtain hq | hq := List.mem_append.1 hq
      · exact old hq
      · rw [List.mem_singleton.1 hq]
        exact hsub
    · exact old hq
  tasks := h.tasks

/-- A subscriber comes into the queue of the cell itself. -/
theorem push (h : Unreferenced e cell own s tasks) (sub : Subscriber) :
    Unreferenced e (cell.push sub) own (s.enqueue e sub) tasks where
  same := by rw [cell_enqueue, if_pos ⟨rfl, h.lt_size⟩, h.same]
  unnamed := ⟨by simpa using h.unnamed.size, h.unnamed.names, h.unnamed.subscriptions⟩
  queues c hc q hq := by
    rw [cell_enqueue, if_neg fun h => hc h.1] at hq
    exact h.queues c hc q hq
  tasks := h.tasks

/-- Another cell gets its value. Those in its queue are no longer waiting. -/
theorem delivered (h : Unreferenced e cell own s tasks) (hc : c ≠ e) (v : Datum)
    (hown : ∀ p ∈ own, p.1 = c ∨ p ∈ own') : Unreferenced e cell own' (s.delivered c v) tasks where
  same := by rw [cell_delivered, if_neg fun h => hc h.1.symm, h.same]
  unnamed := ⟨by simpa using h.unnamed.size, h.unnamed.names, h.unnamed.subscriptions⟩
  queues d hd q hq := by
    rw [cell_delivered] at hq
    split_ifs at hq with hdc
    · cases hq
    · obtain hspares | hmem := h.queues d hd q hq
      · exact .inl hspares
      · obtain rfl | hmem := hown _ hmem
        · by_cases hlt : d < s.cells.size
          · exact absurd ⟨rfl, hlt⟩ hdc
          · simp [cell_of_size_le s d (Nat.not_lt.1 hlt)] at hq
        · exact .inr hmem
  tasks := h.tasks

/-- The others in the queue of another cell do not refer to the cell. -/
theorem spares_notices {waiting : List (Nat × Subscriber)} (h : Unreferenced e cell own s tasks)
    (hc : c ≠ e) (hw : ∀ q ∈ waiting, q ∈ (s.cell c).queue ∧ (c, q) ∉ own) :
    ∀ x ∈ notices c v waiting, x.Spares e (e + 1) := by
  intro x hx
  obtain ⟨q, hq, rfl⟩ := List.mem_map.1 hx
  obtain ⟨hq, hnot⟩ := hw q hq
  exact ⟨outside_self.2 hc, (h.queues c hc q hq).resolve_right hnot⟩

/-- The cell itself gets its value. -/
theorem settled (h : Unreferenced e cell own s tasks) (v : Datum) :
    Unreferenced e { cell with value := some v, queue := [] } own (s.delivered e v) tasks where
  same := by rw [cell_delivered, if_pos ⟨rfl, h.lt_size⟩, h.same]
  unnamed := ⟨by simpa using h.unnamed.size, h.unnamed.names, h.unnamed.subscriptions⟩
  queues c hc q hq := by
    rw [cell_delivered, if_neg fun h => hc h.1] at hq
    exact h.queues c hc q hq
  tasks := h.tasks

/-- What others set off leaves an unreferenced cell as it is, provided that those who are made to
settle it are still waiting in the end. -/
theorem cascade (h : Unreferenced e cell own s (tasks ++ k)) (hm : Maintained s (tasks ++ tasks'))
    (hc : Cascade s tasks t) (hstay : ∀ p ∈ own, p.2 ∈ (t.cell p.1).queue) :
    Unreferenced e cell own t k := by
  induction hc with
  | nil => exact h
  | @cons s task u ts rest t hr hrest ih =>
    have htask := h.tasks task (.head _)
    have hspared := hr.spared h.unnamed htask
    have hu : Maintained u ((ts ++ rest) ++ tasks') := List.append_assoc .. ▸ hm.step hr
    refine ih ⟨?_, h.unnamed.step hr htask, fun c hc q hq => ?_, fun x hx => ?_⟩ hu hstay
    · exact (hspared.cells e le_rfl (Nat.lt_succ_self e)).trans h.same
    · exact (hspared.queues c q hq).elim (h.queues c hc q) .inl
    · obtain hx | hx := List.mem_append.1 (List.append_assoc .. ▸ hx)
      · refine hr.spares h.unnamed htask (fun c v hc q hq hset => ?_) x hx
        obtain hspares | hmem := h.queues c (outside_self.1 hc) q hq
        · exact hspares
        · -- A subscriber that runs has left its queue, and never comes back under its number.
          have hstays := hstay _ hmem
          have hrenews := (hu.cascade hrest).2 c
          have hlt := (hm.numbered.fresh c q hq).trans_le (Renews.step hm.valid hr c).1
          have hqueue := hrenews.2 q hstays hlt
          rw [hu.vacant c v (hr.notified hset).2] at hqueue
          cases hqueue
      · exact h.tasks x (.tail _ hx)

/-- A subscriber of another cell runs. -/
theorem serve (h : Unreferenced e cell own s (.notify c sub v :: k))
    (hm : Maintained s (.notify c sub v :: tasks'))
    (hstay : ∀ p ∈ own, p.2 ∈ (((runSubscriber settle sub v).after s).cell p.1).queue) :
    Unreferenced e cell own ((runSubscriber settle sub v).after s) k := by
  have htasks : Unreferenced e cell own s ([.notify c sub v] ++ k) := h
  exact htasks.cascade hm hm.serve.1 hstay

/-- An unreferenced cell for which nobody waits is settled, and that is all. -/
theorem executes_settle (h : Unreferenced e cell own s tasks) (hv : cell.value = none)
    (hqueue : cell.queue = []) (v : Datum) : Executes s (.settle e v) [] [] (s.delivered e v) := by
  have hpending : s.value? e = none := by rw [value?, h.same, hv]
  have hnil : Executes (s.delivered e v) (.queue e (s.cell e).queue v) [] [] (s.delivered e v) := by
    rw [h.same, hqueue]
    exact .nil
  exact .settle hpending hnil

end Unreferenced

/-! ## Cells that cannot be settled any more -/

/-- The cells in `O` are pending and derived, and none of them can get a value from a subscriber:
whoever is going to settle one of them waits for one of them. -/
structure Unsettleable (O : CellId → Prop) (s : Store) (tasks : List Task) : Prop where
  exist : ∀ t, O t → t < s.cells.size
  derived : ∀ t, O t → (s.cell t).derived = true
  pending : ∀ t, O t → s.value? t = none
  waiting : ∀ c, ∀ q ∈ (s.cell c).queue, ∀ t, q.2.target? = some t → O t → O c
  running : ∀ c sub v t, .notify c sub v ∈ tasks → sub.target? = some t → ¬ O t

/-- The move does not settle a cell in `O` directly. -/
def Move.Bypasses (O : CellId → Prop) : Move → Prop
  | .settle c _ => ¬ O c
  | _ => True

namespace Unsettleable

variable {O : CellId → Prop} {s u : Store} {task : Task} {ts k tasks : List Task}

/-- Unreferenced cells whose own subscribers wait for one another. -/
theorem of_unreferenced (h : ∀ t, O t → ∃ cell own, Unreferenced t cell own s [] ∧
    cell.derived = true ∧ cell.value = none ∧ ∀ p ∈ own, O p.1) : Unsettleable O s [] := by
  refine ⟨fun t ht => ?_, fun t ht => ?_, fun t ht => ?_, fun c q hq t htarget ht => ?_, by simp⟩
  all_goals obtain ⟨cell, own, hunref, hderived, hvalue, hown⟩ := h t ht
  · exact hunref.lt_size
  · rw [hunref.same, hderived]
  · rw [value?, hunref.same, hvalue]
  · by_cases hc : c = t
    · exact hc ▸ ht
    · exact hown _ (hunref.mem_own hc hq htarget)

theorem start (h : Unsettleable O s []) (m : Move) : Unsettleable O s [.move m] :=
  { h with running := by simp }

theorem step (hv : Valid s (task :: k)) (hr : Reacts s task u ts)
    (hm : ∀ c v, task = .move (.settle c v) → ¬ O c) (h : Unsettleable O s (task :: k)) :
    Unsettleable O u (ts ++ k) := by
  have hpending : ∀ t, O t → u.value? t = none := by
    intro t ht
    obtain hsame | hnone | ⟨c, sub, v, w, rfl, htarget, -⟩ := hr.value?_changes (h.exist t ht)
      (h.derived t ht) fun v htask => hm t v htask ht
    · exact hsame.trans (h.pending t ht)
    · exact hnone
    · exact absurd ht (h.running c sub v t (.head k) htarget)
  refine ⟨fun t ht => (h.exist t ht).trans_le hr.grows.cells,
    fun t ht => (hr.grows.derived t (h.exist t ht)).trans (h.derived t ht), hpending, ?_, ?_⟩
  · intro c q hq t htarget ht
    obtain hthin | ⟨sub, hsub, -, hpush⟩ := hr.queue_cases hv c
    · exact h.waiting c q (hthin.1 hq) t htarget ht
    · rw [hpush.1] at hq
      obtain hq | hq := List.mem_append.1 hq
      · exact h.waiting c q hq t htarget ht
      · -- A new subscriber of `t` takes over from one that is running.
        rw [List.mem_singleton.1 hq] at htarget
        obtain ⟨-, c', v, ⟨choose, rfl, -⟩ | ⟨kind, b, rfl, -⟩⟩ :=
          hr.queues_target hsub htarget (h.exist t ht)
        · exact absurd ht (h.running c' _ v t (.head k) rfl)
        · exact absurd ht (h.running c' _ v t (.head k) rfl)
  · intro c sub v t hx htarget ht
    obtain hx | hx := List.mem_append.1 hx
    · obtain ⟨⟨q, hq, rfl⟩, hvalue⟩ := hr.notified hx
      rw [hpending c (h.waiting c q hq t htarget ht)] at hvalue
      cases hvalue
    · exact h.running c sub v t (.tail _ hx) htarget ht

theorem visits {P : Move → Prop} (hvisits : Visits P s u tasks) (hP : ∀ m, P m → m.Bypasses O)
    (hv : Valid s []) (h : Unsettleable O s []) : Valid u tasks ∧ Unsettleable O u tasks := by
  have hi := hvisits.invariant (I := fun u tasks => Valid u tasks ∧ Unsettleable O u tasks ∧
      ∀ m, .move m ∈ tasks → m.Bypasses O)
    ⟨hv, h, by simp⟩ (fun hm hi => ⟨hi.1.start _, hi.2.1.start _, by simpa using hP _ hm⟩)
    (fun {u task v ts k} hr hi => by
      obtain ⟨hv, ho, hmoves⟩ := hi
      refine ⟨Valid.step hr hv, ho.step hv hr ?_, fun m hm => hmoves m (hr.move_mem hm)⟩
      rintro c w rfl
      exact hmoves _ (.head k))
  exact ⟨hi.1, hi.2.1⟩

theorem passes {S : CellId → Prop} {n : Nat} (hpasses : Passes S s n u tasks)
    (hS : ∀ c, S c → ¬ O c) (hv : Valid s []) (h : Unsettleable O s []) :
    Unsettleable O u tasks := by
  obtain ⟨v, rfl, hmade, hrest⟩ := hpasses
  have hprepares : ∀ m : Move, m.Prepares → m.Bypasses O := by
    intro m hm
    cases m with
    | settle => exact hm.elim
    | _ => trivial
  obtain ⟨hvalid, hmid⟩ := h.visits hmade hprepares hv
  refine (hmid.visits hrest (fun m hm => ?_) hvalid).2
  cases m with
  | settle c w =>
    obtain hc | ⟨hc, -⟩ := hm
    · exact hS c hc
    · exact fun ho => absurd (h.exist c ho) (Nat.not_lt.2 hc)
  | _ => trivial

end Unsettleable

section Programs

variable {O S T : CellId → Prop} {s u : Store} {use : Use} {uses : List Use}
  {held held' : List CellId}

/-- A use that takes a value back, now or in a callback, settles nothing and returns no cell. -/
theorem Use.of_not_lasting (hv : Valid s []) (ha : use.Admissible s) (hl : ¬ use.Lasting) :
    Steps (Move.Bypasses O) s (use.run.after s) ∧ use.hands s = [] := by
  cases use with
  | write => exact absurd trivial hl
  | call c =>
    have hcauses := Call.causes hv ha
    cases c with
    | unresolve c =>
      refine ⟨hcauses.mono fun m hm => ?_, rfl⟩
      rw [show m = _ from hm]
      trivial
    | onResolve c a =>
      refine ⟨hcauses.mono fun m hm => ?_, rfl⟩
      obtain rfl | ⟨v, rfl⟩ := hm
      · trivial
      · trivial
    | _ => exact absurd trivial hl

theorem Use.unsettleable (hv : Valid s []) (ha : use.Admissible s) (hm : use.Marks S)
    (hS : ∀ c, S c → ¬ O c) (h : Unsettleable O s []) : Unsettleable O (use.run.after s) [] := by
  by_cases hl : use.Lasting
  · obtain ⟨n, hpasses, -⟩ := use.passes hv ha hl hm
    exact h.passes hpasses hS hv
  · exact (h.visits (use.of_not_lasting hv ha hl).1.visits (fun _ hm => hm) hv).2

/-- The cells that a use returns are new. -/
theorem Use.hands_new (hv : Valid s []) (ha : use.Admissible s) (hm : use.Marks S) :
    ∀ c ∈ use.hands s, s.cells.size ≤ c ∧ c < (use.run.after s).cells.size := by
  intro c hc
  by_cases hl : use.Lasting
  · obtain ⟨n, ⟨v, rfl, -, hrest⟩, hnew⟩ := use.passes hv ha hl hm
    exact ⟨(hnew c hc).1, (hnew c hc).2.trans_le hrest.grows.cells⟩
  · rw [(use.of_not_lasting (O := fun _ => True) hv ha hl).2] at hc
    cases hc

theorem Use.steps (hv : Valid s []) (ha : use.Admissible s) :
    Steps (fun _ => True) s (use.run.after s) := by
  cases use with
  | call c => exact (Call.steps hv ha).mono fun _ _ => trivial
  | write r instruction =>
    rw [Use.run, after_discard]
    exact (steps_writeInstruction r ha).mono fun _ _ => trivial

/-- All cells that the caller holds exist. -/
theorem Program.maintained (h : Program held s uses held' u) (hs : Maintained s [])
    (hheld : ∀ c ∈ held, c < s.cells.size) : Maintained u [] ∧ ∀ c ∈ held', c < u.cells.size := by
  induction h with
  | nil => exact ⟨hs, hheld⟩
  | cons ha hm _ ih =>
    have hsteps := Use.steps hs.valid ha
    refine ih (hs.steps hsteps).1 fun c hc => ?_
    obtain hc | hc := List.mem_append.1 hc
    · exact (Use.hands_new hs.valid ha hm c hc).2
    · exact (hheld c hc).trans_le hsteps.grows.cells

/-- Unsettleable cells stay pending along a program, if the caller holds none of them, or marks none
of those held. -/
theorem Program.unsettleable (h : Program held s uses held' u) (hv : Valid s [])
    (hheld : ∀ c ∈ held, O c → T c) (hT : ∀ use ∈ uses, use.Marks (¬ T ·))
    (ho : Unsettleable O s []) : Unsettleable O u [] := by
  induction h with
  | nil => exact ho
  | @cons held held' s use uses t ha hm _ ih =>
    have hmarks : use.Marks fun c => c ∈ held ∧ ¬ T c :=
      hm.and_mono (hT use (.head _)) fun _ h g => ⟨h, g⟩
    refine ih ((Use.steps hv ha).valid hv) (fun c hc hoc => ?_)
      (fun use huse => hT use (.tail _ huse))
      (Use.unsettleable hv ha hmarks (fun c hc hoc => hc.2 (hheld c hc.1 hoc)) ho)
    obtain hc | hc := List.mem_append.1 hc
    · exact absurd (ho.exist c hoc) (Nat.not_lt.2 (Use.hands_new hv ha hm c hc).1)
    · exact hheld c hc hoc

end Programs

end Backpatch
