import Mathlib
import Backpatch.Proofs.Execution
import Backpatch.Proofs.Traces

/-!
# Dispatch

When a pending cell gets its value, its subscribers run one after another, in the order of their
numbers and thus in the order in which they came. Whatever they do, none of them runs a second time:
who comes into the queue later has a later number (`Executes.later`). Their failures are reported
together, and if no callback makes aggregates of its own, the report is flat
(`Executes.raisesPlain`).
-/

namespace Backpatch

open Store Failable

/-! ## The order of a queue -/

/-- Numbers are positive, and they stand in a queue in the order in which they were given out. -/
structure Ordered (s : Store) : Prop where
  next : ∀ c, 0 < (s.cell c).next
  positive : ∀ c, ∀ q ∈ (s.cell c).queue, 0 < q.1
  increasing : ∀ c, (s.cell c).queue.Pairwise fun p q => p.1 < q.1

section Ordered

variable {s t : Store} {task : Task} {ts k : List Task}

theorem Ordered.empty : Ordered {} where
  next c := by simp [Store.cell]
  positive c q hq := by simp [Store.cell] at hq
  increasing c := by simp [Store.cell]

theorem Ordered.step (hv : Valid s (task :: k)) (hn : Numbered s) (hr : Reacts s task t ts)
    (h : Ordered s) : Ordered t where
  next c := by
    obtain hthin | ⟨sub, -, -, hpush⟩ := hr.queue_cases hv c
    · exact hthin.2 ▸ h.next c
    · exact hpush.2 ▸ Nat.succ_pos _
  positive c q hq := by
    obtain hthin | ⟨sub, -, -, hpush⟩ := hr.queue_cases hv c
    · exact h.positive c q (hthin.1 hq)
    · rw [hpush.1] at hq
      obtain hq | hq := List.mem_append.1 hq
      · exact h.positive c q hq
      · rw [List.mem_singleton.1 hq]
        exact h.next c
  increasing c := by
    obtain hsame | ⟨-, hempty⟩ | ⟨id, -, hless⟩ | ⟨sub, -, hmore⟩ := hr.queue_exact hv c
    · exact hsame ▸ h.increasing c
    · simp [hempty]
    · exact hless ▸ (h.increasing c).filter _
    · rw [hmore, List.pairwise_append]
      refine ⟨h.increasing c, List.pairwise_singleton .., fun p hp q hq => ?_⟩
      rw [List.mem_singleton.1 hq]
      exact hn.fresh c p hp

theorem Run.ordered {calls : List Call} (h : Run {} calls s) : Ordered s ∧ Numbered s :=
  ((h.steps (P := fun _ => True) Valid.empty fun _ _ _ _ => trivial).invariant
    (I := fun s tasks => Valid s tasks ∧ Ordered s ∧ Numbered s)
    (fun _ hi => ⟨hi.1.start _, hi.2⟩)
    (fun hr hi => ⟨Valid.step hr hi.1, hi.2.1.step hi.1 hi.2.2 hr, hi.2.2.step hi.1 hr⟩)
    ⟨Valid.empty, .empty, .empty⟩).2

end Ordered

/-! ## Nobody runs twice -/

/-- Who waits for `c`, now or later, has a number from `n` on. -/
def Above (c : CellId) (n : Nat) (s : Store) : Prop :=
  (∀ q ∈ (s.cell c).queue, n ≤ q.1) ∧ n ≤ (s.cell c).next

/-- The subscriber did not wait for `c` under a number below `n`. -/
def Incident.Later (c : CellId) (n : Nat) : Incident → Prop
  | .served d id _ _ => d = c → id = 0 ∨ n ≤ id
  | .raised _ => True

/-- The job of a queue other than that of `c`, or of numbers from `n` on. -/
def Job.Later (c : CellId) (n : Nat) : Job → Prop
  | .queue d waiting _ => d = c → ∀ q ∈ waiting, n ≤ q.1
  | .settle .. | .serve .. | .act .. => True

section Later

variable {s t : Store} {c : CellId} {n : Nat} {job : Job} {account : List Incident}
  {errors : List Error}

theorem Above.of_cells (h : Above c n s) (hcells : t.cells = s.cells) : Above c n t := by
  unfold Above Store.cell at *
  rwa [hcells]

theorem Above.thins (h : Above c n s) (ht : s.Thins t c) : Above c n t :=
  ⟨fun q hq => h.1 q (ht.1 hq), ht.2 ▸ h.2⟩

theorem Above.enqueue (h : Above c n s) (d : CellId) (sub : Subscriber) :
    Above c n (s.enqueue d sub) := by
  unfold Above
  rw [cell_enqueue]
  split_ifs with hd
  · obtain ⟨rfl, -⟩ := hd
    refine ⟨fun q hq => ?_, h.2.trans (Nat.le_succ _)⟩
    obtain hq | hq := List.mem_append.1 hq
    · exact h.1 q hq
    · rw [List.mem_singleton.1 hq]
      exact h.2
  · exact h

theorem Above.effect (h : Above c n s) (he : job.effect? s = some t) : Above c n t := by
  cases job with
  | settle | queue => simp [Job.effect?] at he
  | serve =>
    obtain hcells | ⟨target, choose, inner, -, rfl⟩ | ⟨target, kind, subtrahend, -, rfl⟩ :=
      Subscriber.effect?_cases he
    · exact h.of_cells hcells
    · exact h.enqueue inner _
    · exact ((h.thins (.newDerived s _ none c)).enqueue subtrahend _).enqueue _ _
  | act =>
    obtain hcells | ⟨target, b, d, -, rfl⟩ | ⟨d, rfl⟩ | ⟨d, id, entry, rfl⟩ :=
      Action.effect?_cases he
    · exact h.of_cells hcells
    · exact h.enqueue d _
    · exact h.thins (.cleared s d c)
    · exact (h.thins (.withdrawn s d id c)).of_cells rfl

/-- Who runs in a nested dispatch came into the queue later than those who ran before. -/
theorem Executes.later (h : Executes s job account errors t) (ha : Above c n s)
    (hj : job.Later c n) : Above c n t ∧ ∀ x ∈ account, x.Later c n := by
  induction h with
  | effect he => exact ⟨ha.effect he, by simp⟩
  | fault => exact ⟨ha, by simp [Incident.Later]⟩
  | @settle s _ d v _ _ _ _ ih =>
    refine ih (ha.thins (.delivered s d v c)) ?_
    rintro rfl
    exact ha.1
  | nil => exact ⟨ha, by simp⟩
  | cons _ _ ih ih' =>
    obtain ⟨ht, hfirst⟩ := ih ha trivial
    obtain ⟨hu, hrest⟩ := ih' ht fun hd q hq => hj hd q (.tail _ hq)
    refine ⟨hu, List.forall_mem_append.2 ⟨hfirst, List.forall_mem_cons.2 ⟨?_, hrest⟩⟩⟩
    exact fun hd => .inr (hj hd _ (.head _))
  | derive _ _ ih | callback _ ih | assign _ _ _ _ ih | halt _ ih => exact ih ha trivial
  | follow _ _ _ ih | watch _ _ _ ih =>
    obtain ⟨ht, haccount⟩ := ih ha trivial
    exact ⟨ht, List.forall_mem_append.2 ⟨haccount, List.forall_mem_singleton.2 fun _ => .inl rfl⟩⟩
  | @minus s _ _ _ _ _ _ _ _ _ _ _ _ ih =>
    obtain ⟨ht, haccount⟩ := ih (ha.thins (.newDerived s _ _ c)) trivial
    exact ⟨ht, List.forall_mem_append.2 ⟨haccount, List.forall_mem_singleton.2 fun _ => .inl rfl⟩⟩
  | andThen _ _ ih ih' =>
    obtain ⟨ht, hfirst⟩ := ih ha trivial
    obtain ⟨hu, hsecond⟩ := ih' ht trivial
    exact ⟨hu, List.forall_mem_append.2 ⟨hfirst, hsecond⟩⟩

end Later

/-! ## One after another -/

/-- A subscriber that ran, the store in which it started, and its failure. -/
structure Serving where
  number : Nat
  subscriber : Subscriber
  start : Store
  failure : Option Error

/-- The subscriber ended with the value `v` of the cell `c`. -/
def Serving.incident (c : CellId) (v : Datum) (x : Serving) : Incident :=
  .served c x.number v x.failure

/-- A subscriber ended that waited for `c` under a number below `n`. -/
def Incident.serves (c : CellId) (n : Nat) : Incident → Bool
  | .served d id _ _ => d == c && 0 < id && id < n
  | .raised _ => false

namespace Store

/-- The failure of a subscriber that runs with `v`. -/
def failureOf (sub : Subscriber) (v : Datum) (s : Store) : Option Error :=
  match runSubscriber settle sub v s with
  | .ok .. => none
  | .error e _ => some e

/-- All subscribers of a list run with `v`, each in the store that the one before it left. -/
def servings (v : Datum) : List (Nat × Subscriber) → Store → List Serving
  | [], _ => []
  | (id, sub) :: rest, s =>
    ⟨id, sub, s, failureOf sub v s⟩ :: servings v rest ((runSubscriber settle sub v).after s)

/-- The store that they leave. -/
def served (v : Datum) (waiting : List (Nat × Subscriber)) (s : Store) : Store :=
  waiting.foldl (fun u q => (runSubscriber settle q.2 v).after u) s

theorem runQueue_run (v : Datum) (waiting : List (Nat × Subscriber)) (s : Store) :
    runQueue settle waiting v s =
      .ok ((servings v waiting s).filterMap Serving.failure) (served v waiting s) := by
  induction waiting generalizing s with
  | nil => rfl
  | cons q rest ih =>
    cases hr : runSubscriber settle q.2 v s with
    | ok _ t => simp [runQueue, failures, hr, ih, servings, served, failureOf, after]
    | error e t => simp [runQueue, failures, hr, ih, servings, served, failureOf, after]

end Store

section Once

variable {s t : Store} {c : CellId} {v : Datum} {n : Nat} {account : List Incident}
  {errors : List Error}

theorem filter_serves_of_later (h : ∀ x ∈ account, x.Later c n) :
    account.filter (·.serves c n) = [] := by
  refine List.filter_eq_nil_iff.2 fun x hx hserves => ?_
  cases x with
  | raised => simp [Incident.serves] at hserves
  | served d id v failure =>
    simp only [Incident.serves, Bool.and_eq_true, beq_iff_eq, decide_eq_true_eq] at hserves
    have := h _ hx hserves.1.1
    omega

/-- Of those who had a number below `n`, exactly the waiting ones run, once each and in order. -/
theorem Executes.filter_serves {waiting : List (Nat × Subscriber)}
    (h : Executes s (.queue c waiting v) account errors t) (hi : s.load ≤ s.issued)
    (ha : Above c n s) (hw : ∀ q ∈ waiting, 0 < q.1 ∧ q.1 < n) :
    account.filter (·.serves c n) = (servings v waiting s).map (·.incident c v) := by
  induction waiting generalizing s account errors with
  | nil =>
    cases h with
    | effect he => simp [Job.effect?] at he
    | fault hf => simp [Job.fault?] at hf
    | nil => rfl
  | cons q rest ih =>
    cases h with
    | effect he => simp [Job.effect?] at he
    | fault hf => simp [Job.fault?] at hf
    | @cons _ u _ _ id sub _ _ first others errors' _ hx hrest =>
      obtain ⟨hu, hlater⟩ := hx.later ha trivial
      obtain ⟨account', errors'', u', hx', hr⟩ := executed_runSubscriber (faithful_settle _)
        (cascades_settle _) sub v s hi le_rfl
      obtain ⟨-, rfl, rfl⟩ := hx.unique hx'
      have hcascade := (cascade_runSubscriber (cascades_settle _) c sub v s hi le_rfl).1
      have hrun : (runSubscriber Store.settle sub v).after s = u ∧
          failureOf sub v s = errors'.head? := by
        cases errors' with
        | nil => exact ⟨after_of_ok hr, by simp [failureOf, hr, report]⟩
        | cons e es => exact ⟨after_of_error hr, by simp [failureOf, hr, report]⟩
      rw [hrun.1] at hcascade
      have hserves : (Incident.served c id v errors'.head?).serves c n = true := by
        simpa [Incident.serves] using hw _ (.head _)
      rw [List.filter_append, List.filter_cons_of_pos hserves, filter_serves_of_later hlater,
        ih hrest (hcascade.load_le hi) hu fun q hq => hw q (.tail _ hq)]
      simp [servings, Serving.incident, hrun]

end Once

/-! ## Flat reports -/

/-- The action raises single failures only. -/
def Action.RaisesPlain : Action → Prop
  | .fail e => e.isPlain = true
  | .watch _ a => a.RaisesPlain
  | .andThen a b => a.RaisesPlain ∧ b.RaisesPlain
  | .done | .log _ | .forward _ | .resolve .. | .confirm .. | .unresolve _ | .unsubscribe _ => True

/-- The subscriber raises single failures only. -/
def Subscriber.RaisesPlain : Subscriber → Prop
  | .derive _ f => ∀ v e, f v = .error e → e.isPlain = true
  | .follow _ choose => ∀ v e, choose v = .error e → e.isPlain = true
  | .act a => a.RaisesPlain
  | .minus .. | .patch _ => True

def Store.RaisesPlain (s : Store) : Prop := ∀ c, ∀ q ∈ (s.cell c).queue, q.2.RaisesPlain

def Job.RaisesPlain : Job → Prop
  | .settle .. => True
  | .serve sub _ => sub.RaisesPlain
  | .act a _ => a.RaisesPlain
  | .queue _ waiting _ => ∀ q ∈ waiting, q.2.RaisesPlain

section RaisesPlain

variable {s t : Store} {job : Job} {account : List Incident} {errors : List Error} {e : Error}

theorem Store.RaisesPlain.thins (h : s.RaisesPlain) (ht : ∀ c, s.Thins t c) : t.RaisesPlain :=
  fun c q hq => h c q ((ht c).1 hq)

theorem Store.RaisesPlain.enqueue (h : s.RaisesPlain) (d : CellId) {sub : Subscriber}
    (hsub : sub.RaisesPlain) :
    (s.enqueue d sub).RaisesPlain := by
  intro c q hq
  obtain hq | ⟨-, hq⟩ := mem_queue_enqueue s d c sub hq
  · exact h c q hq
  · exact hq ▸ hsub

theorem Subscriber.RaisesPlain.derive_ok (target : CellId) :
    (Subscriber.derive target .ok).RaisesPlain :=
  fun _ _ h => by cases h

theorem Store.RaisesPlain.effect (h : s.RaisesPlain) (hj : job.RaisesPlain)
    (he : job.effect? s = some t) :
    t.RaisesPlain := by
  have same : ∀ {s t : Store}, s.RaisesPlain → t.cells = s.cells → t.RaisesPlain := by
    intro s t h hcells
    refine h.thins fun c => .of_cell_eq ?_
    rw [Store.cell, hcells, Store.cell]
  cases job with
  | settle | queue => simp [Job.effect?] at he
  | serve =>
    obtain hcells | ⟨target, choose, inner, -, rfl⟩ | ⟨target, kind, subtrahend, -, rfl⟩ :=
      Subscriber.effect?_cases he
    · exact same h hcells
    · exact h.enqueue inner (.derive_ok target)
    · refine ((h.thins fun c => .newDerived s _ none c).enqueue subtrahend ?_).enqueue _
        (.derive_ok target)
      exact fun v e he => Error.isPlain_of_parts (Datum.parts_of_difference he)
  | act =>
    obtain hcells | ⟨target, b, d, rfl, rfl⟩ | ⟨d, rfl⟩ | ⟨d, id, entry, rfl⟩ :=
      Action.effect?_cases he
    · exact same h hcells
    · exact h.enqueue d hj
    · exact h.thins fun c => .cleared s d c
    · exact same (h.thins fun c => .withdrawn s d id c) rfl

theorem Store.parts_of_patch {field : FieldId} {v : Datum}
    (h : Store.patch field v s = .error e t) : e.parts = [e] := by
  simp only [Store.patch, bind_run, get_run] at h
  cases hp : s.placeholders[field]? with
  | none => simp [hp] at h
  | some p =>
    cases he : p.format.encode v with
    | error e' =>
      simp only [hp, he, bind_run, ofExcept_error_run, EStateM.Result.error.injEq] at h
      exact h.1 ▸ FixedFormat.parts_of_encode_eq_error he
    | ok bs =>
      by_cases hr : p.offset + bs.length ≤ (s.image p.image).size
      · simp [hp, he, overwrite, Image.checkRange, hr] at h
      · simp only [hp, he, overwrite, Image.checkRange, if_neg hr, bind_run, get_run,
          ofExcept_ok_run, ofExcept_error_run, EStateM.Result.error.injEq] at h
        exact h.1 ▸ rfl

/-- What comes up is a single failure. -/
theorem Job.RaisesPlain.fault (hj : job.RaisesPlain) (hf : job.fault? s = some e) :
    e.isPlain = true := by
  cases job with
  | settle c v =>
    simp only [Job.fault?] at hf
    split at hf <;> cases hf
    rfl
  | queue => cases hf
  | serve sub v =>
    cases sub with
    | derive target f =>
      simp only [Job.fault?, Subscriber.fault?] at hf
      split at hf <;> cases hf
      next hfails => exact hj v e hfails
    | follow target choose =>
      simp only [Job.fault?, Subscriber.fault?] at hf
      split at hf <;> cases hf
      next hfails => exact hj v e hfails
    | minus target kind subtrahend =>
      simp only [Job.fault?, Subscriber.fault?] at hf
      split at hf
      · cases hf
      · split at hf <;> cases hf
        next hfails => exact Error.isPlain_of_parts (Datum.parts_of_difference hfails)
    | patch field =>
      simp only [Job.fault?, Subscriber.fault?] at hf
      split at hf <;> cases hf
      next hfails => exact Error.isPlain_of_parts (Store.parts_of_patch hfails)
    | act => cases hf
  | act a v =>
    cases a with
    | fail => exact Option.some.inj hf ▸ hj
    | _ =>
      simp only [Job.fault?, Action.fault?] at hf
      split at hf
      · cases hf
      · split_ifs at hf
        cases hf
        rfl

/-- Where no callback raises aggregates, all errors are flat. -/
theorem Executes.raisesPlain (h : Executes s job account errors t) (hs : s.RaisesPlain)
    (hj : job.RaisesPlain) :
    t.RaisesPlain ∧ ∀ e ∈ errors, e.Flat := by
  induction h with
  | effect he => exact ⟨hs.effect hj he, by simp⟩
  | fault hf =>
    exact ⟨hs, List.forall_mem_singleton.2 (.of_isPlain (hj.fault hf))⟩
  | @settle s _ c v _ _ _ _ ih =>
    obtain ⟨ht, hflat⟩ := ih (hs.thins fun d => .delivered s c v d) (hs c)
    exact ⟨ht, fun e he => Error.Flat.ofMany? hflat (Option.mem_toList.1 he)⟩
  | nil => exact ⟨hs, by simp⟩
  | cons _ _ ih ih' =>
    obtain ⟨ht, hfirst⟩ := ih hs (hj _ (.head _))
    obtain ⟨hu, hrest⟩ := ih' ht fun q hq => hj q (.tail _ hq)
    exact ⟨hu, List.forall_mem_append.2 ⟨hfirst, hrest⟩⟩
  | derive _ _ ih | follow _ _ _ ih | assign _ _ _ _ ih => exact ih hs trivial
  | callback _ ih | watch _ _ _ ih => exact ih hs hj
  | @minus s _ _ _ _ _ _ _ _ _ _ _ _ ih => exact ih (hs.thins fun c => .newDerived s _ _ c) trivial
  | andThen _ _ ih ih' =>
    obtain ⟨ht, -⟩ := ih hs hj.1
    exact ih' ht hj.2
  | halt _ ih => exact ih hs hj.1

end RaisesPlain

/-! ## The cell keeps its value -/

/-- The cell holds `v`, and whoever resolves it is refused and changes nothing. -/
def Store.Settled (s : Store) (c : CellId) (v : Datum) : Prop :=
  s.value? c = some v ∧
    ∀ w, Store.resolve c w s = .error (.alreadyResolved v.display w.display) s

/-- The cell `c` is settled in every store on the way from the one in which it got the value `v`,
during the dispatch, which leaves `t`, and through any later calls. -/
structure Lasts (s : Store) (c : CellId) (v : Datum) (t : Store) : Prop where
  way : ∀ path u, Traces Move.Lasting (s.fire c v).1 (s.fire c v).2 path u →
    (∀ x ∈ path, x.before.Settled c v) ∧ u.Settled c v
  later : ∀ calls u, Run t calls u → (∀ call ∈ calls, call.Lasting) →
    ∃ path, Traces Move.Lasting (s.fire c v).1 (s.fire c v).2 path u

section Lasts

variable {s t : Store} {c : CellId} {v : Datum}

theorem Store.Settled.of_value (hv : s.value? c = some v) (hd : (s.cell c).derived = false) :
    s.Settled c v :=
  ⟨hv, fun w => by simp [Store.resolve, resolveBy, hd, settle, settleWithin, hv]⟩

theorem Valid.toLasting (h : Valid s [])
    (hw : ∀ d, ∀ q ∈ (s.cell d).queue, q.2.Acts Action.Lasting) : Lasting s [] :=
  { h with
    waiting := hw
    planned := by simp
    moves := by simp
    values := by simp }

theorem Lasting.lasts (h : Lasting s []) (hc : c < s.cells.size) (hd : (s.cell c).derived = false)
    (hv : s.value? c = none) : Lasts s c v ((Store.resolve c v).after s) := by
  have hstart : Lasting (s.fire c v).1 (s.fire c v).2 := by
    have hstep := Lasting.step (.move (m := .resolve c v) ⟨hc, hd⟩) (h.start trivial)
    rwa [List.append_nil] at hstep
  have hvalue : (s.fire c v).1.value? c = some v := by
    simp [fire, hv, value?_delivered s c c v hc]
  refine ⟨fun path u ht => ?_, fun calls u hrun hcalls => ?_⟩
  · have settled : ∀ {x : Store}, x.value? c = some v → Grows s x → x.Settled c v :=
      fun hx hg => .of_value hx ((hg.derived c hc).trans hd)
    obtain ⟨⟨-, hu, hgrows⟩, hway⟩ := ht.invariant
      (I := fun u tasks => Lasting u tasks ∧ u.value? c = some v ∧ Grows s u)
      ⟨hstart, hvalue, .fire s c v⟩ (fun hm hi => ⟨hi.1.start hm, hi.2⟩)
      (fun hr hi => ⟨Lasting.step hr hi.1, hi.1.value?_step hr hi.2.1, hi.2.2.trans hr.grows⟩)
    refine ⟨fun x hx => ?_, settled hu hgrows⟩
    obtain ⟨k, -, hx, hgrows⟩ := hway x hx
    exact settled hx hgrows
  · have hcascade : Cascade (s.fire c v).1 (s.fire c v).2 ((Store.resolve c v).after s) := by
      rw [Store.resolve, after_resolveBy, if_neg (by simp [hd])]
      exact (cascades_settle (s.load + 1) c v s h.load (by omega)).1
    have hlasting := hcascade.invariant (I := Lasting) Lasting.step hstart
    obtain ⟨path, hpath⟩ := (hrun.steps (P := Move.Lasting) hlasting.toValid
      fun call hm _ => (hcalls call hm).makes).traces
    exact hcascade.traces hpath

end Lasts

/-! ## Exactly once, in order, whatever fails -/

/-- How a pending cell gets the value `v`: what its execution tells, fails with and leaves. -/
structure Dispatched (s : Store) (c : CellId) (v : Datum) (account : List Incident)
    (errors : List Error) (t : Store) : Prop where
  executes : Executes s (.settle c v) account errors t
  result : Store.resolve c v s = report errors t
  /-- The value is stored before the first subscriber runs. -/
  stored : (s.delivered c v).value? c = some v
  /-- The queue is in the order in which the subscribers came. -/
  order : (s.cell c).queue.Pairwise fun p q => p.1 < q.1
  /-- All of them run, one after another, and their failures are reported together. -/
  failures : errors = (Error.ofMany?
    ((servings v (s.cell c).queue (s.delivered c v)).filterMap Serving.failure)).toList
  left : t = served v (s.cell c).queue (s.delivered c v)
  /-- None of them runs again in a nested dispatch. -/
  once : account.filter (·.serves c (s.cell c).next) =
    (servings v (s.cell c).queue (s.delivered c v)).map (·.incident c v)
  /-- The single failures are those of the subscribers, in order. -/
  leaves : errors.flatMap Error.leaves = (servings v (s.cell c).queue (s.delivered c v)).flatMap
    fun x => x.failure.toList.flatMap Error.leaves
  /-- They are the failures that came up, at any depth. This holds only because every action passes
  the failures of what it calls on: a callback that drops the result of a nested call hides them. -/
  origins : errors.flatMap Error.leaves = account.flatMap Incident.leaves

theorem flatMap_filterMap_failure (servings : List Serving) :
    (servings.filterMap Serving.failure).flatMap Error.leaves =
      servings.flatMap fun x => x.failure.toList.flatMap Error.leaves := by
  induction servings with
  | nil => rfl
  | cons x rest ih =>
    rw [List.flatMap_cons, ← ih]
    cases hx : x.failure with
    | none => simp [hx]
    | some e => simp [hx]

theorem Valid.dispatched {s : Store} {c : CellId} (v : Datum) (h : Valid s []) (ho : Ordered s)
    (hn : Numbered s) (hc : c < s.cells.size) (hd : (s.cell c).derived = false)
    (hv : s.value? c = none) : ∃ account errors t, Dispatched s c v account errors t := by
  have hl := load_delivered s c v
  have hi : (s.delivered c v).load ≤ (s.delivered c v).issued := Nat.le_trans (by omega) h.load
  obtain ⟨account, errors, t, hx, hrun⟩ := executed_runQueue (faithful_settle _)
    (cascades_settle _) c v (s.cell c).queue (s.delivered c v) hi le_rfl
  have hqueue := runQueue_run v (s.cell c).queue (s.delivered c v)
  rw [hrun] at hqueue
  obtain ⟨rfl, rfl⟩ := EStateM.Result.ok.inj hqueue
  have hleaves := Error.leaves_ofMany?
    ((servings v (s.cell c).queue (s.delivered c v)).filterMap Serving.failure)
  have habove : Above c (s.cell c).next (s.delivered c v) := by
    unfold Above
    rw [cell_delivered, if_pos ⟨rfl, hc⟩]
    exact ⟨by simp, le_rfl⟩
  exact ⟨account, _, _, {
    executes := .settle hv hx
    result := by
      rw [Store.resolve, resolveBy]
      simp only [bind_run, get_run, hd]
      rw [← raise_run]
      simpa [hrun] using settle_run v h.load hv
    stored := by rw [value?_delivered s c c v hc, if_pos rfl]
    order := ho.increasing c
    failures := rfl
    left := rfl
    once := hx.filter_serves hi habove fun q hq => ⟨ho.positive c q hq, hn.fresh c q hq⟩
    leaves := hleaves.trans (flatMap_filterMap_failure _)
    origins := (Executes.settle hv hx).leaves.symm }⟩

/-- Resolving a pending cell stores the value and then runs the subscribers exactly once each, in
the order in which they came, whatever they do and whatever fails, and fails with the single
failures of all of them. If nothing takes values back, the cell keeps its value. -/
theorem dispatch_exactly_once {before : List Call} {s : Store} {c : CellId} (v : Datum)
    (hbefore : Run {} before s) (hc : c < s.cells.size) (hd : (s.cell c).derived = false)
    (hv : s.value? c = none) :
    ∃ account errors t, Dispatched s c v account errors t ∧
      (s.RaisesPlain → ∀ e ∈ errors, e.Flat) ∧
      ((∀ d, ∀ q ∈ (s.cell d).queue, q.2.Acts Action.Lasting) → Lasts s c v t) := by
  obtain ⟨ho, hn⟩ := hbefore.ordered
  obtain ⟨account, errors, t, h⟩ := hbefore.valid.dispatched v ho hn hc hd hv
  refine ⟨account, errors, t, h, fun hs => (h.executes.raisesPlain hs trivial).2, fun hw => ?_⟩
  have hleft : (Store.resolve c v).after s = t := by
    have hresult := h.result
    cases errors with
    | nil => exact after_of_ok hresult
    | cons e es => exact after_of_error hresult
  exact hleft ▸ (hbefore.valid.toLasting hw).lasts hc hd hv

def nestedCalls : List Call :=
  [.newCell (.int .i64) none false, .newCell (.int .i64) none false,
    .onResolve 0 (.fail (.invalidText "a")), .onResolve 0 (.forward (.cell 1)),
    .onResolve 0 (.fail (.invalidText "d")), .onResolve 1 (.fail (.invalidText "b")),
    .onResolve 1 (.watch (.cell 0) (.fail (.invalidText "c")))]

def nestedStore : Store := nestedCalls.foldl (fun s call => call.run.after s) {}

theorem nestedStore_raisesPlain : nestedStore.RaisesPlain := by
  intro c
  match c with
  | 0 =>
    have hqueue : (nestedStore.cell 0).queue = [(1, .act (.fail (.invalidText "a"))),
      (2, .act (.forward (.cell 1))), (3, .act (.fail (.invalidText "d")))] := rfl
    simp [hqueue, Subscriber.RaisesPlain, Action.RaisesPlain, Error.isPlain]
  | 1 =>
    have hqueue : (nestedStore.cell 1).queue = [(1, .act (.fail (.invalidText "b"))),
      (2, .act (.watch (.cell 0) (.fail (.invalidText "c"))))] := rfl
    simp [hqueue, Subscriber.RaisesPlain, Action.RaisesPlain, Error.isPlain]
  | c + 2 =>
    have hsize : nestedStore.cells.size = 2 := by decide +kernel
    simp [cell_of_size_le nestedStore (c + 2) (by omega)]

theorem dispatch_exactly_once_nested :
    (nestedStore.cell 0).queue.map Prod.fst = [1, 2, 3] ∧
    ∃ account errors t, Dispatched nestedStore 0 (.int 7) account errors t ∧
      errors.flatMap (fun e => e.leaves.map Error.message) =
        ["a", "b", "c", "d"].map (Error.message ∘ .invalidText) ∧
      (∀ e ∈ errors, e.Flat) ∧ Lasts nestedStore 0 (.int 7) t := by
  have hrun : Run {} nestedCalls nestedStore :=
    .cons trivial (.cons trivial (.cons ⟨show 0 < _ by decide +kernel, trivial⟩
      (.cons ⟨show 0 < _ by decide +kernel, show 1 < _ by decide +kernel⟩
        (.cons ⟨show 0 < _ by decide +kernel, trivial⟩
          (.cons ⟨show 1 < _ by decide +kernel, trivial⟩
            (.cons ⟨show 1 < _ by decide +kernel, show 0 < _ by decide +kernel, trivial⟩
              (.nil _)))))))
  have hresult : (match Store.resolve 0 (.int 7) nestedStore with
      | .ok .. => []
      | .error e _ => e.leaves.map Error.message) =
        ["a", "b", "c", "d"].map (Error.message ∘ .invalidText) := by decide +kernel
  obtain ⟨account, errors, t, h, hflat, hlasts⟩ := dispatch_exactly_once (c := 0) (.int 7) hrun
    (by decide +kernel) (by decide +kernel) (by decide +kernel)
  refine ⟨by decide +kernel, account, errors, t, h, ?_, hflat nestedStore_raisesPlain,
    hlasts (hrun.lasting .empty (by simp [nestedCalls, Call.Lasting, Action.Lasting])).waiting⟩
  have hlength := h.executes.length_errors_le (by simp)
  rw [h.result] at hresult
  match errors with
  | [] => exact hresult
  | [e] => simpa [report] using hresult
  | _ :: _ :: _ => simp at hlength

end Backpatch
