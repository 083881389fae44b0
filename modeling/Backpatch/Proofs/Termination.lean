import Mathlib
import Backpatch.Proofs.Failures

/-!
# Dispatches end

Subscribers settle other cells, whose subscribers settle others again, and nothing keeps them from
coming back to where they were: a callback may clear the cell whose queue is running, wait for it
again and resolve it. What gets less is not the number of pending cells but the weight of what
waits. A subscriber has left its queue before it runs, and it weighs more than all that it queues,
so each run is paid for by the load of the store (`Executes.load_le`). It follows that every job is
carried out to its end, in any store (`completes`), and that an operation runs no more subscribers
than the load at its start and the fields that it places allow (`Terminates`).
-/

namespace Backpatch

open Store Failable

/-! ## What a job may run -/

def Incident.isServed : Incident → Bool
  | .raised _ => false
  | .served .. => true

/-- The number of subscribers that ran. -/
def callbacks (account : List Incident) : Nat := account.countP Incident.isServed

section Callbacks

variable (account account' : List Incident)

@[simp] theorem callbacks_nil : callbacks [] = 0 := rfl

@[simp] theorem callbacks_append :
    callbacks (account ++ account') = callbacks account + callbacks account' :=
  List.countP_append

@[simp] theorem callbacks_raised (e : Error) :
    callbacks (.raised e :: account) = callbacks account :=
  List.countP_cons_of_neg (by simp [Incident.isServed])

@[simp] theorem callbacks_served (c : CellId) (number : Nat) (v : Datum) (failure : Option Error) :
    callbacks (.served c number v failure :: account) = callbacks account + 1 :=
  List.countP_cons_of_pos rfl

end Callbacks

theorem Subscriber.weight_pos (sub : Subscriber) : 0 < sub.weight := by
  cases sub <;> simp [weight]

/-- What a job may run and queue beyond what waits already. That a subscriber of a queue runs is
charged to the queue. -/
def Job.cost : Job → Nat
  | .settle .. => 0
  | .serve sub _ => sub.weight - 1
  | .act a _ => a.weight
  | .queue _ waiting _ => (waiting.map fun q => q.2.weight).sum

section Cost

variable {s t : Store} {job : Job} {account : List Incident} {errors : List Error}

theorem Store.load_congr (h : t.cells = s.cells) : t.load = s.load := by
  rw [load, total, h, load, total]

theorem Job.load_effect_le (h : job.effect? s = some t) : t.load ≤ s.load + job.cost := by
  cases job with
  | settle | queue => simp [effect?] at h
  | serve sub v =>
    obtain hcells | ⟨target, choose, inner, rfl, rfl⟩ | ⟨target, kind, subtrahend, rfl, rfl⟩ :=
      Subscriber.effect?_cases h
    · exact (load_congr hcells).le.trans (Nat.le_add_right ..)
    · exact load_enqueue_le s inner _
    · -- Two derivations are queued.
      refine (load_enqueue_le _ _ _).trans (Nat.add_le_add_right (m := s.load + 1) ?_ 1)
      exact (load_enqueue_le _ _ _).trans_eq (by rw [load_newDerived]; rfl)
  | act a v =>
    obtain hcells | ⟨target, b, c, rfl, rfl⟩ | ⟨c, rfl⟩ | ⟨c, id, entry, rfl⟩ :=
      Action.effect?_cases h
    · exact (load_congr hcells).le.trans (Nat.le_add_right ..)
    · exact (load_enqueue_le s c _).trans (Nat.add_le_add_left (Nat.le_succ _) _)
    · exact (load_cleared s c).le.trans (Nat.le_add_right ..)
    · exact (load_withdrawn_le s c id).trans (Nat.le_add_right ..)

/-- What runs was waiting before, or belongs to the job. -/
theorem Executes.load_le (h : Executes s job account errors t) :
    callbacks account + t.load ≤ s.load + job.cost := by
  induction h with
  | effect h => simpa using Job.load_effect_le h
  | fault => simp
  | @settle s t c v account errors hv h ih =>
    have hload := load_delivered s c v
    simp only [Job.cost, Cell.total] at ih hload ⊢
    omega
  | nil => simp
  | @cons s t u c id sub rest v account account' errors errors' h g ih ih' =>
    have hpos := sub.weight_pos
    simp only [Job.cost, callbacks_append, callbacks_served, List.map_cons,
      List.sum_cons] at ih ih' ⊢
    omega
  | derive _ _ ih | callback _ ih => exact ih
  | follow _ _ _ ih =>
    simp only [Job.cost, Subscriber.weight, callbacks_append, callbacks_served,
      callbacks_nil] at ih ⊢
    omega
  | minus _ _ _ ih =>
    rw [load_newDerived] at ih
    simp only [Job.cost, Subscriber.weight, callbacks_append, callbacks_served,
      callbacks_nil] at ih ⊢
    omega
  | assign _ _ _ _ ih => exact ih.trans (Nat.le_add_right ..)
  | watch _ _ _ ih =>
    simp only [Job.cost, Action.weight, callbacks_append, callbacks_served,
      callbacks_nil] at ih ⊢
    omega
  | andThen _ _ ih ih' =>
    simp only [Job.cost, Action.weight, callbacks_append] at ih ih' ⊢
    omega
  | halt _ ih =>
    simp only [Job.cost, Action.weight] at ih ⊢
    omega

end Cost

/-! ## Every job is carried out -/

/-- The job is carried out to its end. -/
def Completes (s : Store) (job : Job) : Prop :=
  ∃ account errors t, Executes s job account errors t

section Completes

variable {s : Store} {job : Job} {v : Datum} {n : Nat}

theorem Completes.of_effect (h : (job.effect? s).isSome) : Completes s job := by
  obtain ⟨t, ht⟩ := Option.isSome_iff_exists.1 h
  exact ⟨_, _, t, .effect ht⟩

theorem Completes.of_fault (h : (job.fault? s).isSome) : Completes s job := by
  obtain ⟨e, he⟩ := Option.isSome_iff_exists.1 h
  exact ⟨_, [e], s, .fault he⟩

-- Cells can be settled as long as less than `n` is waiting.
variable (hs : ∀ c v s, s.load < n → Completes s (.settle c v))
include hs

theorem completes_assigning {a : Action}
    (hidle : a.assigns? s v = none → (a.effect? s v).isSome)
    (h : s.load < n) : Completes s (.act a v) := by
  cases ha : a.assigns? s v with
  | none => exact .of_effect (hidle ha)
  | some p =>
    obtain ⟨c, w⟩ := p
    obtain ⟨heffect, hfault⟩ := Action.of_assigns ha
    cases hc : a.confirmed s c w with
    | true => exact .of_effect (by simp [Job.effect?, heffect, hc])
    | false =>
      cases hd : (s.cell c).derived with
      | true => exact .of_fault (by simp [Job.fault?, hfault, hc, hd])
      | false =>
        obtain ⟨account, errors, t, hx⟩ := hs c w s h
        exact ⟨account, errors, t, .assign ha hd hc hx⟩

theorem completes_act (a : Action) (v : Datum) (s : Store) (h : s.load + a.weight < n) :
    Completes s (.act a v) := by
  induction a generalizing v s with
  | done | log | unresolve => exact .of_effect rfl
  | fail => exact .of_fault rfl
  | forward | resolve | confirm =>
    refine completes_assigning hs (fun ha => ?_) (Nat.lt_of_le_of_lt (Nat.le_add_right ..) h)
    simp [Action.effect?, ha]
  | watch target a ih =>
    cases hf : s.find? target with
    | none => exact .of_effect (by simp [Job.effect?, Action.effect?, hf])
    | some c =>
      cases hw : s.value? c with
      | none => exact .of_effect (by simp [Job.effect?, Action.effect?, hf, hw])
      | some w =>
        simp only [Action.weight] at h
        obtain ⟨account, errors, t, hx⟩ := ih w s (by omega)
        exact ⟨_, errors, t, .watch hf hw hx⟩
  | unsubscribe name =>
    refine .of_effect ?_
    cases hn : s.subscriptions.lookup name <;> simp [Job.effect?, Action.effect?, hn]
  | andThen a b iha ihb =>
    simp only [Action.weight] at h
    obtain ⟨account, errors, t, hx⟩ := iha v s (by omega)
    have hload : callbacks account + t.load ≤ s.load + a.weight := hx.load_le
    have hlength := hx.length_errors_le (by simp)
    cases errors with
    | nil =>
      obtain ⟨account', errors', u, hx'⟩ := ihb v t (by omega)
      exact ⟨_, errors', u, .andThen hx hx'⟩
    | cons e es =>
      obtain rfl : es = [] := by simpa using hlength
      exact ⟨account, [e], t, .halt hx⟩

theorem completes_serve (sub : Subscriber) (v : Datum) (h : s.load + sub.weight ≤ n) :
    Completes s (.serve sub v) := by
  cases sub with
  | derive target f =>
    cases hf : f v with
    | error => exact .of_fault (by simp [Job.fault?, Subscriber.fault?, hf])
    | ok w =>
      obtain ⟨account, errors, t, hx⟩ := hs target w s h
      exact ⟨account, errors, t, .derive hf hx⟩
  | follow target choose =>
    simp only [Subscriber.weight] at h
    cases hf : choose v with
    | error => exact .of_fault (by simp [Job.fault?, Subscriber.fault?, hf])
    | ok inner =>
      cases hw : s.value? inner with
      | none => exact .of_effect (by simp [Job.effect?, Subscriber.effect?, hf, hw])
      | some w =>
        obtain ⟨account, errors, t, hx⟩ := hs target w s (by omega)
        exact ⟨_, errors, t, .follow hf hw hx⟩
  | minus target kind subtrahend =>
    simp only [Subscriber.weight] at h
    cases hy : s.value? subtrahend with
    | none => exact .of_effect (by simp [Job.effect?, Subscriber.effect?, hy])
    | some y =>
      cases hd : Datum.difference kind v y with
      | error => exact .of_fault (by simp [Job.fault?, Subscriber.fault?, hy, hd])
      | ok w =>
        have hload := load_newDerived s (.int kind) (some w)
        obtain ⟨account, errors, t, hx⟩ := hs target w (s.newDerived (.int kind) (some w))
          (by omega)
        exact ⟨_, errors, t, .minus hy hd hx⟩
  | patch field =>
    cases hp : Store.patch field v s with
    | ok => exact .of_effect (by simp [Job.effect?, Subscriber.effect?, hp])
    | error => exact .of_fault (by simp [Job.fault?, Subscriber.fault?, hp])
  | act a =>
    obtain ⟨account, errors, t, hx⟩ := completes_act hs a v s h
    exact ⟨account, errors, t, .callback hx⟩

theorem completes_queue (c : CellId) (v : Datum) (waiting : List (Nat × Subscriber)) (s : Store)
    (h : s.load + (waiting.map fun q => q.2.weight).sum ≤ n) :
    Completes s (.queue c waiting v) := by
  induction waiting generalizing s with
  | nil => exact ⟨[], [], s, .nil⟩
  | cons q waiting ih =>
    simp only [List.map_cons, List.sum_cons] at h
    obtain ⟨account, errors, t, hx⟩ := completes_serve (s := s) hs q.2 v (by omega)
    have hload : callbacks account + t.load ≤ s.load + (q.2.weight - 1) := hx.load_le
    obtain ⟨account', errors', u, hx'⟩ := ih t (by omega)
    exact ⟨_, _, u, .cons hx hx'⟩

omit hs

/-- The induction is on what waits: the queue of a cell has left the load when it runs. -/
theorem completes_settle (n : Nat) : ∀ c v s, s.load < n → Completes s (.settle c v) := by
  induction n with
  | zero => exact fun _ _ _ h => absurd h (Nat.not_lt_zero _)
  | succ n ih =>
    intro c v s h
    cases hv : s.value? c with
    | some w => exact .of_fault (by simp [Job.fault?, hv])
    | none =>
      have hload := load_delivered s c v
      simp only [Cell.total] at hload
      obtain ⟨account, errors, t, hx⟩ :=
        completes_queue ih c v (s.cell c).queue (s.delivered c v) (by omega)
      exact ⟨account, _, t, .settle hv hx⟩

theorem completes (s : Store) (job : Job) : Completes s job := by
  cases job with
  | settle c v => exact completes_settle (s.load + 1) c v s (Nat.lt_succ_self _)
  | serve sub v => exact completes_serve (completes_settle _) sub v le_rfl
  | act a v => exact completes_act (completes_settle _) a v s (Nat.lt_succ_self _)
  | queue c waiting v => exact completes_queue (completes_settle _) c v waiting s le_rfl

end Completes

/-! ## Operations come to an end -/

/-- The result is that of carrying out the job, on which `n` subscribers run. -/
def EndsAfter (s : Store) (job : Job) (r : EStateM.Result Error Store Unit) (n : Nat) : Prop :=
  ∃ account errors t, Executes s job account errors t ∧ r = report errors t ∧
    callbacks account = n

/-- The library carries out the dispatch to its end, on which `n` subscribers run. -/
def Start.EndsAfter (x : Start) (n : Nat) : Prop :=
  Backpatch.EndsAfter x.store (.settle x.cell x.value) (settle x.cell x.value x.store) n

/-- The dispatches come to their ends, and not more than `n` subscribers run in all of them
together. -/
def Terminates (starts : List Start) (n : Nat) : Prop :=
  ∃ counts : List Nat, counts.sum ≤ n ∧ List.Forall₂ Start.EndsAfter starts counts

/-- The dispatches come to their ends on the way from `s` to `t`. What runs was waiting in `s` or is
among what was queued on the way, with the weight `n`. -/
structure Spends (s t : Store) (starts : List Start) (n : Nat) : Prop where
  ends : ∃ counts : List Nat, counts.sum + t.load ≤ s.load + n ∧
    List.Forall₂ Start.EndsAfter starts counts
  load : t.load ≤ t.issued

section Spends

variable {α β : Type} {s t u : Store} {starts starts' : List Start} {m n : Nat}

theorem Spends.terminates (h : Spends s t starts n) : Terminates starts (s.load + n) := by
  obtain ⟨counts, hsum, hends⟩ := h.ends
  exact ⟨counts, by omega, hends⟩

theorem Spends.quiet (hcells : t.cells = s.cells) (hissued : t.issued = s.issued)
    (hi : s.load ≤ s.issued) : Spends s t [] 0 := by
  have hload := load_congr hcells
  exact ⟨⟨[], by simp [hload], .nil⟩, by omega⟩

theorem Spends.mono (h : Spends s t starts m) (hmn : m ≤ n) : Spends s t starts n := by
  obtain ⟨counts, hsum, hends⟩ := h.ends
  exact ⟨⟨counts, by omega, hends⟩, h.load⟩

theorem Spends.trans (h : Spends s t starts m) (g : Spends t u starts' n) :
    Spends s u (starts ++ starts') (m + n) := by
  obtain ⟨counts, hsum, hends⟩ := h.ends
  obtain ⟨counts', hsum', hends'⟩ := g.ends
  refine ⟨⟨counts ++ counts', ?_, List.rel_append hends hends'⟩, g.load⟩
  rw [List.sum_append]
  omega

theorem Spends.bind {x : Op α} {f : α → Op β} {next : α → Store → List Start}
    (hx : Spends s (x.after s) starts m)
    (hf : ∀ a t, t.load ≤ t.issued → Spends t ((f a).after t) (next a t) n) :
    Spends s ((x >>= f).after s) (starts ++ startsAfter (x s) next) (m + n) := by
  rw [after_bind]
  cases hr : x s with
  | ok a t =>
    rw [after_of_ok hr] at hx
    exact hx.trans (hf a t hx.load)
  | error e t =>
    rw [after_of_error hr] at hx
    simpa [startsAfter] using hx.mono (Nat.le_add_right m n)

theorem spends_settle (c : CellId) (v : Datum) (hi : s.load ≤ s.issued) :
    Spends s ((settle c v).after s) [⟨s, c, v⟩] 0 := by
  obtain ⟨account, errors, t, hx, hr⟩ := executed_settle c v hi
  obtain ⟨hcascade, -⟩ := cascades_settle (s.load + 1) c v s hi (Nat.lt_succ_self _)
  have hafter : (settle c v).after s = t := by
    unfold after
    rw [hr]
    cases errors <;> rfl
  have hsum : callbacks account + t.load ≤ s.load + 0 := hx.load_le
  refine ⟨⟨[callbacks account], ?_, .cons ⟨account, errors, t, hx, hr, rfl⟩ .nil⟩, ?_⟩
  · rwa [List.sum_singleton, hafter]
  · refine hcascade.load_le ?_
    obtain ⟨w, -, hfire⟩ | ⟨-, hfire⟩ := fire_cases s c v
    · rwa [hfire]
    · rw [hfire]
      exact (Nat.le_of_add_right_le (load_delivered s c v).le).trans hi

theorem spends_settleOrConfirm (c : CellId) (v : Datum) (hi : s.load ≤ s.issued) :
    Spends s ((settleOrConfirm c v).after s) (confirmStarts c v s) 0 := by
  unfold confirmStarts
  cases hh : (s.cell c).holds v with
  | true =>
    have hafter : (settleOrConfirm c v).after s = s := by simp [settleOrConfirm, after, hh]
    rw [hafter]
    exact .quiet rfl rfl hi
  | false =>
    have hafter : (settleOrConfirm c v).after s = (settle c v).after s := by
      simp [settleOrConfirm, after, hh]
    rw [hafter]
    exact spends_settle c v hi

end Spends

/-! ## Laying out -/

mutual

/-- The number of fields in a segment that may have to wait for their values. -/
def Segment.awaited : Segment → Nat
  | .deferred .. => 1
  | .nested segments => awaitedAll segments
  | .direct .. | .mark _ | .postProcess _ => 0

def Segment.awaitedAll : List Segment → Nat
  | [] => 0
  | segment :: rest => segment.awaited + awaitedAll rest

end

namespace Store

/-- The patch of a field that was placed is the only new subscriber. -/
theorem spends_placed {s : Store} (c : CellId) (i : ImageId) (format : FixedFormat)
    (label : Option String) (hi : s.load ≤ s.issued) : Spends s (s.placed c i format label) [] 1 := by
  have hload : (s.placed c i format label).load ≤ s.load + 1 :=
    load_enqueue_le (s.modifyImage i _) c (.patch s.placeholders.size)
  have hissued : (s.placed c i format label).issued = s.issued + 1 := rfl
  exact ⟨⟨[], by simpa using hload, .nil⟩, by omega⟩

mutual

theorem spends_emitSegment {s : Store} (i : ImageId) (segment : Segment) (hi : s.load ≤ s.issued) :
    Spends s ((emitSegment i segment).after s) (emitStarts i segment s) segment.awaited := by
  cases segment with
  | direct | postProcess => exact .quiet rfl rfl hi
  | deferred format c label =>
    simp only [emitSegment, after_bind, valueOf_run]
    cases s.value? c with
    | none => exact spends_placed c i format label hi
    | some v =>
      refine Spends.mono (m := 0) ?_ (Nat.zero_le _)
      simp only [after_bind]
      cases format.encode v <;> exact .quiet rfl rfl hi
  | mark c => exact spends_settleOrConfirm c (.int (s.image i).size) hi
  | nested segments => exact spends_emitAll i segments hi

theorem spends_emitAll {s : Store} (i : ImageId) (segments : List Segment)
    (hi : s.load ≤ s.issued) :
    Spends s ((emitAll i segments).after s) (emitAllStarts i segments s)
      (Segment.awaitedAll segments) := by
  cases segments with
  | nil => exact .quiet rfl rfl hi
  | cons segment rest =>
    exact (spends_emitSegment i segment hi).bind fun _ t ht => spends_emitAll i rest ht

end

theorem spends_emitObserved (observer : Observer) (i : ImageId) (index : Nat)
    (segments : List Segment) {s : Store} (hi : s.load ≤ s.issued) :
    Spends s ((emitObserved observer i index segments).after s)
      (observedStarts observer i index segments s) (Segment.awaitedAll segments) := by
  induction segments generalizing index s with
  | nil => exact .quiet rfl rfl hi
  | cons segment rest ih =>
    refine (spends_emitSegment i segment hi).bind fun _ t ht => ?_
    obtain ⟨log, trace, reports, hcheck⟩ :=
      checkpoint_run observer i (.segment index (t.image i).size) t
    have hquiet : Spends t { t with log, trace, reports } [] 0 := .quiet rfl rfl ht
    have hrest := hquiet.trans (ih (index + 1) hquiet.load)
    simpa [imageSize, after_bind, hcheck, after_of_ok hcheck] using hrest

end Store

theorem Region.spends_emitObserved (r : Region) (i : ImageId) (observer : Observer) {s : Store}
    (hi : s.load ≤ s.issued) :
    Spends s ((Store.emitObserved observer i 0 r.segments).after
      ((emit (.flattening r.segments.length (s.image i).size)).after s))
      (r.starts i observer s) (Segment.awaitedAll r.segments) := by
  have hquiet : Spends s ((emit (.flattening r.segments.length (s.image i).size)).after s) [] 0 :=
    .quiet rfl rfl hi
  simpa [Region.starts] using
    hquiet.trans (Store.spends_emitObserved observer i 0 r.segments hquiet.load)

/-! ## Finalizing -/

namespace Layout

variable {l : Layout} {s : Store}

theorem spends_applyEntry {e : Entry} {start stop : Nat}
    (hb : bounds e s = (some start, some stop))
    (hfree : ¬ (l.pending s).any (·.overlaps start stop) = true) (hi : s.load ≤ s.issued) :
    Spends s ((l.applyEntry e start stop).after s) (l.entryStarts e s) 0 := by
  simp only [entryStarts, hb, if_neg hfree, applyEntry, after_bind, get_run]
  cases (s.image l.image).read start stop with
  | ok bytes => exact spends_settleOrConfirm e.result (e.digest bytes) hi
  | error => exact .quiet rfl rfl hi

theorem spends_runEntry (enforce : Bool) (index : Nat) (e : Entry) (hi : s.load ≤ s.issued) :
    Spends s ((l.runEntry enforce index e {}).after s) (l.entryStarts e s) 0 := by
  unfold after
  rw [runEntry_run]
  rcases hb : bounds e s with ⟨_ | start, _ | stop⟩
  case some.some =>
    dsimp only
    split_ifs with hcovered
    · simp only [entryStarts, hb, if_pos hcovered]
      exact .quiet rfl rfl hi
    · have happly := spends_applyEntry hb hcovered hi
      unfold after at happly
      cases hr : l.applyEntry e start stop s with
      | ok _ t | error _ t =>
        rw [hr] at happly
        exact happly
  all_goals
    simp only [entryStarts, hb]
    cases enforce <;> exact .quiet rfl rfl hi

theorem spends_turns (enforce : Bool) (index : Nat) (entries : List Entry)
    (hi : s.load ≤ s.issued) :
    ∃ t, Spends s t ((l.turns enforce index entries s).flatMap fun turn =>
      l.entryStarts turn.1 turn.2) 0 := by
  induction entries generalizing index s with
  | nil => exact ⟨s, .quiet rfl rfl hi⟩
  | cons e rest ih =>
    have hturn := spends_runEntry (l := l) enforce index e hi
    obtain ⟨t, hrest⟩ := ih (index + 1) hturn.load
    exact ⟨t, hturn.trans hrest⟩

end Layout

theorem Region.terminates_flatten (r : Region) (i : ImageId) (config : FlattenConfig)
    (observer : Observer) {s : Store} (hi : s.load ≤ s.issued) :
    Terminates (r.flattenStarts i config observer s)
      (s.load + Segment.awaitedAll r.segments) := by
  have hemit := r.spends_emitObserved i observer hi
  unfold flattenStarts
  cases hlayout : r.layoutObserved i observer s with
  | error => simpa [startsAfter] using hemit.terminates
  | ok l t =>
    rw [after_of_ok (Region.layoutObserved_eq_ok hlayout).1] at hemit
    obtain ⟨u, hturns⟩ := l.spends_turns config.enforceComplete 0 l.entries hemit.load
    exact (hemit.trans hturns).terminates

/-- Resolving a cell ends, whatever its subscribers do: each of them runs to its end, in nested
dispatches as well, and all of them together are not more than the weight of what waited. The same
holds for laying out a region, which may queue a patch for each of its fields, for finalizing a
layout, and for both in a row. The bound on nested dispatches is never reached. Without any bound,
every job is carried out in every store, and what it runs was waiting before or belongs to it. -/
theorem resolution_terminates {calls : List Call} {s : Store} (hrun : Run {} calls s) :
    (∀ c v, if (s.cell c).derived then Store.resolve c v s = .error .derivedResolve s
      else ∃ n ≤ s.load, EndsAfter s (.settle c v) (Store.resolve c v s) n) ∧
    (∀ (r : Region) i observer,
      Terminates (r.starts i observer s) (s.load + Segment.awaitedAll r.segments)) ∧
    (∀ (l : Layout) config, Terminates (l.starts config s) s.load) ∧
    (∀ (r : Region) i config observer, Terminates (r.flattenStarts i config observer s)
      (s.load + Segment.awaitedAll r.segments)) ∧
    (∀ c v depth, s.load < depth → settleWithin depth c v s = settle c v s) ∧
    ∀ (u : Store) (job : Job), Completes u job ∧ ∀ account errors t,
      Executes u job account errors t → callbacks account + t.load ≤ u.load + job.cost := by
  have hi := hrun.valid.load
  refine ⟨fun c v => ?_, fun r i observer => (r.spends_emitObserved i observer hi).terminates,
    fun l config => ?_, fun r i config observer => r.terminates_flatten i config observer hi,
    fun c v depth h => (faithful_settleWithin depth c v s hi h).unique (executed_settle c v hi),
    fun u job => ⟨completes u job, fun _ _ _ hx => hx.load_le⟩⟩
  · split_ifs with hd
    · simp [Store.resolve, resolveBy, hd]
    · obtain ⟨account, errors, t, hx, hr⟩ := executed_settle c v hi
      have hload : callbacks account + t.load ≤ s.load + 0 := hx.load_le
      refine ⟨callbacks account, by omega, account, errors, t, hx, ?_, rfl⟩
      simpa [Store.resolve, resolveBy, hd] using hr
  · obtain ⟨t, hturns⟩ := l.spends_turns config.enforceComplete 0 l.entries hi
    exact hturns.terminates

/-! The first callback clears the cell whose queue is running, waits for it again and resolves it. The
second one goes on to another cell, from where the first cell is cleared and resolved once more. -/

def tangledCalls : List Call :=
  [.newCell .offset none false, .newCell (.int .i64) none false,
    .onResolve 0 (.andThen (.unresolve (.cell 0))
      (.andThen (.watch (.cell 0) (.log "again")) (.resolve (.cell 0) { number := some 2 }))),
    .onResolve 0 (.forward (.cell 1)),
    .onResolve 1 (.andThen (.unresolve (.cell 0)) (.resolve (.cell 0) { number := some 3 })),
    .newImage]

def tangledStore : Store := tangledCalls.foldl (fun s call => call.run.after s) {}

def tangledRegion : Region := ⟨[.deferred (.int .u8) 1 none, .nested [.mark 0]]⟩

theorem resolution_terminates_tangled :
    Run {} tangledCalls tangledStore ∧ tangledStore.load = 11 ∧
    (∃ n ≤ 11, EndsAfter tangledStore (.settle 0 (.int 1))
      (Store.resolve 0 (.int 1) tangledStore) n) ∧
    ((Store.resolve 0 (.int 1)).after tangledStore).value? 0 = some (.int 3) ∧
    (tangledRegion.flattenStarts 0 .strict .silent tangledStore).map (·.cell) = [0] ∧
    Terminates (tangledRegion.flattenStarts 0 .strict .silent tangledStore) 12 := by
  have hrun : Run {} tangledCalls tangledStore :=
    .cons trivial (.cons trivial (.cons (show 0 < 2 ∧ 0 < 2 ∧ (0 < 2 ∧ True) ∧ 0 < 2 by decide)
      (.cons (show 0 < 2 ∧ 1 < 2 by decide) (.cons (show 1 < 2 ∧ 0 < 2 ∧ 0 < 2 by decide)
        (.cons trivial (.nil _))))))
  have hload : tangledStore.load = 11 := by decide +kernel
  have hgiven : (tangledStore.cell 0).derived = false := by decide +kernel
  obtain ⟨hresolve, -, -, hflatten, -⟩ := resolution_terminates hrun
  have hends := hresolve 0 (.int 1)
  have hterminates := hflatten tangledRegion 0 .strict .silent
  rw [hload] at hterminates
  rw [hload, hgiven] at hends
  exact ⟨hrun, hload, hends, by decide +kernel, by decide +kernel, hterminates⟩

end Backpatch
