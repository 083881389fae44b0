import Mathlib
import Backpatch.Proofs.Cascade
import Backpatch.Proofs.Leaves

/-!
# Executions

A cascade says which changes can follow each other. An execution says exactly what happens:
`Executes s job account errors t` carries a job out in `s`, which fails with `errors` and leaves
`t`, and `account` tells which failures came up on the way and which subscribers ended with what
result, in nested dispatches as well. There is one execution for each job (`Executes.unique`), and
it is what the library does (`executed_settle`), so the bound on nested dispatches makes no
difference (`settle_run`).
-/

namespace Backpatch
open Store Failable

/-- What an execution tells about. -/
inductive Incident where
  /-- A failure came up. -/
  | raised (e : Error)
  /-- A subscriber ended, with or without a failure. Its number in the queue of the cell is zero if
  it ran at once. -/
  | served (c : CellId) (number : Nat) (v : Datum) (failure : Option Error)

/-- What is carried out. -/
inductive Job where
  | settle (c : CellId) (v : Datum)
  | serve (sub : Subscriber) (v : Datum)
  | act (a : Action) (v : Datum)
  /-- Runs the subscribers that waited for the cell. -/
  | queue (c : CellId) (waiting : List (Nat × Subscriber)) (v : Datum)

/-- The action asks for a value that the cell already holds. -/
def Action.confirmed (s : Store) (c : CellId) (w : Datum) : Action → Bool
  | .confirm .. => (s.cell c).holds w
  | _ => false

/-- The store after an action that neither fails nor sets anything off. -/
def Action.effect? (s : Store) (v : Datum) : Action → Option Store
  | .done => some s
  | .log tag => some (s.logged (.delivered tag v))
  | .unresolve t => some ((s.find? t).elim s s.cleared)
  | .watch t a =>
    match s.find? t with
    | none => some s
    | some c => if (s.value? c).isNone then some (s.enqueue c (.act a)) else none
  | .unsubscribe name =>
    match s.subscriptions.lookup name with
    | none => some (s.logged (.cancelled name none))
    | some sub => some ((s.withdrawn sub.cell sub.id).logged
        (.cancelled name (some ((s.cell sub.cell).isQueued sub.id))))
  | .fail _ | .andThen .. => none
  | a@(.forward _) | a@(.resolve ..) | a@(.confirm ..) =>
    match a.assigns? s v with
    | none => some s
    | some (c, w) => if a.confirmed s c w then some s else none

/-- The failure of an action that does nothing else. -/
def Action.fault? (s : Store) (v : Datum) : Action → Option Error
  | .fail e => some e
  | a =>
    match a.assigns? s v with
    | none => none
    | some (c, w) =>
      if (s.cell c).derived && !a.confirmed s c w then some .derivedResolve else none

/-- The store after a subscriber that neither fails nor settles a cell. -/
def Subscriber.effect? (s : Store) (v : Datum) : Subscriber → Option Store
  | .follow target choose =>
    match choose v with
    | .error _ => none
    | .ok inner =>
      if (s.value? inner).isNone then some (s.enqueue inner (.derive target .ok)) else none
  | .minus target kind subtrahend =>
    if (s.value? subtrahend).isNone then
      some (((s.newDerived (.int kind) none).enqueue subtrahend
        (.derive s.cells.size (Datum.difference kind v))).enqueue s.cells.size
          (.derive target .ok))
    else none
  | .patch field =>
    match Store.patch field v s with
    | .ok _ t => some t
    | .error .. => none
  | .derive .. | .act _ => none

/-- The failure of a subscriber that does nothing else. -/
def Subscriber.fault? (s : Store) (v : Datum) : Subscriber → Option Error
  | .derive _ f =>
    match f v with
    | .ok _ => none
    | .error e => some e
  | .follow _ choose =>
    match choose v with
    | .ok _ => none
    | .error e => some e
  | .minus _ kind subtrahend =>
    match s.value? subtrahend with
    | none => none
    | some y =>
      match Datum.difference kind v y with
      | .ok _ => none
      | .error e => some e
  | .patch field =>
    match Store.patch field v s with
    | .ok .. => none
    | .error e _ => some e
  | .act _ => none

def Job.effect? (s : Store) : Job → Option Store
  | .serve sub v => sub.effect? s v
  | .act a v => a.effect? s v
  | .settle .. | .queue .. => none

def Job.fault? (s : Store) : Job → Option Error
  | .settle c v =>
    match s.value? c with
    | none => none
    | some existing => some (.alreadyResolved existing.display v.display)
  | .serve sub v => sub.fault? s v
  | .act a v => a.fault? s v
  | .queue .. => none

/-- Carrying out `job` in `s` fails with `errors` and leaves `t`; `account` tells what happened on
the way. Only the queue of a cell can have more than one failure. -/
inductive Executes : Store → Job → List Incident → List Error → Store → Prop where
  | effect {s t job} (h : job.effect? s = some t) : Executes s job [] [] t
  | fault {s job e} (h : job.fault? s = some e) : Executes s job [.raised e] [e] s
  | settle {s t c v account errors} (hv : s.value? c = none)
      (h : Executes (s.delivered c v) (.queue c (s.cell c).queue v) account errors t) :
      Executes s (.settle c v) account (Error.ofMany? errors).toList t
  | nil {s c v} : Executes s (.queue c [] v) [] [] s
  | cons {s t u c id sub rest v account account' errors errors'}
      (h : Executes s (.serve sub v) account errors t)
      (g : Executes t (.queue c rest v) account' errors' u) :
      Executes s (.queue c ((id, sub) :: rest) v)
        (account ++ .served c id v errors.head? :: account') (errors ++ errors') u
  | derive {s t target f v w account errors} (h : f v = .ok w)
      (g : Executes s (.settle target w) account errors t) :
      Executes s (.serve (.derive target f) v) account errors t
  | follow {s t target choose v inner w account errors} (h : choose v = .ok inner)
      (hw : s.value? inner = some w) (g : Executes s (.settle target w) account errors t) :
      Executes s (.serve (.follow target choose) v)
        (account ++ [.served inner 0 w errors.head?]) errors t
  | minus {s t target kind subtrahend v y w account errors} (hy : s.value? subtrahend = some y)
      (h : Datum.difference kind v y = .ok w)
      (g : Executes (s.newDerived (.int kind) (some w)) (.settle target w) account errors t) :
      Executes s (.serve (.minus target kind subtrahend) v)
        (account ++ [.served s.cells.size 0 w errors.head?]) errors t
  | callback {s t a v account errors} (g : Executes s (.act a v) account errors t) :
      Executes s (.serve (.act a) v) account errors t
  | assign {s t a v c w account errors} (h : a.assigns? s v = some (c, w))
      (hd : (s.cell c).derived = false) (hc : a.confirmed s c w = false)
      (g : Executes s (.settle c w) account errors t) : Executes s (.act a v) account errors t
  | watch {s t target c a v w account errors} (h : s.find? target = some c)
      (hw : s.value? c = some w) (g : Executes s (.act a w) account errors t) :
      Executes s (.act (.watch target a) v) (account ++ [.served c 0 w errors.head?]) errors t
  | andThen {s t u a b v account account' errors} (g : Executes s (.act a v) account [] t)
      (h : Executes t (.act b v) account' errors u) :
      Executes s (.act (.andThen a b) v) (account ++ account') errors u
  | halt {s t a b v account e} (g : Executes s (.act a v) account [e] t) :
      Executes s (.act (.andThen a b) v) account [e] t

/-! ## What a job does by itself -/

section Effects

variable {s t : Store} {v : Datum}

theorem Subscriber.effect?_cases {sub : Subscriber} (h : sub.effect? s v = some t) :
    t.cells = s.cells ∨
    (∃ target choose inner, sub = .follow target choose ∧
      t = s.enqueue inner (.derive target .ok)) ∨
    ∃ target kind subtrahend, sub = .minus target kind subtrahend ∧
      t = ((s.newDerived (.int kind) none).enqueue subtrahend
        (.derive s.cells.size (Datum.difference kind v))).enqueue s.cells.size
          (.derive target .ok) := by
  cases sub with
  | derive | act => simp [effect?] at h
  | follow target choose =>
    cases hc : choose v with
    | error => simp [effect?, hc] at h
    | ok inner =>
      simp only [effect?, hc, Option.ite_none_right_eq_some, Option.some.injEq] at h
      exact .inr (.inl ⟨target, choose, inner, rfl, h.2.symm⟩)
  | minus target kind subtrahend =>
    simp only [effect?, Option.ite_none_right_eq_some, Option.some.injEq] at h
    exact .inr (.inr ⟨target, kind, subtrahend, rfl, h.2.symm⟩)
  | patch field =>
    simp only [effect?] at h
    obtain ⟨-, hsame⟩ | ⟨p, bs, -, -, -, hok⟩ := patch_cases s 0 field v
    · cases hp : Store.patch field v s with
      | error => simp [hp] at h
      | ok _ u =>
        simp only [hp, Option.some.injEq] at h
        exact .inl (by rw [← h, ← after_of_ok hp, hsame])
    · simp only [hok, Option.some.injEq] at h
      exact .inl (h ▸ rfl)

theorem Action.effect?_cases {a : Action} (h : a.effect? s v = some t) :
    t.cells = s.cells ∨
    (∃ target b c, a = .watch target b ∧ t = s.enqueue c (.act b)) ∨
    (∃ c, t = s.cleared c) ∨
    ∃ c id entry, t = (s.withdrawn c id).logged entry := by
  cases a with
  | done | log =>
    simp only [effect?, Option.some.injEq] at h
    exact .inl (h ▸ rfl)
  | fail | andThen => simp [effect?] at h
  | unresolve target =>
    simp only [effect?, Option.some.injEq] at h
    cases hf : s.find? target with
    | none => exact .inl (by simp [← h, hf])
    | some c => exact .inr (.inr (.inl ⟨c, by simp [← h, hf]⟩))
  | watch target b =>
    cases hf : s.find? target with
    | none =>
      simp only [effect?, hf, Option.some.injEq] at h
      exact .inl (h ▸ rfl)
    | some c =>
      simp only [effect?, hf, Option.ite_none_right_eq_some, Option.some.injEq] at h
      exact .inr (.inl ⟨target, b, c, rfl, h.2.symm⟩)
  | unsubscribe name =>
    cases hn : s.subscriptions.lookup name with
    | none =>
      simp only [effect?, hn, Option.some.injEq] at h
      exact .inl (h ▸ rfl)
    | some sub =>
      simp only [effect?, hn, Option.some.injEq] at h
      exact .inr (.inr (.inr ⟨_, _, _, h.symm⟩))
  | forward | resolve | confirm =>
    simp only [effect?] at h
    split at h
    · exact .inl (Option.some.inj h ▸ rfl)
    · simp only [Option.ite_none_right_eq_some, Option.some.injEq] at h
      exact .inl (h.2 ▸ rfl)

end Effects

/-! ## There is one execution -/

section Unique

variable {s t t' : Store} {job : Job} {account account' : List Incident}
  {errors errors' : List Error} {e : Error}

/-- An action that assigns a value does so at once, or is refused, or sets the cell off. -/
theorem Action.of_assigns {a : Action} {v w : Datum} {c : CellId}
    (h : a.assigns? s v = some (c, w)) :
    a.effect? s v = (if a.confirmed s c w then some s else none) ∧
      a.fault? s v =
        if (s.cell c).derived && !a.confirmed s c w then some .derivedResolve else none := by
  cases a with
  | forward | resolve | confirm => exact ⟨by simp [effect?, h], by simp [fault?, h]⟩
  | _ => simp [assigns?] at h

theorem Action.fault?_of_effect {a : Action} {v : Datum} (h : a.effect? s v = some t) :
    a.fault? s v = none := by
  cases ha : a.assigns? s v with
  | some p =>
    obtain ⟨he, hf⟩ := Action.of_assigns (c := p.1) (w := p.2) ha
    rw [he] at h
    rw [hf]
    split_ifs at h with hc
    simp [hc]
  | none =>
    cases a with
    | fail => simp [effect?] at h
    | _ => simp [fault?, ha]

theorem Subscriber.fault?_of_effect {sub : Subscriber} {v : Datum}
    (h : sub.effect? s v = some t) : sub.fault? s v = none := by
  cases sub with
  | derive | act => simp [effect?] at h
  | follow target choose =>
    cases hc : choose v with
    | ok => simp [fault?, hc]
    | error => simp [effect?, hc] at h
  | minus target kind subtrahend =>
    cases hy : s.value? subtrahend with
    | none => simp [fault?, hy]
    | some => simp [effect?, hy] at h
  | patch field =>
    cases hp : Store.patch field v s with
    | ok => simp [fault?, hp]
    | error => simp [effect?, hp] at h

theorem Job.fault?_of_effect (h : job.effect? s = some t) : job.fault? s = none := by
  cases job with
  | settle | queue => simp [effect?] at h
  | serve => exact Subscriber.fault?_of_effect h
  | act => exact Action.fault?_of_effect h

theorem Executes.of_effect (he : job.effect? s = some t) (h : Executes s job account errors t') :
    account = [] ∧ errors = [] ∧ t' = t := by
  cases h with
  | effect h => exact ⟨rfl, rfl, Option.some.inj (h.symm.trans he)⟩
  | fault h => simp [Job.fault?_of_effect he] at h
  | settle | nil | cons => simp [Job.effect?] at he
  | derive | callback => simp [Job.effect?, Subscriber.effect?] at he
  | follow h hw => simp [Job.effect?, Subscriber.effect?, h, hw] at he
  | minus hy => simp [Job.effect?, Subscriber.effect?, hy] at he
  | assign h hd hc => simp [Job.effect?, (Action.of_assigns h).1, hc] at he
  | watch h hw => simp [Job.effect?, Action.effect?, h, hw] at he
  | andThen | halt => simp [Job.effect?, Action.effect?] at he

theorem Executes.of_fault (hf : job.fault? s = some e) (h : Executes s job account errors t') :
    account = [.raised e] ∧ errors = [e] ∧ t' = s := by
  cases h with
  | effect h => simp [Job.fault?_of_effect h] at hf
  | fault h =>
    obtain rfl := Option.some.inj (h.symm.trans hf)
    exact ⟨rfl, rfl, rfl⟩
  | settle hv => simp [Job.fault?, hv] at hf
  | nil | cons => simp [Job.fault?] at hf
  | derive h => simp [Job.fault?, Subscriber.fault?, h] at hf
  | callback => simp [Job.fault?, Subscriber.fault?] at hf
  | follow h hw => simp [Job.fault?, Subscriber.fault?, h] at hf
  | minus hy h => simp [Job.fault?, Subscriber.fault?, hy, h] at hf
  | assign h hd hc => simp [Job.fault?, (Action.of_assigns h).2, hd] at hf
  | watch | andThen | halt => simp [Job.fault?, Action.fault?, Action.assigns?] at hf

/-- A job is carried out in one way. -/
theorem Executes.unique (h : Executes s job account errors t)
    (g : Executes s job account' errors' t') : account = account' ∧ errors = errors' ∧ t = t' := by
  induction h generalizing account' errors' t' with
  | effect he =>
    obtain ⟨rfl, rfl, rfl⟩ := g.of_effect he
    exact ⟨rfl, rfl, rfl⟩
  | fault hf =>
    obtain ⟨rfl, rfl, rfl⟩ := g.of_fault hf
    exact ⟨rfl, rfl, rfl⟩
  | settle hv _ ih =>
    cases g with
    | effect he => simp [Job.effect?] at he
    | fault hf => simp [Job.fault?, hv] at hf
    | settle _ g =>
      obtain ⟨rfl, rfl, rfl⟩ := ih g
      exact ⟨rfl, rfl, rfl⟩
  | nil =>
    cases g with
    | effect he => simp [Job.effect?] at he
    | fault hf => simp [Job.fault?] at hf
    | nil => exact ⟨rfl, rfl, rfl⟩
  | cons _ _ ih ih' =>
    cases g with
    | effect he => simp [Job.effect?] at he
    | fault hf => simp [Job.fault?] at hf
    | cons g g' =>
      obtain ⟨rfl, rfl, rfl⟩ := ih g
      obtain ⟨rfl, rfl, rfl⟩ := ih' g'
      exact ⟨rfl, rfl, rfl⟩
  | derive h _ ih =>
    cases g with
    | effect he => simp [Job.effect?, Subscriber.effect?] at he
    | fault hf => simp [Job.fault?, Subscriber.fault?, h] at hf
    | derive h' g =>
      obtain rfl := Except.ok.inj (h.symm.trans h')
      exact ih g
  | follow h hw _ ih =>
    cases g with
    | effect he => simp [Job.effect?, Subscriber.effect?, h, hw] at he
    | fault hf => simp [Job.fault?, Subscriber.fault?, h] at hf
    | follow h' hw' g =>
      obtain rfl := Except.ok.inj (h.symm.trans h')
      obtain rfl := Option.some.inj (hw.symm.trans hw')
      obtain ⟨rfl, rfl, rfl⟩ := ih g
      exact ⟨rfl, rfl, rfl⟩
  | minus hy h _ ih =>
    cases g with
    | effect he => simp [Job.effect?, Subscriber.effect?, hy] at he
    | fault hf => simp [Job.fault?, Subscriber.fault?, hy, h] at hf
    | minus hy' h' g =>
      obtain rfl := Option.some.inj (hy.symm.trans hy')
      obtain rfl := Except.ok.inj (h.symm.trans h')
      obtain ⟨rfl, rfl, rfl⟩ := ih g
      exact ⟨rfl, rfl, rfl⟩
  | callback _ ih =>
    cases g with
    | effect he => simp [Job.effect?, Subscriber.effect?] at he
    | fault hf => simp [Job.fault?, Subscriber.fault?] at hf
    | callback g => exact ih g
  | assign h hd hc _ ih =>
    cases g with
    | effect he => simp [Job.effect?, (Action.of_assigns h).1, hc] at he
    | fault hf => simp [Job.fault?, (Action.of_assigns h).2, hd] at hf
    | assign h' _ _ g =>
      cases Option.some.inj (h.symm.trans h')
      exact ih g
    | watch | andThen | halt => simp [Action.assigns?] at h
  | watch h hw _ ih =>
    cases g with
    | effect he => simp [Job.effect?, Action.effect?, h, hw] at he
    | fault hf => simp [Job.fault?, Action.fault?, Action.assigns?] at hf
    | assign h' => simp [Action.assigns?] at h'
    | watch h' hw' g =>
      obtain rfl := Option.some.inj (h.symm.trans h')
      obtain rfl := Option.some.inj (hw.symm.trans hw')
      obtain ⟨rfl, rfl, rfl⟩ := ih g
      exact ⟨rfl, rfl, rfl⟩
  | andThen _ _ ih ih' =>
    cases g with
    | effect he => simp [Job.effect?, Action.effect?] at he
    | fault hf => simp [Job.fault?, Action.fault?, Action.assigns?] at hf
    | assign h => simp [Action.assigns?] at h
    | andThen g g' =>
      obtain ⟨rfl, -, rfl⟩ := ih g
      obtain ⟨rfl, rfl, rfl⟩ := ih' g'
      exact ⟨rfl, rfl, rfl⟩
    | halt g => simpa using (ih g).2.1
  | halt _ ih =>
    cases g with
    | effect he => simp [Job.effect?, Action.effect?] at he
    | fault hf => simp [Job.fault?, Action.fault?, Action.assigns?] at hf
    | assign h => simp [Action.assigns?] at h
    | andThen g => simpa using (ih g).2.1
    | halt g => exact ih g

end Unique

/-! ## The library executes jobs -/

/-- The result of an operation that fails with the first of the errors, if there is one. -/
def report (errors : List Error) (t : Store) : EStateM.Result Error Store Unit :=
  match errors with
  | [] => .ok () t
  | e :: _ => .error e t

/-- The result is that of carrying out the job. -/
def Executed (s : Store) (job : Job) (r : EStateM.Result Error Store Unit) : Prop :=
  ∃ account errors t, Executes s job account errors t ∧ r = report errors t

section Library

variable {s t : Store} {job : Job} {account : List Incident} {errors : List Error} {e : Error}
  {r r' : EStateM.Result Error Store Unit} {n : Nat} {settle : CellId → Datum → Op Unit}

theorem Executed.of_effect (h : job.effect? s = some t) (hr : r = .ok () t) : Executed s job r :=
  ⟨[], [], t, .effect h, hr⟩

theorem Executed.of_fault (h : job.fault? s = some e) (hr : r = .error e s) : Executed s job r :=
  ⟨[.raised e], [e], s, .fault h, hr⟩

theorem Executed.unique (h : Executed s job r) (h' : Executed s job r') : r = r' := by
  obtain ⟨account, errors, t, hx, rfl⟩ := h
  obtain ⟨account', errors', t', hx', rfl⟩ := h'
  obtain ⟨-, rfl, rfl⟩ := hx.unique hx'
  rfl

/-- All jobs but those of a queue have one failure at most. -/
theorem Executes.length_errors_le (h : Executes s job account errors t) :
    (∀ c waiting v, job ≠ .queue c waiting v) → errors.length ≤ 1 := by
  induction h with
  | effect => simp
  | fault | halt => simp
  | @settle _ _ _ _ _ errors =>
    intro _
    cases Error.ofMany? errors <;> simp
  | nil | cons => exact fun h => absurd rfl (h _ _ _)
  | derive _ _ ih | follow _ _ _ ih | minus _ _ _ ih | callback _ ih | assign _ _ _ _ ih
  | watch _ _ _ ih | andThen _ _ _ ih => exact fun _ => ih (by simp)

/-- Settling by `settle` carries out the job, as long as less than `n` is waiting. -/
def Faithful (settle : CellId → Datum → Op Unit) (n : Nat) : Prop :=
  ∀ c v s, s.load ≤ s.issued → s.load < n → Executed s (.settle c v) (settle c v s)

theorem executed_resolveBy (hs : Faithful settle n) {a : Action} {c : CellId} {v w : Datum}
    (ha : a.assigns? s v = some (c, w)) (hc : a.confirmed s c w = false)
    (hi : s.load ≤ s.issued) (h : s.load < n) :
    Executed s (.act a v) (resolveBy settle c w s) := by
  by_cases hd : (s.cell c).derived = true
  · exact .of_fault (e := .derivedResolve)
      (by simp [Job.fault?, (Action.of_assigns ha).2, hd, hc]) (by simp [resolveBy, hd])
  · obtain ⟨account, errors, t, hx, hr⟩ := hs c w s hi h
    exact ⟨account, errors, t, .assign ha (by simpa using hd) hc hx,
      by simpa [resolveBy, hd] using hr⟩

theorem executed_confirmBy (hs : Faithful settle n) {t : Target} {w : Literal} {c : CellId}
    {v x : Datum} (ha : (Action.confirm t w).assigns? s v = some (c, x)) (hi : s.load ≤ s.issued)
    (h : s.load < n) : Executed s (.act (.confirm t w) v) (confirmBy settle c x s) := by
  cases hh : (s.cell c).holds x with
  | true =>
    exact .of_effect (t := s)
      (by simp [Job.effect?, (Action.of_assigns ha).1, Action.confirmed, hh])
      (by simp [confirmBy, hh])
  | false =>
    have hrun : confirmBy settle c x s = resolveBy settle c x s := by simp [confirmBy, hh]
    rw [hrun]
    exact executed_resolveBy hs ha hh hi h

theorem executed_runAction (hs : Faithful settle n) (hc : Cascades settle n) (a : Action)
    (v : Datum) (s : Store) (hi : s.load ≤ s.issued) (h : s.load + a.weight < n) :
    Executed s (.act a v) (runAction settle a v s) := by
  induction a generalizing v s with
  | done | log => exact .of_effect rfl rfl
  | fail e => exact .of_fault rfl rfl
  | forward t =>
    simp only [runAction, bind_run, get_run]
    cases hf : s.find? t with
    | none => exact .of_effect (by simp [Job.effect?, Action.effect?, Action.assigns?, hf]) rfl
    | some c => exact executed_resolveBy hs (by simp [Action.assigns?, hf]) rfl hi (by omega)
  | resolve t w =>
    simp only [runAction, bind_run, get_run]
    cases hf : s.find? t with
    | none => exact .of_effect (by simp [Job.effect?, Action.effect?, Action.assigns?, hf]) rfl
    | some c =>
      simp only [bind_run, kindOf_run]
      cases hw : w.read (s.kind c) with
      | none =>
        exact .of_effect (by simp [Job.effect?, Action.effect?, Action.assigns?, hf, hw]) rfl
      | some x =>
        exact executed_resolveBy hs (by simp [Action.assigns?, hf, hw]) rfl hi (by omega)
  | confirm t w =>
    simp only [runAction, bind_run, get_run]
    cases hf : s.find? t with
    | none => exact .of_effect (by simp [Job.effect?, Action.effect?, Action.assigns?, hf]) rfl
    | some c =>
      simp only [bind_run, kindOf_run]
      cases hw : w.read (s.kind c) with
      | none =>
        exact .of_effect (by simp [Job.effect?, Action.effect?, Action.assigns?, hf, hw]) rfl
      | some x => exact executed_confirmBy hs (by simp [Action.assigns?, hf, hw]) hi (by omega)
  | unresolve t =>
    simp only [runAction, bind_run, get_run]
    cases hf : s.find? t with
    | none => exact .of_effect (by simp [Job.effect?, Action.effect?, hf]) rfl
    | some c =>
      exact .of_effect (t := s.cleared c) (by simp [Job.effect?, Action.effect?, hf]) rfl
  | watch t a ih =>
    simp only [runAction, bind_run, get_run]
    cases hf : s.find? t with
    | none => exact .of_effect (by simp [Job.effect?, Action.effect?, hf]) rfl
    | some c =>
      simp only [bind_run, valueOf_run]
      cases hw : s.value? c with
      | none =>
        exact .of_effect (t := s.enqueue c (.act a))
          (by simp [Job.effect?, Action.effect?, hf, hw]) rfl
      | some w =>
        simp only [Action.weight] at h
        obtain ⟨account, errors, t, hx, hr⟩ := ih w s hi (by omega)
        exact ⟨_, errors, t, .watch hf hw hx, hr⟩
  | unsubscribe name =>
    simp only [runAction, bind_run, get_run]
    cases hn : s.subscriptions.lookup name with
    | none =>
      exact .of_effect (t := s.logged (.cancelled name none))
        (by simp [Job.effect?, Action.effect?, hn]) rfl
    | some sub =>
      exact .of_effect (t := (s.withdrawn sub.cell sub.id).logged
          (.cancelled name (some ((s.cell sub.cell).isQueued sub.id))))
        (by simp [Job.effect?, Action.effect?, hn]) rfl
  | andThen a b iha ihb =>
    simp only [Action.weight] at h
    obtain ⟨account, errors, t, hx, hr⟩ := iha v s hi (by omega)
    obtain ⟨hcascade, hl⟩ := cascade_runAction hc a v s hi (by omega)
    simp only [runAction, bind_run, hr]
    cases errors with
    | nil =>
      rw [after_of_ok hr] at hcascade hl
      obtain ⟨account', errors', u, hx', hr'⟩ := ihb v t (hcascade.load_le hi) (by omega)
      exact ⟨_, errors', u, .andThen hx hx', hr'⟩
    | cons e es =>
      obtain rfl : es = [] := by
        simpa using hx.length_errors_le (by simp)
      exact ⟨account, [e], t, .halt hx, rfl⟩

theorem executed_connect (hs : Faithful settle n) {inner : CellId} (target : CellId) {w : Datum}
    (hw : s.value? inner = some w) (hi : s.load ≤ s.issued) (h : s.load < n) :
    ∃ account errors t, Executes s (.settle target w) account errors t ∧
      connect settle inner target s = report errors t := by
  obtain ⟨account, errors, t, hx, hr⟩ := hs target w s hi h
  exact ⟨account, errors, t, hx, by simpa [connect, hw] using hr⟩

theorem executed_runSubscriber (hs : Faithful settle n) (hc : Cascades settle n)
    (sub : Subscriber) (v : Datum) (s : Store) (hi : s.load ≤ s.issued)
    (h : s.load + sub.weight ≤ n) : Executed s (.serve sub v) (runSubscriber settle sub v s) := by
  cases sub with
  | derive target f =>
    simp only [Subscriber.weight, runSubscriber, bind_run] at h ⊢
    cases hf : f v with
    | error e => exact .of_fault (by simp [Job.fault?, Subscriber.fault?, hf]) rfl
    | ok w =>
      obtain ⟨account, errors, t, hx, hr⟩ := hs target w s hi (by omega)
      exact ⟨account, errors, t, .derive hf hx, hr⟩
  | follow target choose =>
    simp only [Subscriber.weight, runSubscriber, bind_run] at h ⊢
    cases hf : choose v with
    | error e => exact .of_fault (by simp [Job.fault?, Subscriber.fault?, hf]) rfl
    | ok inner =>
      simp only [ofExcept_ok_run]
      cases hw : s.value? inner with
      | none =>
        exact .of_effect (t := s.enqueue inner (.derive target .ok))
          (by simp [Job.effect?, Subscriber.effect?, hf, hw]) (by simp [connect, hw])
      | some w =>
        obtain ⟨account, errors, t, hx, hr⟩ := executed_connect hs target hw hi (by omega)
        exact ⟨_, errors, t, .follow hf hw hx, hr⟩
  | minus target kind subtrahend =>
    simp only [Subscriber.weight, runSubscriber, bind_run, tryMap_run] at h ⊢
    cases hy : s.value? subtrahend with
    | none =>
      -- The new cell waits for the subtrahend, and the target for the new cell.
      let t := (s.newDerived (.int kind) none).enqueue subtrahend
        (.derive s.cells.size (Datum.difference kind v))
      have hn : (s.newDerived (.int kind) none).value? s.cells.size = none := by
        simp [value?_newDerived]
      exact .of_effect (t := t.enqueue s.cells.size (.derive target .ok))
        (by simp [Job.effect?, Subscriber.effect?, hy, t]) (by simp [connect, hn, t])
    | some y =>
      cases hd : Datum.difference kind v y with
      | error e =>
        simp only [hd]
        exact .of_fault (by simp [Job.fault?, Subscriber.fault?, hy, hd]) rfl
      | ok w =>
        have hn : (s.newDerived (.int kind) (some w)).value? s.cells.size = some w := by
          simp [value?_newDerived]
        obtain ⟨account, errors, t, hx, hr⟩ := executed_connect hs target hn
          ((load_newDerived ..).le.trans hi) (by
            rw [load_newDerived]
            omega)
        simp only [hd]
        exact ⟨_, errors, t, .minus hy hd hx, hr⟩
  | patch field =>
    simp only [runSubscriber]
    cases hp : Store.patch field v s with
    | ok _ t => exact .of_effect (by simp [Job.effect?, Subscriber.effect?, hp]) rfl
    | error e t =>
      obtain rfl : t = s := by
        obtain ⟨-, hs⟩ | ⟨_, _, _, _, _, hok⟩ := patch_cases s 0 field v
        · exact (after_of_error hp).symm.trans hs
        · cases hp.symm.trans hok
      exact .of_fault (by simp [Job.fault?, Subscriber.fault?, hp]) rfl
  | act a =>
    simp only [Subscriber.weight] at h
    obtain ⟨account, errors, t, hx, hr⟩ := executed_runAction hs hc a v s hi (by omega)
    exact ⟨account, errors, t, .callback hx, hr⟩

theorem executed_runQueue (hs : Faithful settle n) (hc : Cascades settle n) (c : CellId)
    (v : Datum) (waiting : List (Nat × Subscriber)) (s : Store) (hi : s.load ≤ s.issued)
    (h : s.load + (waiting.map fun q => q.2.weight).sum ≤ n) :
    ∃ account errors t, Executes s (.queue c waiting v) account errors t ∧
      runQueue settle waiting v s = .ok errors t := by
  induction waiting generalizing s with
  | nil => exact ⟨[], [], s, .nil, rfl⟩
  | cons q waiting ih =>
    simp only [List.map_cons, List.sum_cons] at h
    obtain ⟨account, errors, t, hx, hr⟩ := executed_runSubscriber hs hc q.2 v s hi (by omega)
    obtain ⟨hcascade, hl⟩ := cascade_runSubscriber hc c q.2 v s hi (by omega)
    have hlength := hx.length_errors_le (by simp)
    have hfirst : failures (runSubscriber settle q.2 v) s = .ok errors t ∧
        (runSubscriber settle q.2 v).after s = t := by
      match errors with
      | [] => exact ⟨by simp [failures, hr, report], after_of_ok hr⟩
      | [e] => exact ⟨by simp [failures, hr, report], after_of_error hr⟩
      | _ :: _ :: _ => simp at hlength
    rw [hfirst.2] at hcascade hl
    obtain ⟨account', errors', u, hx', hr'⟩ := ih t (hcascade.load_le hi) (by omega)
    exact ⟨_, _, u, .cons hx hx', by simp [runQueue, hfirst.1, hr']⟩

theorem raise_run (errors : List Error) (t : Store) :
    (raise errors : Op Unit) t = report (Error.ofMany? errors).toList t := by
  unfold raise
  cases Error.ofMany? errors <;> rfl

theorem faithful_settleWithin (n : Nat) : Faithful (settleWithin n) n := by
  induction n with
  | zero => exact fun _ _ _ _ h => absurd h (Nat.not_lt_zero _)
  | succ n ih =>
    intro c v s hi h
    simp only [settleWithin, bind_run, valueOf_run]
    cases hv : s.value? c with
    | some w => exact .of_fault (by simp [Job.fault?, hv]) rfl
    | none =>
      have hl := load_delivered s c v
      obtain ⟨account, errors, t, hx, hr⟩ := executed_runQueue ih (cascades_settleWithin n) c v
        (s.cell c).queue (s.delivered c v) (Nat.le_trans (by omega) hi) (by
          simp only [Cell.total] at hl
          omega)
      exact ⟨account, _, t, .settle hv hx, by simp [hr, raise_run]⟩

/-- Settling a cell carries out the job: the bound with which it starts is never reached. -/
theorem executed_settle (c : CellId) (v : Datum) (hi : s.load ≤ s.issued) :
    Executed s (.settle c v) (Store.settle c v s) :=
  faithful_settleWithin (s.issued + 1) c v s hi (by omega)

theorem faithful_settle (n : Nat) : Faithful Store.settle n := fun c v _ hi _ =>
  executed_settle c v hi

/-- A pending cell gets its value, and then its queue runs. Subscribers settle other cells in the
same way, to any depth. -/
theorem settle_run {c : CellId} (v : Datum) (hi : s.load ≤ s.issued) (hv : s.value? c = none) :
    Store.settle c v s =
      (runQueue Store.settle (s.cell c).queue v >>= raise) (s.delivered c v) := by
  have hl := load_delivered s c v
  obtain ⟨account, errors, t, hx, hr⟩ := executed_runQueue (faithful_settle _) (cascades_settle _)
    c v (s.cell c).queue (s.delivered c v) (Nat.le_trans (by omega) hi) le_rfl
  exact (executed_settle c v hi).unique
    ⟨account, _, t, .settle hv hx, by simp [hr, raise_run]⟩

end Library

/-! ## The failures of an execution -/

/-- The single failures that came up. -/
def Incident.leaves : Incident → List Error
  | .raised e => e.leaves
  | .served .. => []

section Failures

variable {s t : Store} {job : Job} {account : List Incident} {errors : List Error}

/-- An execution fails with what came up on the way, in order, and with nothing else. -/
theorem Executes.leaves (h : Executes s job account errors t) :
    account.flatMap Incident.leaves = errors.flatMap Error.leaves := by
  induction h with
  | effect | nil => rfl
  | fault => simp [Incident.leaves]
  | settle _ _ ih => exact ih.trans (Error.leaves_ofMany? _).symm
  | cons _ _ ih ih' => simp [Incident.leaves, ih, ih']
  | derive _ _ ih | callback _ ih | assign _ _ _ _ ih | halt _ ih => exact ih
  | follow _ _ _ ih | minus _ _ _ ih | watch _ _ _ ih => simp [Incident.leaves, ih]
  | andThen _ _ ih ih' => simp [ih, ih']

/-- What a subscriber failed with came up on the way. -/
theorem Executes.leaves_served (h : Executes s job account errors t) {c : CellId} {id : Nat}
    {v : Datum} {e : Error} (hx : .served c id v (some e) ∈ account) :
    e.leaves ⊆ account.flatMap Incident.leaves := by
  have last : ∀ {s t job account errors}, Executes s job account errors t →
      some e = errors.head? → e.leaves ⊆ account.flatMap Incident.leaves := by
    intro s t job account errors h he
    rw [h.leaves]
    intro x hx
    exact List.mem_flatMap.2 ⟨e, List.mem_of_head? he.symm, hx⟩
  induction h with
  | effect | fault | nil => simp at hx
  | settle _ _ ih | derive _ _ ih | callback _ ih | assign _ _ _ _ ih | halt _ ih => exact ih hx
  | cons h _ ih ih' =>
    rw [List.flatMap_append, List.flatMap_cons]
    obtain hx | hx := List.mem_append.1 hx
    · exact List.subset_append_of_subset_left _ (ih hx)
    · obtain hx | hx := List.mem_cons.1 hx
      · exact List.subset_append_of_subset_left _ (last h (Incident.served.inj hx).2.2.2)
      · exact List.subset_append_of_subset_right _ (ih' hx)
  | follow _ _ h ih | minus _ _ h ih | watch _ _ h ih =>
    rw [List.flatMap_append]
    refine List.subset_append_of_subset_left _ ?_
    obtain hx | hx := List.mem_append.1 hx
    · exact ih hx
    · exact last h (Incident.served.inj (List.mem_singleton.1 hx)).2.2.2
  | andThen _ _ ih ih' =>
    rw [List.flatMap_append]
    obtain hx | hx := List.mem_append.1 hx
    · exact List.subset_append_of_subset_left _ (ih hx)
    · exact List.subset_append_of_subset_right _ (ih' hx)

end Failures

end Backpatch
