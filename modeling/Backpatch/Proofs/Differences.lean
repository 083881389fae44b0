import Mathlib
import Backpatch.Proofs.Unreferenced

/-!
# Differences

The operands of a difference get their values, and the difference itself is made, in any order.
Until it is computed, it waits for an operand, either itself (`Direct`) or behind a cell that was
made on the way (`Nested`). Nobody knows these cells, so the other subscribers of the operands can
do what they like, as long as they leave the operands alone: the wait goes on (`Direct.steady`,
`Nested.steady`). The step that brings the last missing value computes the difference
(`Direct.resolve_last`, `Nested.resolve_last`), or fails as this does; then nothing can settle the
difference any more (`Computed.unsettleable`).
-/

namespace Backpatch

open Store Failable

/-! ## Those who wait for the operands -/

/-- The subscriber settles one of the `results`, itself or through a cell for which one of them
waits. -/
def Subscriber.Serves (s : Store) (results : List CellId) (sub : Subscriber) : Prop :=
  ∃ t, sub.target? = some t ∧ (t ∈ results ∨
    ∃ q ∈ (s.cell t).queue, ∃ d ∈ results, q.2.target? = some d)

/-- A difference, and the values that its operands are going to get. -/
structure Subtraction where
  kind : IntKind
  minuend : CellId
  subtrahend : CellId
  x : Int
  y : Int

namespace Subtraction

/-- The steps of a subtraction: both operands get their values, and the difference is made. -/
inductive Part where
  | minuend
  | subtrahend
  | difference

def operands (m : Subtraction) : List CellId := [m.minuend, m.subtrahend]

def call (m : Subtraction) : Part → Call
  | .minuend => .resolve m.minuend (.int m.x)
  | .subtrahend => .resolve m.subtrahend (.int m.y)
  | .difference => .subtract m.kind m.minuend m.subtrahend

/-- The subscriber succeeds and leaves the operands alone: they have the same values as before, and
those who serve the results still wait for them. -/
structure LeavesOperands (m : Subtraction) (results : List CellId) (v : Datum) (x : Serving) :
    Prop where
  success : x.failure = none
  values : ∀ c ∈ m.operands, (x.finish v).value? c = x.start.value? c
  queues : ∀ c ∈ m.operands, ∀ q ∈ (x.start.cell c).queue, q.2.Serves x.start results →
    q ∈ ((x.finish v).cell c).queue

/-- When `c` gets the value `v`, all those in its queue that do not serve the results themselves
succeed and leave the operands alone. -/
def Undisturbed (m : Subtraction) (results : List CellId) (c : CellId) (v : Datum) (s : Store) :
    Prop :=
  ∀ x ∈ servings v (s.cell c).queue (s.delivered c v),
    x.subscriber.Serves x.start results ∨ m.LeavesOperands results v x

/-- Nobody disturbs the step. -/
def StepUndisturbed (m : Subtraction) (results : List CellId) (s : Store) : Part → Prop
  | .minuend => m.Undisturbed results m.minuend (.int m.x) s
  | .subtrahend => m.Undisturbed results m.subtrahend (.int m.y) s
  | .difference => True

/-- The operands exist and are plain cells, and `known` tells which values they have. -/
structure Known (m : Subtraction) (known : CellId → Option Datum) (s : Store) : Prop where
  exist : ∀ c ∈ m.operands, c < s.cells.size
  plain : ∀ c ∈ m.operands, (s.cell c).derived = false
  values : ∀ c ∈ m.operands, s.value? c = known c

/-- Whoever runs while `J` holds does not serve the results; and if it leaves the operands alone,
then `J` holds of the store and the tasks that are left. -/
def Steady (m : Subtraction) (results : List CellId) (known : CellId → Option Datum)
    (J : Store → List Task → Prop) : Prop :=
  ∀ {c : CellId} {v : Datum} {j k : List Task} (x : Serving),
    Maintained x.start (.notify c x.subscriber v :: j) → m.Known known x.start →
    J x.start (.notify c x.subscriber v :: k) → ¬ x.subscriber.Serves x.start results ∧
      (m.LeavesOperands results v x → J (x.finish v) k)

section Steady

variable {m : Subtraction} {known : CellId → Option Datum} {results : List CellId} {s u : Store}
  {c : CellId} {v : Datum} {j k : List Task} {J J' : Store → List Task → Prop}

theorem Known.grows {t : Store} (h : m.Known known s) (hg : Grows s t)
    (hv : ∀ c ∈ m.operands, t.value? c = s.value? c) : m.Known known t where
  exist c hc := (h.exist c hc).trans_le hg.cells
  plain c hc := (hg.derived c (h.exist c hc)).trans (h.plain c hc)
  values c hc := (hv c hc).trans (h.values c hc)

theorem Known.delivered (h : m.Known known s) (hc : c ∈ m.operands) (v : Datum) :
    m.Known (Function.update known c (some v)) (s.delivered c v) where
  exist d hd := by simpa using h.exist d hd
  plain d hd := by simpa using h.plain d hd
  values d hd := by
    rw [value?_delivered s c d v (h.exist c hc), Function.update_apply, h.values d hd]

/-- The others run one after another, and nothing comes of it. -/
theorem Steady.serve {waiting : List (Nat × Subscriber)} (hJ : m.Steady results known J)
    (hm : Maintained u (notices c v waiting ++ j)) (hk : m.Known known u)
    (h : J u (notices c v waiting ++ k))
    (hb : ∀ x ∈ servings v waiting u,
      x.subscriber.Serves x.start results ∨ m.LeavesOperands results v x) :
    (servings v waiting u).filterMap Serving.failure = [] ∧ Maintained (served v waiting u) j ∧
      m.Known known (served v waiting u) ∧ J (served v waiting u) k := by
  induction waiting generalizing u with
  | nil => exact ⟨rfl, hm, hk, h⟩
  | cons q rest ih =>
    obtain ⟨hnot, hkeep⟩ := hJ ⟨q.1, q.2, u, failureOf q.2 v u⟩ hm hk h
    have hleaves := (hb _ (.head _)).resolve_left hnot
    have hgrows := Maintained.grows_serve hm
    obtain ⟨hquiet, hrest⟩ := ih (Maintained.serve hm).2 (hk.grows hgrows hleaves.values)
      (hkeep hleaves) fun x hx => hb x (.tail _ hx)
    refine ⟨?_, hrest⟩
    have hsuccess : failureOf q.2 v u = none := hleaves.success
    simp [servings, hsuccess, hquiet]

/-- A cell gets its value and no one in its queue serves the results. -/
theorem Steady.resolve (hJ : m.Steady results (Function.update known c (some v)) J)
    (hs : Maintained s []) (hk : m.Known known s) (hc : c ∈ m.operands) (hpending : known c = none)
    (h : J (s.delivered c v) (notices c v (s.cell c).queue))
    (hundisturbed : m.Undisturbed results c v s) :
    ∃ t, Store.resolve c v s = .ok () t ∧ Maintained t [] ∧
      m.Known (Function.update known c (some v)) t ∧ J t [] := by
  have hd := hk.plain c hc
  have hv := (hk.values c hc).trans hpending
  have hdelivered := hs.delivered (hk.exist c hc) hd hv v
  obtain ⟨hquiet, hrest⟩ := hJ.serve (c := c) (j := []) (k := []) (by simpa using hdelivered)
    (hk.delivered hc v) (by simpa using h) hundisturbed
  exact ⟨_, by rw [hs.resolve_run hd hv, hquiet]; rfl, hrest⟩

/-- A cell gets its value and one in its queue serves the results, in the midst of others. -/
theorem Steady.resolve_own {before later : List (Nat × Subscriber)} {q : Nat × Subscriber}
    {failure : Option Error} (hJ : m.Steady results (Function.update known c (some v)) J)
    (hJ' : m.Steady results (Function.update known c (some v)) J') (hs : Maintained s [])
    (hk : m.Known known s) (hc : c ∈ m.operands) (hpending : known c = none)
    (hqueue : (s.cell c).queue = before ++ q :: later)
    (h : J (s.delivered c v) (notices c v (before ++ later)))
    (hrun : ∀ w, Maintained w (.notify c q.2 v :: notices c v later) →
      m.Known (Function.update known c (some v)) w → J w (notices c v later) →
      failureOf q.2 v w = failure ∧
        m.Known (Function.update known c (some v)) ((runSubscriber settle q.2 v).after w) ∧
        J' ((runSubscriber settle q.2 v).after w) (notices c v later))
    (hundisturbed : m.Undisturbed results c v s) :
    ∃ t, Store.resolve c v s = (raise failure.toList : Op Unit) t ∧ Maintained t [] ∧
      m.Known (Function.update known c (some v)) t ∧ J' t [] := by
  have hd := hk.plain c hc
  have hv := (hk.values c hc).trans hpending
  have hdelivered := hs.delivered (hk.exist c hc) hd hv v
  have hresolve := hs.resolve_run hd hv v
  rw [Undisturbed, hqueue, servings_append, servings] at hundisturbed
  rw [hqueue, servings_append, servings, served_append] at hresolve
  rw [hqueue] at hdelivered
  have hstart : Maintained (s.delivered c v)
      (notices c v before ++ .notify c q.2 v :: notices c v later) := by
    simpa [notices] using hdelivered
  obtain ⟨hquiet, hmid, hknown, hJmid⟩ := hJ.serve (k := notices c v later) hstart
    (hk.delivered hc v) (by simpa [notices] using h)
    fun x hx => hundisturbed x (List.mem_append_left _ hx)
  obtain ⟨hfailure, hknown', hJ''⟩ := hrun _ hmid hknown hJmid
  obtain ⟨hquiet', hend⟩ := hJ'.serve (c := c) (j := []) (k := []) (by simpa using hmid.serve.2)
    hknown' (by simpa using hJ'') fun x hx => hundisturbed x (List.mem_append_right _ (.tail _ hx))
  refine ⟨_, ?_, hend⟩
  rw [hresolve, List.filterMap_append, List.filterMap_cons, hquiet, hquiet', hfailure]
  cases failure with
  | none => rfl
  | some e => rfl

end Steady

/-! ## Where the difference waits -/

/-- A derived cell for a number, without a value. -/
def pending (m : Subtraction) : Cell := { kind := .int m.kind, derived := true }

/-- The cell of the difference is known only to the subscribers in `own`. They wait for operands. -/
structure Direct (m : Subtraction) (d : CellId) (cell : Cell)
    (own : List (CellId × Nat × Subscriber)) (s : Store) (tasks : List Task) : Prop where
  unreferenced : Unreferenced d cell own s tasks
  apart : d ∉ m.operands
  placed : ∀ p ∈ own, p.1 ∈ m.operands ∧ p.2 ∈ (s.cell p.1).queue ∧ p.2.2.target? = some d

/-- The difference `d` waits for the cell `e`, which is known only to the subscribers in `own`. -/
structure Nested (m : Subtraction) (d e : CellId) (own : List (CellId × Nat × Subscriber))
    (s : Store) (tasks : List Task) : Prop where
  inner : Unreferenced e (m.pending.push (.derive d .ok)) own s tasks
  outer : Unreferenced d m.pending [(e, 1, .derive d .ok)] s tasks
  ne : e ≠ d
  apart : d ∉ m.operands ∧ e ∉ m.operands
  placed : ∀ p ∈ own, p.1 ∈ m.operands ∧ p.2 ∈ (s.cell p.1).queue ∧ p.2.2.target? = some e

/-- The results are not there yet, nor will they be when those who wait for `c` have run. -/
def Absent (results : List CellId) (c : CellId) (v : Datum) (s : Store) (tasks : List Task) :
    Prop :=
  ∃ waiting, tasks = notices c v waiting ∧ Maintained s (notices c v waiting) ∧
    ∀ d ∈ results, (served v waiting s).cells.size ≤ d

/-- The failure of a computation. -/
def failure? : Except Error Datum → Option Error
  | .ok _ => none
  | .error e => some e

/-- The difference was computed with the given result. If there is none, then nobody is left who
could settle its cell; if it waits for another cell, that one has a number from `first` on. -/
def Computed (m : Subtraction) (d first : CellId) : Except Error Datum → Store → List Task → Prop
  | .ok z, s, tasks => m.Direct d { m.pending with value := some z } [] s tasks
  | .error _, s, tasks =>
    m.Direct d m.pending [] s tasks ∨ ∃ e, first ≤ e ∧ m.Nested d e [] s tasks

section Phases

variable {m : Subtraction} {known : CellId → Option Datum} {results : List CellId} {s u : Store}
  {c d e : CellId} {cell : Cell} {own : List (CellId × Nat × Subscriber)} {v : Datum}
  {k : List Task}

theorem Absent.steady : m.Steady results known (Absent results c v) := by
  rintro c' v' j k ⟨number, sub, u, failure⟩ hm - ⟨waiting, hwaiting, hown, hsize⟩
  cases waiting with
  | nil => cases hwaiting
  | cons q rest =>
    cases hwaiting
    have hle : ∀ d ∈ results, u.cells.size ≤ d := fun d hd =>
      (Maintained.served (k := []) (by simpa using hown)).2.trans (hsize d hd)
    refine ⟨?_, fun _ => ⟨rest, rfl, (Maintained.serve hown).2, hsize⟩⟩
    rintro ⟨t, ht, hmem | ⟨p, hp, d, hd, htarget⟩⟩
    · have hlt := (hown.valid.running c q.2 v (.head _)).target_lt ht
      exact absurd hlt (Nat.not_lt.2 (hle t hmem))
    · have hlt := (hown.valid.queues t p hp).target_lt htarget
      exact absurd hlt (Nat.not_lt.2 (hle d hd))

theorem Direct.steady : m.Steady [d] known (m.Direct d cell own) := by
  rintro c v j k ⟨number, sub, u, failure⟩ hm hk h
  have hspares := (h.unreferenced.tasks _ (.head _)).2
  refine ⟨?_, fun hb => ?_⟩
  · rintro ⟨t, ht, hmem | ⟨p, hp, d', hd', htarget⟩⟩
    · exact hspares.target ht (List.mem_singleton.1 hmem)
    · obtain rfl := List.mem_singleton.1 hd'
      -- Own subscribers wait for operands, and an operand is no one's target.
      have hmem := h.unreferenced.mem_own (hspares.target ht) hp htarget
      have hderived := (hm.valid.running c sub v (.head _)).target_derived ht
      rw [hk.plain t (h.placed _ hmem).1] at hderived
      cases hderived
  · have hstay : ∀ p ∈ own, p.2 ∈ (((runSubscriber settle sub v).after u).cell p.1).queue := by
      intro p hp
      obtain ⟨hoperand, hqueue, htarget⟩ := h.placed p hp
      exact hb.queues p.1 hoperand p.2 hqueue ⟨d, htarget, .inl (.head _)⟩
    exact ⟨h.unreferenced.serve hm hstay, h.apart,
      fun p hp => ⟨(h.placed p hp).1, hstay p hp, (h.placed p hp).2.2⟩⟩

theorem Nested.steady : m.Steady [d] known (m.Nested d e own) := by
  rintro c v j k ⟨number, sub, u, failure⟩ hm hk h
  have hinner := (h.inner.tasks _ (.head _)).2
  have houter := (h.outer.tasks _ (.head _)).2
  refine ⟨?_, fun hb => ?_⟩
  · rintro ⟨t, ht, hmem | ⟨p, hp, d', hd', htarget⟩⟩
    · exact houter.target ht (List.mem_singleton.1 hmem)
    · obtain rfl := List.mem_singleton.1 hd'
      have hmem := h.outer.mem_own (houter.target ht) hp htarget
      exact hinner.target ht (Prod.mk.inj (List.mem_singleton.1 hmem)).1
  · have hrelay : (1, .derive d .ok) ∈ (m.pending.push (.derive d .ok)).queue := .head _
    have hstay : ∀ p ∈ own, p.2 ∈ (((runSubscriber settle sub v).after u).cell p.1).queue := by
      intro p hp
      obtain ⟨hoperand, hqueue, htarget⟩ := h.placed p hp
      exact hb.queues p.1 hoperand p.2 hqueue
        ⟨e, htarget, .inr ⟨_, h.inner.same ▸ hrelay, d, .head _, rfl⟩⟩
    have hkept := h.inner.serve hm hstay
    refine ⟨hkept, h.outer.serve hm fun p hp => ?_, h.ne,
      h.apart, fun p hp => ⟨(h.placed p hp).1, hstay p hp, (h.placed p hp).2.2⟩⟩
    rw [List.mem_singleton.1 hp]
    exact hkept.same ▸ hrelay

theorem Computed.steady {n : Nat} {r : Except Error Datum} :
    m.Steady [d] known (m.Computed d n r) := by
  intro c v j k x hm hk h
  cases r with
  | ok z => exact Direct.steady x hm hk h
  | error e =>
    obtain h | ⟨e, he, h⟩ := h
    · obtain ⟨hnot, hkeep⟩ := Direct.steady x hm hk h
      exact ⟨hnot, fun hb => .inl (hkeep hb)⟩
    · obtain ⟨hnot, hkeep⟩ := Nested.steady x hm hk h
      exact ⟨hnot, fun hb => .inr ⟨e, he, hkeep hb⟩⟩

/-! ### A cell gets its value -/

/-- No one stands in a queue twice. -/
theorem ne_of_queue {before later : List (Nat × Subscriber)} {q : Nat × Subscriber}
    (hs : Maintained s k) (hqueue : (s.cell c).queue = before ++ q :: later) :
    ∀ p ∈ before ++ later, p ∈ (s.cell c).queue ∧ p ≠ q := by
  have hincreasing := hs.ordered.increasing c
  rw [hqueue, List.pairwise_append] at hincreasing
  intro p hp
  obtain hp | hp := List.mem_append.1 hp
  · refine ⟨hqueue ▸ List.mem_append_left _ hp, ?_⟩
    rintro rfl
    exact lt_irrefl _ (hincreasing.2.2 p hp p (.head _))
  · refine ⟨hqueue ▸ List.mem_append_right _ (.tail _ hp), ?_⟩
    rintro rfl
    exact lt_irrefl _ (List.rel_of_pairwise_cons hincreasing.2.1 hp)

theorem Direct.deliver_own {before later : List (Nat × Subscriber)} {q : Nat × Subscriber}
    (h : m.Direct d cell [(c, q)] s []) (hs : Maintained s [])
    (hqueue : (s.cell c).queue = before ++ q :: later) :
    m.Direct d cell [] (s.delivered c v) (notices c v (before ++ later)) := by
  have hc : c ≠ d := ne_of_mem_of_not_mem (h.placed _ (.head _)).1 h.apart
  refine ⟨(h.unreferenced.delivered hc v fun p hp => ?_).mono (List.Subset.refl _)
    (h.unreferenced.spares_notices hc fun p hp => ?_), h.apart, by simp⟩
  · rw [List.mem_singleton.1 hp]
    exact .inl rfl
  · simpa using ne_of_queue hs hqueue p hp

theorem Nested.deliver_own {before later : List (Nat × Subscriber)} {q : Nat × Subscriber}
    (h : m.Nested d e [(c, q)] s []) (hs : Maintained s [])
    (hqueue : (s.cell c).queue = before ++ q :: later) :
    m.Nested d e [] (s.delivered c v) (notices c v (before ++ later)) := by
  have hoperand := (h.placed _ (.head _)).1
  have hc : c ≠ e := ne_of_mem_of_not_mem hoperand h.apart.2
  have hc' : c ≠ d := ne_of_mem_of_not_mem hoperand h.apart.1
  refine ⟨(h.inner.delivered hc v fun p hp => ?_).mono (List.Subset.refl _)
    (h.inner.spares_notices hc fun p hp => ?_), (h.outer.delivered hc' v fun p hp => ?_).mono
    (List.Subset.refl _) (h.outer.spares_notices hc' fun p hp => ?_), h.ne, h.apart, by simp⟩
  · rw [List.mem_singleton.1 hp]
    exact .inl rfl
  · simpa using ne_of_queue hs hqueue p hp
  · exact .inr hp
  · refine ⟨(ne_of_queue hs hqueue p hp).1, fun hmem => hc ?_⟩
    exact (Prod.mk.inj (List.mem_singleton.1 hmem)).1

theorem Direct.deliver_other (h : m.Direct d cell own s []) (hc : c ∈ m.operands)
    (hown : ∀ p ∈ own, p.1 ≠ c) :
    m.Direct d cell own (s.delivered c v) (notices c v (s.cell c).queue) := by
  have hne : c ≠ d := ne_of_mem_of_not_mem hc h.apart
  refine ⟨(h.unreferenced.delivered hne v fun p hp => .inr hp).mono (List.Subset.refl _)
    (h.unreferenced.spares_notices hne fun p hp => ⟨hp, fun hmem => hown _ hmem rfl⟩), h.apart,
    fun p hp => ?_⟩
  obtain ⟨hoperand, hqueue, htarget⟩ := h.placed p hp
  refine ⟨hoperand, ?_, htarget⟩
  rwa [cell_delivered, if_neg fun hpc => hown p hp hpc.1]

/-! ### The difference is made -/

/-- As long as the minuend is pending, the difference waits for it. -/
theorem subtract_direct (hs : Maintained s []) (hk : m.Known known s)
    (ha : known m.minuend = none) :
    ∃ t id, Store.subtract m.kind m.minuend m.subtrahend s = .ok s.cells.size t ∧ Maintained t [] ∧
      m.Known known t ∧ m.Direct s.cells.size m.pending
        [(m.minuend, id, .minus s.cells.size m.kind m.subtrahend)] t [] := by
  have hmem : m.minuend ∈ m.operands := .head _
  have hlt := hk.exist _ hmem
  have hvalue := (hk.values _ hmem).trans ha
  have hrun : Store.subtract m.kind m.minuend m.subtrahend s = .ok s.cells.size
      ((s.addCell m.pending).enqueue m.minuend (.minus s.cells.size m.kind m.subtrahend)) := by
    simp only [Store.subtract, bind_run, valueOf_run, hvalue]
    rfl
  have hsteps := after_of_ok hrun ▸
    steps_subtract m.kind hlt (hk.exist m.subtrahend (.tail _ (.head _)))
  refine ⟨_, _, hrun, (hs.steps hsteps).1, hk.grows hsteps.grows fun c hc => ?_,
    .made hs.valid hlt m.pending _, fun hd => lt_irrefl _ (hk.exist _ hd), fun p hp => ?_⟩
  · rw [value?_enqueue, pending, value?_addCell, if_neg (hk.exist c hc).ne]
  · rw [List.mem_singleton.1 hp]
    refine ⟨hmem, ?_, rfl⟩
    rw [cell_enqueue, if_pos ⟨rfl, hlt.trans (by simp)⟩, cell_addCell, if_neg hlt.ne]
    exact List.mem_append_right _ (.head _)

/-- If the minuend is known, the difference waits for a cell that waits for the subtrahend. -/
theorem subtract_nested {x : Datum} (hs : Maintained s []) (hk : m.Known known s)
    (ha : known m.minuend = some x) (hb : known m.subtrahend = none) :
    ∃ t d e id, Store.subtract m.kind m.minuend m.subtrahend s = .ok d t ∧ s.cells.size ≤ d ∧
      s.cells.size ≤ e ∧ Maintained t [] ∧ m.Known known t ∧
      m.Nested d e [(m.subtrahend, id, .derive e (Datum.difference m.kind x))] t [] := by
  have hmem : m.subtrahend ∈ m.operands := .tail _ (.head _)
  have hlt := hk.exist _ hmem
  have hvalue := (hk.values m.minuend (.head _)).trans ha
  have hvalue' := (hk.values _ hmem).trans hb
  let e := s.cells.size
  let f := Datum.difference m.kind x
  let mid := (s.addCell m.pending).enqueue m.subtrahend (.derive e f)
  have hmid : tryMap m.subtrahend (.int m.kind) f s = .ok e mid := by
    rw [tryMap_run, hvalue']
    rfl
  have hinner : Unreferenced e m.pending
      [(m.subtrahend, (s.cell m.subtrahend).next, .derive e f)] mid
      [] := .made hs.valid hlt m.pending _
  have hsteps := after_of_ok hmid ▸ steps_tryMap (s := s) hlt (.int m.kind) f
  have hpending : mid.value? e = none := by rw [value?, hinner.same]; rfl
  have hkind : mid.kind e = .int m.kind := by rw [Store.kind, hinner.same]; rfl
  have hrun : Store.subtract m.kind m.minuend m.subtrahend s = .ok mid.cells.size
      ((mid.addCell m.pending).enqueue e (.derive mid.cells.size .ok)) := by
    simp only [Store.subtract, bind_run, valueOf_run, hvalue, f, hmid, follow, kindOf_run, hkind]
    rw [tryMap_run, hpending]
    rfl
  have hall := after_of_ok hrun ▸ steps_subtract m.kind (hk.exist m.minuend (.head _)) hlt
  have houter := Unreferenced.made (hsteps.valid hs.valid) hinner.lt_size m.pending
    (.derive mid.cells.size .ok)
  rw [show (mid.cell e).next = 1 by rw [hinner.same]; rfl] at houter
  have hbelow : ∀ c ∈ m.operands, c ≠ mid.cells.size := fun c hc =>
    ((hk.exist c hc).trans_le hsteps.grows.cells).ne
  refine ⟨_, mid.cells.size, e, _, hrun, hsteps.grows.cells, le_rfl, (hs.steps hall).1,
    hk.grows hall.grows fun c hc => ?_, (hinner.addCell ..).push _, houter, hinner.lt_size.ne,
    ⟨fun hd => hbelow _ hd rfl, fun he => (hk.exist e he).ne rfl⟩, fun p hp => ?_⟩
  · rw [value?_enqueue, pending, value?_addCell, if_neg (hbelow c hc), value?_enqueue, pending,
      value?_addCell, if_neg (hk.exist c hc).ne]
  · rw [List.mem_singleton.1 hp]
    refine ⟨hmem, ?_, rfl⟩
    rw [cell_enqueue, if_neg fun h => hlt.ne h.1, cell_addCell, if_neg (hbelow _ hmem),
      cell_enqueue, if_pos ⟨rfl, hlt.trans (by simp)⟩, cell_addCell, if_neg hlt.ne]
    exact List.mem_append_right _ (.head _)

/-- If both operands are known, the difference is computed at once. -/
theorem subtract_known {x y : Datum} (hk : m.Known known s) (ha : known m.minuend = some x)
    (hb : known m.subtrahend = some y) :
    (∀ z, Datum.difference m.kind x y = .ok z →
      ∃ d t, Store.subtract m.kind m.minuend m.subtrahend s = .ok d t ∧ t.value? d = some z) ∧
    ∀ e, Datum.difference m.kind x y = .error e →
      Store.subtract m.kind m.minuend m.subtrahend s = .error e s := by
  have hx := (hk.values m.minuend (.head _)).trans ha
  have hy := (hk.values m.subtrahend (.tail _ (.head _))).trans hb
  refine ⟨fun z hz => ?_, fun e he => ?_⟩
  · have hvalue : (s.newDerived (.int m.kind) (some z)).value? s.cells.size = some z := by
      rw [value?_newDerived, if_pos rfl]
    refine ⟨_, _, ?_, value?_newDerived (s.newDerived (.int m.kind) (some z)) _
      (.int m.kind) (some z) |>.trans (if_pos rfl)⟩
    simp only [Store.subtract, bind_run, valueOf_run, hx, tryMap_run, hy, hz, follow, kindOf_run,
      hvalue]
    simp [Store.kind, newDerived, cell_addCell]
  · simp only [Store.subtract, bind_run, valueOf_run, hx, tryMap_run, hy, he]

/-! ### The difference is computed -/

theorem spares_notices {waiting : List (Nat × Subscriber)} {task : Task}
    (hm : Maintained u (task :: notices c v waiting)) (hc : c < u.cells.size) :
    ∀ x ∈ notices c v waiting, x.Spares u.cells.size (u.cells.size + 1) := by
  intro x hx
  obtain ⟨q, -, rfl⟩ := List.mem_map.1 hx
  exact ⟨.inl hc, (hm.valid.running c q.2 v (.tail _ hx)).spares⟩

/-- The minuend becomes known before the subtrahend. -/
theorem Direct.run_later {waiting : List (Nat × Subscriber)}
    (h : m.Direct d m.pending [] u (notices c v waiting))
    (hm : Maintained u (.notify c (.minus d m.kind m.subtrahend) v :: notices c v waiting))
    (hk : m.Known known u) (hc : c ∈ m.operands) (hb : known m.subtrahend = none) :
    failureOf (.minus d m.kind m.subtrahend) v u = none ∧
      m.Known known ((runSubscriber settle (.minus d m.kind m.subtrahend) v).after u) ∧
      ∃ e id, d ≤ e ∧ m.Nested d e [(m.subtrahend, id, .derive e (Datum.difference m.kind v))]
        ((runSubscriber settle (.minus d m.kind m.subtrahend) v).after u)
        (notices c v waiting) := by
  have hmem : m.subtrahend ∈ m.operands := .tail _ (.head _)
  have hlt := hk.exist _ hmem
  have hvalue := (hk.values _ hmem).trans hb
  let e := u.cells.size
  let f := Datum.difference m.kind v
  let mid := (u.addCell m.pending).enqueue m.subtrahend (.derive e f)
  have hx : Executes u (.serve (.minus d m.kind m.subtrahend) v) [] []
      (mid.enqueue e (.derive d .ok)) :=
    .effect (by simp only [Job.effect?, Subscriber.effect?, hvalue]; rfl)
  obtain ⟨hfailure, hafter⟩ := hm.failureOf_eq hx
  have hgrows := hm.grows_serve
  have hinner : Unreferenced e m.pending
      [(m.subtrahend, (u.cell m.subtrahend).next, .derive e f)] mid
      [] := .made hm.done hlt m.pending _
  have hne : e ≠ d := h.unreferenced.lt_size.ne'
  have hspares : (Subscriber.derive e f).Spares d (d + 1) := outside_self.2 hne
  have houter : Unreferenced d m.pending [] mid (notices c v waiting) :=
    (h.unreferenced.addCell ..).enqueue
    (ne_of_mem_of_not_mem hmem h.apart) (.inl hspares) (List.Subset.refl _)
  rw [hafter] at hgrows ⊢
  refine ⟨hfailure, hk.grows hgrows fun c hc => ?_, e, _, h.unreferenced.lt_size.le,
    (hinner.push _).mono (List.Subset.refl _) (spares_notices hm (hk.exist c hc)), ?_, hne,
    ⟨h.apart, fun he => (hk.exist e he).ne rfl⟩, fun p hp => ?_⟩
  · rw [value?_enqueue, value?_enqueue, pending, value?_addCell, if_neg (hk.exist c hc).ne]
  · refine houter.enqueue hne (.inr ?_) (List.nil_subset _)
    rw [show (mid.cell e).next = 1 by rw [hinner.same]; rfl]
    exact .head _
  · rw [List.mem_singleton.1 hp]
    refine ⟨hmem, ?_, rfl⟩
    rw [cell_enqueue, if_neg fun h => hlt.ne h.1, cell_enqueue,
      if_pos ⟨rfl, hlt.trans (by simp)⟩, cell_addCell, if_neg hlt.ne]
    exact List.mem_append_right _ (.head _)

/-- The minuend becomes known after the subtrahend. -/
theorem Direct.run_now {waiting : List (Nat × Subscriber)} {y : Datum} {n : Nat}
    (h : m.Direct d m.pending [] u (notices c v waiting))
    (hm : Maintained u (.notify c (.minus d m.kind m.subtrahend) v :: notices c v waiting))
    (hk : m.Known known u) (hb : known m.subtrahend = some y) :
    failureOf (.minus d m.kind m.subtrahend) v u = failure? (Datum.difference m.kind v y) ∧
      m.Known known ((runSubscriber settle (.minus d m.kind m.subtrahend) v).after u) ∧
      m.Computed d n (Datum.difference m.kind v y)
        ((runSubscriber settle (.minus d m.kind m.subtrahend) v).after u)
        (notices c v waiting) := by
  have hy := (hk.values m.subtrahend (.tail _ (.head _))).trans hb
  have hgrows := hm.grows_serve
  cases hz : Datum.difference m.kind v y with
  | error e =>
    have hx : Executes u (.serve (.minus d m.kind m.subtrahend) v) [.raised e] [e] u :=
      .fault (by simp [Job.fault?, Subscriber.fault?, hy, hz])
    obtain ⟨hfailure, hafter⟩ := hm.failureOf_eq hx
    rw [hafter]
    exact ⟨hfailure, hk, .inl h⟩
  | ok z =>
    let mid := u.newDerived (.int m.kind) (some z)
    have hmid : Unreferenced d m.pending [] mid (notices c v waiting) := h.unreferenced.addCell ..
    have hx : Executes u (.serve (.minus d m.kind m.subtrahend) v)
        ([] ++ [.served u.cells.size 0 z none]) [] (mid.delivered d z) :=
      .minus hy hz (hmid.executes_settle rfl rfl z)
    obtain ⟨hfailure, hafter⟩ := hm.failureOf_eq hx
    rw [hafter] at hgrows ⊢
    refine ⟨hfailure, hk.grows hgrows fun c hc => ?_, hmid.settled z, h.apart, by simp⟩
    rw [value?_delivered _ _ _ _ hmid.lt_size, if_neg (ne_of_mem_of_not_mem hc h.apart),
      value?_newDerived, if_neg (hk.exist c hc).ne]

/-- The subtrahend becomes known after the minuend. -/
theorem Nested.run_now {waiting : List (Nat × Subscriber)} {f : Datum → Except Error Datum}
    {n : Nat} (h : m.Nested d e [] u (notices c v waiting))
    (hm : Maintained u (.notify c (.derive e f) v :: notices c v waiting))
    (hk : m.Known known u) (hn : n ≤ e) :
    failureOf (.derive e f) v u = failure? (f v) ∧
      m.Known known ((runSubscriber settle (.derive e f) v).after u) ∧
      m.Computed d n (f v) ((runSubscriber settle (.derive e f) v).after u)
        (notices c v waiting) := by
  have hgrows := hm.grows_serve
  cases hz : f v with
  | error z =>
    have hx : Executes u (.serve (.derive e f) v) [.raised z] [z] u :=
      .fault (by simp [Job.fault?, Subscriber.fault?, hz])
    obtain ⟨hfailure, hafter⟩ := hm.failureOf_eq hx
    rw [hafter]
    exact ⟨hfailure, hk, .inr ⟨e, hn, h⟩⟩
  | ok z =>
    have hmid : Unreferenced d m.pending [] (u.delivered e z) (notices c v waiting) :=
      h.outer.delivered h.ne z fun p hp => .inl (by rw [List.mem_singleton.1 hp])
    have hqueue : Executes (u.delivered e z) (.queue e (u.cell e).queue z)
        ([] ++ .served e 1 z none :: []) ([] ++ []) ((u.delivered e z).delivered d z) := by
      rw [h.inner.same]
      exact .cons (.derive rfl (hmid.executes_settle rfl rfl z)) .nil
    have hpending : u.value? e = none := by
      rw [value?, h.inner.same]
      rfl
    have hx : Executes u (.serve (.derive e f) v) ([] ++ .served e 1 z none :: []) []
        ((u.delivered e z).delivered d z) := .derive hz (.settle hpending hqueue)
    obtain ⟨hfailure, hafter⟩ := hm.failureOf_eq hx
    rw [hafter] at hgrows ⊢
    refine ⟨hfailure, hk.grows hgrows fun c hc => ?_, hmid.settled z, h.apart.1, by simp⟩
    rw [value?_delivered _ _ _ _ hmid.lt_size, if_neg (ne_of_mem_of_not_mem hc h.apart.1),
      value?_delivered _ _ _ _ h.inner.lt_size, if_neg (ne_of_mem_of_not_mem hc h.apart.2)]

/-! ### Steps -/

/-- An operand gets its value before the difference is made. -/
theorem resolve_absent (hs : Maintained s []) (hk : m.Known known s) (hc : c ∈ m.operands)
    (hpending : known c = none)
    (hnew : ∀ d ∈ results, ((Store.resolve c v).after s).cells.size ≤ d)
    (hundisturbed : m.Undisturbed results c v s) :
    ∃ t, Store.resolve c v s = .ok () t ∧ Maintained t [] ∧
      m.Known (Function.update known c (some v)) t := by
  have hd := hk.plain c hc
  have hv := (hk.values c hc).trans hpending
  rw [hs.after_resolve hd hv] at hnew
  have habsent : Absent results c v (s.delivered c v) (notices c v (s.cell c).queue) :=
    ⟨_, rfl, hs.delivered (hk.exist c hc) hd hv v, hnew⟩
  obtain ⟨t, hrun, hm, hk, -⟩ := Absent.steady.resolve hs hk hc hpending habsent hundisturbed
  exact ⟨t, hrun, hm, hk⟩

/-- Both operands get their values before the difference is made. -/
theorem resolve_both {c' : CellId} {v' : Datum} (hs : Maintained s [])
    (hk : m.Known (fun _ => none) s) (hc : c ∈ m.operands) (hc' : c' ∈ m.operands) (hne : c' ≠ c)
    (hnew : ∀ d ∈ results, ((Store.resolve c v).after s).cells.size ≤ d ∧
      ((Store.resolve c' v').after ((Store.resolve c v).after s)).cells.size ≤ d)
    (hundisturbed : m.Undisturbed results c v s)
    (hundisturbed' : m.Undisturbed results c' v' ((Store.resolve c v).after s)) :
    ∃ t u, Store.resolve c v s = .ok () t ∧ Store.resolve c' v' t = .ok () u ∧
      m.Known (Function.update (Function.update (fun _ => none) c (some v)) c' (some v')) u := by
  obtain ⟨t, hrun, ht, hk⟩ := resolve_absent hs hk hc rfl (fun d hd => (hnew d hd).1) hundisturbed
  rw [after_of_ok hrun] at hnew hundisturbed'
  obtain ⟨u, hrun', -, hk⟩ := resolve_absent ht hk hc' (Function.update_of_ne hne ..)
    (fun d hd => (hnew d hd).2) hundisturbed'
  exact ⟨t, u, hrun, hrun', hk⟩

/-- The subtrahend becomes known while the difference waits for the minuend. -/
theorem Direct.resolve_other (h : m.Direct d cell own s []) (hs : Maintained s [])
    (hk : m.Known known s) (hc : c ∈ m.operands) (hpending : known c = none)
    (hown : ∀ p ∈ own, p.1 ≠ c) (hundisturbed : m.Undisturbed [d] c v s) :
    ∃ t, Store.resolve c v s = .ok () t ∧ Maintained t [] ∧
      m.Known (Function.update known c (some v)) t ∧ m.Direct d cell own t [] :=
  Direct.steady.resolve hs hk hc hpending (h.deliver_other hc hown) hundisturbed

/-- The minuend becomes known first, and the difference goes on to wait for the subtrahend. -/
theorem Direct.resolve_first {id : Nat} (hne : m.minuend ≠ m.subtrahend)
    (h : m.Direct d m.pending [(m.minuend, id, .minus d m.kind m.subtrahend)] s [])
    (hs : Maintained s []) (hk : m.Known known s) (ha : known m.minuend = none)
    (hb : known m.subtrahend = none) (hundisturbed : m.Undisturbed [d] m.minuend v s) :
    ∃ t e id, Store.resolve m.minuend v s = .ok () t ∧ Maintained t [] ∧
      m.Known (Function.update known m.minuend (some v)) t ∧ d ≤ e ∧
      m.Nested d e [(m.subtrahend, id, .derive e (Datum.difference m.kind v))] t [] := by
  obtain ⟨before, later, hqueue⟩ := List.append_of_mem (h.placed _ (.head _)).2.1
  let J : Store → List Task → Prop := fun u k => ∃ e id, d ≤ e ∧
    m.Nested d e [(m.subtrahend, id, .derive e (Datum.difference m.kind v))] u k
  have hsteady : m.Steady [d] (Function.update known m.minuend (some v)) J := by
    rintro c v j k x hm hk ⟨e, id, he, h⟩
    obtain ⟨hnot, hkeep⟩ := Nested.steady x hm hk h
    exact ⟨hnot, fun hb => ⟨e, id, he, hkeep hb⟩⟩
  have hb' : Function.update known m.minuend (some v) m.subtrahend = none := by
    rw [Function.update_of_ne hne.symm, hb]
  obtain ⟨t, hrun, hm, hk, e, id, he, hnested⟩ := Direct.steady.resolve_own hsteady hs hk (.head _)
    ha hqueue (h.deliver_own hs hqueue)
    (fun w hm hk hdirect => hdirect.run_later hm hk (.head _) hb') hundisturbed
  exact ⟨t, e, id, hrun, hm, hk, he, hnested⟩

/-- The minuend becomes known last. -/
theorem Direct.resolve_last {id n : Nat} {y : Datum} (hne : m.minuend ≠ m.subtrahend)
    (h : m.Direct d m.pending [(m.minuend, id, .minus d m.kind m.subtrahend)] s [])
    (hs : Maintained s []) (hk : m.Known known s) (ha : known m.minuend = none)
    (hb : known m.subtrahend = some y) (hundisturbed : m.Undisturbed [d] m.minuend v s) :
    ∃ t, Store.resolve m.minuend v s =
        (raise (failure? (Datum.difference m.kind v y)).toList : Op Unit) t ∧ Maintained t [] ∧
      m.Known (Function.update known m.minuend (some v)) t ∧
      m.Computed d n (Datum.difference m.kind v y) t [] := by
  obtain ⟨before, later, hqueue⟩ := List.append_of_mem (h.placed _ (.head _)).2.1
  have hb' : Function.update known m.minuend (some v) m.subtrahend = some y := by
    rw [Function.update_of_ne hne.symm, hb]
  exact Direct.steady.resolve_own Computed.steady hs hk (.head _) ha hqueue
    (h.deliver_own hs hqueue) (fun w hm hk hdirect => hdirect.run_now hm hk hb') hundisturbed

/-- The subtrahend becomes known last. -/
theorem Nested.resolve_last {id n : Nat} {f : Datum → Except Error Datum}
    (h : m.Nested d e [(m.subtrahend, id, .derive e f)] s []) (hn : n ≤ e) (hs : Maintained s [])
    (hk : m.Known known s) (hb : known m.subtrahend = none)
    (hundisturbed : m.Undisturbed [d] m.subtrahend v s) :
    ∃ t, Store.resolve m.subtrahend v s = (raise (failure? (f v)).toList : Op Unit) t ∧
      Maintained t [] ∧ m.Known (Function.update known m.subtrahend (some v)) t ∧
      m.Computed d n (f v) t [] := by
  obtain ⟨before, later, hqueue⟩ := List.append_of_mem (h.placed _ (.head _)).2.1
  exact Nested.steady.resolve_own Computed.steady hs hk (.tail _ (.head _)) hb hqueue
    (h.deliver_own hs hqueue) (fun w hm hk hnested => hnested.run_now hm hk hn) hundisturbed

/-- A difference that could not be computed cannot be settled any more, nor can the cell that it
waits for. -/
theorem Computed.unsettleable {n : Nat} {z : Error} (h : m.Computed d n (.error z) s []) :
    ∃ O, Unsettleable O s [] ∧ O d ∧ ∀ c, O c → c = d ∨ n ≤ c := by
  obtain h | ⟨e, he, h⟩ := h
  · refine ⟨(· = d), .of_unreferenced ?_, rfl, fun c hc => .inl hc⟩
    rintro t rfl
    exact ⟨_, _, h.unreferenced, rfl, rfl, by simp⟩
  · refine ⟨fun c => c = d ∨ c = e, .of_unreferenced ?_, .inl rfl, ?_⟩
    · rintro t (rfl | rfl)
      · exact ⟨_, _, h.outer, rfl, rfl, by simp⟩
      · exact ⟨_, _, h.inner, rfl, rfl, by simp⟩
    · rintro c (rfl | rfl)
      · exact .inl rfl
      · exact .inr he

end Phases

end Subtraction

end Backpatch
