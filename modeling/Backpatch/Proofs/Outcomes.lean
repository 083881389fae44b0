import Mathlib
import Backpatch.Proofs.Waiting

/-!
# Smooth and failing dispatch

A task runs smoothly if its function gives a value and the cell that it settles is pending
(`Task.Smooth`). Where no callbacks wait and no failure is hollow (`SolidDerivations`), the outcome
of an operation tells how it went: it succeeds just if all tasks that it set off ran smoothly
(`Reveals`, `settle_reveals`).
-/

namespace Backpatch

open Store Failable

/-! ## Hollow failures -/

mutual

/-- An error that holds no failure at any depth. -/
def Error.isHollow : Error → Bool
  | .aggregate errors => Error.allHollow errors
  | _ => false

def Error.allHollow : List Error → Bool
  | [] => true
  | e :: es => e.isHollow && Error.allHollow es

end

namespace Error

theorem allHollow_eq_false {errors : List Error} :
    allHollow errors = false ↔ ∃ e ∈ errors, e.isHollow = false := by
  induction errors with
  | nil => simp [allHollow]
  | cons e es ih => rw [allHollow, Bool.and_eq_false_iff, ih, List.exists_mem_cons_iff]

theorem parts_aggregate_ne (errors : List Error) :
    (aggregate errors).parts ≠ [aggregate errors] := by
  intro h
  have hsize := congrArg sizeOf h
  simp [parts] at hsize
  omega

theorem isHollow_of_parts {e : Error} (h : e.parts = [e]) : e.isHollow = false := by
  cases e with
  | aggregate errors => exact absurd h (parts_aggregate_ne errors)
  | _ => rfl

theorem solid_part {e : Error} (h : e.isHollow = false) : ∃ x ∈ e.parts, x.isHollow = false := by
  cases e with
  | aggregate errors => exact allHollow_eq_false.1 h
  | _ => exact ⟨_, .head _, rfl⟩

/-- Failures are reported together, and a failure that says something is not lost. -/
theorem ofMany?_solid {errors : List Error} (h : ∃ e ∈ errors, e.isHollow = false) :
    ∃ e, ofMany? errors = some e ∧ e.isHollow = false := by
  obtain ⟨e, he, hsolid⟩ := h
  obtain ⟨x, hx, hsolid⟩ := solid_part hsolid
  have hmem : x ∈ errors.flatMap parts := List.mem_flatMap.2 ⟨e, he, hx⟩
  unfold ofMany?
  split
  next hnil => simp [hnil] at hmem
  next y hone =>
    rw [hone, List.mem_singleton] at hmem
    exact ⟨y, rfl, hmem ▸ hsolid⟩
  next => exact ⟨_, rfl, allHollow_eq_false.2 ⟨x, hmem, hsolid⟩⟩

-- A failure that says nothing is a failure at first, and none any more when it is collected again.
example : ofMany? [.aggregate [.aggregate []]] = some (.aggregate []) ∧
    ofMany? [.aggregate []] = none := ⟨rfl, rfl⟩

end Error

theorem Datum.parts_of_difference {kind : IntKind} {x y : Datum} {e : Error}
    (h : Datum.difference kind x y = .error e) : e.parts = [e] := by
  unfold Datum.difference at h
  split at h
  next a b =>
    unfold IntKind.difference at h
    split_ifs at h <;> cases h
    rfl
  next =>
    cases h
    rfl

theorem Datum.isHollow_of_difference {kind : IntKind} {x y : Datum} {e : Error}
    (h : Datum.difference kind x y = .error e) : e.isHollow = false :=
  Error.isHollow_of_parts (Datum.parts_of_difference h)

/-- If the function of a derivation fails, its error is not hollow. -/
def Subscriber.HollowFree : Subscriber → Prop
  | .derive _ f => ∀ v e, f v = .error e → e.isHollow = false
  | .follow _ choose => ∀ v e, choose v = .error e → e.isHollow = false
  | .minus .. | .patch _ | .act _ => True

def Subscriber.isCallback : Subscriber → Bool
  | .act _ => true
  | .derive .. | .follow .. | .minus .. | .patch _ => false

/-- The subscriber is a derivation or a field, and does not fail hollowly. -/
structure Subscriber.SolidDerivation (sub : Subscriber) : Prop where
  not_callback : sub.isCallback = false
  hollowFree : sub.HollowFree

theorem Subscriber.SolidDerivation.acts {sub : Subscriber} (h : sub.SolidDerivation) :
    sub.Acts fun _ => False := by
  cases sub with
  | derive | follow | minus | patch => trivial
  | act => exact absurd h.not_callback (by simp [isCallback])

/-! ## Smooth tasks -/

/-- The move neither touches what callbacks do nor fails, seen from the store `o` in which it all
began: cells that are settled are pending, and if they are settled from inside nothing else is going
to settle them; only patches of fields that came later are taken back. -/
def Move.Smooth (o s : Store) : Move → Prop
  | .resolve c _ => s.value? c = none
  | .settle c _ => s.value? c = none ∧ c < o.cells.size ∧ o.drivers [] c = 0
  | .unsubscribe c id => ∀ sub, (id, sub) ∈ (s.cell c).queue →
      ∃ f : FieldId, o.placeholders.size ≤ f ∧ sub = .patch f
  | .journal .. | .newImage | .append .. | .place .. => True
  | _ => False

/-- The task has an effect, and does not fail. -/
def Task.Smooth (o s : Store) : Task → Prop
  | .move m => m.Smooth o s
  | .notify _ (.derive t f) v => (∃ w, f v = .ok w) ∧ s.value? t = none
  | .notify _ (.follow t choose) v => ∃ inner, choose v = .ok inner ∧
      ∀ w, s.value? inner = some w → s.value? t = none
  | .notify _ (.minus t kind subtrahend) v => ∀ y, s.value? subtrahend = some y →
      (∃ w, Datum.difference kind v y = .ok w) ∧ s.value? t = none
  | .notify _ (.patch f) v => ∃ p bs, s.placeholders[f]? = some p ∧ p.format.encode v = .ok bs ∧
      p.offset + bs.length ≤ (s.image p.image).size
  | .notify _ (.act _) _ | .act .. => False

/-- Smooth reactions lead from one store, with tasks to run, to another. -/
inductive SmoothCascade (o : Store) : Store → List Task → Store → List Task → Prop where
  | refl (s tasks) : SmoothCascade o s tasks s tasks
  | step {s task t ts k u rest} (hs : task.Smooth o s) (hr : Reacts s task t ts)
      (h : SmoothCascade o t (ts ++ k) u rest) : SmoothCascade o s (task :: k) u rest

/-- Smooth reactions lead to a task that is not smooth. -/
def ReachesNonSmooth (o s : Store) (tasks : List Task) : Prop :=
  ∃ u task k, SmoothCascade o s tasks u (task :: k) ∧ ¬ task.Smooth o u

section SmoothCascade

variable {o s t u : Store} {task : Task} {tasks ts k rest : List Task}

theorem SmoothCascade.trans {more : List Task} (h : SmoothCascade o s tasks t rest)
    (g : SmoothCascade o t rest u more) :
    SmoothCascade o s tasks u more := by
  induction h with
  | refl => exact g
  | step hs hr _ ih => exact .step hs hr (ih g)

/-- What stands behind on the list does not matter. -/
theorem SmoothCascade.frame (h : SmoothCascade o s tasks t rest) (k : List Task) :
    SmoothCascade o s (tasks ++ k) t (rest ++ k) := by
  induction h with
  | refl => exact .refl _ _
  | step hs hr _ ih => exact .step hs hr (by simpa using ih)

theorem SmoothCascade.cascade (h : SmoothCascade o s tasks t []) : Cascade s tasks t := by
  generalize hrest : ([] : List Task) = rest at h
  induction h with
  | refl => exact hrest ▸ .nil _
  | step hs hr _ ih => exact .cons hr (ih hrest)

theorem SmoothCascade.invariant {I : Store → List Task → Prop}
    (step : ∀ {s task t ts k}, task.Smooth o s → Reacts s task t ts → I s (task :: k) →
      I t (ts ++ k))
    (h : SmoothCascade o s tasks t rest) (hi : I s tasks) : I t rest := by
  induction h with
  | refl => exact hi
  | step hs hr _ ih => exact ih (step hs hr hi)

theorem ReachesNonSmooth.here (h : ¬ task.Smooth o s) : ReachesNonSmooth o s (task :: k) :=
  ⟨s, task, k, .refl _ _, h⟩

theorem ReachesNonSmooth.later (h : SmoothCascade o s tasks t rest)
    (g : ReachesNonSmooth o t rest) :
    ReachesNonSmooth o s tasks := by
  obtain ⟨u, task, k, hu, hrough⟩ := g
  exact ⟨u, task, k, h.trans hu, hrough⟩

theorem ReachesNonSmooth.frame (h : ReachesNonSmooth o s tasks) (k : List Task) :
    ReachesNonSmooth o s (tasks ++ k) := by
  obtain ⟨u, task, k', hu, hrough⟩ := h
  exact ⟨u, task, k' ++ k, hu.frame k, hrough⟩

end SmoothCascade

/-! ## Outcomes -/

/-- The result of an operation tells whether the tasks that it ran were smooth. -/
def Reveals (o s : Store) (tasks : List Task) : EStateM.Result Error Store Unit → Prop
  | .ok _ t => SmoothCascade o s tasks t []
  | .error e _ => e.isHollow = false ∧ ReachesNonSmooth o s tasks

/-- What waits or is about to run are derivations and fields, and none of them fails hollowly. -/
structure SolidDerivations (s : Store) (tasks : List Task) : Prop extends Valid s tasks where
  waiting : ∀ c, ∀ q ∈ (s.cell c).queue, q.2.SolidDerivation
  ready : ∀ x ∈ tasks, ∃ c sub v, x = .notify c sub v ∧ sub.SolidDerivation

section SolidDerivations

variable {s t : Store} {task : Task} {tasks ts k : List Task}

/-- What a subscriber that is no callback queues is none either. -/
theorem Task.Queues.solidDerivation {c d : CellId} {sub sub' : Subscriber} {v : Datum}
    (h : (Task.notify d sub' v).Queues s c sub) : sub.SolidDerivation := by
  cases sub' with
  | follow =>
    rw [h.2]
    exact ⟨rfl, by simp [Subscriber.HollowFree]⟩
  | minus =>
    obtain ⟨-, rfl⟩ | ⟨-, rfl⟩ := h
    · exact ⟨rfl, fun x e => Datum.isHollow_of_difference⟩
    · exact ⟨rfl, by simp [Subscriber.HollowFree]⟩
  | derive | patch | act => exact h.elim

/-- What subscribers that are no callbacks set off are none either. -/
theorem Reacts.ready {c : CellId} {sub : Subscriber} {v : Datum}
    (hr : Reacts s (.notify c sub v) t ts) (hsub : sub.SolidDerivation)
    (hw : ∀ c, ∀ q ∈ (s.cell c).queue, q.2.SolidDerivation) :
    ∀ x ∈ ts, ∃ c sub v, x = .notify c sub v ∧ sub.SolidDerivation := by
  intro x hx
  cases x with
  | move m => exact absurd hx (hr.not_move m)
  | act a w =>
    have hA : Hereditary fun _ => False := ⟨fun _ _ => id, fun _ _ => False.elim⟩
    exact (hr.acts hA hsub.acts (fun d q hq => (hw d q hq).acts) _ hx).elim
  | notify d sub' w =>
    obtain ⟨⟨q, hq, rfl⟩, -⟩ := hr.notified hx
    exact ⟨d, q.2, w, rfl, hw d q hq⟩

theorem SolidDerivations.step (hr : Reacts s task t ts) (h : SolidDerivations s (task :: k)) :
    SolidDerivations t (ts ++ k) := by
  obtain ⟨c, sub, v, rfl, hsub⟩ := h.ready task (.head k)
  refine { Valid.step hr h.toValid with waiting := fun d q hq => ?_, ready := fun x hx => ?_ }
  · obtain hthin | ⟨sub', hqueues, -, hpush⟩ := hr.queue_cases h.toValid d
    · exact h.waiting d q (hthin.1 hq)
    · rw [hpush.1] at hq
      obtain hq | hq := List.mem_append.1 hq
      · exact h.waiting d q hq
      · rw [List.mem_singleton.1 hq]
        exact hqueues.solidDerivation
  · obtain hx | hx := List.mem_append.1 hx
    · exact hr.ready hsub h.waiting x hx
    · exact h.ready x (.tail _ hx)

/-- After a task was carried out with all that came of it, the others are left. -/
theorem SolidDerivations.rest (hc : Cascade s [task] t) (h : SolidDerivations s (task :: k)) :
    SolidDerivations t k :=
  hc.invariant (I := fun s tasks => SolidDerivations s (tasks ++ k))
    (fun {s task t ts rest} hr hi => by simpa using SolidDerivations.step hr hi) h

theorem SolidDerivations.single (h : SolidDerivations s (task :: k)) :
    SolidDerivations s [task] where
  toValid := { h.toValid with
    running := fun c sub v hx => h.running c sub v (List.mem_append_left k hx)
    acting := fun a v hx => h.acting a v (List.mem_append_left k hx)
    driven := fun c => by
      have hle := h.driven c
      rw [drivers_cons] at hle
      simp only [drivers, List.map_cons, List.map_nil, List.sum_cons, List.sum_nil] at hle ⊢
      omega }
  waiting := h.waiting
  ready x hx := h.ready x (List.mem_append_left k hx)

end SolidDerivations

namespace Store

variable {o s : Store} {n : Nat} {settle : CellId → Datum → Op Unit}

/-- Settling by `settle` tells how it went, as long as less than `n` is waiting. -/
structure RevealsOutcome (o : Store) (settle : CellId → Datum → Op Unit) (n : Nat) : Prop where
  pending : ∀ c v s, SolidDerivations (s.fire c v).1 (s.fire c v).2 → s.load ≤ s.issued →
    s.load < n → s.value? c = none → Reveals o (s.fire c v).1 (s.fire c v).2 (settle c v s)
  resolved : ∀ c v s x, s.load < n → s.value? c = some x →
    ∃ e, settle c v s = .error e s ∧ e.isHollow = false

/-- A task whose last act is to settle a cell. -/
theorem RevealsOutcome.reveals (hs : RevealsOutcome o settle n) {u : Store} {task : Task}
    {t : CellId} {w : Datum}
    (hr : Reacts s task (u.fire t w).1 (u.fire t w).2) (hf : SolidDerivations s [task])
    (hsmooth : task.Smooth o s ↔ u.value? t = none) (hi : u.load ≤ u.issued) (h : u.load < n) :
    Reveals o s [task] (settle t w u) := by
  cases hv : u.value? t with
  | some x =>
    obtain ⟨e, he, hsolid⟩ := hs.resolved t w u x h hv
    rw [he]
    exact ⟨hsolid, .here fun hsm => by simp [hsmooth.1 hsm] at hv⟩
  | none =>
    have hout := hs.pending t w u (by simpa using SolidDerivations.step hr hf) hi h hv
    cases hrun : settle t w u with
    | ok _ v =>
      rw [hrun] at hout
      exact .step (hsmooth.2 hv) hr ((List.append_nil (u.fire t w).2).symm ▸ hout)
    | error e v =>
      rw [hrun] at hout
      exact ⟨hout.1, .later (.step (hsmooth.2 hv) hr (.refl _ _)) (hout.2.frame [])⟩

theorem reveals_patch {source : CellId} {field : FieldId} {v : Datum}
    (hf : SolidDerivations s [.notify source (.patch field) v]) :
    Reveals o s [.notify source (.patch field) v] (patch field v s) := by
  obtain ⟨p, hp, -⟩ := hf.running source (.patch field) v (.head _)
  cases he : p.format.encode v with
  | error e =>
    have hrun : patch field v s = .error e s := by simp [patch, hp, he]
    rw [hrun]
    refine ⟨Error.isHollow_of_parts (FixedFormat.parts_of_encode_eq_error he), .here ?_⟩
    rintro ⟨q, bs, hq, hbs, -⟩
    obtain rfl := Option.some.inj (hp.symm.trans hq)
    rw [he] at hbs
    cases hbs
  | ok bs =>
    have hb : p.offset + bs.length ≤ (s.image p.image).size := by
      rw [FixedFormat.length_encode he]
      exact (hf.fields field p hp).2.2
    have hrun : patch field v s = .ok () (s.patched v field p bs) := by
      simp [patch, hp, he, overwrite, Image.checkRange, hb, patched, modifyImage]
    rw [hrun]
    exact .step ⟨p, bs, hp, he, hb⟩ (.patch hp he hb) (.refl _ _)

theorem reveals_runSubscriber (hs : RevealsOutcome o settle n) {source : CellId} {sub : Subscriber}
    {v : Datum} (hf : SolidDerivations s [.notify source sub v]) (h : s.load + sub.weight ≤ n) :
    Reveals o s [.notify source sub v] (runSubscriber settle sub v s) := by
  obtain ⟨_, _, _, heq, hsub⟩ := hf.ready _ (.head _)
  cases heq
  cases sub with
  | derive target f =>
    simp only [Subscriber.weight, runSubscriber, bind_run] at h ⊢
    cases hfv : f v with
    | error e => exact ⟨hsub.hollowFree v e hfv, .here fun hsm => by simp [Task.Smooth, hfv] at hsm⟩
    | ok w =>
      exact hs.reveals (.derive hfv) hf (by simp [Task.Smooth, hfv]) hf.load (by omega)
  | follow target choose =>
    simp only [Subscriber.weight, runSubscriber, bind_run] at h ⊢
    cases hc : choose v with
    | error e => exact ⟨hsub.hollowFree v e hc, .here fun hsm => by simp [Task.Smooth, hc] at hsm⟩
    | ok inner =>
      simp only [ofExcept_ok_run, connect, bind_run, valueOf_run]
      cases hw : s.value? inner with
      | none =>
        exact .step ⟨inner, hc, by simp [hw]⟩ (.followLater hc hw) (.refl _ _)
      | some w =>
        exact hs.reveals (.follow hc hw) hf (by simp [Task.Smooth, hc, hw]) hf.load (by omega)
  | minus target kind subtrahend =>
    simp only [Subscriber.weight, runSubscriber, bind_run, tryMap_run] at h ⊢
    cases hy : s.value? subtrahend with
    | none =>
      have hn : ((s.newDerived (.int kind) none).enqueue subtrahend
          (.derive s.cells.size (Datum.difference kind v))).value? s.cells.size = none := by
        simp [value?_newDerived]
      simp only [connect, bind_run, valueOf_run, hn]
      exact .step (by simp [Task.Smooth, hy]) (.minusLater hy) (.refl _ _)
    | some y =>
      cases hd : Datum.difference kind v y with
      | error e =>
        simp only [hd]
        exact ⟨Datum.isHollow_of_difference hd,
          .here fun hsm => by simp [Task.Smooth, hy, hd] at hsm⟩
      | ok w =>
        have hn : (s.newDerived (.int kind) (some w)).value? s.cells.size = some w := by
          simp [value?_newDerived]
        have ht : target ≠ s.cells.size :=
          Nat.ne_of_lt ((hf.running source _ v (.head _)).target_lt rfl)
        simp only [hd, connect, bind_run, valueOf_run, hn]
        refine hs.reveals (.minus hy hd) hf ?_ ((load_newDerived ..).le.trans hf.load) (by
          rw [load_newDerived]
          omega)
        simp [Task.Smooth, hy, hd, value?_newDerived, ht]
  | patch field => exact reveals_patch hf
  | act => exact hsub.acts.elim

/-- The failures of a queue: there are none if all its subscribers ran smoothly. -/
theorem reveals_runQueue (hs : RevealsOutcome o settle n) (hc : Cascades settle n) (source : CellId)
    (v : Datum) (queue : List (Nat × Subscriber)) {s : Store}
    (hf : SolidDerivations s (queue.map fun q => .notify source q.2 v))
    (h : s.load + (queue.map fun q => q.2.weight).sum ≤ n) :
    ∃ errors t, runQueue settle queue v s = .ok errors t ∧ (∀ e ∈ errors, e.isHollow = false) ∧
      (errors = [] → SmoothCascade o s (queue.map fun q => .notify source q.2 v) t []) ∧
      (errors ≠ [] → ReachesNonSmooth o s (queue.map fun q => .notify source q.2 v)) := by
  induction queue generalizing s with
  | nil => exact ⟨[], s, rfl, by simp, fun _ => .refl _ _, by simp⟩
  | cons q queue ih =>
    simp only [List.map_cons, List.sum_cons] at h hf ⊢
    have hfirst := reveals_runSubscriber hs hf.single (by omega)
    obtain ⟨hcascade, hload⟩ := cascade_runSubscriber hc source q.2 v s hf.load (by omega)
    have hrest := hf.rest hcascade
    cases hrun : runSubscriber settle q.2 v s with
    | ok _ u =>
      rw [hrun] at hfirst
      rw [after_of_ok hrun] at hrest hload
      obtain ⟨errors, t, hq, hsolid, hsmooth, hrough⟩ := ih hrest (by omega)
      refine ⟨errors, t, ?_, hsolid, fun hnil => ?_, fun hne => ?_⟩
      · simp [runQueue, failures, hrun, hq]
      · exact (hfirst.frame _).trans (hsmooth hnil)
      · exact .later (hfirst.frame _) (hrough hne)
    | error e u =>
      rw [hrun] at hfirst
      rw [after_of_error hrun] at hrest hload
      obtain ⟨errors, t, hq, hsolid, -⟩ := ih hrest (by omega)
      refine ⟨e :: errors, t, ?_, List.forall_mem_cons.2 ⟨hfirst.1, hsolid⟩, by simp, fun _ => ?_⟩
      · simp [runQueue, failures, hrun, hq]
      · exact hfirst.2.frame _

theorem revealsOutcome_settleWithin (o : Store) (n : Nat) :
    RevealsOutcome o (settleWithin n) n := by
  induction n with
  | zero => exact ⟨fun _ _ _ _ _ h => absurd h (Nat.not_lt_zero _),
      fun _ _ _ _ h => absurd h (Nat.not_lt_zero _)⟩
  | succ n ih =>
    refine ⟨fun c v s hf hi h hv => ?_, fun c v s x _ hx => ?_⟩
    swap
    · exact ⟨.alreadyResolved x.display v.display, by simp [settleWithin, hx], rfl⟩
    have hfire : s.fire c v = (s.delivered c v, (s.cell c).queue.map fun q => .notify c q.2 v) := by
      simp [fire, hv]
    rw [hfire] at hf ⊢
    dsimp only at hf ⊢
    have hl := load_delivered s c v
    obtain ⟨errors, t, hq, hsolid, hsmooth, hrough⟩ := reveals_runQueue ih (cascades_settleWithin n)
      c v (s.cell c).queue hf (by
        simp only [Cell.total] at hl
        omega)
    have hrun : settleWithin (n + 1) c v s = Failable.raise errors t := by
      simp [settleWithin, hv, hq]
    rw [hrun]
    cases errors with
    | nil => exact hsmooth rfl
    | cons e errors =>
      obtain ⟨e', he', hsolid'⟩ := Error.ofMany?_solid ⟨e, .head _, hsolid e (.head _)⟩
      have hraise : (Failable.raise (e :: errors) : Op Unit) t = .error e' t := by
        rw [raise, he']
        rfl
      rw [hraise]
      exact ⟨hsolid', hrough (by simp)⟩

/-- The outcome of settling a cell that is pending. -/
theorem settle_reveals (o : Store) {c : CellId} {v : Datum}
    (hf : SolidDerivations (s.fire c v).1 (s.fire c v).2) (hi : s.load ≤ s.issued)
    (hv : s.value? c = none) :
    Reveals o (s.fire c v).1 (s.fire c v).2 (Store.settle c v s) :=
  (revealsOutcome_settleWithin o (s.issued + 1)).pending c v s hf hi (by omega) hv

end Store

end Backpatch
