import Mathlib
import Backpatch.Proofs.History

/-!
# What was told makes no difference

Events and reports are for those who watch a run from outside. A `Retelling` changes them, and an
operation commutes with it if it makes no difference whether the change comes before or after the
operation. Whatever commutes with every retelling neither reads nor writes what was told: so do
dispatch (`commutes_settle`) and the emission of segments (`commutes_emitSegment`). All operations
commute with retellings that let new events and reports come behind the old ones
(`Call.commutes_run`).
-/

namespace Backpatch

open Store Failable

/-- A change of the trace and of the reports. -/
structure Retelling where
  trace : Array Event → Array Event
  reports : Array Report → Array Report

namespace Retelling

variable {α β : Type} {f : Retelling}

def store (f : Retelling) (s : Store) : Store :=
  { s with trace := f.trace s.trace, reports := f.reports s.reports }

def result (f : Retelling) : EStateM.Result Error Store α → EStateM.Result Error Store α
  | .ok a t => .ok a (f.store t)
  | .error e t => .error e (f.store t)

/-- It makes no difference whether a store is retold before the operation or after it. -/
structure Commutes (f : Retelling) (x : Op α) : Prop where
  run : ∀ s, x (f.store s) = f.result (x s)

/-- What comes is told behind what was retold. -/
structure Adds (f : Retelling) : Prop where
  trace : ∀ events event, f.trace (events.push event) = (f.trace events).push event
  reports : ∀ reports report, f.reports (reports.push report) = (f.reports reports).push report

namespace Commutes

theorem pure (a : α) : f.Commutes (Pure.pure a) := ⟨fun _ => rfl⟩

theorem throw (e : Error) : f.Commutes (MonadExcept.throw e : Op α) :=
  ⟨fun _ => rfl⟩

theorem bind {x : Op α} {k : α → Op β} (hx : f.Commutes x) (hk : ∀ a, f.Commutes (k a)) :
    f.Commutes (x >>= k) := by
  refine ⟨fun s => ?_⟩
  rw [bind_run, bind_run, hx.run s]
  cases x s with
  | ok a t => exact (hk a).run t
  | error e t => rfl

/-- An operation may look at the store, but not at what was told. -/
theorem get {k : Store → Op α} (hsame : ∀ s, k (f.store s) = k s) (hk : ∀ s, f.Commutes (k s)) :
    f.Commutes (MonadState.get >>= k) := by
  refine ⟨fun s => ?_⟩
  change k (f.store s) (f.store s) = f.result (k s s)
  rw [hsame]
  exact (hk s).run s

theorem ofExcept (x : Except Error α) : f.Commutes (Failable.ofExcept x) := by
  cases x with
  | ok a => exact pure a
  | error e => exact throw e

theorem failures {x : Op Unit} (hx : f.Commutes x) : f.Commutes (Failable.failures x) := by
  refine ⟨fun s => ?_⟩
  unfold Failable.failures
  rw [hx.run s]
  cases x s <;> rfl

theorem raise (errors : List Error) : f.Commutes (Failable.raise errors) := by
  unfold Failable.raise
  cases Error.ofMany? errors with
  | none => exact pure ()
  | some e => exact throw e

theorem onFailure {x : Op α} {cleanup : Op Unit} (hx : f.Commutes x) (hc : f.Commutes cleanup) :
    f.Commutes (Failable.onFailure x cleanup) := by
  refine ⟨fun s => ?_⟩
  unfold Failable.onFailure
  rw [hx.run s]
  cases x s with
  | ok a t => rfl
  | error e t => exact (hc.bind fun _ => throw e).run t

theorem discard {x : Op α} (hx : f.Commutes x) : f.Commutes (discard x) := by
  refine ⟨fun s => ?_⟩
  rw [discard_run, discard_run, hx.run s]
  cases x s <;> rfl

theorem mapM {γ : Type} {k : γ → Op α} {l : List γ} (hk : ∀ x ∈ l, f.Commutes (k x)) :
    f.Commutes (l.mapM k) := by
  induction l with
  | nil => exact pure []
  | cons x l ih =>
    rw [List.mapM_cons]
    refine (hk x (.head l)).bind fun a => ?_
    exact (ih fun y hy => hk y (.tail x hy)).bind fun as => pure (a :: as)

end Commutes

end Retelling

open Retelling

/-! ## Dispatch -/

section Dispatch

variable {f : Retelling} {settle : CellId → Datum → Op Unit}

theorem commutes_tryMap (source : CellId) (kind : Kind) (g : Datum → Except Error Datum) :
    f.Commutes (tryMap source kind g) := by
  refine Commutes.bind ⟨fun _ => rfl⟩ fun value => ?_
  cases value with
  | none => exact Commutes.bind ⟨fun _ => rfl⟩ fun target => ⟨fun _ => rfl⟩
  | some v => exact (Commutes.ofExcept _).bind fun w => ⟨fun _ => rfl⟩

theorem commutes_resolveBy (hs : ∀ c v, f.Commutes (settle c v)) (c : CellId) (v : Datum) :
    f.Commutes (resolveBy settle c v) := by
  refine .get (fun _ => rfl) fun s => ?_
  split_ifs
  · exact .throw _
  · exact hs c v

theorem commutes_confirmBy (hs : ∀ c v, f.Commutes (settle c v)) (c : CellId) (v : Datum) :
    f.Commutes (confirmBy settle c v) := by
  refine .get (fun _ => rfl) fun s => ?_
  split_ifs
  · exact .pure ()
  · exact commutes_resolveBy hs c v

theorem commutes_connect (hs : ∀ c v, f.Commutes (settle c v)) (inner target : CellId) :
    f.Commutes (connect settle inner target) := by
  refine Commutes.bind ⟨fun _ => rfl⟩ fun value => ?_
  cases value with
  | none => exact ⟨fun _ => rfl⟩
  | some v => exact hs target v

theorem commutes_runAction (hs : ∀ c v, f.Commutes (settle c v)) (a : Action) (v : Datum) :
    f.Commutes (runAction settle a v) := by
  induction a generalizing v with
  | done | log => exact ⟨fun _ => rfl⟩
  | fail e => exact .throw e
  | forward t =>
    refine .get (fun _ => rfl) fun s => ?_
    cases s.find? t with
    | none => exact .pure ()
    | some c => exact commutes_resolveBy hs c v
  | resolve t w =>
    refine .get (fun _ => rfl) fun s => ?_
    cases s.find? t with
    | none => exact .pure ()
    | some c =>
      refine Commutes.bind ⟨fun _ => rfl⟩ fun kind => ?_
      cases w.read kind with
      | none => exact .pure ()
      | some x => exact commutes_resolveBy hs c x
  | confirm t w =>
    refine .get (fun _ => rfl) fun s => ?_
    cases s.find? t with
    | none => exact .pure ()
    | some c =>
      refine Commutes.bind ⟨fun _ => rfl⟩ fun kind => ?_
      cases w.read kind with
      | none => exact .pure ()
      | some x => exact commutes_confirmBy hs c x
  | unresolve t =>
    refine .get (fun _ => rfl) fun s => ?_
    cases s.find? t with
    | none => exact .pure ()
    | some c => exact ⟨fun _ => rfl⟩
  | watch t a ih =>
    refine .get (fun _ => rfl) fun s => ?_
    cases s.find? t with
    | none => exact .pure ()
    | some c =>
      refine Commutes.bind ⟨fun _ => rfl⟩ fun value => ?_
      cases value with
      | none => exact ⟨fun _ => rfl⟩
      | some w => exact ih w
  | unsubscribe name =>
    refine .get (fun _ => rfl) fun s => ?_
    cases s.subscriptions.lookup name with
    | none => exact ⟨fun _ => rfl⟩
    | some sub => exact Commutes.bind ⟨fun _ => rfl⟩ fun removed => ⟨fun _ => rfl⟩
  | andThen a b iha ihb => exact (iha v).bind fun _ => ihb v

theorem commutes_overwrite (i : ImageId) (offset : Nat) (bs : Bytes) (note : Note) :
    f.Commutes (overwrite i offset bs note) := by
  refine .get (fun _ => rfl) fun s => ?_
  exact (Commutes.ofExcept _).bind fun _ => ⟨fun _ => rfl⟩

theorem commutes_patch (field : FieldId) (v : Datum) : f.Commutes (patch field v) := by
  refine .get (fun _ => rfl) fun s => ?_
  cases s.placeholders[field]? with
  | none => exact .pure ()
  | some p =>
    refine (Commutes.ofExcept _).bind fun bs => ?_
    exact (commutes_overwrite ..).bind fun _ => ⟨fun _ => rfl⟩

theorem commutes_runSubscriber (hs : ∀ c v, f.Commutes (settle c v)) (sub : Subscriber)
    (v : Datum) : f.Commutes (runSubscriber settle sub v) := by
  cases sub with
  | derive target g => exact (Commutes.ofExcept _).bind fun w => hs target w
  | follow target choose =>
    exact (Commutes.ofExcept _).bind fun inner => commutes_connect hs inner target
  | minus target kind subtrahend =>
    exact (commutes_tryMap _ _ _).bind fun inner => commutes_connect hs inner target
  | patch field => exact commutes_patch field v
  | act a => exact commutes_runAction hs a v

theorem commutes_runQueue (hs : ∀ c v, f.Commutes (settle c v)) (waiting : List (Nat × Subscriber))
    (v : Datum) : f.Commutes (runQueue settle waiting v) := by
  induction waiting with
  | nil => exact .pure []
  | cons q rest ih =>
    exact (commutes_runSubscriber hs q.2 v).failures.bind fun _ => ih.bind fun _ => .pure _

theorem commutes_settleWithin (depth : Nat) (c : CellId) (v : Datum) :
    f.Commutes (settleWithin depth c v) := by
  induction depth generalizing c v with
  | zero => exact .pure ()
  | succ depth ih =>
    refine Commutes.bind ⟨fun _ => rfl⟩ fun value => ?_
    cases value with
    | some existing => exact .throw _
    | none =>
      refine Commutes.bind ⟨fun _ => rfl⟩ fun waiting => ?_
      exact (commutes_runQueue ih waiting v).bind fun errors => .raise errors

/-- Dispatch neither reads nor writes what was told. -/
theorem commutes_settle (c : CellId) (v : Datum) : f.Commutes (Store.settle c v) := by
  refine .get (fun _ => rfl) fun s => ?_
  exact commutes_settleWithin _ c v

theorem commutes_settleOrConfirm (c : CellId) (v : Datum) :
    f.Commutes (settleOrConfirm c v) := by
  refine .get (fun _ => rfl) fun s => ?_
  split_ifs
  · exact .pure ()
  · exact commutes_settle c v

end Dispatch

/-! ## Emission -/

section Emission

variable {f : Retelling} (i : ImageId)

mutual

/-- Emitting a segment neither reads nor writes what was told. -/
theorem commutes_emitSegment (segment : Segment) : f.Commutes (emitSegment i segment) := by
  cases segment with
  | direct | postProcess => exact ⟨fun _ => rfl⟩
  | deferred format c label =>
    refine Commutes.bind ⟨fun _ => rfl⟩ fun value => ?_
    cases value with
    | none => exact ⟨fun _ => rfl⟩
    | some v => exact (Commutes.ofExcept _).bind fun bs => ⟨fun _ => rfl⟩
  | mark c => exact Commutes.bind ⟨fun _ => rfl⟩ fun n => commutes_settleOrConfirm c _
  | nested segments => exact commutes_emitAll segments

theorem commutes_emitAll (segments : List Segment) : f.Commutes (emitAll i segments) := by
  cases segments with
  | nil => exact .pure ()
  | cons segment rest => exact (commutes_emitSegment segment).bind fun _ => commutes_emitAll rest

end

theorem Retelling.store_released (f : Retelling) (s : Store) (ps : List Placeholder) :
    (f.store s).released ps = f.store (s.released ps) := by
  induction ps generalizing s with
  | nil => rfl
  | cons p ps ih => exact ih (s.withdrawn p.cell p.subscription)

theorem commutes_release (first last : FieldId) : f.Commutes (release first last) := by
  refine ⟨fun s => ?_⟩
  rw [release_run, release_run, f.store_released]
  rfl

end Emission

/-! ## Cells and images -/

section Cells

variable {f : Retelling}

theorem commutes_onResolve (c : CellId) (sub : Subscriber) : f.Commutes (onResolve c sub) := by
  refine Commutes.bind ⟨fun _ => rfl⟩ fun value => ?_
  cases value with
  | none => exact ⟨fun _ => rfl⟩
  | some v => exact (commutes_runSubscriber commutes_settle sub v).bind fun _ => .pure 0

theorem commutes_follow (inner : CellId) : f.Commutes (follow inner) :=
  .bind ⟨fun _ => rfl⟩ fun kind => commutes_tryMap inner kind .ok

theorem commutes_tryBind (source : CellId) (kind : Kind) (choose : Datum → Except Error CellId) :
    f.Commutes (tryBind source kind choose) := by
  refine Commutes.bind ⟨fun _ => rfl⟩ fun value => ?_
  cases value with
  | none => exact Commutes.bind ⟨fun _ => rfl⟩ fun target => ⟨fun _ => rfl⟩
  | some v => exact (Commutes.ofExcept _).bind commutes_follow

theorem commutes_subtract (kind : IntKind) (minuend subtrahend : CellId) :
    f.Commutes (subtract kind minuend subtrahend) := by
  refine Commutes.bind ⟨fun _ => rfl⟩ fun value => ?_
  cases value with
  | none => exact Commutes.bind ⟨fun _ => rfl⟩ fun target => ⟨fun _ => rfl⟩
  | some v => exact (commutes_tryMap ..).bind commutes_follow

end Cells

/-! ## Operations that tell -/

section Telling

variable {f : Retelling} (hf : f.Adds)

include hf

theorem commutes_emit (event : Event) : f.Commutes (emit event) := by
  refine ⟨fun s => ?_⟩
  change EStateM.Result.ok () { f.store s with trace := (f.trace s.trace).push event } =
    .ok () { f.store s with trace := f.trace (s.trace.push event) }
  rw [hf.trace]

theorem commutes_checkpoint (observer : Observer) (i : ImageId) (c : Checkpoint) :
    f.Commutes (checkpoint observer i c) := by
  cases observer with
  | silent => exact .pure ()
  | tracing =>
    cases c with
    | segment | postProcessed => exact commutes_emit hf _
    | finalized => exact .get (fun _ => rfl) fun s => commutes_emit hf _
  | recording =>
    refine ⟨fun s => ?_⟩
    let report : Report := ⟨c, (s.image i).size, (s.image i).pendingRows.length⟩
    change EStateM.Result.ok () { f.store s with reports := (f.reports s.reports).push report } =
      .ok () { f.store s with reports := f.reports (s.reports.push report) }
    rw [hf.reports]

theorem commutes_emitObserved (observer : Observer) (i : ImageId) (index : Nat)
    (segments : List Segment) : f.Commutes (emitObserved observer i index segments) := by
  induction segments generalizing index with
  | nil => exact .pure ()
  | cons segment rest ih =>
    refine (commutes_emitSegment i segment).bind fun _ => ?_
    refine Commutes.bind ⟨fun _ => rfl⟩ fun size => ?_
    exact (commutes_checkpoint hf ..).bind fun _ => ih (index + 1)

theorem Region.commutes_layoutObserved (r : Region) (i : ImageId) (observer : Observer) :
    f.Commutes (r.layoutObserved i observer) := by
  refine Commutes.bind ⟨fun _ => rfl⟩ fun size => ?_
  refine (commutes_emit hf _).bind fun _ => ?_
  refine .get (fun _ => rfl) fun s => ?_
  refine Commutes.bind (.onFailure (commutes_emitObserved hf ..) ?_) fun _ => ?_
  · exact .get (fun _ => rfl) fun s => commutes_release ..
  · exact .get (fun _ => rfl) fun s => .pure _

namespace Layout

variable (l : Layout)

theorem commutes_runEntry (enforce : Bool) (index : Nat) (e : Entry) (tally : Tally) :
    f.Commutes (l.runEntry enforce index e tally) := by
  refine .get (fun _ => rfl) fun s => ?_
  rcases bounds e s with ⟨_ | start, _ | stop⟩
  case some.some =>
    refine .get (fun _ => rfl) fun s => ?_
    split_ifs
    · exact (commutes_emit hf _).bind fun _ => .pure _
    · refine Commutes.bind (Commutes.failures ?_) fun errors => ?_
      · refine .get (fun _ => rfl) fun s => ?_
        exact (Commutes.ofExcept _).bind fun bs => commutes_settleOrConfirm ..
      · cases errors <;> exact .pure _
  all_goals
    dsimp only
    split_ifs
    · exact .pure _
    · exact (commutes_emit hf _).bind fun _ => .pure _

theorem commutes_runEntries (enforce : Bool) (index : Nat) (entries : List Entry) (tally : Tally) :
    f.Commutes (l.runEntries enforce index entries tally) := by
  induction entries generalizing index tally with
  | nil => exact .pure tally
  | cons e rest ih => exact (l.commutes_runEntry hf ..).bind fun tally => ih (index + 1) tally

theorem commutes_close (config : FlattenConfig) (observer : Observer) (tally : Tally) :
    f.Commutes (l.close config observer tally) := by
  refine (commutes_checkpoint hf ..).bind fun _ => ?_
  refine .get (fun _ => rfl) fun s => ?_
  have hrest : ∀ (unresolved : List UnresolvedField) (errors : List Error), f.Commutes (do
      let size ← imageSize l.image
      checkpoint observer l.image (.finalized size unresolved.length)
      l.drop
      Failable.raise errors
      return {
        size
        deferredFields := l.deferredFields
        unresolved
        postProcessed := tally.applied
        skipped := tally.skipped } : Op FlattenSummary) := by
    intro unresolved errors
    refine Commutes.bind ⟨fun _ => rfl⟩ fun size => ?_
    refine (commutes_checkpoint hf ..).bind fun _ => ?_
    refine (commutes_release ..).bind fun _ => ?_
    exact (Commutes.raise errors).bind fun _ => .pure _
  dsimp only
  by_cases hmissing : (!(l.pendingFields s).isEmpty) = true
  · rw [if_pos hmissing]
    exact (commutes_emit hf _).bind fun _ => hrest _ _
  · rw [if_neg hmissing]
    exact hrest _ _

theorem commutes_finalizeObserved (config : FlattenConfig) (observer : Observer) :
    f.Commutes (l.finalizeObserved config observer) :=
  (l.commutes_runEntries hf ..).bind fun tally => l.commutes_close hf config observer tally

end Layout

theorem Region.commutes_flattenObserved (r : Region) (i : ImageId) (config : FlattenConfig)
    (observer : Observer) : f.Commutes (r.flattenObserved i config observer) := by
  refine (r.commutes_layoutObserved hf i observer).bind fun l => ?_
  refine (l.commutes_finalizeObserved hf config observer).bind fun summary => ?_
  exact (commutes_emit hf _).bind fun _ => .pure summary

namespace Snapshot.Builder

variable (b : Builder)

omit hf in
theorem commutes_prepare : f.Commutes b.prepare := by
  have hreferences : f.Commutes (newReferences b.sections.size) := by
    refine Commutes.bind ⟨fun _ => rfl⟩ fun _ => ?_
    refine Commutes.bind ⟨fun _ => rfl⟩ fun _ => ?_
    refine Commutes.bind ⟨fun _ => rfl⟩ fun _ => ?_
    exact (Commutes.mapM fun _ _ => ⟨fun _ => rfl⟩).bind fun _ => .pure _
  have hregion : ∀ refs, f.Commutes (b.region refs) := by
    intro refs
    refine (commutes_tryMap ..).bind fun _ => ?_
    refine (commutes_tryMap ..).bind fun _ => ?_
    refine (Commutes.ofExcept _).bind fun _ => ?_
    exact (Commutes.mapM fun _ _ => commutes_tryMap ..).bind fun _ => .pure _
  refine hreferences.bind fun refs => (hregion refs).bind fun r => ?_
  refine Commutes.bind ⟨fun _ => rfl⟩ fun _ => ?_
  exact (commutes_onResolve ..).discard.bind fun _ => .pure _

theorem commutes_build (config : FlattenConfig) : f.Commutes (b.build config) := by
  refine b.commutes_prepare.bind fun prepared => ?_
  refine Commutes.bind ⟨fun _ => rfl⟩ fun i => ?_
  refine (Region.commutes_flattenObserved hf ..).bind fun summary => ?_
  refine (Commutes.mapM fun part _ => .get (fun _ => rfl) fun s => ?_).bind fun sections => ?_
  · rcases s.offset? part.2.1 with _ | start
    · exact .throw _
    · cases s.offset? part.2.2 with
      | none => exact .throw _
      | some stop => exact .pure _
  · refine .get (fun _ => rfl) fun s => ?_
    dsimp only
    split_ifs
    · exact .bind (.throw _) fun _ => (commutes_emit hf _).bind fun _ => .pure _
    · exact (commutes_emit hf _).bind fun _ => .pure _

end Snapshot.Builder

/-- Every call only adds to what was told before. -/
theorem Call.commutes_run (call : Call) : f.Commutes call.run := by
  cases call with
  | newCell | unresolve | unsubscribe | define | newImage | append => exact ⟨fun _ => rfl⟩
  | tryMap => exact (commutes_tryMap ..).discard
  | tryBind => exact (commutes_tryBind ..).discard
  | subtract => exact (commutes_subtract ..).discard
  | resolve c v => exact commutes_resolveBy commutes_settle c v
  | confirm c v => exact commutes_confirmBy commutes_settle c v
  | onResolve => exact (commutes_onResolve ..).discard
  | overwrite => exact commutes_overwrite ..
  | layout => exact (Region.commutes_layoutObserved hf ..).discard
  | finalize => exact (Layout.commutes_finalizeObserved hf ..).discard
  | drop => exact commutes_release ..
  | flatten => exact (Region.commutes_flattenObserved hf ..).discard
  | build b config => exact (b.commutes_build hf config).discard

end Telling

end Backpatch
