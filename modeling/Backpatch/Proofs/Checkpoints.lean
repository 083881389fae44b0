import Mathlib
import Backpatch.Proofs.Atomicity
import Backpatch.Proofs.Nesting
import Backpatch.Proofs.Reports

/-!
# The checkpoints of a flattening

An observer hears of a segment when it is in the image, with the offset behind it. This offset is
known beforehand (`Segment.ends`), whatever callbacks do on the way. Dispatch tells nothing, so a
segment that fails at any depth is the end of the story (`emitObserved_heard`). After the last
segment come two checkpoints of finalization, also if finalization fails.
-/

namespace Backpatch

open Store Failable Retelling

/-! ## What an observer hears -/

/-- The checkpoint that an event tells of. -/
def Event.checkpoint? : Event → Option Checkpoint
  | .flattenedSegment index offset => some (.segment index offset)
  | .postProcessed applied skipped => some (.postProcessed applied skipped)
  | .finalizedLayout size unresolved _ => some (.finalized size unresolved)
  | .flattening .. | .skippedCovered .. | .skippedUnbounded _ | .unresolvedFields _ | .flattened ..
  | .builtSnapshot .. | .createdFile .. | .finalizedFile _ | .removedFile _ => none

/-- The checkpoints that an observer has heard of. -/
def Observer.heard : Observer → Store → List Checkpoint
  | .silent, _ => []
  | .tracing, s => s.trace.toList.filterMap Event.checkpoint?
  | .recording, s => s.reports.toList.map Report.checkpoint

/-- The observer hears of no checkpoint during the operation. -/
structure Quiet {α : Type} (observer : Observer) (x : Op α) : Prop where
  heard : ∀ s, observer.heard (x.after s) = observer.heard s

section Hearing

variable {α β : Type} {observer : Observer}

theorem Observer.heard_congr {s t : Store} (ht : t.trace = s.trace) (hr : t.reports = s.reports) :
    observer.heard t = observer.heard s := by
  cases observer with
  | silent => rfl
  | tracing => rw [heard, ht, heard]
  | recording => rw [heard, hr, heard]

namespace Quiet

/-- What commutes with every retelling tells nothing: it commutes with the one that forgets all that
was told since `s`. -/
theorem of_commutes {x : Op α} (h : ∀ f : Retelling, f.Commutes x) : Quiet observer x := by
  refine ⟨fun s => ?_⟩
  have hrun := (h ⟨fun _ => s.trace, fun _ => s.reports⟩).run s
  change x s = Retelling.result ⟨fun _ => s.trace, fun _ => s.reports⟩ (x s) at hrun
  unfold after
  rw [hrun]
  cases x s with
  | ok | error => exact Observer.heard_congr rfl rfl

/-- What follows quietly adds nothing to what was heard. -/
theorem heard_bind {k : α → Op β} (hk : ∀ a, Quiet observer (k a)) (x : Op α) (s : Store) :
    observer.heard ((x >>= k).after s) = observer.heard (x.after s) := by
  rw [after_bind]
  cases hrun : x s with
  | ok a t => rw [after_of_ok hrun, (hk a).heard]
  | error e t => rw [after_of_error hrun]

theorem bind {x : Op α} {k : α → Op β} (hx : Quiet observer x) (hk : ∀ a, Quiet observer (k a)) :
    Quiet observer (x >>= k) :=
  ⟨fun s => (heard_bind hk x s).trans (hx.heard s)⟩

theorem emit {event : Event} (h : event.checkpoint? = none) : Quiet observer (emit event) := by
  refine ⟨fun s => ?_⟩
  cases observer with
  | silent | recording => rfl
  | tracing =>
    change (s.trace.push event).toList.filterMap Event.checkpoint? = _
    rw [Array.toList_push, List.filterMap_append, List.filterMap_cons_none h]
    exact List.append_nil _

end Quiet

/-- Who listens hears of the checkpoint, and nothing else changes. -/
theorem checkpoint_heard (ho : observer ≠ .silent) (i : ImageId) (c : Checkpoint) (s : Store) :
    ∃ trace reports, checkpoint observer i c s = .ok () { s with trace, reports } ∧
      observer.heard { s with trace, reports } = observer.heard s ++ [c] := by
  cases observer with
  | silent => exact absurd rfl ho
  | tracing =>
    cases c with
    | segment | postProcessed | finalized =>
      refine ⟨s.trace.push _, s.reports, rfl, ?_⟩
      rw [Observer.heard, Array.toList_push, List.filterMap_append]
      rfl
  | recording =>
    refine ⟨s.trace, s.reports.push _, rfl, ?_⟩
    rw [Observer.heard, Array.toList_push, List.map_append]
    rfl

end Hearing

/-! ## Segments -/

namespace Segment

/-- The offsets behind each of the segments, which begin at `a`. -/
def ends (a : Nat) (segments : List Segment) : List Nat :=
  (List.range segments.length).map fun k => a + sizeAll (segments.take (k + 1))

/-- The checkpoints of segments that begin at `a` and are numbered from `index`. -/
def checkpoints (index a : Nat) (segments : List Segment) : List Checkpoint :=
  ((ends a segments).zipIdx index).map fun x => .segment x.2 x.1

theorem ends_cons (a : Nat) (segment : Segment) (rest : List Segment) :
    ends a (segment :: rest) = (a + segment.size) :: ends (a + segment.size) rest := by
  simp only [ends, List.length_cons, List.range_succ_eq_map, List.map_cons, List.map_map,
    List.take_succ_cons, sizeAll, Function.comp_def, List.take_zero, Nat.add_zero, Nat.add_assoc]

theorem getLastD_ends (a : Nat) (segments : List Segment) :
    (ends a segments).getLastD a = a + sizeAll segments := by
  induction segments generalizing a with
  | nil => rfl
  | cons segment rest ih => rw [ends_cons, List.getLastD_cons, ih, sizeAll, Nat.add_assoc]

theorem checkpoints_cons (index a : Nat) (segment : Segment) (rest : List Segment) :
    checkpoints index a (segment :: rest) =
      .segment index (a + segment.size) :: checkpoints (index + 1) (a + segment.size) rest := by
  rw [checkpoints, ends_cons, List.zipIdx_cons, List.map_cons]
  rfl

end Segment

section Emission

variable {i : ImageId} {observer : Observer} {s : Store}

/-- After each segment that is emitted comes its checkpoint. If a segment fails, the checkpoints are
those of the segments before it. -/
theorem emitObserved_heard (ho : observer ≠ .silent) {segments : List Segment} (index : Nat)
    (hv : Valid s []) (hi : i < s.images.size)
    (hw : Segment.WithinAll s.cells.size segments) :
    let told := Segment.checkpoints index (s.image i).size segments
    (∀ t, emitObserved observer i index segments s = .ok () t →
      observer.heard t = observer.heard s ++ told) ∧
    ∀ e t, emitObserved observer i index segments s = .error e t →
      ∃ k segment u, segments[k]? = some segment ∧
        emitObserved observer i index (segments.take k) s = .ok () u ∧
        emitSegment i segment u = .error e t ∧
        observer.heard t = observer.heard s ++ told.take k := by
  induction segments generalizing index s with
  | nil =>
    refine ⟨fun t h => ?_, fun e t h => ?_⟩
    · cases h
      exact (List.append_nil _).symm
    · cases h
  | cons segment rest ih =>
    have hquiet : Quiet observer (emitSegment i segment) :=
      .of_commutes fun _ => commutes_emitSegment i segment
    have hs := hquiet.heard s
    cases hrun : emitSegment i segment s with
    | error e u =>
      have hfails : emitObserved observer i index (segment :: rest) s = .error e u := by
        rw [emitObserved, bind_run, hrun]
      rw [after_of_error hrun] at hs
      refine ⟨fun t h => ?_, fun e' t h => ?_⟩
      · cases hfails.symm.trans h
      · cases hfails.symm.trans h
        exact ⟨0, segment, s, rfl, rfl, hrun, hs.trans (List.append_nil _).symm⟩
    | ok _ u =>
      rw [after_of_ok hrun] at hs
      have hsu : Steps (Move.Writes i s.cells.size) s u :=
        after_of_ok hrun ▸ steps_emitSegment hv hi le_rfl hw.1
      have hsize : (u.image i).size = (s.image i).size + segment.size :=
        (emitSegment_emission hrun).size hv hi ⟨hw.1, trivial⟩
      obtain ⟨trace, reports, hcheck, hheard⟩ :=
        checkpoint_heard ho i (.segment index (u.image i).size) u
      let v : Store := { u with trace, reports }
      have huv : Steps (Move.Writes i s.cells.size) u v :=
        .quiet (m := .journal u.log trace reports) trivial trivial rfl
      have hsv := hsu.trans huv
      -- What comes after the first segment, all of it or the first few.
      have hrest : ∀ more, emitObserved observer i index (segment :: more) s =
          emitObserved observer i (index + 1) more v := by
        intro more
        rw [emitObserved, bind_run, hrun]
        change (checkpoint observer i (.segment index (u.image i).size) >>= fun _ => _ : Op Unit) u
          = _
        rw [bind_run, hcheck]
      have htold : observer.heard v = observer.heard s ++
          [.segment index ((s.image i).size + segment.size)] := by
        rw [← hs, ← hsize]
        exact hheard
      have hsize' : (v.image i).size = (s.image i).size + segment.size := hsize
      obtain ⟨hok, herror⟩ := ih (index + 1) (hsv.valid hv) (hi.trans_le hsv.grows.images)
        (hw.2.mono hsv.grows.cells)
      rw [Segment.checkpoints_cons]
      rw [htold, hsize', List.append_assoc, List.singleton_append] at hok
      refine ⟨fun t h => hok t ((hrest rest).symm.trans h), fun e t h => ?_⟩
      obtain ⟨k, failing, w, hk, hw', hfails, hheard'⟩ := herror e t ((hrest rest).symm.trans h)
      refine ⟨k + 1, failing, w, hk, ?_, hfails, ?_⟩
      · rw [List.take_succ_cons, hrest]
        exact hw'
      · rw [hheard', htold, hsize', List.append_assoc, List.singleton_append, List.take_succ_cons]

/-- The segment with the number `k` is the first one that fails, with the error `e`. -/
def FailsAt (i : ImageId) (segments : List Segment) (k : Nat) (e : Error) (s : Store) : Prop :=
  ∃ segment u v, segments[k]? = some segment ∧ emitAll i (segments.take k) s = .ok () u ∧
    emitSegment i segment u = .error e v

/-- The observer of a layout hears of every segment that was emitted. -/
theorem Region.layoutObserved_heard {r : Region} (ho : observer ≠ .silent) (hv : Valid s [])
    (hi : i < s.images.size) (hw : r.Within s.cells.size) :
    let told := Segment.checkpoints 0 (s.image i).size r.segments
    (∀ l t, r.layoutObserved i observer s = .ok l t →
      observer.heard t = observer.heard s ++ told) ∧
    ∀ e t, r.layoutObserved i observer s = .error e t →
      ∃ k, FailsAt i r.segments k e s ∧ observer.heard t = observer.heard s ++ told.take k := by
  let event : Event := .flattening r.segments.length (s.image i).size
  have hevent : observer.heard ((emit event).after s) = observer.heard s := (Quiet.emit rfl).heard s
  have hstep : Steps (Move.Writes i 0) s ((emit event).after s) :=
    steps_emit event fun _ _ _ => trivial
  obtain ⟨hok, herror⟩ := emitObserved_heard (s := (emit event).after s) ho 0 (hstep.valid hv) hi hw
  rw [hevent] at hok
  refine ⟨fun l t h => hok t (layoutObserved_eq_ok h).1, fun e t h => ?_⟩
  obtain ⟨u, hemit, rfl⟩ := layoutObserved_eq_error h
  obtain ⟨k, segment, w, hk, hfirst, hfails, hheard⟩ := herror e u hemit
  refine ⟨k, ?_, ?_⟩
  · -- Without the observer, the segments come to the same.
    have huntold : ((emit event).after s).untold = s.untold := rfl
    obtain ⟨w', hfirst', hw'⟩ := (alike_emitObserved 0 _).of_ok huntold hfirst
    obtain ⟨v, hfails', -⟩ :=
      (Alike.of_commutes fun _ _ => commutes_emitSegment i segment).of_error hw' hfails
    exact ⟨segment, w', v, hk, hfirst', hfails'⟩
  · have hrelease : Quiet observer (release s.placeholders.size u.placeholders.size) :=
      .of_commutes fun _ => commutes_release ..
    have hreleased := hrelease.heard u
    rw [after_of_ok (release_run ..)] at hreleased
    rw [hreleased, hheard, hevent]
    rfl

end Emission

/-! ## Finalization -/

namespace Layout

variable {observer : Observer}

/-- An entry that is passed over is told of, but not as a checkpoint. -/
theorem quiet_runEntry (l : Layout) (enforce : Bool) (index : Nat) (e : Entry) (tally : Tally) :
    Quiet observer (l.runEntry enforce index e tally) := by
  refine ⟨fun s => ?_⟩
  unfold after
  rw [runEntry_run]
  rcases bounds e s with ⟨_ | start, _ | stop⟩
  case some.some =>
    have happly : Quiet observer (l.applyEntry e start stop) := by
      refine .of_commutes fun f => .get (fun _ => rfl) fun s => ?_
      exact (Commutes.ofExcept _).bind fun bs => commutes_settleOrConfirm ..
    have hs := happly.heard s
    unfold after at hs
    dsimp only
    split_ifs
    · exact (Quiet.emit rfl).heard s
    · cases hrun : l.applyEntry e start stop s with
      | ok | error => simpa only [hrun] using hs
  all_goals
    dsimp only
    split_ifs
    · rfl
    · exact (Quiet.emit rfl).heard s

theorem quiet_runEntries (l : Layout) (enforce : Bool) (index : Nat) (entries : List Entry)
    (tally : Tally) : Quiet observer (l.runEntries enforce index entries tally) := by
  induction entries generalizing index tally with
  | nil => exact .of_commutes fun _ => .pure tally
  | cons e rest ih =>
    exact (quiet_runEntry l enforce index e tally).bind fun tally => ih (index + 1) tally

/-- Closing a layout tells of two checkpoints, whether it complains or not. -/
theorem heard_close (ho : observer ≠ .silent) (l : Layout) (config : FlattenConfig) (tally : Tally)
    (s : Store) : observer.heard ((l.close config observer tally).after s) = observer.heard s ++
      [.postProcessed tally.applied tally.skipped,
        .finalized (s.image l.image).size (l.pendingFields s).length] := by
  obtain ⟨trace, reports, hfirst, hheard⟩ :=
    checkpoint_heard ho l.image (.postProcessed tally.applied tally.skipped) s
  -- From the second checkpoint on, whatever was told before.
  have hrest : ∀ (trace : Array Event) (reports : Array Report) (errors : List Error),
      observer.heard { s with trace, reports } =
        observer.heard s ++ [.postProcessed tally.applied tally.skipped] →
      observer.heard ((do
        let size ← imageSize l.image
        checkpoint observer l.image (.finalized size (l.pendingFields s).length)
        l.drop
        Failable.raise errors
        return {
          size
          deferredFields := l.deferredFields
          unresolved := l.pendingFields s
          postProcessed := tally.applied
          skipped := tally.skipped } : Op FlattenSummary).after { s with trace, reports }) =
      observer.heard s ++ [.postProcessed tally.applied tally.skipped,
        .finalized (s.image l.image).size (l.pendingFields s).length] := by
    intro trace reports errors hheard
    have hquiet : ∀ summary : FlattenSummary, Quiet observer (do
        l.drop
        Failable.raise errors
        return summary : Op FlattenSummary) := by
      intro summary
      refine .of_commutes fun _ => (commutes_release ..).bind fun _ => ?_
      exact (Commutes.raise errors).bind fun _ => .pure summary
    obtain ⟨trace', reports', hsecond, hheard'⟩ := checkpoint_heard ho l.image
      (.finalized (s.image l.image).size (l.pendingFields s).length) { s with trace, reports }
    change observer.heard ((checkpoint observer l.image (.finalized (s.image l.image).size
      (l.pendingFields s).length) >>= fun _ => _ : Op FlattenSummary).after _) = _
    rw [Quiet.heard_bind fun _ => hquiet _, after_of_ok hsecond, hheard', hheard,
      List.append_assoc]
    rfl
  unfold close
  rw [after_bind, hfirst]
  change observer.heard ((if (!(l.pendingFields s).isEmpty) = true then _ else _ :
    Op FlattenSummary).after _) = _
  by_cases hmissing : (!(l.pendingFields s).isEmpty) = true
  · rw [if_pos hmissing]
    refine hrest (trace.push (.unresolvedFields (l.pendingFields s).length)) reports _ ?_
    have hquiet : Quiet observer (emit (.unresolvedFields (l.pendingFields s).length)) := .emit rfl
    exact (hquiet.heard { s with trace, reports }).trans hheard
  · rw [if_neg hmissing]
    exact hrest trace reports _ hheard

/-- What an observer hears of finalization: how many entries were applied and how many passed over,
and then the size of the image and how many fields are missing. -/
theorem heard_finalizeObserved (ho : observer ≠ .silent) (l : Layout) (config : FlattenConfig)
    (s : Store) :
    let strict := config.enforceComplete
    let v := (l.runEntries strict 0 l.entries {}).after s
    let verdicts := l.verdicts strict 0 l.entries s
    observer.heard ((l.finalizeObserved config observer).after s) = observer.heard s ++
      [.postProcessed (verdicts.countP Verdict.isApplied) (verdicts.countP Verdict.isSkipped),
        .finalized (v.image l.image).size (l.pendingFields v).length] := by
  intro strict v verdicts
  obtain ⟨u, hentries⟩ := runEntries_eq l strict 0 l.entries {} s
  obtain rfl : v = u := after_of_ok hentries
  have hquiet : observer.heard v = observer.heard s :=
    (quiet_runEntries l strict 0 l.entries {}).heard s
  rw [finalizeObserved, after_bind, hentries]
  dsimp only
  rw [heard_close ho, hquiet]
  simp only [Tally.addAll, Nat.zero_add]
  rfl

end Layout

/-- The checkpoints of a flattening, for who listens. If all segments are emitted, there is one for
each of them in order, with the offset that the sizes of the segments give, and then the two of
finalization, whether finalization succeeds or not. If a segment fails, there are those of the
segments before it, and that is all. -/
theorem flattening_checkpoints {calls : List Call} {s : Store} {r : Region} {i : ImageId}
    (config : FlattenConfig) (observer : Observer) (hbefore : Run {} calls s)
    (hi : i < s.images.size) (hw : r.Within s.cells.size) (ho : observer ≠ .silent) :
    let a := (s.image i).size
    let strict := config.enforceComplete
    let flatten := r.flattenObserved i config observer
    let told := Segment.checkpoints 0 a r.segments
    let heard := observer.heard (flatten.after s)
    (∀ l u, r.layoutObserved i observer s = .ok l u →
      let v := (l.runEntries strict 0 l.entries {}).after u
      let verdicts := l.verdicts strict 0 l.entries u
      let applied := verdicts.countP Verdict.isApplied
      let skipped := verdicts.countP Verdict.isSkipped
      let unpatched := (l.placeholders v).toList.countP fun p => !p.patched
      heard = observer.heard s ++ told ++ [.postProcessed applied skipped,
        .finalized ((Segment.ends a r.segments).getLastD a) unpatched] ∧
      ∀ summary w, flatten s = .ok summary w →
        summary.postProcessed = applied ∧ summary.skipped = skipped) ∧
    ∀ e u, r.layoutObserved i observer s = .error e u → flatten s = .error e u ∧
      ∃ k, FailsAt i r.segments k e s ∧ heard = observer.heard s ++ told.take k := by
  intro a strict flatten told heard
  have hvalid := hbefore.valid
  obtain ⟨hok, herror⟩ := Region.layoutObserved_heard ho hvalid hi hw
  refine ⟨fun l u hlayout => ?_, fun e u hlayout => ?_⟩
  · intro v verdicts applied skipped unpatched
    have hsu : Steps Move.Plain s u :=
      after_of_ok hlayout ▸ Region.steps_layoutObserved observer hvalid hi hw
    have huv : Steps (Move.Settles u.cells.size) u v := l.steps_runEntries strict 0 {}
      (hsu.valid hvalid) le_rfl (Region.layoutObserved_entries hvalid hi hw hlayout)
    have hsize : (v.image l.image).size = (Segment.ends a r.segments).getLastD a := by
      rw [huv.size_image fun _ hm => hm.not_draws, (Region.layoutObserved_eq_ok hlayout).2,
        Segment.getLastD_ends]
      exact Region.layoutObserved_size hvalid hi hw hlayout
    have hunpatched : (l.pendingFields v).length = unpatched := by
      rw [Layout.pendingFields, List.length_map, Layout.pending, ← List.countP_eq_length_filter]
    refine ⟨?_, fun summary w hflatten => ?_⟩
    · have hflat : flatten.after s = ((do
          let summary ← l.finalizeObserved config observer
          emit (.flattened summary.size summary.deferredFields summary.unresolved.length)
          return summary : Op FlattenSummary)).after u := by
        change (r.layoutObserved i observer >>= _ : Op FlattenSummary).after s = _
        rw [after_bind, hlayout]
      have hquiet : ∀ summary : FlattenSummary, Quiet observer (do
          emit (.flattened summary.size summary.deferredFields summary.unresolved.length)
          return summary : Op FlattenSummary) :=
        fun summary => (Quiet.emit rfl).bind fun _ => .of_commutes fun _ => .pure summary
      change observer.heard (flatten.after s) = _
      rw [hflat, Quiet.heard_bind hquiet, Layout.heard_finalizeObserved ho, hok l u hlayout, hsize,
        hunpatched]
    · obtain ⟨l', u', x, hlayout', hfinalize, -⟩ := Region.flattenObserved_eq_ok hflatten
      cases hlayout.symm.trans hlayout'
      obtain ⟨y, hsuccess, -⟩ | ⟨e, y, hfails, -⟩ := l.finalizeObserved_cases config observer u
      · cases hfinalize.symm.trans hsuccess
        exact ⟨Nat.zero_add _, Nat.zero_add _⟩
      · cases hfinalize.symm.trans hfails
  · have hfails : flatten s = .error e u := by
      change (r.layoutObserved i observer >>= _ : Op FlattenSummary) s = _
      rw [bind_run, hlayout]
    obtain ⟨k, hk, hheard⟩ := herror e u hlayout
    refine ⟨hfails, k, hk, ?_⟩
    change observer.heard (flatten.after s) = _
    rw [after_of_error hfails, hheard]

/-! An image begins with three bytes. Between two marks stands a field whose value never comes. -/

def prefacedCalls : List Call :=
  [.newCell .offset none false, .newCell .offset none false, .newCell (.int .i64) none true,
    .newCell (.int .i64) none false, .newImage, .append 0 [1, 2, 3] {}]

def prefacedStore : Store := prefacedCalls.foldl (fun s call => call.run.after s) {}

def prefacedRegion : Region :=
  ⟨[.mark 0, .nested [.direct [5] {}, .deferred (.int .u8) 3 (some "late")], .mark 1,
    .postProcess ⟨0, 1, fun bs => .int bs.length, 2⟩]⟩

/-- Has the same mark at two offsets. -/
def remarkedRegion : Region :=
  ⟨[.mark 0, .direct [5] {}, .nested [.direct [7] {}, .mark 0], .direct [9] {}]⟩

theorem flattening_checkpoints_prefaced :
    (∃ e w, prefacedRegion.flattenObserved 0 .strict .recording prefacedStore = .error e w ∧
      Observer.heard .recording w = [.segment 0 3, .segment 1 5, .segment 2 5, .segment 3 5,
        .postProcessed 0 1, .finalized 5 1]) ∧
    ∃ e w, remarkedRegion.flattenObserved 0 .quiet .recording prefacedStore = .error e w ∧
      FailsAt 0 remarkedRegion.segments 2 e prefacedStore ∧
      Observer.heard .recording w = [.segment 0 3, .segment 1 4] := by
  have hrun : Run {} prefacedCalls prefacedStore :=
    .cons trivial (.cons trivial (.cons trivial (.cons trivial (.cons trivial
      (.cons (show 0 < _ by decide) (.nil _))))))
  have hi : 0 < prefacedStore.images.size := by decide +kernel
  have hcells : prefacedStore.cells.size = 4 := by decide +kernel
  refine ⟨?_, ?_⟩
  · have hwithin : prefacedRegion.Within prefacedStore.cells.size := by
      simp [prefacedRegion, Region.Within, Segment.WithinAll, Segment.Within, Entry.Within, hcells]
    obtain ⟨e, hflatten⟩ := exists_error_of_isNone (s := prefacedStore)
      (x := prefacedRegion.flattenObserved 0 .strict .recording) (by decide +kernel)
    have hlayout : prefacedRegion.layoutObserved 0 .recording prefacedStore =
        .ok ⟨0, 0, 1, prefacedRegion.entries⟩
          ((prefacedRegion.layoutObserved 0 .recording).after prefacedStore) := rfl
    obtain ⟨hheard, -⟩ :=
      (flattening_checkpoints .strict .recording hrun hi hwithin (by decide)).1 _ _ hlayout
    exact ⟨e, _, hflatten, hheard.trans (by decide +kernel)⟩
  · have hwithin : remarkedRegion.Within prefacedStore.cells.size := by
      simp [remarkedRegion, Region.Within, Segment.WithinAll, Segment.Within, hcells]
    obtain ⟨e, hlayout⟩ := exists_error_of_isNone (s := prefacedStore)
      (x := remarkedRegion.layoutObserved 0 .recording) (by decide +kernel)
    obtain ⟨hflatten, k, hfails, hheard⟩ :=
      (flattening_checkpoints .quiet .recording hrun hi hwithin (by decide)).2 _ _ hlayout
    have htold : Observer.heard .recording ((remarkedRegion.layoutObserved 0 .recording).after
      prefacedStore) = [.segment 0 3, .segment 1 4] := by decide +kernel
    rw [after_of_error hflatten, htold] at hheard
    -- The number of checkpoints tells which segment failed.
    have hlength := congrArg List.length hheard
    obtain rfl : k = 2 := by
      have hall : (Segment.checkpoints 0 (prefacedStore.image 0).size
        remarkedRegion.segments).length = 4 := by decide +kernel
      have hsilent : Observer.heard .recording prefacedStore = [] := by decide +kernel
      rw [hsilent, List.nil_append, List.length_take, hall, List.length_cons, List.length_singleton]
        at hlength
      omega
    exact ⟨e, _, hflatten, hfails, htold⟩

end Backpatch
