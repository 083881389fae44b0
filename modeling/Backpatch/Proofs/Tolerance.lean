import Mathlib
import Backpatch.Proofs.Atomicity
import Backpatch.Proofs.Previews
import Backpatch.Proofs.Reports

/-!
# Views of incomplete regions

The view of a region is what tolerant finalization makes of it. Values that are missing do no harm:
pending fields, ranges with an unknown bound and ranges over pending fields are passed over. But a
range that is known is read, and its result is settled. If this fails (`Layout.Fault`), then there
is no view, although the region can be laid out.
-/

namespace Backpatch

open Store Failable

theorem Image.read_eq_error_iff {image : Image} {start stop : Nat} {x : Error} :
    image.read start stop = .error x ↔
      (stop < start ∧ x = .outOfBounds start 0 image.size) ∨
      (start ≤ stop ∧ image.size < stop ∧ x = .outOfBounds start (stop - start) image.size) := by
  unfold Image.read Image.checkRange
  by_cases hinverted : stop < start
  · rw [if_pos hinverted]
    refine ⟨fun h => .inl ⟨hinverted, ?_⟩, ?_⟩
    · cases h
      rfl
    · rintro (⟨-, rfl⟩ | ⟨hle, -⟩)
      · rfl
      · exact absurd hinverted (Nat.not_lt.2 hle)
  · have hle := Nat.not_lt.1 hinverted
    rw [if_neg hinverted, Nat.add_sub_cancel' hle]
    by_cases hsize : stop ≤ image.size
    · rw [if_pos hsize]
      refine ⟨fun h => (by cases h), ?_⟩
      rintro (⟨hlt, -⟩ | ⟨-, hlt, -⟩)
      · exact absurd hlt hinverted
      · exact absurd hsize (Nat.not_le.2 hlt)
    · rw [if_neg hsize]
      refine ⟨fun h => .inr ⟨hle, Nat.not_le.1 hsize, ?_⟩, ?_⟩
      · cases h
        rfl
      · rintro (⟨hlt, -⟩ | ⟨-, -, rfl⟩)
        · exact absurd hlt hinverted
        · rfl

section Settling

variable {s t : Store} {c : CellId} {v : Datum} {x : Error}

/-- Settling a cell that is pending fails with what its subscribers fail with. -/
theorem Store.settle_eq_error_iff (hi : s.load ≤ s.issued) (hv : s.value? c = none) :
    settle c v s = .error x t ↔ ∃ account failures,
      Executes (s.delivered c v) (.queue c (s.cell c).queue v) account failures t ∧
        Error.ofMany? failures = some x := by
  obtain ⟨account, errors, u, hexec, hrun⟩ := executed_settle c v hi
  rw [hrun]
  refine ⟨fun h => ?_, ?_⟩
  · cases hexec with
    | effect he => simp [Job.effect?] at he
    | fault hf => simp [Job.fault?, hv] at hf
    | @settle _ _ _ _ _ failures _ hqueue =>
      cases hmany : Error.ofMany? failures with
      | none =>
        rw [hmany] at h
        cases h
      | some y =>
        rw [hmany] at h
        cases h
        exact ⟨account, failures, hqueue, hmany⟩
  · rintro ⟨account', failures, hqueue, hmany⟩
    have hsettle := Executes.settle hv hqueue
    obtain ⟨-, rfl, rfl⟩ := hexec.unique hsettle
    rw [hmany]
    rfl

/-- Settling a cell unless it has the value already fails if it has another one, or with what its
subscribers fail with. -/
theorem Store.settleOrConfirm_eq_error_iff : settleOrConfirm c v s = .error x t ↔
    (∃ held, s.value? c = some held ∧ held.same v = false ∧
      x = .alreadyResolved held.display v.display ∧ t = s) ∨
    (s.value? c = none ∧ settle c v s = .error x t) := by
  rw [settleOrConfirm, bind_run, get_run]
  have hholds : (s.cell c).holds v = (s.value? c).any (·.same v) := rfl
  cases hv : s.value? c with
  | none =>
    rw [hv] at hholds
    simp [hholds]
  | some held =>
    rw [hv] at hholds
    cases hsame : held.same v with
    | false =>
      have hfails : settle c v s = .error (.alreadyResolved held.display v.display) s := by
        simp [settle, settleWithin, hv]
      simp only [hholds, Option.any_some, hsame, Bool.false_eq_true, if_false, hfails]
      refine ⟨fun h => ?_, ?_⟩
      · cases h
        exact .inl ⟨held, rfl, hsame, rfl, rfl⟩
      · rintro (⟨_, hheld, -, rfl, rfl⟩ | ⟨hnone, -⟩)
        · cases hheld
          rfl
        · cases hnone
    | true => simp [hholds, hsame]

end Settling

namespace Layout

variable {l : Layout} {e : Entry} {s : Store} {x : Error}

/-- The range of an entry is known, and no pending field stands in it. -/
structure Due (l : Layout) (e : Entry) (start stop : Nat) (s : Store) : Prop where
  known : bounds e s = (some start, some stop)
  free : (l.pending s).any (·.overlaps start stop) = false

/-- The ways in which the turn of an entry fails. -/
inductive Fault (l : Layout) (e : Entry) (s : Store) : Error → Prop where
  /-- The range ends before it starts. -/
  | inverted {start stop : Nat} (due : l.Due e start stop s) (h : stop < start) :
      Fault l e s (.outOfBounds start 0 (s.image l.image).size)
  /-- The range ends behind the image. -/
  | beyond {start stop : Nat} (due : l.Due e start stop s) (h : start ≤ stop)
      (hsize : (s.image l.image).size < stop) :
      Fault l e s (.outOfBounds start (stop - start) (s.image l.image).size)
  /-- The result is known already, and it is another one. -/
  | conflict {start stop : Nat} {bytes : Bytes} {held : Datum} (due : l.Due e start stop s)
      (hread : (s.image l.image).read start stop = .ok bytes)
      (hheld : s.value? e.result = some held) (hother : held.same (e.digest bytes) = false) :
      Fault l e s (.alreadyResolved held.display (e.digest bytes).display)
  /-- Subscribers of the result fail. -/
  | callbacks {start stop : Nat} {bytes : Bytes} {account : List Incident} {failures : List Error}
      {t : Store} {x : Error} (due : l.Due e start stop s)
      (hread : (s.image l.image).read start stop = .ok bytes)
      (hpending : s.value? e.result = none)
      (hqueue : Executes (s.delivered e.result (e.digest bytes))
        (.queue e.result (s.cell e.result).queue (e.digest bytes)) account failures t)
      (hreport : Error.ofMany? failures = some x) : Fault l e s x

/-- An entry fails at its turn if it is due and cannot be applied. -/
theorem verdict_eq_failed_iff_applyEntry : l.verdict e s = .failed x ↔
    ∃ start stop t, l.Due e start stop s ∧ l.applyEntry e start stop s = .error x t := by
  unfold verdict
  refine ⟨fun h => ?_, ?_⟩
  · rcases hb : bounds e s with ⟨_ | start, _ | stop⟩ <;> rw [hb] at h
    case some.some =>
      dsimp only at h
      split_ifs at h with hcovered
      cases happly : l.applyEntry e start stop s with
      | ok a t =>
        rw [happly] at h
        cases h
      | error y t =>
        rw [happly] at h
        cases h
        exact ⟨start, stop, t, ⟨hb, Bool.eq_false_iff.2 hcovered⟩, happly⟩
    all_goals cases h
  · rintro ⟨start, stop, t, hdue, happly⟩
    rw [hdue.known]
    simp only [hdue.free, happly, Bool.false_eq_true, if_false]

theorem applyEntry_eq_error_iff {start stop : Nat} {t : Store} :
    l.applyEntry e start stop s = .error x t ↔
      ((s.image l.image).read start stop = .error x ∧ t = s) ∨
      ∃ bytes, (s.image l.image).read start stop = .ok bytes ∧
        settleOrConfirm e.result (e.digest bytes) s = .error x t := by
  rw [applyEntry, bind_run, get_run]
  cases hread : (s.image l.image).read start stop with
  | error y => simp [bind_run, hread, ofExcept_error_run, eq_comm]
  | ok bytes => simp [bind_run, hread, ofExcept_ok_run]

/-- An entry fails at its turn just in the ways that are listed. -/
theorem verdict_eq_failed_iff (hi : s.load ≤ s.issued) :
    l.verdict e s = .failed x ↔ l.Fault e s x := by
  rw [verdict_eq_failed_iff_applyEntry]
  refine ⟨?_, fun h => ?_⟩
  · rintro ⟨start, stop, t, hdue, happly⟩
    obtain ⟨hread, -⟩ | ⟨bytes, hread, hsettle⟩ := applyEntry_eq_error_iff.1 happly
    · obtain ⟨hlt, rfl⟩ | ⟨hle, hsize, rfl⟩ := Image.read_eq_error_iff.1 hread
      · exact .inverted hdue hlt
      · exact .beyond hdue hle hsize
    · obtain ⟨held, hheld, hother, rfl, -⟩ | ⟨hpending, hsettle⟩ :=
        settleOrConfirm_eq_error_iff.1 hsettle
      · exact .conflict hdue hread hheld hother
      · obtain ⟨account, failures, hqueue, hreport⟩ := (settle_eq_error_iff hi hpending).1 hsettle
        exact .callbacks hdue hread hpending hqueue hreport
  · cases h with
    | inverted hdue hlt =>
      refine ⟨_, _, s, hdue, applyEntry_eq_error_iff.2 (.inl ⟨?_, rfl⟩)⟩
      exact Image.read_eq_error_iff.2 (.inl ⟨hlt, rfl⟩)
    | beyond hdue hle hsize =>
      refine ⟨_, _, s, hdue, applyEntry_eq_error_iff.2 (.inl ⟨?_, rfl⟩)⟩
      exact Image.read_eq_error_iff.2 (.inr ⟨hle, hsize, rfl⟩)
    | conflict hdue hread hheld hother =>
      have hsettle := settleOrConfirm_eq_error_iff.2 (.inl ⟨_, hheld, hother, rfl, rfl⟩)
      exact ⟨_, _, s, hdue, applyEntry_eq_error_iff.2 (.inr ⟨_, hread, hsettle⟩)⟩
    | callbacks hdue hread hpending hqueue hreport =>
      have hfails := (settle_eq_error_iff hi hpending).2 ⟨_, _, hqueue, hreport⟩
      have hsettle := settleOrConfirm_eq_error_iff.2 (.inr ⟨hpending, hfails⟩)
      exact ⟨_, _, _, hdue, applyEntry_eq_error_iff.2 (.inr ⟨_, hread, hsettle⟩)⟩

/-- What the turn of an entry fails with. -/
def failure? (l : Layout) (e : Entry) (s : Store) : Option Error :=
  match l.verdict e s with
  | .failed x => some x
  | .applied | .covered | .unbounded .. => none

theorem failure?_eq_some_iff (hi : s.load ≤ s.issued) :
    l.failure? e s = some x ↔ l.Fault e s x := by
  rw [← verdict_eq_failed_iff hi, failure?]
  cases l.verdict e s <;> simp

/-- Tolerant finalization complains only about turns that fail. -/
theorem complaints_quiet (l : Layout) (s v : Store) :
    l.complaints .quiet (Tally.addAll {} false 0 (l.verdicts false 0 l.entries s)) v =
      (l.turns false 0 l.entries s).filterMap fun turn => l.failure? turn.1 turn.2 := by
  have herrors : ∀ (turn : Entry × Store) index,
      (l.verdict turn.1 turn.2).errors false index = (l.failure? turn.1 turn.2).toList := by
    intro turn index
    unfold failure?
    cases l.verdict turn.1 turn.2 <;> rfl
  have hindex : ∀ (verdict : Verdict) index,
      verdict.errors false index = verdict.errors false 0 := by
    intro verdict index
    cases verdict <;> rfl
  have hcomplaints : ∀ tally : Tally, l.complaints .quiet tally v = tally.errors := by
    intro tally
    simp [complaints, FlattenConfig.quiet]
  rw [hcomplaints, Tally.addAll, List.nil_append]
  calc ((l.verdicts false 0 l.entries s).zipIdx.flatMap fun x => x.1.errors false x.2)
    _ = (l.verdicts false 0 l.entries s).zipIdx.flatMap fun x => x.1.errors false 0 := by
      simp only [hindex]
    _ = (l.verdicts false 0 l.entries s).flatMap (Verdict.errors false 0) := by
      rw [← List.flatMap_map Prod.fst (Verdict.errors false 0), List.zipIdx_map_fst]
    _ = (l.turns false 0 l.entries s).filterMap fun turn => l.failure? turn.1 turn.2 := by
      rw [verdicts, List.flatMap_map, List.filterMap_eq_flatMap_toList]
      simp only [herrors]

/-- What an entry finds at its turn comes from the entries before it. -/
theorem steps_turns {n index : Nat} {enforce : Bool} {entries : List Entry} (h : Valid s [])
    (hn : n ≤ s.cells.size) (hw : ∀ e ∈ entries, e.Within n) :
    ∀ turn ∈ l.turns enforce index entries s, Steps (Move.Settles n) s turn.2 := by
  induction entries generalizing index s with
  | nil => simp [turns]
  | cons e rest ih =>
    have hst : Steps (Move.Settles n) s ((l.runEntry enforce index e {}).after s) :=
      steps_runEntry l enforce index {} h hn (hw e (.head _))
    intro turn hturn
    obtain rfl | hturn := List.mem_cons.1 hturn
    · exact .refl s
    · exact hst.trans (ih (hst.valid h) (hn.trans hst.grows.cells)
        (fun e he => hw e (.tail _ he)) turn hturn)

end Layout

namespace Region

variable {r : Region} {s t : Store}

/-- A region is viewed in an image of its own. -/
theorem view_of_ok {summary : FlattenSummary} (h : r.flattenObserved s.images.size .quiet .silent
    { s with images := s.images.push {} } = .ok summary t) :
    r.view s = .ok (t.image s.images.size).view t := by
  have hobserver : FlattenConfig.quiet.observer = .silent := rfl
  simp only [view, flatten, bind_run, newImage_run, discard_run, hobserver, h]
  rfl

theorem view_of_error {x : Error} (h : r.flattenObserved s.images.size .quiet .silent
    { s with images := s.images.push {} } = .error x t) : r.view s = .error x t := by
  have hobserver : FlattenConfig.quiet.observer = .silent := rfl
  simp only [view, flatten, bind_run, newImage_run, discard_run, hobserver, h]

/-- If the region can be laid out, then its view depends on the turns that fail. -/
theorem view_cases {l : Layout} (hlayout : r.layoutObserved s.images.size .silent
      { s with images := s.images.push {} } = .ok l t) (ht : Valid t [])
    (hentries : ∀ e ∈ l.entries, e.Within t.cells.size) :
    let v := (l.runEntries false 0 l.entries {}).after t
    let failures := (l.turns false 0 l.entries t).filterMap fun turn => l.failure? turn.1 turn.2
    (∃ w, r.view s = .ok (v.image s.images.size).view w ∧ Error.ofMany? failures = none) ∨
      ∃ x w, r.view s = .error x w ∧ Error.ofMany? failures = some x := by
  intro v failures
  obtain ⟨w, hok, hnone⟩ | ⟨x, w, herror, hsome⟩ := l.finalizeObserved_cases .quiet .silent t
  · obtain ⟨tally, u, hrun, -, -, hclose⟩ := Layout.finalizeObserved_eq_ok ht hentries hok
    obtain rfl : v = u := after_of_ok hrun
    have hflatten : ∃ summary trace, r.flattenObserved s.images.size .quiet .silent
        { s with images := s.images.push {} } = .ok summary { w with trace } := by
      rw [flattenObserved, bind_run, hlayout]
      dsimp only
      rw [bind_run, hok]
      exact ⟨_, _, rfl⟩
    obtain ⟨summary, trace, hflatten⟩ := hflatten
    have himage : w.image s.images.size = v.image s.images.size := by
      rw [image, image, hclose.closes.1]
    refine .inl ⟨{ w with trace }, ?_, ?_⟩
    · rw [← himage]
      exact view_of_ok hflatten
    · exact (congrArg _ (l.complaints_quiet t v)).symm.trans hnone
  · refine .inr ⟨x, w, view_of_error ?_, ?_⟩
    · rw [flattenObserved, bind_run, hlayout]
      dsimp only
      rw [bind_run, herror]
    · exact (congrArg _ (l.complaints_quiet t v)).symm.trans hsome

end Region

/-- When a region that can be laid out can be viewed: if every entry that is due at its turn has a
range inside the region and a result that can be settled, or confirmed. Fields that are pending,
bounds that are unknown and ranges over pending fields do not matter. The view is that of the image
after all entries; if there is none, the error is that of all entries that failed, in order. -/
theorem view_isOk_iff {calls : List Call} {s : Store} {r : Region} (hbefore : Run {} calls s)
    (hw : r.Within s.cells.size) :
    let i := s.images.size
    let empty : Store := { s with images := s.images.push {} }
    (∀ x t, r.layoutObserved i .silent empty = .error x t → r.view s = .error x t) ∧
    ∀ l t, r.layoutObserved i .silent empty = .ok l t →
      let turns := l.turns false 0 l.entries t
      let v := (l.runEntries false 0 l.entries {}).after t
      turns.map Prod.fst = r.entries ∧
      (∀ turn ∈ turns, (turn.2.image l.image).size = r.size ∧
        ∀ x, l.failure? turn.1 turn.2 = some x ↔ l.Fault turn.1 turn.2 x) ∧
      ((∃ view w, r.view s = .ok view w) ↔
        ∀ turn ∈ turns, ∀ x, l.Fault turn.1 turn.2 x → x = .aggregate []) ∧
      (∀ view w, r.view s = .ok view w → view = (v.image i).view) ∧
      ∀ x w, r.view s = .error x w →
        Error.ofMany? (turns.filterMap fun turn => l.failure? turn.1 turn.2) = some x := by
  intro i empty
  have hi : i < empty.images.size := (Array.size_push ..).symm ▸ Nat.lt_succ_self _
  have hempty : Steps Move.Plain s empty := .quiet (m := .newImage) trivial trivial rfl
  have hvalid := hempty.valid hbefore.valid
  refine ⟨fun x t hlayout => Region.view_of_error ?_, fun l t hlayout => ?_⟩
  · rw [Region.flattenObserved, bind_run, hlayout]
  intro turns v
  have hst : Steps Move.Plain empty t :=
    after_of_ok hlayout ▸ Region.steps_layoutObserved .silent hvalid hi hw
  have ht := hst.valid hvalid
  have hentries := Region.layoutObserved_entries hvalid hi hw hlayout
  have hturns : ∀ turn ∈ turns, Steps (Move.Settles t.cells.size) t turn.2 :=
    Layout.steps_turns ht le_rfl hentries
  have hfaults : ∀ turn ∈ turns, ∀ x,
      l.failure? turn.1 turn.2 = some x ↔ l.Fault turn.1 turn.2 x := fun turn hturn _ =>
    Layout.failure?_eq_some_iff ((hturns turn hturn).valid ht).load
  have hnone : Error.ofMany? (turns.filterMap fun turn => l.failure? turn.1 turn.2) = none ↔
      ∀ turn ∈ turns, ∀ x, l.Fault turn.1 turn.2 x → x = .aggregate [] := by
    rw [Error.ofMany?_eq_none_iff]
    refine ⟨fun h turn hturn x hx => ?_, fun h x hx => ?_⟩
    · exact h x (List.mem_filterMap.2 ⟨turn, hturn, (hfaults turn hturn x).2 hx⟩)
    · obtain ⟨turn, hturn, hx⟩ := List.mem_filterMap.1 hx
      exact h turn hturn x ((hfaults turn hturn x).1 hx)
  have hsize : (t.image l.image).size = r.size := by
    rw [(Region.layoutObserved_eq_ok hlayout).2, ← Nat.zero_add r.size, ← size_newImage s]
    exact Region.layoutObserved_size hvalid hi hw hlayout
  refine ⟨?_, fun turn hturn => ⟨?_, hfaults turn hturn⟩, ?_⟩
  · rw [Layout.map_fst_turns, (Region.layoutObserved_eq_ok hlayout).2]
  · exact ((hturns turn hturn).size_image fun _ hm => hm.not_draws).trans hsize
  · rw [← hnone]
    obtain ⟨w, hok, hclean⟩ | ⟨x, w, herror, hsome⟩ := Region.view_cases hlayout ht hentries
    · refine ⟨⟨fun _ => hclean, fun _ => ⟨_, w, hok⟩⟩, fun view w' h => ?_, fun x w' h => ?_⟩
      · cases hok.symm.trans h
        rfl
      · cases hok.symm.trans h
    · refine ⟨⟨?_, fun h => ?_⟩, fun view w' h => ?_, fun x' w' h => ?_⟩
      · rintro ⟨view, w', h⟩
        cases herror.symm.trans h
      · cases hsome.symm.trans h
      · cases herror.symm.trans h
      · cases herror.symm.trans h
        exact hsome

/-- A field and a bound are missing, and the report of a callback is hollow: there is a view, which
shows the field. If the callback reports anything else, there is none. -/
theorem view_isOk_iff_report :
    (∃ view w, reportRegion.view (reportStore hollowReport) = .ok view w ∧
      view.pending.filterMap (·.note.label) = ["late"]) ∧
    ¬ ∃ view w, reportRegion.view (reportStore (.invalidText "sum")) = .ok view w := by
  have hwithin : ∀ e, reportRegion.Within (reportStore e).cells.size := by
    intro e
    have hsize : (reportStore e).cells.size = 6 := rfl
    simp [reportRegion, countedRegion, Region.Within, Segment.WithinAll, Segment.Within,
      Entry.Within, hsize]
  let l : Layout := ⟨1, 0, 1, reportRegion.entries⟩
  let laid (e : Error) : Store := (reportRegion.layoutObserved 1 .silent).after
    { reportStore e with images := (reportStore e).images.push {} }
  have hlayout : ∀ e, reportRegion.layoutObserved 1 .silent
      { reportStore e with images := (reportStore e).images.push {} } = .ok l (laid e) :=
    fun _ => rfl
  let failures (e : Error) : List Error :=
    (l.turns false 0 l.entries (laid e)).filterMap fun turn => l.failure? turn.1 turn.2
  refine ⟨?_, fun hviewed => ?_⟩
  · obtain ⟨-, hturns, hiff, hview, -⟩ :=
      (view_isOk_iff (reportStore_run hollowReport) (hwithin _)).2 l _ (hlayout _)
    have hhollow : Error.ofMany? (failures hollowReport) = none :=
      Option.isNone_iff_eq_none.1 (by decide +kernel)
    obtain ⟨view, w, hok⟩ := hiff.2 fun turn hturn x hx => Error.ofMany?_eq_none_iff.1 hhollow x
      (List.mem_filterMap.2 ⟨turn, hturn, ((hturns turn hturn).2 x).2 hx⟩)
    refine ⟨view, w, hok, ?_⟩
    rw [hview view w hok]
    decide +kernel
  · obtain ⟨-, hturns, hiff, -⟩ :=
      (view_isOk_iff (reportStore_run (.invalidText "sum")) (hwithin _)).2 l _ (hlayout _)
    have hnone : Error.ofMany? (failures (.invalidText "sum")) = none := by
      refine Error.ofMany?_eq_none_iff.2 fun x hx => ?_
      obtain ⟨turn, hturn, hx⟩ := List.mem_filterMap.1 hx
      exact hiff.1 hviewed turn hturn x (((hturns turn hturn).2 x).1 hx)
    exact absurd (Option.isNone_iff_eq_none.2 hnone) (by decide +kernel)

/-! A range of nine bytes over a region of one byte. Its bounds are known beforehand. -/

def farCalls : List Call :=
  [.newCell .offset (some (.int 0)) false, .newCell .offset (some (.int 9)) false,
    .newCell (.int .i64) none true]

def farStore : Store := farCalls.foldl (fun s call => call.run.after s) {}

def farRegion : Region :=
  ⟨[.direct [5] {}, .postProcess ⟨0, 1, fun bs => .int bs.length, 2⟩]⟩

/-- A region can be laid out and has no field at all, and yet there is no view. -/
theorem far_range_not_viewed :
    Run {} farCalls farStore ∧ farRegion.Within farStore.cells.size ∧
    (∃ l t, farRegion.layoutObserved farStore.images.size .silent
      { farStore with images := farStore.images.push {} } = .ok l t ∧ l.first = l.last) ∧
    ∃ w, farRegion.view farStore = .error (.outOfBounds 0 9 1) w := by
  refine ⟨.cons trivial (.cons trivial (.cons trivial (.nil _))), ?_, ⟨_, _, rfl, rfl⟩, _, rfl⟩
  have hsize : farStore.cells.size = 3 := rfl
  simp [farRegion, Region.Within, Segment.WithinAll, Segment.Within, Entry.Within, hsize]

end Backpatch
