import Mathlib
import Backpatch.Proofs.Flattening
import Backpatch.Proofs.Links

/-!
# Turns of post-processing entries

Entries take turns. An entry that covers a pending placeholder at its turn is passed over for good,
also if a later entry patches that placeholder. Strict finalization does not complain about this: it
can succeed and still be incomplete, namely just if some entry was passed over.
-/

namespace Backpatch

open Store Failable

theorem Image.parts_of_read_eq_error {image : Image} {start stop : Nat} {x : Error}
    (h : image.read start stop = .error x) : x.parts ≠ [] := by
  unfold Image.read at h
  split_ifs at h
  · cases h
    simp [Error.parts]
  · unfold Image.checkRange at h
    split_ifs at h <;> cases h
    simp [Error.parts]

/-- A cell that is settled has a value afterwards, its old one or the new one. -/
theorem Store.settle_resolves {s : Store} {c : CellId} (v : Datum) (h : Lasting s [])
    (hc : c < s.cells.size) : ∃ x, ((settle c v).after s).value? c = some x := by
  have hr := Reacts.move (m := .settle c v) (s := s) hc
  have hfire := (cascades_settle (s.load + 1) c v s h.load (by omega)).1
  have hstart : ∃ x, (s.fire c v).1.value? c = some x := by
    cases hv : s.value? c with
    | none => exact ⟨v, value?_fire_self s v hc hv⟩
    | some x => exact ⟨x, value?_fire s c v hv⟩
  have hlasting := Lasting.step hr (h.start (m := .settle c v) trivial)
  rw [List.append_nil] at hlasting
  refine (hfire.invariant (I := fun s tasks => Lasting s tasks ∧ ∃ x, s.value? c = some x)
    (fun hr hi => ⟨Lasting.step hr hi.1, ?_⟩) ⟨hlasting, hstart⟩).2
  obtain ⟨x, hx⟩ := hi.2
  exact ⟨x, hi.1.value?_step hr hx⟩

theorem Store.settleOrConfirm_resolves {s : Store} {c : CellId} (v : Datum) (h : Lasting s [])
    (hc : c < s.cells.size) : ∃ x, ((settleOrConfirm c v).after s).value? c = some x := by
  simp only [settleOrConfirm, after_bind, get_run]
  split_ifs with hholds
  · exact Option.isSome_iff_exists.1 (Option.isSome_of_any hholds)
  · exact settle_resolves v h hc

namespace Layout

/-- Some placeholder in the range of the entry still waits for its value. -/
def covers (l : Layout) (e : Entry) (s : Store) : Bool :=
  match bounds e s with
  | (some start, some stop) => (l.pending s).any (·.overlaps start stop)
  | _ => false

/-- The entries, each with the store that it finds at its turn. -/
def turns (l : Layout) (enforce : Bool) : Nat → List Entry → Store → List (Entry × Store)
  | _, [], _ => []
  | index, e :: rest, s =>
    (e, s) :: l.turns enforce (index + 1) rest ((l.runEntry enforce index e {}).after s)

/-- The turns at which strict finalization passes an entry over. -/
def coveredTurns (l : Layout) (s : Store) : List (Entry × Store) :=
  (l.turns true 0 l.entries s).filter fun turn => l.covers turn.1 turn.2

variable {l : Layout} {e : Entry} {s u : Store} {tally tally' : Tally} {index : Nat}

/-! ## One turn -/

theorem runEntry_run (l : Layout) (enforce : Bool) (index : Nat) (e : Entry) (tally : Tally)
    (s : Store) : l.runEntry enforce index e tally s =
      match bounds e s with
      | (some start, some stop) =>
        if (l.pending s).any (·.overlaps start stop) then
          .ok { tally with skipped := tally.skipped + 1 }
            ((emit (.skippedCovered index start stop)).after s)
        else match l.applyEntry e start stop s with
          | .ok _ t => .ok { tally with applied := tally.applied + 1 } t
          | .error x t => .ok { tally with errors := tally.errors ++ [x] } t
      | (start, stop) =>
        if enforce then
          .ok { tally with
            skipped := tally.skipped + 1
            errors := tally.errors ++ [.postProcessingRange index start stop] } s
        else
          .ok { tally with skipped := tally.skipped + 1 }
            ((emit (.skippedUnbounded index)).after s) := by
  unfold runEntry
  rw [bind_run, get_run]
  dsimp only
  rcases bounds e s with ⟨_ | start, _ | stop⟩
  case some.some =>
    change (if (l.pending s).any (·.overlaps start stop) then _ else _ : Op Tally) s =
      if (l.pending s).any (·.overlaps start stop) then _ else _
    by_cases hcovered : (l.pending s).any (·.overlaps start stop)
    · rw [if_pos hcovered, if_pos hcovered]
      rfl
    · rw [if_neg hcovered, if_neg hcovered, bind_run, failures]
      cases l.applyEntry e start stop s <;> rfl
  all_goals cases enforce <;> rfl

/-- What an entry does to the store does not depend on the outcome of earlier ones. -/
theorem after_runEntry (enforce : Bool) (tally : Tally) :
    (l.runEntry enforce index e tally).after s = (l.runEntry enforce index e {}).after s := by
  unfold after
  rw [runEntry_run, runEntry_run]
  rcases bounds e s with ⟨_ | start, _ | stop⟩
  case some.some =>
    dsimp only
    split_ifs
    · rfl
    · cases l.applyEntry e start stop s <;> rfl
  all_goals cases enforce <;> rfl

theorem runEntry_isOk (l : Layout) (enforce : Bool) (index : Nat) (e : Entry) (tally : Tally)
    (s : Store) : ∃ tally', l.runEntry enforce index e tally s =
      .ok tally' ((l.runEntry enforce index e tally).after s) := by
  unfold after
  rw [runEntry_run]
  rcases Layout.bounds e s with ⟨_ | start, _ | stop⟩
  case some.some =>
    dsimp only
    split_ifs
    · exact ⟨_, rfl⟩
    · cases l.applyEntry e start stop s <;> exact ⟨_, rfl⟩
  all_goals cases enforce <;> exact ⟨_, rfl⟩

/-- A strict turn without an error: the entry was covered, or its result settled or confirmed. -/
theorem runEntry_strict (hrun : l.runEntry true index e tally s = .ok tally' u)
    (herrors : ∀ x ∈ tally'.errors, x.parts = []) :
    (∀ x ∈ tally.errors, x.parts = []) ∧
      ((l.covers e s = true ∧ tally'.skipped = tally.skipped + 1) ∨
        (l.covers e s = false ∧ tally'.skipped = tally.skipped ∧
          ∃ v, u = (settleOrConfirm e.result v).after s)) := by
  rw [runEntry_run] at hrun
  split at hrun
  next start stop hb =>
    split_ifs at hrun with hcovered
    · cases hrun
      exact ⟨herrors, .inl ⟨by simpa [covers, hb] using hcovered, rfl⟩⟩
    · have hfree : l.covers e s = false := by simpa [covers, hb] using hcovered
      cases hread : (s.image l.image).read start stop with
      | error x =>
        have happly : l.applyEntry e start stop s = .error x s := by simp [applyEntry, hread]
        simp only [happly] at hrun
        cases hrun
        have hparts := herrors x (List.mem_append_right _ (.head _))
        exact absurd hparts (Image.parts_of_read_eq_error hread)
      | ok bytes =>
        have happly : l.applyEntry e start stop s =
            settleOrConfirm e.result (e.digest bytes) s := by simp [applyEntry, hread]
        rw [happly] at hrun
        cases hsettle : settleOrConfirm e.result (e.digest bytes) s with
        | ok _ t =>
          simp only [hsettle] at hrun
          cases hrun
          exact ⟨herrors, .inr ⟨hfree, rfl, e.digest bytes, (after_of_ok hsettle).symm⟩⟩
        | error x t =>
          simp only [hsettle] at hrun
          cases hrun
          exact ⟨fun y hy => herrors y (List.mem_append_left _ hy),
            .inr ⟨hfree, rfl, e.digest bytes, (after_of_error hsettle).symm⟩⟩
  next start stop hb =>
    rw [if_pos rfl] at hrun
    cases hrun
    have := herrors _ (List.mem_append_right _ (.head _))
    simp [Error.parts] at this

/-! ## All turns -/

/-- Running entries never fails: their failures are part of the outcome. -/
theorem runEntries_isOk (l : Layout) (enforce : Bool) (index : Nat) (entries : List Entry)
    (tally : Tally) (s : Store) :
    ∃ tally' u, l.runEntries enforce index entries tally s = .ok tally' u := by
  induction entries generalizing index tally s with
  | nil => exact ⟨tally, s, rfl⟩
  | cons e rest ih =>
    obtain ⟨mid, hmid⟩ := runEntry_isOk l enforce index e tally s
    rw [runEntries, bind_run, hmid]
    exact ih _ _ _

/-- Strict finalization passes over the entries that are covered at their turn, and no others. -/
theorem runEntries_skipped {entries : List Entry}
    (hrun : l.runEntries true index entries tally s = .ok tally' u)
    (herrors : ∀ x ∈ tally'.errors, x.parts = []) :
    (∀ x ∈ tally.errors, x.parts = []) ∧ tally'.skipped = tally.skipped +
      ((l.turns true index entries s).filter fun turn => l.covers turn.1 turn.2).length := by
  induction entries generalizing index tally s with
  | nil =>
    cases hrun
    exact ⟨herrors, by simp [turns]⟩
  | cons e rest ih =>
    obtain ⟨mid, t, hturn, hrest⟩ := bind_eq_ok.1 hrun
    obtain ⟨hmid, hskipped⟩ := ih hrest
    obtain ⟨hstart, hcase⟩ := runEntry_strict hturn hmid
    have hafter : (l.runEntry true index e {}).after s = t := by
      rw [← after_runEntry true tally, after_of_ok hturn]
    refine ⟨hstart, ?_⟩
    rw [turns, hafter, List.filter_cons]
    obtain ⟨hcovered, hcount⟩ | ⟨hfree, hcount, -⟩ := hcase
    · simp only [hcovered, if_true, List.length_cons]
      omega
    · simp only [hfree, Bool.false_eq_true, if_false]
      omega

/-- The results of all other entries are known in the end, if values last. -/
theorem runEntries_resolved {entries : List Entry} (h : Lasting s [])
    (hw : ∀ e ∈ entries, e.Within s.cells.size)
    (hrun : l.runEntries true index entries tally s = .ok tally' u)
    (herrors : ∀ x ∈ tally'.errors, x.parts = []) :
    ∀ turn ∈ l.turns true index entries s, l.covers turn.1 turn.2 = false →
      ∃ v, u.value? turn.1.result = some v := by
  induction entries generalizing index tally s with
  | nil => simp [turns]
  | cons e rest ih =>
    obtain ⟨mid, t, hturn, hrest⟩ := bind_eq_ok.1 hrun
    have hst : Steps (Move.Settles s.cells.size) s t :=
      after_of_ok hturn ▸ steps_runEntry l true index tally h.toValid le_rfl (hw e (.head _))
    have ht := hst.lasting (fun _ hm => hm.plain.lasting) h
    have hwt : ∀ e ∈ rest, e.Within t.cells.size :=
      fun e he => (hw e (.tail _ he)).mono hst.grows.cells
    have htu : Steps (Move.Settles t.cells.size) t u :=
      after_of_ok hrest ▸ steps_runEntries l true (index + 1) mid ht.toValid le_rfl hwt
    obtain ⟨-, hcase⟩ := runEntry_strict hturn (runEntries_skipped hrest herrors).1
    have hafter : (l.runEntry true index e {}).after s = t := by
      rw [← after_runEntry true tally, after_of_ok hturn]
    intro turn hmem hfree
    rw [turns, hafter] at hmem
    obtain rfl | hmem := List.mem_cons.1 hmem
    · obtain ⟨hcovered, -⟩ | ⟨-, -, v, rfl⟩ := hcase
      · simp [hfree] at hcovered
      · obtain ⟨x, hx⟩ := settleOrConfirm_resolves v h (hw e (.head _)).2.2
        exact ⟨x, htu.value?_eq (fun _ hm => hm.plain.lasting) ht hx⟩
    · exact ih ht hwt hrest turn hmem hfree

/-! ## What strict success means -/

/-- The fields are all patched, and just the covered entries were passed over. -/
structure StrictOutcome (l : Layout) (s : Store) (summary : FlattenSummary) : Prop where
  unresolved : summary.unresolved = []
  skipped : summary.skipped = (l.coveredTurns s).length
  complete : summary.isComplete = true ↔ l.coveredTurns s = []

/-- Every entry that was not passed over has its result in `t`. -/
def Settled (l : Layout) (s t : Store) : Prop :=
  ∀ turn ∈ l.turns true 0 l.entries s, l.covers turn.1 turn.2 = false →
    ∃ v, t.value? turn.1.result = some v

variable {config : FlattenConfig} {observer : Observer} {summary : FlattenSummary} {t : Store}

theorem strictOutcome_of_finalizeObserved (h : Valid s [])
    (hw : ∀ e ∈ l.entries, e.Within s.cells.size) (hstrict : config.enforceComplete = true)
    (hrun : l.finalizeObserved config observer s = .ok summary t) : l.StrictOutcome s summary := by
  obtain ⟨tally, u, hentries, hnone, rfl, -⟩ := finalizeObserved_eq_ok h hw hrun
  rw [hstrict] at hentries
  have herrors : ∀ x ∈ tally.errors, x.parts = [] :=
    fun x hx => Error.parts_of_ofMany?_eq_none hnone x (List.mem_append_left _ hx)
  have hskipped : tally.skipped = (l.coveredTurns s).length := by
    simpa [coveredTurns] using (runEntries_skipped hentries herrors).2
  have hpatched := pendingFields_of_complaints hstrict hnone
  refine ⟨hpatched, hskipped, ?_⟩
  rw [FlattenSummary.isComplete, Layout.summary, hpatched, hskipped]
  simp

theorem settled_of_finalizeObserved (h : Lasting s [])
    (hw : ∀ e ∈ l.entries, e.Within s.cells.size) (hstrict : config.enforceComplete = true)
    (hrun : l.finalizeObserved config observer s = .ok summary t) : l.Settled s t := by
  obtain ⟨tally, u, hentries, hnone, -, hut⟩ := finalizeObserved_eq_ok h.toValid hw hrun
  rw [hstrict] at hentries
  have herrors : ∀ x ∈ tally.errors, x.parts = [] :=
    fun x hx => Error.parts_of_ofMany?_eq_none hnone x (List.mem_append_left _ hx)
  have hsu : Steps (Move.Settles s.cells.size) s u :=
    after_of_ok hentries ▸ steps_runEntries l true 0 {} h.toValid le_rfl hw
  intro turn hturn hfree
  obtain ⟨v, hv⟩ := runEntries_resolved h hw hentries herrors turn hturn hfree
  exact ⟨v, hut.value?_eq (fun _ hm => hm.plain.lasting)
    (hsu.lasting (fun _ hm => hm.plain.lasting) h) hv⟩

end Layout

/-- Notes and withdrawn subscribers change neither images nor fields nor values. -/
theorem Steps.closes {s t : Store} (h : Steps Move.Closes s t) :
    t.images = s.images ∧ t.placeholders = s.placeholders ∧ ∀ c, t.value? c = s.value? c := by
  refine (h.invariant (I := fun u tasks => (∀ x ∈ tasks, ∃ m, x = .move m ∧ m.Closes) ∧
    u.images = s.images ∧ u.placeholders = s.placeholders ∧ ∀ c, u.value? c = s.value? c)
    (fun hm hi => ⟨by simpa using hm, hi.2⟩) (fun {u task v ts k} hr hi => ?_)
    ⟨by simp, rfl, rfl, fun _ => rfl⟩).2
  obtain ⟨m, rfl, hm⟩ := hi.1 task (.head k)
  have hrest : ∀ x ∈ k, ∃ m, x = .move m ∧ m.Closes := fun x hx => hi.1 x (.tail _ hx)
  cases hr with
  | move =>
    cases m with
    | journal => exact ⟨hrest, hi.2⟩
    | unsubscribe c id =>
      refine ⟨hrest, hi.2.1, hi.2.2.1, fun d => ?_⟩
      exact (value?_withdrawn ..).trans (hi.2.2.2 d)
    | _ => exact hm.elim
  | refuse => exact ⟨hrest, hi.2⟩

theorem Region.flattenObserved_eq_ok {r : Region} {i : ImageId} {config : FlattenConfig}
    {observer : Observer} {summary : FlattenSummary} {s t : Store}
    (h : r.flattenObserved i config observer s = .ok summary t) :
    ∃ l u v, r.layoutObserved i observer s = .ok l u ∧
      l.finalizeObserved config observer u = .ok summary v ∧ t.images = v.images ∧
      ∀ c, t.value? c = v.value? c := by
  obtain ⟨l, u, hl, h⟩ := bind_eq_ok.1 h
  obtain ⟨summary', v, hf, h⟩ := bind_eq_ok.1 h
  cases h
  exact ⟨l, u, v, hl, hf, rfl, fun _ => rfl⟩

/-- Strict finalization that succeeds has patched every field. It is complete just if no entry
covered a pending placeholder at its turn; it does not fail because of such an entry. -/
theorem strict_success_complete_iff {calls : List Call} {s : Store} {config : FlattenConfig}
    (hbefore : Run {} calls s) (hstrict : config.enforceComplete = true) (observer : Observer) :
    (∀ (l : Layout) summary t, (∀ e ∈ l.entries, e.Within s.cells.size) →
      l.finalizeObserved config observer s = .ok summary t →
      l.StrictOutcome s summary ∧ ((∀ call ∈ calls, call.Lasting) → l.Settled s t)) ∧
    ∀ (r : Region) i summary t, i < s.images.size → r.Within s.cells.size →
      r.flattenObserved i config observer s = .ok summary t →
      ∃ l u, r.layoutObserved i observer s = .ok l u ∧ l.entries = r.entries ∧
        l.StrictOutcome u summary ∧ ((∀ call ∈ calls, call.Lasting) → l.Settled u t) := by
  have hvalid := hbefore.valid
  refine ⟨fun l summary t hw hrun => ?_, fun r i summary t hi hw hrun => ?_⟩
  · refine ⟨l.strictOutcome_of_finalizeObserved hvalid hw hstrict hrun, fun hlasting => ?_⟩
    exact l.settled_of_finalizeObserved (hbefore.lasting .empty hlasting) hw hstrict hrun
  · obtain ⟨l, u, v, hlayout, hfinalize, -, hvalues⟩ := Region.flattenObserved_eq_ok hrun
    have hsu : Steps Move.Plain s u :=
      after_of_ok hlayout ▸ Region.steps_layoutObserved observer hvalid hi hw
    have hentries : l.entries = r.entries := by rw [(Region.layoutObserved_eq_ok hlayout).2]
    have hwu : ∀ e ∈ l.entries, e.Within u.cells.size := by
      rw [hentries]
      exact fun e he => (Segment.WithinAll.entries hw e he).mono hsu.grows.cells
    refine ⟨l, u, hlayout, hentries,
      l.strictOutcome_of_finalizeObserved (hsu.valid hvalid) hwu hstrict hfinalize,
      fun hlasting turn hturn hfree => ?_⟩
    have hl := hsu.lasting (fun _ hm => hm.lasting) (hbefore.lasting .empty hlasting)
    obtain ⟨x, hx⟩ := l.settled_of_finalizeObserved hl hwu hstrict hfinalize turn hturn hfree
    exact ⟨x, (hvalues _).trans hx⟩

/-! Two ranges are summed. The sum of the second range is a field of the first one, whose turn comes
before that sum is known. -/

def sumCalls : List Call :=
  [.newCell .offset none false, .newCell .offset none false, .newCell .offset none false,
    .newCell (.int .u8) none true, .newCell (.int .u8) none true,
    .tryMap 4 (.int .i64) .ok, .newImage]

def sumStore : Store := sumCalls.foldl (fun s call => call.run.after s) {}

def sumRegion : Region :=
  let sum (bytes : Bytes) : Datum := .int (Digest.sum8 bytes).toNat
  ⟨[.postProcess ⟨0, 1, sum, 3⟩, .postProcess ⟨1, 2, sum, 4⟩, .mark 0,
    .deferred (.int .u8) 5 none, .mark 1, .direct [1, 2] {}, .mark 2]⟩

/-- Strict flattening succeeds, and yet an entry is passed over and its result stays unknown. -/
theorem strict_success_incomplete :
    ∃ summary t, sumRegion.flatten 0 .strict sumStore = .ok summary t ∧
      (t.image 0).bytes = [3, 1, 2] ∧ summary.isComplete = false ∧ t.value? 3 = none := by
  have hrun : (match sumRegion.flatten 0 .strict sumStore with
      | .ok summary t => decide ((t.image 0).bytes = [3, 1, 2] ∧ summary.isComplete = false ∧
          t.value? 3 = none)
      | .error .. => false) = true := by decide +kernel
  cases hflatten : sumRegion.flatten 0 .strict sumStore with
  | ok summary t =>
    simp only [hflatten, decide_eq_true_eq] at hrun
    exact ⟨summary, t, rfl, hrun⟩
  | error e t => simp [hflatten] at hrun

/-- One of the two turns is passed over; the other entry gets its result. -/
theorem strict_success_complete_iff_sum :
    ∃ summary t l u, sumRegion.flattenObserved 0 .strict .silent sumStore = .ok summary t ∧
      sumRegion.layoutObserved 0 .silent sumStore = .ok l u ∧ summary.skipped = 1 ∧
      (l.coveredTurns u).length = 1 ∧ l.Settled u t := by
  have hrun : (match sumRegion.flattenObserved 0 .strict .silent sumStore with
      | .ok summary _ => decide (summary.skipped = 1)
      | .error .. => false) = true := by decide +kernel
  cases hflatten : sumRegion.flattenObserved 0 .strict .silent sumStore with
  | error e t => simp [hflatten] at hrun
  | ok summary t =>
    simp only [hflatten, decide_eq_true_eq] at hrun
    have hbefore : Run {} sumCalls sumStore :=
      .cons trivial (.cons trivial (.cons trivial (.cons trivial (.cons trivial
        (.cons (show 4 < _ by decide +kernel) (.cons trivial (.nil _)))))))
    have hwithin : sumRegion.Within sumStore.cells.size := by
      have hsize : sumStore.cells.size = 6 := by decide +kernel
      simp [sumRegion, Region.Within, Segment.WithinAll, Segment.Within, Entry.Within, hsize]
    obtain ⟨l, u, hlayout, -, houtcome, hsettled⟩ :=
      (strict_success_complete_iff hbefore
        (show FlattenConfig.strict.enforceComplete = true from rfl) .silent).2 sumRegion 0 summary t
        (by decide +kernel) hwithin hflatten
    refine ⟨summary, t, l, u, rfl, hlayout, hrun, houtcome.skipped ▸ hrun, hsettled ?_⟩
    simp [sumCalls, Call.Lasting]

end Backpatch
