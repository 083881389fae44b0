import Mathlib
import Backpatch.Proofs.Flattening
import Backpatch.Proofs.Retelling

/-!
# Nesting makes no difference

A nested region is emitted segment by segment, as if its segments stood in its place
(`emitAll_leavesAll`). The segments at the top of a region differ from all others in one way only: a
checkpoint follows each of them. Checkpoints tell something and change nothing else, so two regions
with the same leaves come to the same layouts, images, cells, summaries and errors
(`Region.Interchangeable`).
-/

namespace Backpatch

open Store Failable Retelling

/-! ## Up to what was told -/

/-- The store without what was told. -/
def Store.untold (s : Store) : Store := { s with trace := #[], reports := #[] }

theorem Store.placeholders_of_untold {s t : Store} (h : s.untold = t.untold) :
    s.placeholders = t.placeholders :=
  show s.untold.placeholders = t.untold.placeholders by rw [h]

theorem Store.eq_of_untold {s t : Store} (h : s.untold = t.untold) :
    t = { s with trace := t.trace, reports := t.reports } :=
  congrArg (fun s : Store => { s with trace := t.trace, reports := t.reports }) h.symm

section Untold

variable {α β : Type}

/-- The result with nothing told in its store. -/
def untold : EStateM.Result Error Store α → EStateM.Result Error Store α
  | .ok a t => .ok a t.untold
  | .error e t => .error e t.untold

/-- What is told comes behind the given events and reports. -/
def Retelling.behind (trace : Array Event) (reports : Array Report) : Retelling where
  trace := (trace ++ ·)
  reports := (reports ++ ·)

theorem Retelling.adds_behind (trace : Array Event) (reports : Array Report) :
    (behind trace reports).Adds :=
  ⟨fun _ _ => Array.append_push, fun _ _ => Array.append_push⟩

/-- Every store is what it is without what was told, retold. -/
theorem Retelling.store_behind (s : Store) : (behind s.trace s.reports).store s.untold = s := by
  simp [store, behind, Store.untold]

theorem Retelling.untold_result (f : Retelling) (x : EStateM.Result Error Store α) :
    untold (f.result x) = untold x := by
  cases x <;> rfl

/-- From stores that differ in what was told, the operations come to results that differ in what was
told. -/
def Alike (x y : Op α) : Prop := ∀ s t, s.untold = t.untold → untold (x s) = untold (y t)

namespace Alike

variable {x y z : Op α}

theorem symm (h : Alike x y) : Alike y x := fun s t hst => (h t s hst.symm).symm

theorem trans (h : Alike x y) (g : Alike y z) : Alike x z :=
  fun s t hst => (h s t hst).trans (g t t rfl)

/-- Operations that only add to what was told are like themselves, and they add the same. -/
theorem of_commutes (hx : ∀ f : Retelling, f.Adds → f.Commutes x) : Alike x x := by
  intro s t hst
  rw [← store_behind s, ← store_behind t, (hx _ (adds_behind ..)).run,
    (hx _ (adds_behind ..)).run, untold_result, untold_result, hst]

theorem cases {s t : Store} (h : Alike x y) (hst : s.untold = t.untold) :
    (∃ a u v, x s = .ok a u ∧ y t = .ok a v ∧ u.untold = v.untold) ∨
      ∃ e u v, x s = .error e u ∧ y t = .error e v ∧ u.untold = v.untold := by
  have hrun := h s t hst
  cases hx : x s <;> cases hy : y t <;> rw [hx, hy] at hrun
  case ok.ok a u b v =>
    obtain ⟨rfl, huv⟩ := EStateM.Result.ok.inj hrun
    exact .inl ⟨a, u, v, rfl, rfl, huv⟩
  case error.error e u e' v =>
    obtain ⟨rfl, huv⟩ := EStateM.Result.error.inj hrun
    exact .inr ⟨e, u, v, rfl, rfl, huv⟩
  all_goals cases hrun

theorem of_ok {s t u : Store} {a : α} (h : Alike x y) (hst : s.untold = t.untold)
    (hx : x s = .ok a u) : ∃ v, y t = .ok a v ∧ u.untold = v.untold := by
  obtain ⟨b, u', v, hx', hy, huv⟩ | ⟨e, u', v, hx', -⟩ := h.cases hst
  · cases hx.symm.trans hx'
    exact ⟨v, hy, huv⟩
  · cases hx.symm.trans hx'

theorem of_error {s t u : Store} {e : Error} (h : Alike x y) (hst : s.untold = t.untold)
    (hx : x s = .error e u) : ∃ v, y t = .error e v ∧ u.untold = v.untold := by
  obtain ⟨b, u', v, hx', -⟩ | ⟨e', u', v, hx', hy, huv⟩ := h.cases hst
  · cases hx.symm.trans hx'
  · cases hx.symm.trans hx'
    exact ⟨v, hy, huv⟩

theorem after {s t : Store} (h : Alike x y) (hst : s.untold = t.untold) :
    (Failable.after x s).untold = (Failable.after y t).untold := by
  obtain ⟨a, u, v, hx, hy, huv⟩ | ⟨e, u, v, hx, hy, huv⟩ := h.cases hst
  · rwa [after_of_ok hx, after_of_ok hy]
  · rwa [after_of_error hx, after_of_error hy]

theorem bind {k k' : α → Op β} (hx : Alike x y) (hk : ∀ a, Alike (k a) (k' a)) :
    Alike (x >>= k) (y >>= k') := by
  intro s t hst
  rw [bind_run, bind_run]
  obtain ⟨a, u, v, hx, hy, huv⟩ | ⟨e, u, v, hx, hy, huv⟩ := hx.cases hst
  · rw [hx, hy]
    exact hk a u v huv
  · rw [hx, hy]
    exact congrArg (EStateM.Result.error e) huv

/-- An operation that only tells something can be left out. -/
theorem skip {w : Op β} {k : β → Op α} (hw : ∀ s, ∃ b t, w s = .ok b t ∧ t.untold = s.untold)
    (hk : ∀ b, Alike (k b) y) : Alike (w >>= k) y := by
  intro s t hst
  obtain ⟨b, u, hrun, hu⟩ := hw s
  rw [bind_run, hrun]
  exact hk b u t (hu.trans hst)

/-- Operations may look at the store, as far as they see the same. -/
theorem get {k k' : Store → Op α} (h : ∀ s t, s.untold = t.untold → Alike (k s) (k' t)) :
    Alike (MonadState.get >>= k) (MonadState.get >>= k') :=
  fun s t hst => h s t hst s t hst

theorem onFailure {c c' : Op Unit} (hx : Alike x y) (hc : Alike c c') :
    Alike (Failable.onFailure x c) (Failable.onFailure y c') := by
  intro s t hst
  unfold Failable.onFailure
  obtain ⟨a, u, v, hx, hy, huv⟩ | ⟨e, u, v, hx, hy, huv⟩ := hx.cases hst
  · rw [hx, hy]
    exact congrArg (EStateM.Result.ok a) huv
  · rw [hx, hy]
    exact hc.bind (fun _ => .of_commutes fun _ _ => .throw e) u v huv

end Alike

end Untold

/-! ## Leaves -/

mutual

/-- The segments of a tree that are not nested regions, in order. -/
def Segment.leaves : Segment → List Segment
  | .direct bytes note => [.direct bytes note]
  | .deferred format c label => [.deferred format c label]
  | .mark c => [.mark c]
  | .postProcess e => [.postProcess e]
  | .nested segments => Segment.leavesAll segments

def Segment.leavesAll : List Segment → List Segment
  | [] => []
  | segment :: rest => segment.leaves ++ Segment.leavesAll rest

end

/-- One nested region, at any depth, is replaced by its segments. -/
inductive Segment.Inlines : List Segment → List Segment → Prop where
  | here (front child back : List Segment) :
      Inlines (front ++ .nested child :: back) (front ++ child ++ back)
  | inside (front back : List Segment) {child child' : List Segment} (h : Inlines child child') :
      Inlines (front ++ .nested child :: back) (front ++ .nested child' :: back)

namespace Segment

theorem leavesAll_append (xs ys : List Segment) :
    leavesAll (xs ++ ys) = leavesAll xs ++ leavesAll ys := by
  induction xs with
  | nil => rfl
  | cons x xs ih => rw [List.cons_append, leavesAll, leavesAll, ih, List.append_assoc]

theorem Inlines.leavesAll {xs ys : List Segment} (h : Inlines xs ys) :
    leavesAll xs = leavesAll ys := by
  induction h with
  | here front child back =>
    simp only [leavesAll_append, Segment.leavesAll, leaves, List.append_assoc]
  | inside front back _ ih =>
    simp only [leavesAll_append, Segment.leavesAll, leaves, ih]

mutual

theorem leavesAll_leaves (segment : Segment) : leavesAll segment.leaves = segment.leaves := by
  cases segment with
  | nested segments => exact leavesAll_leavesAll segments
  | _ => rfl

theorem leavesAll_leavesAll (segments : List Segment) :
    leavesAll (leavesAll segments) = leavesAll segments := by
  cases segments with
  | nil => rfl
  | cons segment rest =>
    rw [leavesAll, leavesAll_append, leavesAll_leaves segment, leavesAll_leavesAll rest]

end

mutual

theorem entriesAll_leaves (segment : Segment) : entriesAll segment.leaves = segment.entries := by
  cases segment with
  | nested segments => exact entriesAll_leavesAll segments
  | _ => rfl

theorem entriesAll_leavesAll (segments : List Segment) :
    entriesAll (leavesAll segments) = entriesAll segments := by
  cases segments with
  | nil => rfl
  | cons segment rest =>
    rw [leavesAll, entriesAll_append, entriesAll_leaves segment, entriesAll_leavesAll rest]
    rfl

end

end Segment

namespace Store

variable (i : ImageId)

theorem emitAll_append (xs ys : List Segment) :
    emitAll i (xs ++ ys) = (do emitAll i xs; emitAll i ys) := by
  induction xs with
  | nil => rfl
  | cons x xs ih => simp only [List.cons_append, emitAll, ih, bind_assoc]

mutual

theorem emitAll_leaves (segment : Segment) : emitAll i segment.leaves = emitSegment i segment := by
  cases segment with
  | nested segments => exact emitAll_leavesAll segments
  | _ => exact bind_pure _

/-- A nested region is emitted as its leaves are, one after another. -/
theorem emitAll_leavesAll (segments : List Segment) :
    emitAll i (Segment.leavesAll segments) = emitAll i segments := by
  cases segments with
  | nil => rfl
  | cons segment rest =>
    rw [Segment.leavesAll, emitAll_append, emitAll_leaves segment, emitAll_leavesAll rest]
    rfl

end

end Store

/-! ## Layouts of regions with the same leaves -/

section Layouts

variable {i : ImageId} {observer : Observer}

theorem emit_tells (event : Event) (s : Store) :
    ∃ b t, emit event s = .ok b t ∧ t.untold = s.untold := ⟨(), _, rfl, rfl⟩

theorem checkpoint_tells (c : Checkpoint) (s : Store) :
    ∃ b t, checkpoint observer i c s = .ok b t ∧ t.untold = s.untold := by
  cases observer with
  | silent | recording => exact ⟨(), _, rfl, rfl⟩
  | tracing => cases c <;> exact ⟨(), _, rfl, rfl⟩

theorem imageSize_tells (s : Store) :
    ∃ b t, imageSize i s = .ok b t ∧ t.untold = s.untold := ⟨_, s, rfl, rfl⟩

theorem alike_emitObserved (index : Nat) (segments : List Segment) :
    Alike (emitObserved observer i index segments) (emitAll i segments) := by
  induction segments generalizing index with
  | nil => exact .of_commutes fun _ _ => .pure ()
  | cons segment rest ih =>
    refine .bind (.of_commutes fun _ _ => commutes_emitSegment i segment) fun _ => ?_
    exact .skip imageSize_tells fun _ => .skip (checkpoint_tells _) fun _ => ih (index + 1)

/-- A region is laid out if its segments can be emitted, whoever is told about them. -/
theorem Region.layoutObserved_of_emitAll {r : Region} {s t : Store} (observer : Observer)
    (h : emitAll i r.segments s = .ok () t) :
    ∃ trace reports, r.layoutObserved i observer s =
      .ok ⟨i, s.placeholders.size, t.placeholders.size, r.entries⟩ { t with trace, reports } := by
  let s₁ := (emit (.flattening r.segments.length (s.image i).size)).after s
  have hs : s.untold = s₁.untold := rfl
  have halike : Alike (emitAll i r.segments) (emitObserved observer i 0 r.segments) :=
    (alike_emitObserved 0 r.segments).symm
  obtain ⟨u, hu, htu⟩ := halike.of_ok hs h
  rw [eq_of_untold htu] at hu
  refine ⟨u.trace, u.reports, ?_⟩
  change (Failable.onFailure (emitObserved observer i 0 r.segments) _ >>= _ : Op Layout) s₁ = _
  rw [bind_run, Failable.onFailure, hu]
  rfl

/-- The leaves of a region say how it is laid out. -/
theorem Region.alike_layoutObserved {r r' : Region}
    (h : Segment.leavesAll r.segments = Segment.leavesAll r'.segments) :
    Alike (r.layoutObserved i observer) (r'.layoutObserved i observer) := by
  have hemit : Alike (emitObserved observer i 0 r.segments)
      (emitObserved observer i 0 r'.segments) := by
    refine (alike_emitObserved 0 r.segments).trans ?_
    rw [← emitAll_leavesAll, h, emitAll_leavesAll]
    exact (alike_emitObserved 0 r'.segments).symm
  have hentries : r.entries = r'.entries := by
    rw [Region.entries, ← Segment.entriesAll_leavesAll, h, Segment.entriesAll_leavesAll]
    rfl
  refine .skip imageSize_tells fun _ => .skip (emit_tells _) fun _ => ?_
  refine .symm (.skip imageSize_tells fun _ => .skip (emit_tells _) fun _ => .symm ?_)
  refine .get fun s t hst => ?_
  rw [placeholders_of_untold hst, hentries]
  refine .bind (hemit.onFailure (.get fun u v huv => ?_)) fun _ => .get fun u v huv => ?_
  · rw [placeholders_of_untold huv]
    exact .of_commutes fun _ _ => commutes_release ..
  · rw [placeholders_of_untold huv]
    exact .of_commutes fun _ _ => .pure _

theorem Region.alike_flattenObserved {r r' : Region} {config : FlattenConfig}
    (h : Segment.leavesAll r.segments = Segment.leavesAll r'.segments) :
    Alike (r.flattenObserved i config observer) (r'.flattenObserved i config observer) := by
  refine .bind (alike_layoutObserved h) fun l => ?_
  refine .bind (.of_commutes fun _ hf => l.commutes_finalizeObserved hf config observer) ?_
  exact fun summary => .skip (emit_tells _) fun _ =>
    .symm (.skip (emit_tells _) fun _ => .of_commutes fun _ _ => .pure summary)

end Layouts

/-- The store after some calls. -/
def Store.later (s : Store) (calls : List Call) : Store :=
  calls.foldl (fun s call => call.run.after s) s

theorem Store.untold_later {s t : Store} (h : s.untold = t.untold) (calls : List Call) :
    (s.later calls).untold = (t.later calls).untold := by
  induction calls generalizing s t with
  | nil => exact h
  | cons call calls ih =>
    exact ih ((Alike.of_commutes fun _ hf => call.commutes_run hf).after h)

/-- Nobody can tell the two regions apart who does not look at the checkpoints: they come to the
same layouts, summaries and errors, and leave the same cells, images and placeholders. -/
structure Region.Interchangeable (r r' : Region) (i : ImageId) (s : Store) : Prop where
  layout : ∀ observer,
    untold (r.layoutObserved i observer s) = untold (r'.layoutObserved i observer s)
  /-- Whatever happens between layout and finalization, finalization comes to the same, and tells
  the same besides what was told before. -/
  finalize : ∀ observer l t, r.layoutObserved i observer s = .ok l t →
    ∃ t', r'.layoutObserved i observer s = .ok l t' ∧ ∀ calls config observer',
      let u := t.later calls
      let u' := t'.later calls
      u.untold = u'.untold ∧ ∃ outcome,
        l.finalizeObserved config observer' u = (behind u.trace u.reports).result outcome ∧
        l.finalizeObserved config observer' u' = (behind u'.trace u'.reports).result outcome
  flatten : ∀ config observer, untold (r.flattenObserved i config observer s) =
    untold (r'.flattenObserved i config observer s)

theorem Region.interchangeable {r r' : Region}
    (h : Segment.leavesAll r.segments = Segment.leavesAll r'.segments) (i : ImageId) (s : Store) :
    r.Interchangeable r' i s where
  layout observer := alike_layoutObserved h s s rfl
  finalize observer l t hlayout := by
    obtain ⟨t', hlayout', ht⟩ := (alike_layoutObserved h).of_ok rfl hlayout
    refine ⟨t', hlayout', fun calls config observer' => ?_⟩
    intro u u'
    have huntold : u.untold = u'.untold := untold_later ht calls
    refine ⟨huntold, l.finalizeObserved config observer' u.untold, ?_, ?_⟩
    · rw [← (l.commutes_finalizeObserved (adds_behind ..) config observer').run, store_behind]
    · rw [huntold, ← (l.commutes_finalizeObserved (adds_behind ..) config observer').run,
        store_behind]
  flatten config observer := alike_flattenObserved h s s rfl

/-- Nesting makes no difference. A region with a nested one, at any depth, and the region with the
segments of the nested one in its place come to the same, and so do a region and the list of all its
leaves. -/
theorem nesting_transparent (i : ImageId) (s : Store) :
    (∀ r r' : Region, Segment.Inlines r.segments r'.segments → r.Interchangeable r' i s) ∧
    (∀ (r child : Region) (rest : List Segment),
      Region.Interchangeable ⟨(r.embed child).segments ++ rest⟩
        ⟨r.segments ++ child.segments ++ rest⟩ i s) ∧
    ∀ r : Region, r.Interchangeable ⟨Segment.leavesAll r.segments⟩ i s := by
  refine ⟨fun r r' h => ?_, fun r child rest => ?_, fun r => ?_⟩
  · exact Region.interchangeable h.leavesAll i s
  · have h := Segment.Inlines.here r.segments child.segments rest
    refine Region.interchangeable ?_ i s
    rw [← h.leavesAll, Region.embed, Region.push, List.append_assoc]
    rfl
  · exact Region.interchangeable (Segment.leavesAll_leavesAll r.segments).symm i s

/-- The late region with the segments of its child in its place. -/
def inlinedRegion : Region :=
  ⟨[.direct [1, 2] {}, .deferred (.int .u8) 2 none, .deferred (.int .u16le) 0 none, .mark 1,
    .deferred (.int .u8) 0 none, .deferred (.int .u8) 3 none]⟩

/-- More checkpoints are reported, and all else is the same. -/
theorem nesting_transparent_late :
    Segment.Inlines lateRegion.segments inlinedRegion.segments ∧
    untold (lateRegion.flattenObserved 0 .quiet .recording lateStore) =
      untold (inlinedRegion.flattenObserved 0 .quiet .recording lateStore) ∧
    ((lateRegion.flattenObserved 0 .quiet .recording).after lateStore).reports.size = 6 ∧
    ((inlinedRegion.flattenObserved 0 .quiet .recording).after lateStore).reports.size = 8 := by
  have hinlines : Segment.Inlines lateRegion.segments inlinedRegion.segments :=
    .here [.direct [1, 2] {}, .deferred (.int .u8) 2 none]
      [.deferred (.int .u16le) 0 none, .mark 1, .deferred (.int .u8) 0 none]
      [.deferred (.int .u8) 3 none]
  exact ⟨hinlines, ((nesting_transparent 0 lateStore).1 _ _ hinlines).flatten .quiet .recording,
    by decide +kernel, by decide +kernel⟩

end Backpatch
