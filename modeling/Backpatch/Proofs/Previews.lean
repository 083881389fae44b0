import Mathlib
import Backpatch.Proofs.Rendition

/-!
# Previews

Sources are resolved, and then a region is rendered completely. If the region is also rendered for
inspection in between, each time in an image of its own, every such preview settles marks and the
results whose range is known by then. In the end all these cells are confirmed, and the image is the
same. A preview changes which dispatches a failure comes through, so this holds only where none is
lost on the way: no derivation fails with a hollow error (`Subscriber.HollowFree`).
-/

namespace Backpatch

open Store Failable

/-- The region in an image of its own, with the summary of its rendering. -/
def Region.print (r : Region) (config : FlattenConfig) (observer : Observer) :
    Op (FlattenSummary × Bytes) := do
  let i ← newImage
  let summary ← r.flattenObserved i config observer
  return (summary, ((← get).image i).bytes)

/-- What can happen before a region is rendered for good: a source is resolved, or the region is
rendered in an image of its own, as far as it is known. -/
inductive Occurrence where
  | resolve (c : CellId) (v : Datum)
  | view
  | flatten (config : FlattenConfig) (observer : Observer)

namespace Occurrence

def run (r : Region) : Occurrence → Op Unit
  | resolve c v => Store.resolve c v
  | view => discard r.view
  | flatten config observer => do discard (r.flattenObserved (← newImage) config observer)

def source? : Occurrence → Option (CellId × Datum)
  | resolve c v => some (c, v)
  | view | flatten .. => none

/-- The store after the occurrences, whether they fail or not. -/
def runAll (r : Region) (occurrences : List Occurrence) (s : Store) : Store :=
  occurrences.foldl (fun s occurrence => (occurrence.run r).after s) s

end Occurrence

/-- What is asked of a region, its sources and the subscribers that wait. These are derivations and
fields, not callbacks; neither sources nor derivations are marked; each entry has a result of its
own, and the digests it can have are equal to themselves. -/
structure Region.Sourced (r : Region) (sources : List (CellId × Datum)) (s : Store) : Prop where
  within : r.Within s.cells.size
  derivations : ∀ c, ∀ q ∈ (s.cell c).queue, q.2.isCallback = false
  exist : ∀ p ∈ sources, p.1 < s.cells.size
  marks : ∀ m ∈ r.marks 0, s.drivers [] m.1 = 0 ∧ ∀ p ∈ sources, p.1 ≠ m.1
  results : (r.entries.map Entry.result).Nodup
  computed : ∀ e ∈ r.entries, (s.cell e.result).derived = true ∧ s.drivers [] e.result = 0
  reflexive : ∀ e ∈ r.entries, ∀ bs, (e.digest bs).same (e.digest bs) = true

theorem Region.Sourced.results_free {r : Region} {sources : List (CellId × Datum)} {s : Store}
    (h : r.Sourced sources s) :
    ∀ e ∈ r.entries, e.result < s.cells.size ∧ s.drivers [] e.result = 0 :=
  fun e he => ⟨(Segment.WithinAll.entries h.within e he).2.2, (h.computed e he).2⟩

/-- The cells that are settled from outside: sources, marks and the results of entries. -/
def Region.Outer (r : Region) (sources : List (CellId × Datum)) (entries : List Entry)
    (c : CellId) : Prop :=
  (∃ p ∈ sources, p.1 = c) ∨ (∃ m ∈ r.marks 0, m.1 = c) ∨ ∃ e ∈ entries, e.result = c

section Resolving

variable {o s t : Store} {r : Region} {S : CellId → Datum → Prop} {c : CellId} {v : Datum}
  {sources : List (CellId × Datum)}

/-- A cell that nothing drives is pending as long as it is not settled from outside. -/
theorem RenderedFrom.pending (h : RenderedFrom r S o s) (ho : SmoothFrom o o [])
    (hc : c < o.cells.size) (hd : o.drivers [] c = 0) (hS : ∀ v, ¬ S c v) (hv : o.value? c = none) :
    s.value? c = none := by
  refine SmoothSteps.pending h ho hc hd (fun m hm v => ?_) hv
  constructor <;> rintro rfl <;> exact hS v hm

theorem RenderedFrom.mono {S' : CellId → Datum → Prop} (h : RenderedFrom r S o s)
    (hS : ∀ c v, S c v → S' c v) : RenderedFrom r S' o s :=
  SmoothSteps.mono h fun _ => Move.Renders.mono hS

theorem smoothSteps_newImage {E : FixedFormat → CellId → Prop} (s : Store) :
    SmoothSteps o (Move.Renders E S) s { s with images := s.images.push {} } :=
  .quiet (m := .newImage) trivial trivial trivial rfl

theorem newImage_run (s : Store) :
    newImage s = .ok s.images.size { s with images := s.images.push {} } := rfl

theorem size_newImage (s : Store) :
    (({ s with images := s.images.push {} } : Store).image s.images.size).size = 0 :=
  congrArg Image.size ((image_newImage s _).trans (image_of_size_le s _ le_rfl))

/-- The sources were resolved between `s` and `t`. -/
structure Resolved (s t : Store) (sources : List (CellId × Datum)) : Prop where
  distinct : (sources.map Prod.fst).Nodup
  plain : ∀ p ∈ sources, (s.cell p.1).derived = false
  pending : ∀ p ∈ sources, s.value? p.1 = none
  known : ∀ p ∈ sources, t.value? p.1 = some p.2

theorem Resolved.cons {P : Move → Prop} {p : CellId × Datum} {u : Store} (h : SmoothFrom o s [])
    (hc : ∀ q ∈ p :: sources, q.1 < s.cells.size) (hrun : Store.resolve p.1 p.2 s = .ok () u)
    (hsu : SmoothSteps o P s u) (hut : SmoothSteps o P u t) (hrest : Resolved u t sources) :
    Resolved s t (p :: sources) := by
  obtain ⟨hplain, hsettle⟩ := resolve_eq_ok hrun
  have hp := settle_value h.toLasting (hc p (.head sources)) hsettle
  refine ⟨List.nodup_cons.2 ⟨fun hmem => ?_, hrest.distinct⟩, ?_, ?_, ?_⟩
  · obtain ⟨q, hq, heq⟩ := List.mem_map.1 hmem
    simp [← heq, hrest.pending q hq] at hp
  · refine List.forall_mem_cons.2 ⟨hplain, fun q hq => ?_⟩
    rw [← hsu.steps.grows.derived q.1 (hc q (.tail p hq)), hrest.plain q hq]
  · refine List.forall_mem_cons.2 ⟨settle_pending hsettle, fun q hq => ?_⟩
    have hnone := hrest.pending q hq
    cases hv : s.value? q.1 with
    | none => rfl
    | some x => simp [hsu.value?_eq h hv] at hnone
  · exact List.forall_mem_cons.2 ⟨hut.value?_eq (hsu.smoothFrom h) hp, hrest.known⟩

theorem SmoothFrom.resolveAll_smoothSteps {E : FixedFormat → CellId → Prop} (h : SmoothFrom o s [])
    (hc : ∀ p ∈ sources, p.1 < s.cells.size) (hS : ∀ p ∈ sources, S p.1 p.2)
    (hrun : sources.forM (fun p => Store.resolve p.1 p.2) s = .ok () t) :
    SmoothSteps o (Move.Renders E S) s t ∧ Resolved s t sources := by
  induction sources generalizing s with
  | nil =>
    cases hrun
    exact ⟨.refl t, by simp, by simp, by simp, by simp⟩
  | cons p rest ih =>
    obtain ⟨_, u, hresolve, hrun⟩ := bind_eq_ok.1 hrun
    have hsu : SmoothSteps o (Move.Renders E S) s u :=
      h.resolve_smoothSteps (hc p (.head rest)) (hS p (.head rest)) hresolve
    obtain ⟨hut, hrest⟩ := ih (hsu.smoothFrom h)
      (fun q hq => (hc q (.tail p hq)).trans_le hsu.steps.grows.cells)
      (fun q hq => hS q (.tail p hq)) hrun
    exact ⟨hsu.trans hut, hrest.cons h hc hresolve hsu hut⟩

end Resolving

/-! ## The complete rendering -/

section Complete

variable {o s s₁ t u : Store} {r : Region} {l : Layout} {i : ImageId} {b : Bytes} {e : Entry}
  {sources : List (CellId × Datum)} {entries done : List Entry}

/-- The region was laid out from `s` to `s₁`, then all its entries were applied, and in the end it
has the content `b`. -/
structure Region.Completed (r : Region) (l : Layout) (o s s₁ t : Store) (b : Bytes) : Prop where
  drawn : l.Drawn r s₁
  laid : SmoothSteps o (Move.Lays r.fields fun c _ => ∃ m ∈ r.marks 0, m.1 = c) s s₁
  applied : l.AppliedAll r.entries s₁ t
  content : Segment.contentAll t r.segments = some b

/-- What a strict rendering that is complete has done. -/
theorem Region.flattenObserved_complete {config : FlattenConfig} {observer : Observer}
    {summary : FlattenSummary} (h : SmoothFrom o s []) (hr : r.Sourced sources o)
    (hi : i < s.images.size)
    (hsize : (s.image i).size = 0) (hstrict : config.enforceComplete = true)
    (hflatten : r.flattenObserved i config observer s = .ok summary t)
    (hcomplete : summary.isComplete = true) :
    ∃ l s₁ u, r.layoutObserved i observer s = .ok l s₁ ∧
      r.Completed l o s s₁ u (t.image i).bytes ∧ ∀ c, t.value? c = u.value? c := by
  obtain ⟨l, s₁, v, hlayout, hfinalize, himages, hvalues⟩ := Region.flattenObserved_eq_ok hflatten
  have hw : r.Within s.cells.size := hr.within.mono h.grows.cells
  have hM : Marked o (fun c _ => ∃ m ∈ r.marks 0, m.1 = c) (r.marks 0) := fun m hm =>
    ⟨Segment.WithinAll.marks hr.within 0 m hm, (hr.marks m hm).1, m, hm, rfl⟩
  have hdrawn := Region.layoutObserved_drawn h hi hw hsize (Rendition.slotted r) hM hlayout
  have hlaid : SmoothSteps o (Move.Lays r.fields fun c _ => ∃ m ∈ r.marks 0, m.1 = c) s s₁ := by
    rw [← hsize] at hM
    simpa only [hsize] using
      Region.layoutObserved_smoothSteps h hi hw (hsize ▸ Rendition.slotted r) hM hlayout
  have h₁ := hlaid.smoothFrom h
  have hwithin : ∀ e ∈ l.entries, e.Within s₁.cells.size := by
    rw [hdrawn.entries]
    exact fun e he => (Segment.WithinAll.entries hr.within e he).mono h₁.grows.cells
  obtain ⟨tally, u, hrun, hnone, rfl, hclose⟩ :=
    Layout.finalizeObserved_eq_ok h₁.toValid hwithin hfinalize
  obtain ⟨hpending, hskipped⟩ : l.pendingFields u = [] ∧ tally.skipped = 0 := by
    simpa [FlattenSummary.isComplete, Layout.summary] using hcomplete
  rw [hstrict, hdrawn.entries] at hrun
  have herrors : ∀ x ∈ tally.errors, x.parts = [] := fun x hx =>
    Error.parts_of_ofMany?_eq_none hnone x (List.mem_append_left _ hx)
  have happlied := Layout.appliedAll_of_runEntries h₁ hr.results_free hrun herrors hskipped
  have hdrawn' := hdrawn.smoothSteps (happlied.smoothSteps h₁ hr.results_free) h₁
  obtain ⟨himages', -, hvalues'⟩ := hclose.closes
  refine ⟨l, s₁, u, hlayout, ⟨hdrawn, hlaid, happlied, ?_⟩, fun c => (hvalues c).trans (hvalues' c)⟩
  have hcontent := hdrawn'.placed.content hdrawn'.filled fun f p =>
    Layout.patched_of_pendingFields hpending
  have hall : (u.image l.image).size = Segment.sizeAll r.segments :=
    hdrawn'.stands.size.trans (Nat.zero_add _)
  rw [hcontent, ← hall, Image.slice_size, image, image, himages, himages',
    (Region.layoutObserved_eq_ok hlayout).2]

/-- The result of an applied entry: only what was known before, and marks, can stand in the way of
the digest. -/
theorem Layout.Applied.known (ho : SmoothFrom o o []) (hr : r.Sourced sources o)
    (hplain : ∀ p ∈ sources, (o.cell p.1).derived = false)
    (hg : RenderedFrom r (fun c _ => r.Outer sources done c) o s) (hd : l.Drawn r s)
    (he : e ∈ r.entries) (hdone : ∀ e' ∈ done, e'.result ≠ e.result) (ha : l.Applied e s u)
    (hle : ∀ c v, u.value? c = some v → t.value? c = some v)
    (hb : Segment.contentAll t r.segments = some b) :
    ∃ start stop v, e.Known r o t b start stop v := by
  obtain ⟨start, stop, hbounds, hclear, happly⟩ := id ha
  have hs := hg.smoothFrom ho
  have hw : e.Within o.cells.size := Segment.WithinAll.entries hr.within e he
  obtain ⟨hderived, hdrivers⟩ := hr.computed e he
  have hsu : SmoothSteps o (Move.Runs fun _ _ => True) s u :=
    ha.smoothSteps hs hw.2.2 hdrivers fun _ _ _ => trivial
  have hst : ∀ c v, c < o.cells.size → s.value? c = some v → t.value? c = some v :=
    fun c v _ hv => hle c v (hsu.value?_eq hs hv)
  obtain ⟨hordered, hinside, hsettle⟩ := Layout.applyEntry_eq_ok happly
  rw [hd.size hb] at hinside
  rw [hd.agree hr.within hst hb hinside hclear] at hsettle
  have known : ∀ v, t.value? e.result = some v →
      v.same (e.digest ((b.drop start).take (stop - start))) = true →
      (v = e.digest ((b.drop start).take (stop - start)) ∨ (∃ x, o.value? e.result = some x) ∨
        ∃ m ∈ r.marks 0, m.1 = e.result) →
      ∃ start stop v, e.Known r o t b start stop v := fun v hv hsame hsettled =>
    ⟨start, stop, v, Layout.bounds_eq_some hw hbounds hst, hordered, hinside, hv, hsame, hsettled⟩
  obtain ⟨-, -, hv⟩ | ⟨x, hx, hsame, rfl⟩ :=
    settleOrConfirm_cases hs.toLasting (hw.2.2.trans_le hs.grows.cells) hsettle
  · exact known _ (hle _ _ hv) (hr.reflexive e he _) (.inl rfl)
  · refine known x (hle _ _ hx) hsame (.inr ?_)
    by_contra hnot
    rw [not_or] at hnot
    have hnone : o.value? e.result = none := Option.eq_none_iff_forall_ne_some.2 fun x hx =>
      hnot.1 ⟨x, hx⟩
    have hpending := hg.pending ho hw.2.2 hdrivers (fun v hS => ?_) hnone
    · simp [hx] at hpending
    · obtain ⟨p, hp, heq⟩ | hmark | ⟨e', he', heq⟩ := hS
      · simp [← heq, hplain p hp] at hderived
      · exact hnot.2 hmark
      · exact hdone e' he' heq

/-- The results of entries that are applied one after another. -/
theorem Layout.AppliedAll.known (ho : SmoothFrom o o []) (hr : r.Sourced sources o)
    (hplain : ∀ p ∈ sources, (o.cell p.1).derived = false) (hsplit : r.entries = done ++ entries)
    (hg : RenderedFrom r (fun c _ => r.Outer sources done c) o s) (hd : l.Drawn r s)
    (ha : l.AppliedAll entries s t) (hb : Segment.contentAll t r.segments = some b) :
    ∀ e ∈ entries, ∃ start stop v, e.Known r o t b start stop v := by
  induction entries generalizing done s with
  | nil => simp
  | cons e rest ih =>
    obtain ⟨u, hu, ha⟩ := ha
    have hs := hg.smoothFrom ho
    have hentries : ∀ e' ∈ e :: rest, e'.result < o.cells.size ∧ o.drivers [] e'.result = 0 :=
      fun e' he' => hr.results_free e' (hsplit ▸ List.mem_append_right done he')
    have hnodup := hr.results
    rw [hsplit, List.map_append, List.nodup_append] at hnodup
    have hsu : SmoothSteps o (Move.Runs fun c _ => r.Outer sources (done ++ [e]) c) s u :=
      hu.smoothSteps hs (hentries e (.head rest)).1 (hentries e (.head rest)).2 fun _ _ _ =>
        .inr (.inr ⟨e, by simp, rfl⟩)
    have hut := ha.smoothSteps (hsu.smoothFrom hs) fun e' he' => hentries e' (.tail e he')
    refine List.forall_mem_cons.2 ⟨?_, ?_⟩
    · refine hu.known ho hr hplain hg hd (hsplit ▸ by simp) (fun e' he' => ?_)
        (fun c v => hut.value?_eq (hsu.smoothFrom hs)) hb
      exact hnodup.2.2 _ (List.mem_map_of_mem he') _ (by simp)
    · have hsplit' : r.entries = (done ++ [e]) ++ rest := by simpa using hsplit
      refine ih hsplit' (.trans (hg.mono fun c _ hS => ?_) hsu.runs.lays) (hd.smoothSteps hsu hs) ha
      exact hS.imp_right (.imp_right fun ⟨e', he', heq⟩ => ⟨e', by simp [he'], heq⟩)

theorem Region.Completed.value?_eq {c : CellId} {v : Datum} (h : r.Completed l o s s₁ t b)
    (hs : SmoothFrom o s []) (hr : r.Sourced sources o) (hv : s.value? c = some v) :
    t.value? c = some v := by
  have hs₁ := h.laid.smoothFrom hs
  exact (h.applied.smoothSteps hs₁ hr.results_free).value?_eq hs₁ (h.laid.value?_eq hs hv)

/-- The complete rendering foresees all that is settled from outside. -/
theorem Region.Completed.rendition (h : r.Completed l o s s₁ t b) (ho : SmoothFrom o o [])
    (hr : r.Sourced sources o) (hs : RenderedFrom r (fun c v => (c, v) ∈ sources) o s)
    (hplain : ∀ p ∈ sources, (o.cell p.1).derived = false) (done : List (CellId × Datum)) :
    Rendition r (r.Outer done r.entries) o t b := by
  have hs₁ : RenderedFrom r (fun c _ => r.Outer sources [] c) o s₁ :=
    (hs.mono fun c v hv => .inl ⟨(c, v), hv, rfl⟩).trans
      (h.laid.lays.mono fun _ => Move.Renders.mono fun c _ hm => .inr (.inl hm))
  have hfrom := hs₁.smoothFrom ho
  have happlied := h.applied.smoothSteps hfrom hr.results_free
  have ht : RenderedFrom r (fun _ _ => True) o t :=
    (hs₁.mono fun _ _ _ => trivial).trans
      (happlied.runs.lays.mono fun _ => Move.Renders.mono fun _ _ _ => trivial)
  refine ⟨ho, ht.agrees ho, (ht.smoothFrom ho).lasts, hr.within, h.content, fun m hm => ?_,
    fun e he => ?_⟩
  · exact ⟨.inr (.inl ⟨m, hm, rfl⟩), (hr.marks m hm).1,
      happlied.value?_eq hfrom (h.drawn.stands.marks m hm)⟩
  · exact ⟨.inr (.inr ⟨e, he, rfl⟩), (hr.computed e he).2,
      h.applied.known ho hr hplain (List.nil_append _).symm hs₁ h.drawn h.content e he⟩

end Complete

/-! ## The run with previews -/

section Previews

variable {o s t : Store} {r : Region} {b : Bytes} {A : CellId → Prop} {c : CellId} {v : Datum}
  {sources done : List (CellId × Datum)} {occurrences : List Occurrence}

theorem Rendition.resolve_smoothSteps (R : Rendition r A o t b)
    (hg : RenderedFrom r (Foreseen A o t) o s)
    (hv : Foreseen A o t c v) (hplain : (o.cell c).derived = false)
    (hpending : s.value? c = none) :
    SmoothSteps o (Move.Renders r.fields (Foreseen A o t)) s ((Store.resolve c v).after s) ∧
      ((Store.resolve c v).after s).value? c = some v := by
  have hs := hg.smoothFrom R.smoothFrom
  have hc := hv.1.trans_le hs.grows.cells
  have hplain' : (s.cell c).derived = false := (hs.grows.derived c hv.1).trans hplain
  obtain ⟨u, hu⟩ := R.model.resolve_isOk hg hv hc hplain' hpending
  rw [after_of_ok hu]
  exact ⟨hs.resolve_smoothSteps hc hv hu, settle_value hs.toLasting hc (resolve_eq_ok hu).2⟩

theorem Occurrence.after_flatten (r : Region) (config : FlattenConfig) (observer : Observer)
    (s : Store) : ((flatten config observer).run r).after s =
      (r.flattenObserved s.images.size config observer).after
        { s with images := s.images.push {} } := by
  simp only [run, after_bind, newImage_run, after_discard]

/-- To look at a region is to render it as far as it is known. -/
theorem Occurrence.after_view (r : Region) (s : Store) : (view.run r).after s =
    ((flatten .quiet FlattenConfig.quiet.observer).run r).after s := by
  rw [after_flatten]
  simp only [run, Region.view, Region.flatten, after_discard, after_bind, newImage_run, discard_run]
  cases hrun : r.flattenObserved s.images.size .quiet FlattenConfig.quiet.observer
    { s with images := s.images.push {} } with
  | ok summary t => exact (after_of_ok hrun).symm
  | error e t => exact (after_of_error hrun).symm

theorem Rendition.preview_smoothSteps (R : Rendition r A o t b) (config : FlattenConfig)
    (observer : Observer) (hg : RenderedFrom r (Foreseen A o t) o s) :
    SmoothSteps o (Move.Renders r.fields (Foreseen A o t)) s
      (((Occurrence.flatten config observer).run r).after s) := by
  rw [Occurrence.after_flatten]
  have hnew : SmoothSteps o (Move.Renders r.fields (Foreseen A o t)) s _ := smoothSteps_newImage s
  exact hnew.trans (R.flattenObserved_smoothSteps config observer (hg.trans hnew) (by simp)
    (size_newImage s))

/-- A store in the run with previews, after some of the sources were resolved. -/
structure PreviewState (r : Region) (done : List (CellId × Datum)) (o t s : Store) : Prop where
  renderedFrom : RenderedFrom r (Foreseen (r.Outer done r.entries) o t) o s
  known : ∀ p ∈ done, s.value? p.1 = some p.2

theorem PreviewState.preview (R : Rendition r (r.Outer done r.entries) o t b)
    (h : PreviewState r done o t s) (config : FlattenConfig) (observer : Observer) :
    PreviewState r done o t (((Occurrence.flatten config observer).run r).after s) := by
  have hs := R.preview_smoothSteps config observer h.renderedFrom
  exact ⟨h.renderedFrom.trans hs, fun p hp =>
    hs.value?_eq (h.renderedFrom.smoothFrom R.smoothFrom) (h.known p hp)⟩

/-- A source is pending until it is resolved, and then it is resolved as foreseen. -/
theorem PreviewState.resolve (R : Rendition r (r.Outer (done ++ [(c, v)]) r.entries) o t b)
    (hr : r.Sourced sources o) (hsources : Resolved o t sources)
    (hdone : (done ++ [(c, v)]).Sublist sources) (h : PreviewState r done o t s) :
    PreviewState r (done ++ [(c, v)]) o t ((Store.resolve c v).after s) := by
  have hmem : (c, v) ∈ sources := hdone.subset (by simp)
  have hc := hr.exist _ hmem
  have hplain := hsources.plain _ hmem
  have hdistinct := hsources.distinct.sublist (hdone.map _)
  have hpending : s.value? c = none := by
    refine h.renderedFrom.pending R.smoothFrom hc (R.smoothFrom.drivers_of_not_derived hplain) ?_
      (hsources.pending _ hmem)
    rintro w ⟨-, ⟨p, hp, heq⟩ | ⟨m, hm, heq⟩ | ⟨e, he, heq⟩, -⟩
    · rw [List.map_append, List.nodup_append] at hdistinct
      exact hdistinct.2.2 _ (List.mem_map_of_mem hp) c (by simp) heq
    · exact (hr.marks m hm).2 _ hmem heq.symm
    · have hderived := (hr.computed e he).1
      simp [heq, hplain] at hderived
  have hg : RenderedFrom r (Foreseen (r.Outer (done ++ [(c, v)]) r.entries) o t) o s :=
    h.renderedFrom.mono fun d w hw => ⟨hw.1, hw.2.1.imp_left fun ⟨p, hp, heq⟩ =>
      ⟨p, List.mem_append_left _ hp, heq⟩, hw.2.2⟩
  obtain ⟨hs, hv⟩ := R.resolve_smoothSteps hg
    ⟨hc, .inl ⟨(c, v), by simp, rfl⟩, hsources.known _ hmem⟩
    hplain hpending
  refine ⟨hg.trans hs, fun p hp => ?_⟩
  obtain hp | hp := List.mem_append.1 hp
  · exact hs.value?_eq (hg.smoothFrom R.smoothFrom) (h.known p hp)
  · rwa [List.mem_singleton.1 hp]

theorem PreviewState.runAll (R : ∀ done, Rendition r (r.Outer done r.entries) o t b)
    (hr : r.Sourced sources o) (hsources : Resolved o t sources)
    (hsplit : sources = done ++ occurrences.filterMap Occurrence.source?)
    (h : PreviewState r done o t s) :
    PreviewState r sources o t (Occurrence.runAll r occurrences s) := by
  induction occurrences generalizing done s with
  | nil =>
    rw [List.filterMap_nil, List.append_nil] at hsplit
    exact hsplit ▸ h
  | cons occurrence rest ih =>
    cases occurrence with
    | resolve c v =>
      have hsplit' : sources = (done ++ [(c, v)]) ++ rest.filterMap Occurrence.source? := by
        simpa [Occurrence.source?] using hsplit
      exact ih hsplit' (h.resolve (R _) hr hsources (hsplit' ▸ List.sublist_append_left _ _))
    | flatten config observer => exact ih hsplit (h.preview (R _) config observer)
    | view =>
      have hview := h.preview (R _) .quiet FlattenConfig.quiet.observer
      rw [← Occurrence.after_view] at hview
      exact ih hsplit hview

theorem Run.smoothFrom {calls : List Call} (h : Run {} calls s)
    (hlasting : ∀ call ∈ calls, call.Lasting)
    (hf : ∀ c, ∀ q ∈ (s.cell c).queue, q.2.SolidDerivation) : SmoothFrom s s [] :=
  .refl (h.lasting .empty hlasting)
    ((h.steps (P := fun _ => True) .empty fun _ _ _ _ => trivial).numbered .empty .empty)
    (h.drained hlasting) hf

/-- Previews do not influence the final image, as long as no derivation fails hollowly. If the
sources are resolved and the region is then rendered completely, it is rendered completely and with
the same bytes, and all cells have the same values, if in between the region is also rendered for
inspection, at any time and as often as one likes. -/
theorem previews_keep_rendering {calls : List Call} {s s₁ t : Store} {r : Region}
    {sources : List (CellId × Datum)} {occurrences : List Occurrence} {config : FlattenConfig}
    {observer : Observer} {summary : FlattenSummary} {b : Bytes} (hbefore : Run {} calls s)
    (hlasting : ∀ call ∈ calls, call.Lasting) (hr : r.Sourced sources s)
    (hhollow : ∀ c, ∀ q ∈ (s.cell c).queue, q.2.HollowFree)
    (hresolve : sources.forM (fun p => Store.resolve p.1 p.2) s = .ok () s₁)
    (hstrict : config.enforceComplete = true)
    (hprint : r.print config observer s₁ = .ok (summary, b) t)
    (hcomplete : summary.isComplete = true)
    (hsame : occurrences.filterMap Occurrence.source? = sources) (config' : FlattenConfig)
    (observer' : Observer) :
    ∃ summary' t', r.print config' observer' (Occurrence.runAll r occurrences s) =
        .ok (summary', b) t' ∧ summary'.isComplete = true ∧
      ∀ c < s.cells.size, t'.value? c = t.value? c := by
  obtain ⟨i, s₂, hnew, hprint⟩ := bind_eq_ok.1 hprint
  cases hnew
  obtain ⟨_, _, hflatten, hprint⟩ := bind_eq_ok.1 hprint
  cases hprint
  have ho := hbefore.smoothFrom hlasting fun c q hq => ⟨hr.derivations c q hq, hhollow c q hq⟩
  -- The run without previews resolves the sources, lays the region out and applies all entries.
  obtain ⟨hresolved, hsources⟩ := ho.resolveAll_smoothSteps (E := r.fields)
    (S := fun c v => (c, v) ∈ sources) hr.exist (fun _ hp => hp) hresolve
  have hs₂ : RenderedFrom r (fun c v => (c, v) ∈ sources) s
    { s₁ with images := s₁.images.push {} } :=
    hresolved.trans (smoothSteps_newImage s₁)
  obtain ⟨l, s₃, u, hlayout, hcompleted, hvalues⟩ :=
    Region.flattenObserved_complete (hs₂.smoothFrom ho) hr (by simp) (size_newImage s₁) hstrict
      hflatten hcomplete
  have R := hcompleted.rendition ho hr hs₂ hsources.plain
  have hforeseen : Resolved s u sources :=
    { hsources with
      known := fun p hp => hcompleted.value?_eq (hs₂.smoothFrom ho) hr (hsources.known p hp) }
  -- It foresees all that is settled in the run with previews, which knows no less in the end.
  have hstart : PreviewState r [] s u s := ⟨.refl s, by simp⟩
  have hrun := hstart.runAll R hr hforeseen hsame.symm
  obtain ⟨summary', t', hflatten', hcomplete', hbytes, hvalues'⟩ :=
    (R sources).flattenObserved_again (by simp) (size_newImage s₁) hlayout hcompleted.applied
      (fun _ => rfl) (by simp) (size_newImage _) (hrun.renderedFrom.trans (smoothSteps_newImage _))
      (hs₂.mono fun c v hv => ⟨hr.exist _ hv, hrun.known (c, v) hv⟩) config' observer'
  refine ⟨summary', t', bind_eq_ok.2 ⟨_, _, newImage_run _, bind_eq_ok.2 ⟨_, _, hflatten', ?_⟩⟩,
    hcomplete', fun c hc => (hvalues' c hc).trans (hvalues c).symm⟩
  rw [← hbytes]
  rfl

end Previews

/-! A sum that is a field in the range of another sum, next to a source. A first look at the region
settles the marks and the inner sum, but not the outer one. -/

def previewChoice (v : Datum) : Except Error CellId :=
  if v = .int 7 then .ok 7 else .error (.valueOutOfRange v.display "7")

def previewCalls : List Call :=
  [.newCell (.int .i64) none false, .newCell .offset none false, .newCell .offset none false,
    .newCell .offset none false, .newCell (.int .u8) none true, .tryMap 4 (.int .i64) .ok,
    .newCell (.int .u8) none true, .subtract .i64 3 1, .tryBind 0 (.int .i64) previewChoice]

def previewStore : Store := previewCalls.foldl (fun s call => call.run.after s) {}

def previewRegion : Region :=
  let sum (bytes : Bytes) : Datum := .int (Digest.sum8 bytes).toNat
  ⟨[.deferred (.int .u8) 8 none, .mark 1, .deferred (.int .u8) 0 none,
    .deferred (.int .u8) 5 none, .mark 2, .nested [.direct [1, 2] {}, .mark 3,
      .postProcess ⟨2, 3, sum, 4⟩, .postProcess ⟨1, 3, sum, 6⟩]]⟩

theorem previewStore_run : Run {} previewCalls previewStore := by
  refine .cons trivial (.cons trivial (.cons trivial (.cons trivial (.cons trivial
    (.cons (show 4 < _ by decide +kernel) (.cons trivial
      (.cons ⟨show 3 < _ by decide +kernel, show 1 < _ by decide +kernel⟩
        (.cons ⟨show 0 < _ by decide +kernel, fun v inner h => ?_⟩ (.nil _)))))))))
  unfold previewChoice at h
  split at h <;> cases h
  decide +kernel

theorem previewStore_hollowFree : ∀ c, ∀ q ∈ (previewStore.cell c).queue, q.2.HollowFree := by
  intro c q hq
  have hother : ∀ c < 9, c ≠ 0 → c ≠ 3 → c ≠ 4 → (previewStore.cell c).queue.isEmpty = true := by
    decide +kernel
  have hsize : previewStore.cells.size = 9 := by decide +kernel
  have hc : c < 9 := hsize ▸ lt_size_of_queue previewStore c hq
  obtain rfl | h0 := eq_or_ne c 0
  · have hqueue : (previewStore.cell 0).queue = [(1, .follow 8 previewChoice)] := rfl
    obtain rfl := List.mem_singleton.1 (hqueue ▸ hq)
    intro v e he
    unfold previewChoice at he
    split at he <;> cases he
    rfl
  obtain rfl | h3 := eq_or_ne c 3
  · have hqueue : (previewStore.cell 3).queue = [(1, .minus 7 .i64 1)] := rfl
    obtain rfl := List.mem_singleton.1 (hqueue ▸ hq)
    trivial
  obtain rfl | h4 := eq_or_ne c 4
  · have hqueue : (previewStore.cell 4).queue = [(1, .derive 5 .ok)] := rfl
    obtain rfl := List.mem_singleton.1 (hqueue ▸ hq)
    intro v e he
    cases he
  · rw [List.isEmpty_iff.1 (hother c hc h0 h3 h4)] at hq
    cases hq

theorem previewRegion_sourced : previewRegion.Sourced [(0, .int 7)] previewStore where
  within := by
    have hsize : previewStore.cells.size = 9 := by decide +kernel
    simp [previewRegion, Region.Within, Segment.WithinAll, Segment.Within, Entry.Within, hsize]
  derivations := forall_queue_of_cells (by decide +kernel)
  exist := by decide +kernel
  marks := by decide +kernel
  results := by decide +kernel
  computed := by decide +kernel
  reflexive e he bs := by
    simp only [previewRegion, Region.entries, Segment.entriesAll, Segment.entries, List.nil_append,
      List.append_nil, List.cons_append, List.mem_cons, List.not_mem_nil, or_false] at he
    obtain rfl | rfl := he <;> simp [Datum.same]

theorem previews_keep_rendering_nested :
    ((Occurrence.view.run previewRegion).after previewStore).value? 4 = some (.int 3) ∧
      ((Occurrence.view.run previewRegion).after previewStore).value? 6 = none ∧
      ∃ summary t, previewRegion.print .strict .silent (Occurrence.runAll previewRegion
          [.view, .resolve 0 (.int 7), .flatten .diagnostic .tracing, .flatten .strict .silent]
          previewStore) = .ok (summary, [4, 7, 3, 1, 2]) t ∧
        summary.isComplete = true ∧ t.value? 6 = some (.int 13) := by
  refine ⟨by decide +kernel, by decide +kernel, ?_⟩
  let sources : List (CellId × Datum) := [(0, .int 7)]
  let base : Op (FlattenSummary × Bytes) := do
    sources.forM fun p => Store.resolve p.1 p.2
    previewRegion.print .strict .silent
  have hrun : (match base previewStore with
      | .ok (summary, b) t => decide (b = [4, 7, 3, 1, 2] ∧ summary.isComplete = true ∧
          t.value? 6 = some (.int 13))
      | .error .. => false) = true := by decide +kernel
  cases hbase : base previewStore with
  | error e t => simp [hbase] at hrun
  | ok result t =>
    obtain ⟨summary, b⟩ := result
    simp only [hbase, decide_eq_true_eq] at hrun
    obtain ⟨rfl, hcomplete, hvalue⟩ := hrun
    obtain ⟨_, s₁, hresolve, hprint⟩ := bind_eq_ok.1 hbase
    have hsame : ([.view, .resolve 0 (.int 7), .flatten .diagnostic .tracing,
        .flatten .strict .silent] : List Occurrence).filterMap Occurrence.source? = sources := rfl
    obtain ⟨summary', t', hprint', hcomplete', hvalues⟩ := previews_keep_rendering
      previewStore_run (by simp [previewCalls, Call.Lasting]) previewRegion_sourced
      previewStore_hollowFree hresolve (show FlattenConfig.strict.enforceComplete = true from rfl)
      hprint hcomplete hsame .strict .silent
    exact ⟨summary', t', hprint', hcomplete', (hvalues 6 (by decide +kernel)).trans hvalue⟩

/-! The lengths of two ranges are subtracted, and a function of the difference fails with an
aggregate of nothing, four times nested. The failure is unpacked by one level for each dispatch it
comes through, and these are fewer if a first look at the region has settled the subtrahend. -/

def hollowNest : Error := .aggregate [.aggregate [.aggregate [.aggregate []]]]

def lengthCalls : List Call :=
  [.newCell (.int .i64) none false, .newCell .offset none false, .newCell .offset none false,
    .newCell .offset none false, .newCell (.int .usize) none true,
    .newCell (.int .usize) none true, .subtract .usize 4 5,
    .tryMap 6 (.int .i64) fun _ => .error hollowNest]

def lengthStore : Store := lengthCalls.foldl (fun s call => call.run.after s) {}

def lengthRegion : Region :=
  let length (bytes : Bytes) : Datum := .int bytes.length
  ⟨[.mark 1, .deferred (.int .u8) 0 none, .mark 2, .postProcess ⟨1, 2, length, 4⟩,
    .direct [1] {}, .mark 3, .postProcess ⟨2, 3, length, 5⟩]⟩

theorem lengthStore_run : Run {} lengthCalls lengthStore :=
  .cons trivial (.cons trivial (.cons trivial (.cons trivial (.cons trivial (.cons trivial
    (.cons ⟨show 4 < _ by decide +kernel, show 5 < _ by decide +kernel⟩
      (.cons (show 6 < _ by decide +kernel) (.nil _))))))))

theorem lengthRegion_sourced : lengthRegion.Sourced [(0, .int 7)] lengthStore where
  within := by
    have hsize : lengthStore.cells.size = 8 := by decide +kernel
    simp [lengthRegion, Region.Within, Segment.WithinAll, Segment.Within, Entry.Within, hsize]
  derivations := forall_queue_of_cells (by decide +kernel)
  exist := by decide +kernel
  marks := by decide +kernel
  results := by decide +kernel
  computed := by decide +kernel
  reflexive e he bs := by
    simp only [lengthRegion, Region.entries, Segment.entriesAll, Segment.entries, List.nil_append,
      List.append_nil, List.cons_append, List.mem_cons, List.not_mem_nil, or_false] at he
    obtain rfl | rfl := he <;> simp [Datum.same]

/-- A hollow failure is lost in the complete rendering, and comes up after a preview. -/
theorem hollow_failure_shown_by_preview :
    Run {} lengthCalls lengthStore ∧ (∀ call ∈ lengthCalls, call.Lasting) ∧
    lengthRegion.Sourced [(0, .int 7)] lengthStore ∧
    (∃ s summary t, Store.resolve 0 (.int 7) lengthStore = .ok () s ∧
      lengthRegion.print .strict .silent s = .ok (summary, [7, 1]) t ∧
      summary.isComplete = true) ∧
    ∃ e t, lengthRegion.print .strict .silent (Occurrence.runAll lengthRegion
      [.view, .resolve 0 (.int 7)] lengthStore) = .error e t ∧ e.isHollow = true := by
  refine ⟨lengthStore_run, by simp [lengthCalls, Call.Lasting], lengthRegion_sourced, ?_, ?_⟩
  · let base : Op (FlattenSummary × Bytes) := do
      Store.resolve 0 (.int 7)
      lengthRegion.print .strict .silent
    have hrun : (base.run' lengthStore).map (fun p => (p.1.isComplete, p.2)) =
        some (true, [7, 1]) := by decide +kernel
    obtain ⟨⟨summary, _⟩, t, hbase, hresult⟩ := exists_ok_of_run' hrun
    obtain ⟨hcomplete, rfl⟩ := Prod.mk.inj hresult
    obtain ⟨_, s, hresolve, hprint⟩ := bind_eq_ok.1 hbase
    exact ⟨s, summary, t, hresolve, hprint, hcomplete⟩
  · exact exists_error_of_failures (f := Error.isHollow) (by decide +kernel)

end Backpatch
