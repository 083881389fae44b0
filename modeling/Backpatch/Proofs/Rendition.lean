import Mathlib
import Backpatch.Proofs.Rendering

/-!
# Complete renderings

A region was rendered completely in some run: that run foresees the values of all cells of the
region (`Rendition`). Rendering the region in the course of another run, as far as it is known
there, then settles cells as foreseen and nothing else (`Rendition.flattenObserved_smoothSteps`). In
a store that knows at least what the complete rendering began with, all entries can be applied
again, in the same order, and the bytes are the same (`Rendition.flattenObserved_again`).
-/

namespace Backpatch

open Store Failable

theorem Image.slice_size (i : Image) : i.slice 0 i.size = i.bytes := by
  rw [Image.slice, List.drop_zero, ← Image.length_bytes, List.take_length]

/-! ## Applied entries -/

namespace Layout

/-- The entry is applied: its bounds are known, no pending field is in its range, and its result can
be the digest of that range. -/
def Applied (l : Layout) (e : Entry) (s t : Store) : Prop :=
  ∃ start stop, bounds e s = (some start, some stop) ∧
    (∀ p ∈ l.pending s, p.overlaps start stop = false) ∧ l.applyEntry e start stop s = .ok () t

def AppliedAll (l : Layout) : List Entry → Store → Store → Prop
  | [], s, t => t = s
  | e :: rest, s, t => ∃ u, l.Applied e s u ∧ l.AppliedAll rest u t

variable {o s t u : Store} {l : Layout} {e : Entry} {entries : List Entry} {enforce : Bool}
  {index : Nat} {tally tally' : Tally}

theorem runEntry_of_applied (enforce : Bool) (index : Nat) (tally : Tally)
    (h : l.Applied e s t) : l.runEntry enforce index e tally s =
      .ok { tally with applied := tally.applied + 1 } t := by
  obtain ⟨start, stop, hb, hclear, happly⟩ := h
  have hfree : ¬ (l.pending s).any (·.overlaps start stop) = true := by simpa using hclear
  rw [runEntry_run]
  simp only [hb, if_neg hfree, happly]

theorem runEntries_of_appliedAll (enforce : Bool) (index : Nat) (tally : Tally)
    (h : l.AppliedAll entries s t) :
    l.runEntries enforce index entries tally s =
      .ok { tally with applied := tally.applied + entries.length } t := by
  induction entries generalizing index tally s with
  | nil =>
    obtain rfl := h
    rfl
  | cons e rest ih =>
    obtain ⟨u, hu, h⟩ := h
    rw [runEntries, bind_run, runEntry_of_applied enforce index tally hu]
    simp only [ih _ _ h, List.length_cons]
    congr 2
    omega

/-- What an applied entry settles. -/
theorem Applied.smoothSteps {S : CellId → Datum → Prop} (ha : l.Applied e s t)
    (h : SmoothFrom o s []) (hc : e.result < o.cells.size) (hd : o.drivers [] e.result = 0)
    (hS : ∀ v, s.value? e.result = none → t.value? e.result = some v → S e.result v) :
    SmoothSteps o (Move.Runs S) s t := by
  obtain ⟨start, stop, -, -, happly⟩ := ha
  obtain ⟨-, -, hsettle⟩ := applyEntry_eq_ok happly
  refine h.settleOrConfirm_smoothSteps hc hd (fun hv => ?_) hsettle
  obtain ⟨-, -, ht⟩ | ⟨x, hx, -⟩ :=
    settleOrConfirm_cases h.toLasting (hc.trans_le h.grows.cells) hsettle
  · exact hS _ hv ht
  · simp [hx] at hv

theorem AppliedAll.smoothSteps (ha : l.AppliedAll entries s t) (h : SmoothFrom o s [])
    (hw : ∀ e ∈ entries, e.result < o.cells.size ∧ o.drivers [] e.result = 0) :
    SmoothSteps o (Move.Runs fun c _ => ∃ e ∈ entries, e.result = c) s t := by
  induction entries generalizing s with
  | nil =>
    obtain rfl := ha
    exact .refl t
  | cons e rest ih =>
    obtain ⟨u, hu, ha⟩ := ha
    obtain ⟨hc, hd⟩ := hw e (.head rest)
    have hsu : SmoothSteps o (Move.Runs fun c _ => ∃ e' ∈ e :: rest, e'.result = c) s u :=
      hu.smoothSteps h hc hd fun _ _ _ => ⟨e, .head rest, rfl⟩
    refine hsu.trans
      ((ih ha (hsu.smoothFrom h) fun e' he' => hw e' (.tail e he')).mono fun m hm => ?_)
    cases m with
    | journal => trivial
    | settle c v =>
      obtain ⟨e', he', hc'⟩ := hm
      exact ⟨e', .tail e he', hc'⟩
    | _ => exact hm.elim

/-- Settling a cell does not fail without saying why. -/
theorem parts_of_settleOrConfirm {c : CellId} {v : Datum} {x : Error} (h : SmoothFrom o s [])
    (hc : c < s.cells.size) (hrun : settleOrConfirm c v s = .error x t) : x.parts ≠ [] := by
  rw [settleOrConfirm, bind_run, get_run] at hrun
  by_cases hholds : (s.cell c).holds v = true
  · simp only [hholds, if_true] at hrun
    cases hrun
  · have hsettle : Store.settle c v s = .error x t := by simpa [hholds] using hrun
    cases hv : s.value? c with
    | some y =>
      have hfails : Store.settle c v s = .error (.alreadyResolved y.display v.display) s := by
        simp [Store.settle, settleWithin, hv]
      cases hsettle.symm.trans hfails
      simp [Error.parts]
    | none =>
      have hreveals := settle_reveals o (h.derivations_fire (v := v) hc) h.load hv
      rw [hsettle] at hreveals
      obtain ⟨y, hy, -⟩ := Error.solid_part hreveals.1
      exact List.ne_nil_of_mem hy

/-- A strict turn that neither fails nor passes the entry over applies it. -/
theorem applied_of_runEntry (h : SmoothFrom o s []) (hc : e.result < s.cells.size)
    (hrun : l.runEntry true index e tally s = .ok tally' t)
    (herrors : ∀ x ∈ tally'.errors, x.parts = []) (hskipped : tally'.skipped = tally.skipped) :
    l.Applied e s t := by
  rw [runEntry_run] at hrun
  split at hrun
  next start stop hb =>
    split_ifs at hrun with hcovered
    · cases hrun
      simp at hskipped
    · have hclear : ∀ p ∈ l.pending s, p.overlaps start stop = false := by simpa using hcovered
      cases happly : l.applyEntry e start stop s with
      | ok _ u =>
        simp only [happly] at hrun
        cases hrun
        exact ⟨start, stop, hb, hclear, happly⟩
      | error x u =>
        simp only [happly] at hrun
        cases hrun
        have hparts := herrors x (List.mem_append_right _ (.head _))
        rw [applyEntry, bind_run, get_run] at happly
        cases hread : (s.image l.image).read start stop with
        | error y =>
          simp only [hread, bind_run, ofExcept_error_run] at happly
          cases happly
          exact absurd hparts (Image.parts_of_read_eq_error hread)
        | ok bytes =>
          simp only [hread, bind_run, ofExcept_ok_run] at happly
          exact absurd hparts (parts_of_settleOrConfirm h hc happly)
  next =>
    rw [if_pos rfl] at hrun
    cases hrun
    simp at hskipped

/-- If no entry fails or is passed over, all are applied. -/
theorem appliedAll_of_runEntries (h : SmoothFrom o s [])
    (hw : ∀ e ∈ entries, e.result < o.cells.size ∧ o.drivers [] e.result = 0)
    (hrun : l.runEntries true index entries tally s = .ok tally' t)
    (herrors : ∀ x ∈ tally'.errors, x.parts = []) (hskipped : tally'.skipped = tally.skipped) :
    l.AppliedAll entries s t := by
  induction entries generalizing index tally s with
  | nil =>
    cases hrun
    rfl
  | cons e rest ih =>
    obtain ⟨mid, u, hturn, hrest⟩ := bind_eq_ok.1 hrun
    obtain ⟨hc, hd⟩ := hw e (.head rest)
    obtain ⟨hmid, hcount⟩ := runEntries_skipped hrest herrors
    obtain ⟨-, hcase⟩ := runEntry_strict hturn hmid
    have heq : mid.skipped = tally.skipped := by
      obtain ⟨-, heq⟩ | ⟨-, heq, -⟩ := hcase <;> omega
    have hu := applied_of_runEntry h (hc.trans_le h.grows.cells) hturn hmid heq
    have hsu : SmoothSteps o (Move.Runs fun _ _ => True) s u :=
      hu.smoothSteps h hc hd fun _ _ _ => trivial
    exact ⟨u, hu, ih (hsu.smoothFrom h) (fun e' he' => hw e' (.tail e he')) hrest
      (hskipped.trans heq.symm)⟩

/-- Where nothing is pending and no entry failed, closing a layout succeeds. -/
theorem close_complete (l : Layout) (config : FlattenConfig) (observer : Observer) (tally : Tally)
    (herrors : tally.errors = []) (hpending : l.pending s = []) :
    ∃ u, l.close config observer tally s = .ok (l.summary tally s) u ∧ u.images = s.images ∧
      ∀ c, u.value? c = s.value? c := by
  obtain ⟨log, trace, reports, hclose⟩ := close_run (s := s) l config observer tally
  have hnone : l.complaints config tally s = [] := by
    simp [complaints, herrors, pendingFields, hpending]
  refine ⟨{ s.released (l.placeholders s).toList with log, trace, reports }, ?_,
    images_released .., fun c => value?_released s _ c⟩
  rw [hclose, hnone]
  rfl

end Layout

/-- Rendering a region is complete if all entries are applied and no field is pending then. -/
theorem Region.flattenObserved_of_appliedAll {r : Region} {l : Layout} {i : ImageId}
    {observer : Observer} {s s₁ u : Store} (config : FlattenConfig)
    (hlayout : r.layoutObserved i observer s = .ok l s₁) (hentries : l.entries = r.entries)
    (ha : l.AppliedAll r.entries s₁ u) (hpending : l.pending u = []) :
    ∃ summary t, r.flattenObserved i config observer s = .ok summary t ∧
      summary.isComplete = true ∧ t.images = u.images ∧ ∀ c, t.value? c = u.value? c := by
  have hrun := Layout.runEntries_of_appliedAll config.enforceComplete 0 {} ha
  rw [← hentries] at hrun
  obtain ⟨w, hclose, himages, hvalues⟩ := l.close_complete config observer
    { applied := 0 + l.entries.length } rfl hpending
  refine ⟨_, _, bind_eq_ok.2 ⟨l, s₁, hlayout, bind_eq_ok.2 ⟨_, w, bind_eq_ok.2 ⟨_, u, hrun,
    hclose⟩, bind_eq_ok.2 ⟨(), _, rfl, rfl⟩⟩⟩, ?_, himages, hvalues⟩
  simp [FlattenSummary.isComplete, Layout.summary, Layout.pendingFields, hpending]

/-! ## Foreseen values -/

/-- The formats and cells of the fields of a region. -/
def Region.fields (r : Region) (format : FixedFormat) (c : CellId) : Prop :=
  ∃ x ∈ r.slots 0, x.format = format ∧ x.cell = c

/-- The result of the entry in `t`, where the region has the bytes `b`: it is the digest of its
range, or was known before any entry was applied and is equal to the digest. -/
structure Entry.Known (e : Entry) (r : Region) (o t : Store) (b : Bytes) (start stop : Nat)
    (v : Datum) : Prop where
  bounds : Layout.bounds e t = (some start, some stop)
  ordered : start ≤ stop
  inside : stop ≤ b.length
  value : t.value? e.result = some v
  same : v.same (e.digest ((b.drop start).take (stop - start))) = true
  settled : v = e.digest ((b.drop start).take (stop - start)) ∨
    (∃ x, o.value? e.result = some x) ∨ ∃ m ∈ r.marks 0, m.1 = e.result

/-- The region was rendered completely, with the bytes `b`, in a run that began in `o` and ended in
`t`. The cells `A` are those that may be settled from outside. -/
structure Rendition (r : Region) (A : CellId → Prop) (o t : Store) (b : Bytes) : Prop where
  smoothFrom : SmoothFrom o o []
  agrees : ∀ c, ∀ q ∈ (o.cell c).queue, q.2.Agrees o t.value? c
  values : ∀ c v, o.value? c = some v → t.value? c = some v
  within : r.Within o.cells.size
  content : Segment.contentAll t r.segments = some b
  marks : ∀ m ∈ r.marks 0, A m.1 ∧ o.drivers [] m.1 = 0 ∧ t.value? m.1 = some (.int m.2)
  entries : ∀ e ∈ r.entries, A e.result ∧ o.drivers [] e.result = 0 ∧
    ∃ start stop v, e.Known r o t b start stop v

/-- The cell is one of `A`, and in the end of the run it has the value. -/
def Foreseen (A : CellId → Prop) (o t : Store) (c : CellId) (v : Datum) : Prop :=
  c < o.cells.size ∧ A c ∧ t.value? c = some v

/-- The store is reached from `o` by rendering `r` and settling cells as `S` says. -/
def RenderedFrom (r : Region) (S : CellId → Datum → Prop) (o s : Store) : Prop :=
  SmoothSteps o (Move.Renders r.fields S) o s

namespace Rendition

variable {r : Region} {A : CellId → Prop} {o t s : Store} {b : Bytes} {l : Layout} {e : Entry}
  {enforce : Bool} {index : Nat} {i : ImageId}

theorem encodes (R : Rendition r A o t b) {format : FixedFormat} {c : CellId} {v : Datum}
    (hf : r.fields format c) (hv : t.value? c = some v) : ∃ bs, format.encode v = .ok bs := by
  obtain ⟨x, hx, rfl, rfl⟩ := hf
  obtain ⟨w, bs, hw, hbs⟩ := Segment.slotsAll_contentAll R.content 0 x hx
  obtain rfl := Option.some.inj (hv.symm.trans hw)
  exact ⟨bs, hbs⟩

theorem fields_lt (R : Rendition r A o t b) {format : FixedFormat} {c : CellId}
    (hf : r.fields format c) : c < o.cells.size := by
  obtain ⟨x, hx, -, rfl⟩ := hf
  exact Segment.WithinAll.slots R.within 0 x hx

theorem model (R : Rendition r A o t b) : Model o r.fields (Foreseen A o t) t.value? where
  smoothFrom := R.smoothFrom
  agrees := R.agrees
  values := R.values
  settles _ _ h := ⟨h.1, h.2.2⟩
  encodes _ _ hf := ⟨R.fields_lt hf, fun _ => R.encodes hf⟩

theorem slotted (r : Region) : Slotted r.fields (r.slots 0) := fun x hx => ⟨x, hx, rfl, rfl⟩

theorem marked (R : Rendition r A o t b) : Marked o (Foreseen A o t) (r.marks 0) := by
  intro m hm
  obtain ⟨hA, hd, hv⟩ := R.marks m hm
  have hc := Segment.WithinAll.marks R.within 0 m hm
  exact ⟨hc, hd, hc, hA, hv⟩

theorem entry_within (R : Rendition r A o t b) (he : e ∈ r.entries) : e.Within o.cells.size :=
  Segment.WithinAll.entries R.within e he

/-! ## Entries in another run -/

/-- An entry whose range is known takes the digest of that range, which is the foreseen one. -/
theorem applyEntry_smoothSteps (R : Rendition r A o t b) (hg : RenderedFrom r (Foreseen A o t) o s)
    (hd : l.Drawn r s) (he : e ∈ r.entries) {start stop : Nat}
    (hb : Layout.bounds e s = (some start, some stop))
    (hclear : ∀ p ∈ l.pending s, p.overlaps start stop = false) :
    ∃ u, l.applyEntry e start stop s = .ok () u ∧
      SmoothSteps o (Move.Runs (Foreseen A o t)) s u := by
  obtain ⟨hA, hfree, start', stop', v, hknown⟩ := R.entries e he
  have hle : ∀ c v, c < o.cells.size → s.value? c = some v → t.value? c = some v :=
    fun c v hc => R.model.le hg hc
  have hw := R.entry_within he
  have heq := hknown.bounds.symm.trans (Layout.bounds_eq_some hw hb hle)
  simp only [Prod.mk.injEq, Option.some.injEq] at heq
  obtain ⟨rfl, rfl⟩ := heq
  have hslice := hd.agree R.within hle R.content hknown.inside hclear
  have hsize := hd.size R.content
  have hread : (s.image l.image).read start' stop' =
      .ok ((b.drop start').take (stop' - start')) := by
    have hord := hknown.ordered
    have hin := hknown.inside
    rw [← hslice, Image.read, if_neg (by omega), Image.checkRange, if_pos (by omega)]
    rw [Image.slice, Image.bytes, ← List.extract_eq_take_drop, ← Array.toList_extract]
    rfl
  have happly : l.applyEntry e start' stop' s =
      settleOrConfirm e.result (e.digest ((b.drop start').take (stop' - start'))) s := by
    simp [Layout.applyEntry, hread]
  -- A result that is still pending was settled by the entry.
  have hforeseen : s.value? e.result = none →
      Foreseen A o t e.result (e.digest ((b.drop start').take (stop' - start'))) := by
    refine fun hv => ⟨hw.2.2, hA, ?_⟩
    obtain rfl | ⟨x, hx⟩ | ⟨m, hm, hresult⟩ := hknown.settled
    · exact hknown.value
    · simp [(hg.smoothFrom R.smoothFrom).lasts _ x hx] at hv
    · simp [← hresult, hd.stands.marks m hm] at hv
  obtain ⟨u, hu⟩ := R.model.settleOrConfirm_isOk hg hw.2.2 hfree hforeseen fun x hx => by
    obtain rfl := Option.some.inj (hx.symm.trans hknown.value)
    exact hknown.same
  exact ⟨u, happly.trans hu, (hg.smoothFrom R.smoothFrom).settleOrConfirm_smoothSteps hw.2.2 hfree
    hforeseen hu⟩

theorem runEntry_smoothSteps (R : Rendition r A o t b) (hg : RenderedFrom r (Foreseen A o t) o s)
    (hd : l.Drawn r s) (he : e ∈ r.entries) (tally : Tally) :
    SmoothSteps o (Move.Runs (Foreseen A o t)) s ((l.runEntry enforce index e tally).after s) := by
  have note : ∀ event, SmoothSteps o (Move.Runs (Foreseen A o t)) s ((emit event).after s) :=
    fun event => smoothSteps_journal s s.log _ s.reports
  unfold after
  rw [Layout.runEntry_run]
  rcases hb : Layout.bounds e s with ⟨_ | start, _ | stop⟩
  case some.some =>
    dsimp only
    by_cases hcovered : (l.pending s).any (·.overlaps start stop) = true
    · rw [if_pos hcovered]
      exact note _
    · rw [if_neg hcovered]
      obtain ⟨u, hu, hsu⟩ := R.applyEntry_smoothSteps hg hd he hb (by simpa using hcovered)
      simp only [hu]
      exact hsu
  all_goals
    cases enforce
    · exact note _
    · exact .refl s

theorem runEntries_smoothSteps (R : Rendition r A o t b) {entries : List Entry}
    {tally tally' : Tally} {u : Store} (hg : RenderedFrom r (Foreseen A o t) o s) (hd : l.Drawn r s)
    (he : ∀ e ∈ entries, e ∈ r.entries)
    (hrun : l.runEntries enforce index entries tally s = .ok tally' u) :
    SmoothSteps o (Move.Runs (Foreseen A o t)) s u := by
  induction entries generalizing index tally s with
  | nil =>
    cases hrun
    exact .refl u
  | cons e rest ih =>
    obtain ⟨mid, v, hturn, hrest⟩ := bind_eq_ok.1 hrun
    have hsv : SmoothSteps o (Move.Runs (Foreseen A o t)) s v :=
      after_of_ok hturn ▸ R.runEntry_smoothSteps hg hd (he e (.head rest)) tally
    exact hsv.trans (ih (hg.trans hsv.runs.lays) (hd.smoothSteps hsv (hg.smoothFrom R.smoothFrom))
      (fun e' he' => he e' (.tail e he')) hrest)

/-! ## Rendering in another run -/

/-- Laying the region out in an empty image succeeds. -/
theorem layoutObserved_drawn (R : Rendition r A o t b) (observer : Observer)
    (hg : RenderedFrom r (Foreseen A o t) o s) (hi : i < s.images.size)
    (hsize : (s.image i).size = 0) :
    ∃ l u, r.layoutObserved i observer s = .ok l u ∧ o.placeholders.size ≤ l.first ∧
      l.image = i ∧ l.Drawn r u ∧ SmoothSteps o (Move.Lays r.fields (Foreseen A o t)) s u := by
  have hfrom := hg.smoothFrom R.smoothFrom
  have hw : r.Within s.cells.size := R.within.mono hfrom.grows.cells
  have hE : Slotted r.fields (r.slots (s.image i).size) := hsize ▸ slotted r
  have hM : Marked o (Foreseen A o t) (r.marks (s.image i).size) := hsize ▸ R.marked
  obtain ⟨l, u, hrun⟩ := R.model.layoutObserved_isOk observer hg hi hw hE hM
  have hdrawn := Region.layoutObserved_drawn hfrom hi hw hsize (slotted r) R.marked hrun
  have hsu := Region.layoutObserved_smoothSteps hfrom hi hw hE hM hrun
  obtain ⟨-, rfl⟩ := Region.layoutObserved_eq_ok hrun
  exact ⟨_, u, hrun, hfrom.grows.placeholders, rfl, hdrawn, hsu⟩

/-- Rendering the region, as far as it is known, settles cells as foreseen. -/
theorem flattenObserved_smoothSteps (R : Rendition r A o t b) (config : FlattenConfig)
    (observer : Observer) (hg : RenderedFrom r (Foreseen A o t) o s) (hi : i < s.images.size)
    (hsize : (s.image i).size = 0) :
    SmoothSteps o (Move.Renders r.fields (Foreseen A o t)) s
      ((r.flattenObserved i config observer).after s) := by
  obtain ⟨l, u, hlayout, hfirst, -, hdrawn, hsu⟩ := R.layoutObserved_drawn observer hg hi hsize
  have hu : RenderedFrom r (Foreseen A o t) o u := hg.trans hsu.lays
  obtain ⟨tally, v, hrun⟩ := l.runEntries_isOk config.enforceComplete 0 l.entries {} u
  have huv := R.runEntries_smoothSteps hu hdrawn (fun e he => hdrawn.entries ▸ he) hrun
  have hv : RenderedFrom r (Foreseen A o t) o v := hu.trans huv.runs.lays
  obtain ⟨log, trace, reports, hclose⟩ := l.after_close (s := v) config observer tally
  have hfinal : SmoothSteps o (Move.Renders r.fields (Foreseen A o t)) u
      ((l.finalizeObserved config observer).after u) := by
    have hafter : (l.finalizeObserved config observer).after u =
        (l.close config observer tally).after v := by
      rw [Layout.finalizeObserved, after_bind, hrun]
    rw [hafter, hclose]
    exact huv.runs.lays.trans
      (l.smoothSteps_closed (hv.smoothFrom R.smoothFrom) hfirst log trace reports)
  simp only [Region.flattenObserved, after_bind, hlayout]
  refine hsu.lays.trans ?_
  cases hfinalize : l.finalizeObserved config observer u with
  | error e w => exact after_of_error hfinalize ▸ hfinal
  | ok summary w =>
    rw [after_of_ok hfinalize] at hfinal
    exact hfinal.trans (smoothSteps_journal w w.log _ w.reports).runs.lays

/-! ## The complete rendering again -/

/-- What a run that knows less of the outside has settled is known in another run, too. -/
theorem le (R : Rendition r A o t b) {s' : Store} (hg' : RenderedFrom r (Foreseen A o t) o s')
    (hg : RenderedFrom r (fun c v => c < o.cells.size ∧ s'.value? c = some v) o s) {c : CellId}
    {v : Datum} (hc : c < o.cells.size) (hv : s.value? c = some v) : s'.value? c = some v := by
  have hmodel := SmoothSteps.model hg' R.smoothFrom fun format c hf =>
    ⟨R.fields_lt hf, fun x hx => R.encodes hf (R.model.le hg' (R.fields_lt hf) hx)⟩
  exact hmodel.le hg hc hv

/-- Where more is known, no fewer fields are patched. -/
theorem clear (R : Rendition r A o t b) {l' : Layout} {s' : Store} {start stop : Nat}
    (hle : ∀ c v, c < o.cells.size → s.value? c = some v → s'.value? c = some v)
    (hd : l.Drawn r s) (hd' : l'.Drawn r s') (hs' : Drained s')
    (hclear : ∀ p ∈ l.pending s, p.overlaps start stop = false) :
    ∀ p ∈ l'.pending s', p.overlaps start stop = false := by
  intro p hp
  obtain ⟨hslot, hv⟩ := hd'.pending hs' hp
  have hc : p.cell < o.cells.size := Segment.WithinAll.slots R.within 0 _ hslot
  have hnone : s.value? p.cell = none := by
    cases hs : s.value? p.cell with
    | none => rfl
    | some v => simp [hle _ v hc hs] at hv
  obtain ⟨q, hq, ho, hformat⟩ := hd.pending_of_slot hslot hnone
  have hfree := hclear q hq
  rw [Placeholder.overlaps, Placeholder.width, ho, hformat] at hfree
  exact hfree

/-- An entry that was applied in the complete rendering is applied again, with the same result. -/
theorem applied (R : Rendition r A o t b) {l' : Layout} {s' u : Store} (he : e ∈ r.entries)
    (hg' : RenderedFrom r (Foreseen A o t) o s')
    (hg : RenderedFrom r (fun c v => c < o.cells.size ∧ s'.value? c = some v) o s)
    (hd : l.Drawn r s) (hd' : l'.Drawn r s') (ha : l.Applied e s u)
    (hu : ∀ v, u.value? e.result = some v → t.value? e.result = some v) :
    ∃ u', l'.Applied e s' u' ∧ SmoothSteps o (Move.Runs (Foreseen A o t)) s' u' ∧
      SmoothSteps o (Move.Runs fun c v => c < o.cells.size ∧ u'.value? c = some v) s u := by
  obtain ⟨start, stop, hb, hclear, -⟩ := id ha
  have hw := R.entry_within he
  have hfrom' := hg'.smoothFrom R.smoothFrom
  have hle : ∀ c v, c < o.cells.size → s.value? c = some v → s'.value? c = some v :=
    fun c v hc => R.le hg' hg hc
  have hb' := Layout.bounds_eq_some hw hb hle
  have hclear' := R.clear hle hd hd' hfrom'.drained hclear
  obtain ⟨u', happly, hsu'⟩ := R.applyEntry_smoothSteps hg' hd' he hb' hclear'
  refine ⟨u', ⟨start, stop, hb', hclear', happly⟩, hsu', ?_⟩
  refine ha.smoothSteps (hg.smoothFrom R.smoothFrom) hw.2.2 (R.entries e he).2.1 fun v _ hv =>
    ⟨hw.2.2, ?_⟩
  obtain ⟨-, -, hsettle⟩ := Layout.applyEntry_eq_ok happly
  obtain ⟨x, hx⟩ := settleOrConfirm_resolves
    (e.digest ((s'.image l'.image).slice start (stop - start))) hfrom'.toLasting
    (hw.2.2.trans_le hfrom'.grows.cells)
  rw [after_of_ok hsettle] at hx
  have hforeseen := R.model.le (hg'.trans hsu'.runs.lays) hw.2.2 hx
  rw [hx, ← hforeseen, hu v hv]

/-- All entries that were applied in the complete rendering are applied again, in a store that knows
at least as much. -/
theorem appliedAll (R : Rendition r A o t b) {l' : Layout} {s' u : Store} {entries : List Entry}
    (he : ∀ e ∈ entries, e ∈ r.entries) (hg' : RenderedFrom r (Foreseen A o t) o s')
    (hg : RenderedFrom r (fun c v => c < o.cells.size ∧ s'.value? c = some v) o s)
    (hd : l.Drawn r s) (hd' : l'.Drawn r s') (ha : l.AppliedAll entries s u)
    (hu : ∀ c v, u.value? c = some v → t.value? c = some v) :
    ∃ u', l'.AppliedAll entries s' u' ∧ l'.Drawn r u' ∧ RenderedFrom r (Foreseen A o t) o u' ∧
      RenderedFrom r (fun c v => c < o.cells.size ∧ u'.value? c = some v) o u := by
  induction entries generalizing s s' with
  | nil =>
    obtain rfl := ha
    exact ⟨s', rfl, hd', hg', hg⟩
  | cons e rest ih =>
    obtain ⟨mid, hmid, ha⟩ := ha
    have hmem := he e (.head rest)
    have hfrom := hg.smoothFrom R.smoothFrom
    have hrest : ∀ e' ∈ rest, e'.result < o.cells.size ∧ o.drivers [] e'.result = 0 := by
      intro e' he'
      have hmem' := he e' (.tail e he')
      exact ⟨(R.entry_within hmem').2.2, (R.entries e' hmem').2.1⟩
    have hsm : SmoothSteps o (Move.Runs fun _ _ => True) s mid :=
      hmid.smoothSteps hfrom (R.entry_within hmem).2.2 (R.entries e hmem).2.1 fun _ _ _ => trivial
    have hmu := ha.smoothSteps (hsm.smoothFrom hfrom) hrest
    obtain ⟨mid', hmid', hsm', hsm⟩ := R.applied hmem hg' hg hd hd' hmid fun v hv =>
      hu _ v (hmu.value?_eq (hsm.smoothFrom hfrom) hv)
    have hfrom' := hg'.smoothFrom R.smoothFrom
    have hg₁ : RenderedFrom r (fun c v => c < o.cells.size ∧ mid'.value? c = some v) o s :=
      hg.mono fun m => Move.Renders.mono fun c v hv => ⟨hv.1, hsm'.value?_eq hfrom' hv.2⟩
    obtain ⟨u', ha', hrest'⟩ := ih (fun e' he' => he e' (.tail e he')) (hg'.trans hsm'.runs.lays)
      (hg₁.trans hsm.runs.lays) (hd.smoothSteps hsm hfrom) (hd'.smoothSteps hsm' hfrom') ha
    exact ⟨u', ⟨mid', hmid', ha'⟩, hrest'⟩

theorem slots_known (R : Rendition r A o t b) {x : Slot} (hx : x ∈ r.slots 0) :
    ∃ v, t.value? x.cell = some v := by
  obtain ⟨v, -, hv, -⟩ := Segment.slotsAll_contentAll R.content 0 x hx
  exact ⟨v, hv⟩

/-- The bytes of a layout without pending fields. -/
theorem bytes_eq (R : Rendition r A o t b) (hg : RenderedFrom r (Foreseen A o t) o s)
    (hd : l.Drawn r s) (hpending : l.pending s = []) : (s.image l.image).bytes = b := by
  have hslice : (s.image l.image).slice 0 (b.length - 0) = (b.drop 0).take (b.length - 0) :=
    hd.agree R.within (fun c v hc => R.model.le hg hc) R.content le_rfl (by simp [hpending])
  rwa [Nat.sub_zero, List.drop_zero, List.take_length, ← hd.size R.content, Image.slice_size]
    at hslice

/-- In a store that knows at least what the complete rendering began with, the region is rendered
completely, with the same bytes and the same values. -/
theorem flattenObserved_again (R : Rendition r A o t b) {i' : ImageId} {s' s₁ u : Store}
    {observer : Observer} (hi : i < s.images.size) (hsize : (s.image i).size = 0)
    (hlayout : r.layoutObserved i observer s = .ok l s₁) (ha : l.AppliedAll r.entries s₁ u)
    (hu : ∀ c, t.value? c = u.value? c) (hi' : i' < s'.images.size)
    (hsize' : (s'.image i').size = 0) (hg' : RenderedFrom r (Foreseen A o t) o s')
    (hg : RenderedFrom r (fun c v => c < o.cells.size ∧ s'.value? c = some v) o s)
    (config : FlattenConfig) (observer' : Observer) :
    ∃ summary t', r.flattenObserved i' config observer' s' = .ok summary t' ∧
      summary.isComplete = true ∧ (t'.image i').bytes = b ∧
      ∀ c, c < o.cells.size → t'.value? c = t.value? c := by
  obtain ⟨l', s₁', hlayout', -, rfl, hd', hs₁'⟩ := R.layoutObserved_drawn observer' hg' hi' hsize'
  have hfrom := hg.smoothFrom R.smoothFrom
  have hw : r.Within s.cells.size := R.within.mono hfrom.grows.cells
  have hd := Region.layoutObserved_drawn hfrom hi hw hsize (slotted r) R.marked hlayout
  have hg₁' : RenderedFrom r (Foreseen A o t) o s₁' := hg'.trans hs₁'.lays
  have hg₁ : RenderedFrom r (fun c v => c < o.cells.size ∧ s₁'.value? c = some v) o s₁ := by
    refine (hg.mono fun m => Move.Renders.mono fun c v hv =>
      ⟨hv.1, hs₁'.value?_eq (hg'.smoothFrom R.smoothFrom) hv.2⟩).trans
        (Region.layoutObserved_smoothSteps hfrom hi hw (hsize ▸ slotted r) ?_ hlayout).lays
    rw [hsize]
    intro m hm
    have hc := Segment.WithinAll.marks R.within 0 m hm
    exact ⟨hc, (R.marks m hm).2.1, hc, hd'.stands.marks m hm⟩
  obtain ⟨u', ha', hdu', hgu', hgu⟩ := R.appliedAll (fun _ he => he) hg₁' hg₁ hd hd' ha
    fun c v hv => (hu c).trans hv
  have hle : ∀ c v, c < o.cells.size → t.value? c = some v → u'.value? c = some v :=
    fun c v hc hv => R.le hgu' hgu hc ((hu c).symm.trans hv)
  have hpending : l'.pending u' = [] := by
    refine List.eq_nil_iff_forall_not_mem.2 fun p hp => ?_
    obtain ⟨hslot, hnone⟩ := hdu'.pending (hgu'.smoothFrom R.smoothFrom).drained hp
    obtain ⟨v, hv⟩ := R.slots_known hslot
    have hsome := hle _ v (Segment.WithinAll.slots R.within 0 _ hslot) hv
    change u'.value? p.cell = some v at hsome
    simp [hnone] at hsome
  obtain ⟨summary, w, hflatten, hcomplete, himages, hvalues⟩ :=
    Region.flattenObserved_of_appliedAll config hlayout' hd'.entries ha' hpending
  refine ⟨summary, w, hflatten, hcomplete, ?_, fun c hc => ?_⟩
  · rw [image, himages]
    exact R.bytes_eq hgu' hdu' hpending
  · rw [hvalues]
    cases hv : u'.value? c with
    | some v => exact (R.model.le hgu' hc hv).symm
    | none =>
      cases ht : t.value? c with
      | none => rfl
      | some v => simp [hle c v hc ht] at hv

end Rendition

end Backpatch
