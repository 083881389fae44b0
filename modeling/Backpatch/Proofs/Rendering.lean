import Mathlib
import Backpatch.Proofs.Models
import Backpatch.Proofs.Digests
import Backpatch.Proofs.Nesting

/-!
# Rendering is smooth

Laying a region out and taking its patches back are smooth runs, if they succeed, and they do
succeed where the values of the store are below a model that knows the marks and fields of the
region (`Model.layoutObserved_isOk`). A layout is `Drawn` as long as its segments are in their places and
every field that is not patched waits for its value. The bytes of a drawn layout, apart from pending
fields, are those of the content of its region (`Layout.Drawn.agree`).
-/

namespace Backpatch

open Store Failable

/-- The moves that lay a region out. -/
def Move.Lays (E : FixedFormat → CellId → Prop) (S : CellId → Datum → Prop) (m : Move) : Prop :=
  m.Renders E S ∧ ∀ c id, m ≠ .unsubscribe c id

/-- The moves that run entries. -/
def Move.Runs (S : CellId → Datum → Prop) : Move → Prop
  | .journal .. => True
  | .settle c v => S c v
  | _ => False

theorem Move.Runs.lays {E : FixedFormat → CellId → Prop} {S : CellId → Datum → Prop} {m : Move}
    (h : m.Runs S) : m.Lays E S := by
  cases m with
  | journal => exact ⟨trivial, by simp⟩
  | settle => exact ⟨h, by simp⟩
  | _ => exact h.elim

section Cells

variable {o s t : Store} {E : FixedFormat → CellId → Prop} {S : CellId → Datum → Prop}
  {U : CellId → Option Datum} {c : CellId} {v : Datum}

/-- Resolving a cell is settling it, if it is not derived. -/
theorem Store.resolve_eq_ok (h : Store.resolve c v s = .ok () t) :
    (s.cell c).derived = false ∧ Store.settle c v s = .ok () t := by
  rw [Store.resolve, resolveBy, bind_run, get_run] at h
  cases hd : (s.cell c).derived with
  | false => exact ⟨rfl, by simpa [hd] using h⟩
  | true => simp [hd] at h

theorem Store.resolve_of_settle (hd : (s.cell c).derived = false)
    (h : Store.settle c v s = .ok () t) : Store.resolve c v s = .ok () t := by
  rw [Store.resolve, resolveBy, bind_run, get_run]
  simpa [hd] using h

theorem SmoothFrom.resolve_smoothSteps (h : SmoothFrom o s []) (hc : c < s.cells.size) (hS : S c v)
    (hrun : Store.resolve c v s = .ok () t) : SmoothSteps o (Move.Renders E S) s t := by
  obtain ⟨hd, hsettle⟩ := resolve_eq_ok hrun
  have hv := settle_pending hsettle
  exact .single (m := .resolve c v) hS (h.smoothCascade hv ⟨hc, hd⟩ rfl hc hv hsettle)

theorem Model.resolve_isOk (M : Model o E S U) (hg : SmoothSteps o (Move.Renders E S) o s)
    (hS : S c v) (hc : c < s.cells.size) (hd : (s.cell c).derived = false)
    (hv : s.value? c = none) : ∃ t, Store.resolve c v s = .ok () t := by
  obtain ⟨t, ht⟩ := M.settle_isOk (m := .resolve c v) hg hv ⟨hc, hd⟩ hS rfl hc hv
  exact ⟨t, resolve_of_settle hd ht⟩

theorem SmoothFrom.settleOrConfirm_smoothSteps (h : SmoothFrom o s []) (hc : c < o.cells.size)
    (hd : o.drivers [] c = 0) (hS : s.value? c = none → S c v)
    (hrun : settleOrConfirm c v s = .ok () t) : SmoothSteps o (Move.Runs S) s t := by
  have hcs := hc.trans_le h.grows.cells
  obtain ⟨hv, hsettle, -⟩ | ⟨x, -, -, rfl⟩ := settleOrConfirm_cases h.toLasting hcs hrun
  · exact .single (m := .settle c v) (hS hv) (h.smoothCascade ⟨hv, hc, hd⟩ hcs rfl hcs hv hsettle)
  · exact .refl t

/-- Settling a cell as the model says succeeds, and so does confirming it. -/
theorem Model.settleOrConfirm_isOk (M : Model o E S U) (hg : SmoothSteps o (Move.Renders E S) o s)
    (hc : c < o.cells.size) (hd : o.drivers [] c = 0) (hS : s.value? c = none → S c v)
    (hsame : ∀ x, U c = some x → x.same v = true) : ∃ t, settleOrConfirm c v s = .ok () t := by
  have hcs := hc.trans_le (hg.smoothFrom M.smoothFrom).grows.cells
  rw [settleOrConfirm, bind_run, get_run]
  cases hv : s.value? c with
  | none =>
    have hholds : (s.cell c).holds v = false := by
      rw [Cell.holds, show (s.cell c).value = none from hv]
      rfl
    simp only [hholds, Bool.false_eq_true, if_false]
    exact M.settle_isOk (m := .settle c v) hg ⟨hv, hc, hd⟩ hcs (hS hv) rfl hcs hv
  | some x =>
    have hholds : (s.cell c).holds v = true := by
      rw [Cell.holds, show (s.cell c).value = some x from hv]
      exact hsame x (M.le hg hc hv)
    simp only [hholds, if_true]
    exact ⟨s, rfl⟩

end Cells

/-! ## Laying out -/

section Emission

variable {o : Store} {E : FixedFormat → CellId → Prop} {S : CellId → Datum → Prop}
  {U : CellId → Option Datum} {i : ImageId}

theorem smoothSteps_journal (s : Store) (log : Array LogEntry) (trace : Array Event)
    (reports : Array Report) : SmoothSteps o (Move.Runs S) s { s with log, trace, reports } :=
  .quiet (m := .journal log trace reports) trivial trivial trivial rfl

theorem SmoothSteps.runs {s t : Store} (h : SmoothSteps o (Move.Runs S) s t) :
    SmoothSteps o (Move.Lays E S) s t :=
  h.mono fun _ => Move.Runs.lays

theorem SmoothSteps.lays {s t : Store} (h : SmoothSteps o (Move.Lays E S) s t) :
    SmoothSteps o (Move.Renders E S) s t :=
  h.mono fun _ hm => hm.1

theorem smoothSteps_append {s : Store} (hi : i < s.images.size) (bs : Bytes) (note : Note) :
    SmoothSteps o (Move.Lays E S) s (s.modifyImage i (·.append bs note)) :=
  .quiet (m := .append i bs note) ⟨trivial, by simp⟩ trivial hi rfl

/-- The model knows the marks, and no subscriber is going to settle them. -/
def Marked (o : Store) (S : CellId → Datum → Prop) (marks : List (CellId × Nat)) : Prop :=
  ∀ m ∈ marks, m.1 < o.cells.size ∧ o.drivers [] m.1 = 0 ∧ S m.1 (.int m.2)

def Slotted (E : FixedFormat → CellId → Prop) (slots : List Slot) : Prop :=
  ∀ x ∈ slots, E x.format x.cell

theorem Slotted.append_iff {a : Nat} (xs ys : List Segment) :
    Slotted E (Segment.slotsAll a (xs ++ ys)) ↔ Slotted E (Segment.slotsAll a xs) ∧
      Slotted E (Segment.slotsAll (a + Segment.sizeAll xs) ys) := by
  rw [Segment.slotsAll_append]
  exact List.forall_mem_append

theorem Marked.append_iff {a : Nat} (xs ys : List Segment) :
    Marked o S (Segment.marksAll a (xs ++ ys)) ↔ Marked o S (Segment.marksAll a xs) ∧
      Marked o S (Segment.marksAll (a + Segment.sizeAll xs) ys) := by
  rw [Segment.marksAll_append]
  exact List.forall_mem_append

theorem Emission.smoothSteps {s t : Store} {segments : List Segment}
    (hemission : Emission i segments s t) (h : SmoothFrom o s []) (hi : i < s.images.size)
    (hw : Segment.WithinAll s.cells.size segments)
    (hE : Slotted E (Segment.slotsAll (s.image i).size segments))
    (hM : Marked o S (Segment.marksAll (s.image i).size segments)) :
    SmoothSteps o (Move.Lays E S) s t := by
  induction hemission with
  | @note s log trace reports => exact (smoothSteps_journal s log trace reports).runs
  | direct bytes note => exact smoothSteps_append hi bytes note
  | known => exact smoothSteps_append hi _ _
  | place format label hv =>
    exact .quiet (m := .place i format _ label) ⟨hE _ (.head _), by simp⟩ trivial ⟨hi, hw.1, hv⟩ rfl
  | mark hrun =>
    obtain ⟨hc, hd, hS⟩ := hM _ (.head _)
    exact (h.settleOrConfirm_smoothSteps hc hd (fun _ => hS) hrun).runs
  | postProcess => exact .refl _
  | nested _ ih =>
    rw [Segment.slotsAll, Segment.slotsAll, List.append_nil] at hE
    rw [Segment.marksAll, Segment.marksAll, List.append_nil] at hM
    exact ih h hi hw.1 hE hM
  | append hfirst _ ih ih' =>
    obtain ⟨hxs, hys⟩ := Segment.withinAll_append.1 hw
    obtain ⟨hE₁, hE₂⟩ := (Slotted.append_iff _ _).1 hE
    obtain ⟨hM₁, hM₂⟩ := (Marked.append_iff _ _).1 hM
    have hsu := ih h hi hxs hE₁ hM₁
    rw [← hfirst.size h.toValid hi hxs] at hE₂ hM₂
    exact hsu.trans (ih' (hsu.smoothFrom h) (hi.trans_le hsu.steps.grows.images)
      (hys.mono hsu.steps.grows.cells) hE₂ hM₂)

theorem Region.layoutObserved_smoothSteps {s t : Store} {r : Region} {observer : Observer}
    {l : Layout} (h : SmoothFrom o s []) (hi : i < s.images.size) (hw : r.Within s.cells.size)
    (hE : Slotted E (r.slots (s.image i).size)) (hM : Marked o S (r.marks (s.image i).size))
    (hrun : r.layoutObserved i observer s = .ok l t) : SmoothSteps o (Move.Lays E S) s t := by
  obtain ⟨hemit, -⟩ := layoutObserved_eq_ok hrun
  have hnote : SmoothSteps o (Move.Lays E S) s ((emit
    (.flattening r.segments.length (s.image i).size)).after s) :=
      (smoothSteps_journal s s.log _ s.reports).runs
  exact hnote.trans
    ((emitObserved_emits hemit).emission.smoothSteps (hnote.smoothFrom h) hi hw hE hM)

/-! ## Laying out below a model -/

mutual

theorem Model.emitSegment_isOk {s : Store} {segment : Segment} (M : Model o E S U)
    (hg : SmoothSteps o (Move.Renders E S) o s) (hi : i < s.images.size)
    (hw : segment.Within s.cells.size) (hE : Slotted E (segment.slots (s.image i).size))
    (hM : Marked o S (segment.marks (s.image i).size)) :
    ∃ t, emitSegment i segment s = .ok () t := by
  cases segment with
  | direct bytes note => exact ⟨_, rfl⟩
  | deferred format c label =>
    simp only [emitSegment, bind_run, valueOf_run]
    cases hv : s.value? c with
    | none => exact ⟨_, rfl⟩
    | some v =>
      obtain ⟨hc, hencodes⟩ := M.encodes format c (hE _ (.head _))
      obtain ⟨bs, hbs⟩ := hencodes v (M.le hg hc hv)
      simp only [hbs]
      exact ⟨_, rfl⟩
  | mark c =>
    obtain ⟨hc, hd, hS⟩ := hM _ (.head _)
    refine M.settleOrConfirm_isOk hg hc hd (fun _ => hS) fun x hx => ?_
    rw [(M.settles c _ hS).2] at hx
    obtain rfl := Option.some.inj hx
    simp [Datum.same]
  | postProcess e => exact ⟨_, rfl⟩
  | nested segments => exact M.emitAll_isOk hg hi hw hE hM

theorem Model.emitAll_isOk {s : Store} {segments : List Segment} (M : Model o E S U)
    (hg : SmoothSteps o (Move.Renders E S) o s) (hi : i < s.images.size)
    (hw : Segment.WithinAll s.cells.size segments)
    (hE : Slotted E (Segment.slotsAll (s.image i).size segments))
    (hM : Marked o S (Segment.marksAll (s.image i).size segments)) :
    ∃ t, emitAll i segments s = .ok () t := by
  cases segments with
  | nil => exact ⟨s, rfl⟩
  | cons segment rest =>
    obtain ⟨u, hu⟩ := M.emitSegment_isOk hg hi hw.1 (fun x hx => hE x (List.mem_append_left _ hx))
      fun m hm => hM m (List.mem_append_left _ hm)
    obtain ⟨hE₁, hE₂⟩ := (Slotted.append_iff [segment] rest).1 hE
    obtain ⟨hM₁, hM₂⟩ := (Marked.append_iff [segment] rest).1 hM
    have hfrom := hg.smoothFrom M.smoothFrom
    have hfirst := emitSegment_emission hu
    have hsu := hfirst.smoothSteps hfrom hi ⟨hw.1, trivial⟩ hE₁ hM₁
    rw [← hfirst.size hfrom.toValid hi ⟨hw.1, trivial⟩] at hE₂ hM₂
    obtain ⟨t, ht⟩ := M.emitAll_isOk (hg.trans hsu.lays) (hi.trans_le hsu.steps.grows.images)
      (hw.2.mono hsu.steps.grows.cells) hE₂ hM₂
    exact ⟨t, bind_eq_ok.2 ⟨(), u, hu, ht⟩⟩

end

theorem Model.layoutObserved_isOk {s : Store} {r : Region} (observer : Observer)
    (M : Model o E S U) (hg : SmoothSteps o (Move.Renders E S) o s) (hi : i < s.images.size)
    (hw : r.Within s.cells.size) (hE : Slotted E (r.slots (s.image i).size))
    (hM : Marked o S (r.marks (s.image i).size)) :
    ∃ l t, r.layoutObserved i observer s = .ok l t := by
  obtain ⟨t, ht⟩ := M.emitAll_isOk hg hi hw hE hM
  obtain ⟨trace, reports, hrun⟩ := Region.layoutObserved_of_emitAll observer ht
  exact ⟨_, _, hrun⟩

end Emission

/-! ## Taking patches back -/

section Release

variable {o s : Store} {E : FixedFormat → CellId → Prop} {S : CellId → Datum → Prop}

/-- Only the patches of late fields are taken back with their numbers. -/
theorem smoothSteps_released {ps : List Placeholder} (h : SmoothFrom o s [])
    (hps : ∀ p ∈ ps, ∃ f : FieldId, o.placeholders.size ≤ f ∧ s.placeholders[f]? = some p) :
    SmoothSteps o (Move.Renders E S) s (s.released ps) := by
  induction ps generalizing s with
  | nil => exact .refl s
  | cons p ps ih =>
    obtain ⟨f, hf, hp⟩ := hps p (.head ps)
    have hfirst : SmoothSteps o (Move.Renders E S) s (s.withdrawn p.cell p.subscription) :=
      .quiet (m := .unsubscribe p.cell p.subscription) trivial
        (fun sub hq => ⟨f, hf, h.numbered.owned f p sub hp hq⟩) (h.fields f p hp).2.1 rfl
    exact hfirst.trans (ih (hfirst.smoothFrom h) fun q hq => hps q (.tail p hq))

theorem Layout.smoothSteps_closed (l : Layout) (h : SmoothFrom o s [])
    (hl : o.placeholders.size ≤ l.first)
    (log : Array LogEntry) (trace : Array Event) (reports : Array Report) :
    SmoothSteps o (Move.Renders E S) s
      { s.released (l.placeholders s).toList with log, trace, reports } := by
  refine (smoothSteps_released h fun p hp => ?_).trans
    (smoothSteps_journal _ log trace reports).runs.lays
  obtain ⟨k, hk⟩ := List.getElem?_of_mem hp
  rw [Array.getElem?_toList, Layout.placeholders, Array.getElem?_extract] at hk
  split_ifs at hk
  exact ⟨l.first + k, hl.trans (Nat.le_add_right ..), hk⟩

end Release

/-! ## Drawn layouts -/

/-- Every field from `first` on that is not patched waits for its value or is about to be patched. -/
def PatchesDue (first : FieldId) (s : Store) (tasks : List Task) : Prop :=
  ∀ (f : FieldId) (p : Placeholder), first ≤ f → s.placeholders[f]? = some p → p.patched = false →
    Due s tasks p.cell (.patch f)

/-- The layout of `r` at the beginning of an image is complete up to fields that wait. -/
structure Layout.Drawn (l : Layout) (r : Region) (s : Store) : Prop where
  entries : l.entries = r.entries
  exist : l.image < s.images.size
  last : l.last ≤ s.placeholders.size
  placed : Segment.PlacedAll s l.image l.first l.last 0 r.segments
  filled : Filled s l.image l.first
  stands : l.Stands r 0 s
  patchesDue : PatchesDue l.first s []

section Drawn

variable {o s t : Store} {E : FixedFormat → CellId → Prop} {S : CellId → Datum → Prop}
  {task : Task} {ts k : List Task} {first last : FieldId} {i : ImageId} {r : Region} {l : Layout}

theorem PatchesDue.step (h : SmoothFrom o s (task :: k)) (hs : task.Smooth o s)
    (hr : Reacts s task t ts)
    (hkept : ∀ c id, task ≠ .move (.unsubscribe c id)) (ha : PatchesDue first s (task :: k)) :
    PatchesDue first t (ts ++ k) := by
  intro f p hf hp hpatched
  obtain ⟨q, b, hq, rfl⟩ | ⟨i, format, c, label, rfl, hm, rfl, rfl, rfl⟩ := hr.placeholder_cases hp
  · have hold := ha f q hf hq (Bool.or_eq_false_iff.1 hpatched).1
    obtain hdue | ⟨v, rfl⟩ := hold.step h hs hr fun id _ => hkept _ id
    · exact hdue
    · -- A smooth patch is done at once.
      obtain ⟨q', bs, hq', he, hb⟩ := hs
      cases hr with
      | refuse hrefused => exact absurd hb (Nat.not_le.2 (hrefused q' bs hq' he))
      | patch =>
        have hdone : (s.placeholders.modify f fun p => { p with patched := true })[f]? = _ := hp
        rw [Array.getElem?_modify, if_pos rfl, hq] at hdone
        have hsome := congrArg Placeholder.patched (Option.some.inj hdone)
        simp only at hpatched hsome
        simp [hpatched] at hsome
  · exact .inl (mem_queue_enqueue_self (s.modifyImage i _) _ hm.2.1)

theorem PatchesDue.smoothSteps {P : Move → Prop} (hg : SmoothSteps o P s t) (h : SmoothFrom o s [])
    (hP : ∀ m, P m → ∀ c id, m ≠ .unsubscribe c id) (ha : PatchesDue first s []) :
    PatchesDue first t [] := by
  refine (hg.invariant_moves (I := fun s tasks => SmoothFrom o s tasks ∧ PatchesDue first s tasks)
    (fun _ hm hi => ⟨hi.1.start hm.lasting, fun f p hf hp hq => (hi.2 f p hf hp hq).start _⟩)
    (fun hm hs hr hi => ⟨hi.1.step hs hr, hi.2.step hi.1 hs hr ?_⟩) ⟨h, ha⟩).2
  rintro c id rfl
  exact hP _ (hm _ rfl) c id rfl

/-- The layout of a region in an empty image. -/
theorem Region.layoutObserved_drawn {observer : Observer} (h : SmoothFrom o s [])
    (hi : i < s.images.size)
    (hw : r.Within s.cells.size) (hsize : (s.image i).size = 0) (hE : Slotted E (r.slots 0))
    (hM : Marked o S (r.marks 0)) (hrun : r.layoutObserved i observer s = .ok l t) :
    l.Drawn r t := by
  have hl := h.toLasting
  have hplaced := (Region.layoutObserved_placed hl hi hw hrun).1
  have hstands := Region.layoutObserved_stands hl hi hw hrun
  have hst : SmoothSteps o (Move.Lays E S) s t :=
    Region.layoutObserved_smoothSteps h hi hw (hsize ▸ hE) (hsize ▸ hM) hrun
  rw [hsize] at hplaced hstands
  have hkeeps : Steps (Move.Keeps i) s t := (after_of_ok hrun ▸
    Region.steps_layoutObserved observer hl.toValid hi hw : Steps Move.Plain s t).mono
      fun _ hm => hm.keeps i
  obtain ⟨-, rfl⟩ := Region.layoutObserved_eq_ok hrun
  have none : ∀ (f : FieldId) (p : Placeholder), s.placeholders.size ≤ f →
      s.placeholders[f]? ≠ some p :=
    fun f p hf hp => absurd (Array.getElem?_eq_some_iff.1 hp).1 (Nat.not_lt.2 hf)
  exact {
    entries := rfl
    exist := hi.trans_le hst.steps.grows.images
    last := le_rfl
    placed := hplaced
    filled := Filled.keep hl hkeeps fun f p hf hp => absurd hp (none f p hf)
    stands := hstands
    patchesDue := PatchesDue.smoothSteps hst h (fun _ hm => hm.2) fun f p hf hp =>
      absurd hp (none f p hf) }

theorem Layout.Drawn.smoothSteps (hg : SmoothSteps o (Move.Runs S) s t) (h : SmoothFrom o s [])
    (hd : l.Drawn r s) : l.Drawn r t := by
  have hplain : ∀ m : Move, m.Runs S → m.Plain ∧ ¬ m.Draws := by
    intro m hm
    cases m with
    | journal | settle => exact ⟨trivial, id⟩
    | _ => exact hm.elim
  have hkeeps : Steps (Move.Keeps l.image) s t := hg.steps.mono fun m hm => (hplain m hm).1.keeps _
  have hgrows := hkeeps.grows
  exact {
    entries := hd.entries
    exist := hd.exist.trans_le hgrows.images
    last := hd.last.trans hgrows.placeholders
    placed := hd.placed.keep h.toLasting hkeeps
    filled := hd.filled.keep h.toLasting hkeeps
    stands := hd.stands.grows hgrows hd.last
      (hg.steps.size_image fun m hm => (hplain m hm).2) fun c v hv => hg.value?_eq h hv
    patchesDue := PatchesDue.smoothSteps hg h (fun m hm => (hm.lays (E := fun _ _ => True)).2)
      hd.patchesDue }

/-- A pending field of the layout stands in a slot of the region, and its cell is pending. -/
theorem Layout.Drawn.pending (hd : l.Drawn r s) (hs : Drained s) {p : Placeholder}
    (hp : p ∈ l.pending s) : p.slot ∈ r.slots 0 ∧ s.value? p.cell = none := by
  obtain ⟨f, hf, hlast, hf', hpatched⟩ := mem_pending.1 hp
  refine ⟨hd.stands.slots.subset ?_, (hd.patchesDue f p hf hf' hpatched).pending hs⟩
  exact List.mem_map.2 ⟨p, (List.mem_filter.1 hp).1, rfl⟩

end Drawn

/-! ## The bytes of a drawn layout -/

section Content

variable {s t : Store} {i : ImageId} {first last : FieldId} {n : Nat}

mutual

theorem Segment.length_content {segment : Segment} {bs : Bytes}
    (h : segment.content t = some bs) : bs.length = segment.size := by
  cases segment with
  | direct bytes note =>
    cases h
    rfl
  | deferred format c label =>
    obtain ⟨v, -, he⟩ := Option.bind_eq_some_iff.1 h
    cases hbs : format.encode v with
    | error e => simp [hbs, Except.toOption] at he
    | ok bs' =>
      simp only [hbs, Except.toOption, Option.some.injEq] at he
      rw [← he, FixedFormat.length_encode hbs]
      rfl
  | mark | postProcess =>
    cases h
    rfl
  | nested segments => exact Segment.length_contentAll h

theorem Segment.length_contentAll {segments : List Segment} {bs : Bytes}
    (h : Segment.contentAll t segments = some bs) : bs.length = Segment.sizeAll segments := by
  cases segments with
  | nil =>
    cases h
    rfl
  | cons segment rest =>
    obtain ⟨b₁, h₁, h⟩ := Option.bind_eq_some_iff.1 h
    obtain ⟨b₂, h₂, h⟩ := Option.bind_eq_some_iff.1 h
    cases h
    rw [List.length_append, Segment.length_content h₁, Segment.length_contentAll h₂]
    rfl

end

/-- The byte at `x` belongs to no pending field. -/
def Clear (s : Store) (i : ImageId) (first last : FieldId) (x : Nat) : Prop :=
  ∀ (f : FieldId) (p : Placeholder), first ≤ f → f < last → s.placeholders[f]? = some p →
    p.image = i → p.patched = false → ¬ (p.offset ≤ x ∧ x < p.offset + p.width)

mutual

/-- Where no field is pending, the bytes of a placed segment are those of its content. -/
theorem Segment.Placed.agree {segment : Segment} {a k : Nat} {bs : Bytes}
    (hf : Filled s i first)
    (hle : ∀ c v, c < n → s.value? c = some v → t.value? c = some v) (hw : segment.Within n)
    (hc : segment.content t = some bs) (h : segment.Placed s i first last a)
    (hk : k < segment.size) (hclear : Clear s i first last (a + k)) :
    (s.image i).bytes[a + k]? = bs[k]? := by
  have fixed : ∀ {bs'}, Fixed s i a bs' → k < bs'.length →
      (s.image i).bytes[a + k]? = bs'[k]? := by
    intro bs' hfixed hk
    rw [← hfixed.bytes, Image.getElem?_slice, if_pos hk]
  cases segment with
  | direct bytes note =>
    cases hc
    exact fixed h hk
  | deferred format c label =>
    obtain ⟨v, hv, he⟩ := Option.bind_eq_some_iff.1 hc
    have content : ∀ v' bs', s.value? c = some v' → format.encode v' = .ok bs' → bs' = bs := by
      intro v' bs' hv' he'
      obtain rfl := Option.some.inj (hv.symm.trans (hle c v' hw hv'))
      simpa [he', Except.toOption] using he
    obtain ⟨v', bs', hv', he', hfixed⟩ | ⟨f, p, hfirst, hlast, hp, hpi, ha, hformat, hcell⟩ := h
    · obtain rfl := content v' bs' hv' he'
      exact fixed hfixed (by rwa [FixedFormat.length_encode he'])
    · have hwidth : p.width = format.width := by rw [Placeholder.width, hformat]
      have hkw : k < p.width := hwidth ▸ hk
      cases hpatched : p.patched with
      | false => exact absurd ⟨by omega, by omega⟩ (hclear f p hfirst hlast hp hpi hpatched)
      | true =>
        obtain ⟨v', bs', hv', he', hbytes⟩ := hf f p hfirst hp hpi hpatched
        obtain rfl := content v' bs' (hcell ▸ hv') (hformat ▸ he')
        rw [← hbytes, Image.getElem?_slice, if_pos hkw, ha]
  | mark | postProcess => exact absurd hk (Nat.not_lt_zero k)
  | nested segments => exact Segment.PlacedAll.agree hf hle hw hc h hk hclear

theorem Segment.PlacedAll.agree {segments : List Segment} {a k : Nat} {bs : Bytes}
    (hf : Filled s i first)
    (hle : ∀ c v, c < n → s.value? c = some v → t.value? c = some v)
    (hw : Segment.WithinAll n segments) (hc : Segment.contentAll t segments = some bs)
    (h : Segment.PlacedAll s i first last a segments) (hk : k < Segment.sizeAll segments)
    (hclear : Clear s i first last (a + k)) : (s.image i).bytes[a + k]? = bs[k]? := by
  cases segments with
  | nil => exact absurd hk (Nat.not_lt_zero k)
  | cons segment rest =>
    obtain ⟨b₁, h₁, hc⟩ := Option.bind_eq_some_iff.1 hc
    obtain ⟨b₂, h₂, hc⟩ := Option.bind_eq_some_iff.1 hc
    cases hc
    have hlength := Segment.length_content h₁
    rcases Nat.lt_or_ge k segment.size with hlt | hge
    · rw [List.getElem?_append_left (hlength ▸ hlt)]
      exact Segment.Placed.agree hf hle hw.1 h₁ h.1 hlt hclear
    · have hsum : a + k = a + segment.size + (k - segment.size) := by omega
      rw [List.getElem?_append_right (hlength ▸ hge), hlength, hsum]
      have hk' : k < segment.size + Segment.sizeAll rest := hk
      exact Segment.PlacedAll.agree hf hle hw.2 h₂ h.2 (by omega) (hsum ▸ hclear)

end

theorem Layout.Drawn.size {l : Layout} {r : Region} {b : Bytes} (hd : l.Drawn r s)
    (hc : Segment.contentAll t r.segments = some b) : (s.image l.image).size = b.length := by
  rw [hd.stands.size, Segment.length_contentAll hc, Nat.zero_add]
  rfl

/-- The bytes of a range without pending fields are those of the content of the region. -/
theorem Layout.Drawn.agree {l : Layout} {r : Region} {b : Bytes} {start stop : Nat}
    (hd : l.Drawn r s) (hw : r.Within n)
    (hle : ∀ c v, c < n → s.value? c = some v → t.value? c = some v)
    (hc : Segment.contentAll t r.segments = some b) (hstop : stop ≤ b.length)
    (hclear : ∀ p ∈ l.pending s, p.overlaps start stop = false) :
    (s.image l.image).slice start (stop - start) = (b.drop start).take (stop - start) := by
  apply List.ext_getElem?
  intro k
  rw [Image.getElem?_slice, List.getElem?_take, List.getElem?_drop]
  split_ifs with hk
  · have hsize : start + k < Segment.sizeAll r.segments := by
      rw [← Segment.length_contentAll hc]
      omega
    have hbyte := hd.placed.agree hd.filled hle hw hc hsize fun f p hf hlast hp _ hpatched hin => by
      have hfree := hclear p (mem_pending.2 ⟨f, hf, hlast, hp, hpatched⟩)
      simp only [Placeholder.overlaps, Bool.and_eq_false_iff, decide_eq_false_iff_not,
        not_lt] at hfree
      omega
    rwa [Nat.zero_add] at hbyte
  · rfl

/-! ## Slots -/

mutual

theorem Segment.Within.slots {segment : Segment} (h : segment.Within n) (a : Nat) :
    ∀ x ∈ segment.slots a, x.cell < n := by
  cases segment with
  | deferred format c label =>
    intro x hx
    obtain rfl := List.mem_singleton.1 hx
    exact h
  | direct | mark | postProcess => simp [Segment.slots]
  | nested segments => exact Segment.WithinAll.slots h a

theorem Segment.WithinAll.slots {segments : List Segment} (h : Segment.WithinAll n segments)
    (a : Nat) : ∀ x ∈ Segment.slotsAll a segments, x.cell < n := by
  cases segments with
  | nil => simp [Segment.slotsAll]
  | cons segment rest =>
    intro x hx
    obtain hx | hx := List.mem_append.1 hx
    · exact Segment.Within.slots h.1 a x hx
    · exact Segment.WithinAll.slots h.2 _ x hx

end

mutual

theorem Segment.Within.marks {segment : Segment} (h : segment.Within n) (a : Nat) :
    ∀ m ∈ segment.marks a, m.1 < n := by
  cases segment with
  | mark c =>
    intro m hm
    obtain rfl := List.mem_singleton.1 hm
    exact h
  | direct | deferred | postProcess => simp [Segment.marks]
  | nested segments => exact Segment.WithinAll.marks h a

theorem Segment.WithinAll.marks {segments : List Segment} (h : Segment.WithinAll n segments)
    (a : Nat) : ∀ m ∈ Segment.marksAll a segments, m.1 < n := by
  cases segments with
  | nil => simp [Segment.marksAll]
  | cons segment rest =>
    intro m hm
    obtain hm | hm := List.mem_append.1 hm
    · exact Segment.Within.marks h.1 a m hm
    · exact Segment.WithinAll.marks h.2 _ m hm

end

mutual

/-- Where a segment has a content, the values of its fields are known and can be encoded. -/
theorem Segment.slots_content {segment : Segment} {bs : Bytes} (h : segment.content t = some bs)
    (a : Nat) : ∀ x ∈ segment.slots a, ∃ v bs, t.value? x.cell = some v ∧
      x.format.encode v = .ok bs := by
  cases segment with
  | deferred format c label =>
    intro x hx
    obtain rfl := List.mem_singleton.1 hx
    obtain ⟨v, hv, he⟩ := Option.bind_eq_some_iff.1 h
    cases hbs : format.encode v with
    | error e => simp [hbs, Except.toOption] at he
    | ok bs' => exact ⟨v, bs', hv, hbs⟩
  | direct | mark | postProcess => simp [Segment.slots]
  | nested segments => exact Segment.slotsAll_contentAll h a

theorem Segment.slotsAll_contentAll {segments : List Segment} {bs : Bytes}
    (h : Segment.contentAll t segments = some bs) (a : Nat) :
    ∀ x ∈ Segment.slotsAll a segments, ∃ v bs, t.value? x.cell = some v ∧
      x.format.encode v = .ok bs := by
  cases segments with
  | nil => simp [Segment.slotsAll]
  | cons segment rest =>
    obtain ⟨b₁, h₁, h⟩ := Option.bind_eq_some_iff.1 h
    obtain ⟨b₂, h₂, -⟩ := Option.bind_eq_some_iff.1 h
    intro x hx
    obtain hx | hx := List.mem_append.1 hx
    · exact Segment.slots_content h₁ a x hx
    · exact Segment.slotsAll_contentAll h₂ _ x hx

end

/-- The value of the slot is known, or a field stands in it. -/
def Slot.Taken (s : Store) (i : ImageId) (first last : FieldId) (x : Slot) : Prop :=
  (∃ v, s.value? x.cell = some v) ∨
    ∃ (f : FieldId) (p : Placeholder), first ≤ f ∧ f < last ∧ s.placeholders[f]? = some p ∧
      p.image = i ∧ p.offset = x.offset ∧ p.format = x.format ∧ p.cell = x.cell

mutual

theorem Segment.Placed.taken {segment : Segment} {a : Nat}
    (h : segment.Placed s i first last a) :
    ∀ x ∈ segment.slots a, x.Taken s i first last := by
  cases segment with
  | deferred format c label =>
    intro x hx
    obtain rfl := List.mem_singleton.1 hx
    obtain ⟨v, bs, hv, -⟩ | hfield := h
    · exact .inl ⟨v, hv⟩
    · exact .inr hfield
  | direct | mark | postProcess => simp [Segment.slots]
  | nested segments => exact Segment.PlacedAll.taken h

theorem Segment.PlacedAll.taken {segments : List Segment} {a : Nat}
    (h : Segment.PlacedAll s i first last a segments) :
    ∀ x ∈ Segment.slotsAll a segments, x.Taken s i first last := by
  cases segments with
  | nil => simp [Segment.slotsAll]
  | cons segment rest =>
    intro x hx
    obtain hx | hx := List.mem_append.1 hx
    · exact Segment.Placed.taken h.1 x hx
    · exact Segment.PlacedAll.taken h.2 x hx

end

/-- A slot whose value is not known holds a pending field. -/
theorem Layout.Drawn.pending_of_slot {l : Layout} {r : Region} {x : Slot} (hd : l.Drawn r s)
    (hx : x ∈ r.slots 0) (hv : s.value? x.cell = none) :
    ∃ p ∈ l.pending s, p.offset = x.offset ∧ p.format = x.format := by
  obtain ⟨v, hv'⟩ | ⟨f, p, hfirst, hlast, hp, hpi, ho, hformat, hcell⟩ := hd.placed.taken x hx
  · simp [hv'] at hv
  · refine ⟨p, mem_pending.2 ⟨f, hfirst, hlast, hp, ?_⟩, ho, hformat⟩
    cases hpatched : p.patched with
    | false => rfl
    | true =>
      obtain ⟨v, bs, hv', -⟩ := hd.filled f p hfirst hp hpi hpatched
      simp [hcell, hv] at hv'

end Content

end Backpatch
