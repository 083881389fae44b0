import Mathlib
import Backpatch.Proofs.Fields

/-!
# Strict flattening is sound

A segment stands for the bytes that are written directly, and for the encoded values of the cells
of its fields (`Segment.content`). Emitting it puts each piece in its place, either as fixed bytes
or as a field (`Segment.Placed`). If a strict finalization succeeds, every field of the layout is
patched, so the bytes of the image are the content of the region, whenever the values came.
-/

namespace Backpatch

open Store Failable

mutual

/-- The bytes that a segment stands for, given the values of its cells. -/
def Segment.content (s : Store) : Segment → Option Bytes
  | .direct bytes _ => some bytes
  | .deferred format c _ => (s.value? c).bind fun v => (format.encode v).toOption
  | .mark _ | .postProcess _ => some []
  | .nested segments => Segment.contentAll s segments

def Segment.contentAll (s : Store) : List Segment → Option Bytes
  | [] => some []
  | segment :: rest => do return (← segment.content s) ++ (← Segment.contentAll s rest)

end

mutual

/-- The segment stands at the given offset: its bytes are fixed there, or are those of a field
among the placeholders from `first` up to `last`. -/
def Segment.Placed (s : Store) (i : ImageId) (first last : FieldId) : Nat → Segment → Prop
  | a, .direct bytes _ => Fixed s i a bytes
  | a, .deferred format c _ =>
    (∃ v bs, s.value? c = some v ∧ format.encode v = .ok bs ∧ Fixed s i a bs) ∨
    ∃ (f : FieldId) (p : Placeholder), first ≤ f ∧ f < last ∧ s.placeholders[f]? = some p ∧
      p.image = i ∧ p.offset = a ∧ p.format = format ∧ p.cell = c
  | _, .mark _ | _, .postProcess _ => True
  | a, .nested segments => Segment.PlacedAll s i first last a segments

def Segment.PlacedAll (s : Store) (i : ImageId) (first last : FieldId) :
    Nat → List Segment → Prop
  | _, [] => True
  | a, segment :: rest => Segment.Placed s i first last a segment ∧
    Segment.PlacedAll s i first last (a + segment.size) rest

end

theorem Segment.sizeAll_append (xs ys : List Segment) :
    sizeAll (xs ++ ys) = sizeAll xs + sizeAll ys := by
  induction xs with
  | nil => simp [sizeAll]
  | cons x xs ih => rw [List.cons_append, sizeAll, sizeAll, ih, Nat.add_assoc]

theorem Segment.placedAll_append {s : Store} {i : ImageId} {first last : FieldId} {a : Nat}
    {xs ys : List Segment} : PlacedAll s i first last a (xs ++ ys) ↔
      PlacedAll s i first last a xs ∧ PlacedAll s i first last (a + sizeAll xs) ys := by
  induction xs generalizing a with
  | nil => simp [PlacedAll, sizeAll]
  | cons x xs ih =>
    rw [List.cons_append, PlacedAll, PlacedAll, ih, sizeAll, and_assoc, Nat.add_assoc]

section Steps

variable {s t : Store} {i : ImageId} {first last : FieldId} {task : Task} {ts k : List Task}

mutual

theorem Segment.Placed.step {segment : Segment} {a : Nat} (hl : Lasting s (task :: k))
    (hr : Reacts s task t ts) (ho : ∀ o bs note, task ≠ .move (.overwrite i o bs note))
    (h : segment.Placed s i first last a) : segment.Placed t i first last a := by
  cases segment with
  | direct bytes note => exact Fixed.step hr ho h
  | deferred format c label =>
    obtain ⟨v, bs, hv, he, hfixed⟩ | ⟨f, p, hf, hf', hp, hi, ha, hformat, hc⟩ := h
    · exact .inl ⟨v, bs, hl.value?_step hr hv, he, hfixed.step hr ho⟩
    · obtain ⟨b, hb⟩ := hr.grows.fields f p hp
      exact .inr ⟨f, _, hf, hf', hb, hi, ha, hformat, hc⟩
  | mark | postProcess => trivial
  | nested segments => exact Segment.PlacedAll.step hl hr ho h

theorem Segment.PlacedAll.step {segments : List Segment} {a : Nat} (hl : Lasting s (task :: k))
    (hr : Reacts s task t ts) (ho : ∀ o bs note, task ≠ .move (.overwrite i o bs note))
    (h : Segment.PlacedAll s i first last a segments) :
    Segment.PlacedAll t i first last a segments := by
  cases segments with
  | nil => trivial
  | cons segment rest =>
    exact ⟨Segment.Placed.step hl hr ho h.1, Segment.PlacedAll.step hl hr ho h.2⟩

end

theorem Reacts.size_image (hr : Reacts s task t ts) (hd : ∀ m, task = .move m → ¬ m.Draws) :
    (t.image i).size = (s.image i).size := by
  obtain ⟨hi, -⟩ | ⟨c, f, v, p, bs, -, -, -, -, rfl⟩ | ⟨m, rfl, hm, -⟩ := hr.draws
  · rw [image, hi, image]
  · rw [image_patched]
    split_ifs with hj
    · rw [Image.size_replace, hj.1]
    · rfl
  · exact absurd hm (hd m rfl)

theorem Reacts.size_placeholders (hr : Reacts s task t ts) (hd : ∀ m, task = .move m → ¬ m.Draws) :
    t.placeholders.size = s.placeholders.size := by
  obtain ⟨-, hp⟩ | ⟨c, f, v, p, bs, -, -, -, -, rfl⟩ | ⟨m, rfl, hm, -⟩ := hr.draws
  · rw [hp]
  · exact Array.size_modify
  · exact absurd hm (hd m rfl)

theorem Steps.size_image {P : Move → Prop} (h : Steps P s t) (hP : ∀ m, P m → ¬ m.Draws) :
    (t.image i).size = (s.image i).size :=
  h.preserve (F := fun u => (u.image i).size = (s.image i).size)
    (fun hm hr hsize => (hr.size_image fun m htask => hP m (hm m htask)).trans hsize) rfl

theorem Steps.size_placeholders {P : Move → Prop} (h : Steps P s t) (hP : ∀ m, P m → ¬ m.Draws) :
    t.placeholders.size = s.placeholders.size :=
  h.preserve (F := fun u => u.placeholders.size = s.placeholders.size)
    (fun hm hr hsize => (hr.size_placeholders fun m htask => hP m (hm m htask)).trans hsize) rfl

end Steps

theorem Move.Settles.not_draws {n : Nat} {m : Move} (h : m.Settles n) : ¬ m.Draws := by
  cases m with
  | journal | settle => exact id
  | _ => exact h.elim

/-- The move neither takes a value back, now or later, nor writes over bytes of the image `i`. -/
def Move.Keeps (i : ImageId) : Move → Prop
  | .unresolve _ => False
  | .overwrite j .. => j ≠ i
  | .watch _ a | .run _ a _ => a.Lasting
  | _ => True

theorem Move.Keeps.lasting {i : ImageId} {m : Move} (h : m.Keeps i) : m.Lasting := by
  cases m with
  | unresolve => exact h.elim
  | watch | run => exact h
  | _ => trivial

theorem Move.Plain.keeps {m : Move} (h : m.Plain) (i : ImageId) : m.Keeps i := by
  cases m with
  | unresolve | overwrite => exact h.elim
  | watch | run => exact h
  | _ => trivial

section Emission

variable {s t : Store} {i : ImageId} {first last : FieldId}

/-- What is appended stands behind all fields of the image. -/
theorem Valid.fixed_append (h : Valid s []) (hi : i < s.images.size) (bs : Bytes) (note : Note) :
    Fixed (s.modifyImage i (·.append bs note)) i (s.image i).size bs where
  inside := by rw [image_modifyImage, if_pos ⟨rfl, hi⟩, Image.size_append]
  bytes := by
    rw [image_modifyImage, if_pos ⟨rfl, hi⟩]
    exact Image.slice_append_end ..
  clear f p hp hpi := .inr (hpi ▸ (h.fields f p hp).2.2)

theorem Segment.Placed.keep {segment : Segment} {a : Nat} (hl : Lasting s [])
    (hst : Steps (Move.Keeps i) s t) (h : segment.Placed s i first last a) :
    segment.Placed t i first last a :=
  hst.keep (F := fun s => segment.Placed s i first last a) (fun _ => Move.Keeps.lasting) hl
    (fun hl hP hr h => h.step hl hr fun _ _ _ htask => hP _ htask rfl) h

theorem Segment.PlacedAll.keep {segments : List Segment} {a : Nat} (hl : Lasting s [])
    (hst : Steps (Move.Keeps i) s t) (h : Segment.PlacedAll s i first last a segments) :
    Segment.PlacedAll t i first last a segments :=
  Segment.Placed.keep hl hst (show (Segment.nested segments).Placed s i first last a from h)

theorem Filled.keep (hl : Lasting s []) (hst : Steps (Move.Keeps i) s t) (h : Filled s i first) :
    Filled t i first :=
  hst.keep (F := fun s => Filled s i first) (fun _ => Move.Keeps.lasting) hl
    (fun hl hP hr h => h.step hl hr fun _ _ _ htask => hP _ htask rfl) h

/-- Segments take as many bytes of the image as their sizes say, whatever callbacks do. -/
theorem Emission.size {segments : List Segment} (h : Emission i segments s t) (hv : Valid s [])
    (hi : i < s.images.size) (hw : Segment.WithinAll s.cells.size segments) :
    (t.image i).size = (s.image i).size + Segment.sizeAll segments := by
  induction h with
  | note => rfl
  | direct =>
    rw [image_modifyImage, if_pos ⟨rfl, hi⟩, Image.size_append]
    rfl
  | known _ he =>
    rw [image_modifyImage, if_pos ⟨rfl, hi⟩, Image.size_append, FixedFormat.length_encode he]
    rfl
  | place format label => exact size_image_placed _ _ i format label hi
  | @mark s t c hrun =>
    have hsettle : Steps (fun m => ¬ m.Draws) s t :=
      after_of_ok hrun ▸ steps_settleOrConfirm hv hw.1 id
    exact hsettle.size_image fun _ hm => hm
  | postProcess => rfl
  | nested _ ih => exact ih hv hi hw.1
  | append h _ ih ih' =>
    obtain ⟨hxs, hys⟩ := Segment.withinAll_append.1 hw
    have hsu := h.steps hv hi le_rfl hxs
    rw [ih' (hsu.valid hv) (hi.trans_le hsu.grows.images) (hys.mono hsu.grows.cells),
      ih hv hi hxs, Segment.sizeAll_append, Nat.add_assoc]

/-- After an emission, more segments can be emitted. -/
theorem Emission.lasting {segments : List Segment} (h : Emission i segments s t)
    (hl : Lasting s []) (hi : i < s.images.size) (hw : Segment.WithinAll s.cells.size segments) :
    Lasting t [] ∧ i < t.images.size ∧ Grows s t := by
  have hst := h.steps hl.toValid hi le_rfl hw
  exact ⟨hst.lasting (fun m hm => hm.plain.lasting) hl, hi.trans_le hst.grows.images, hst.grows⟩

theorem Emission.placed {segments : List Segment} (h : Emission i segments s t)
    (hl : Lasting s []) (hi : i < s.images.size) (hw : Segment.WithinAll s.cells.size segments)
    (hf : first ≤ s.placeholders.size) (hlast : t.placeholders.size ≤ last) :
    Segment.PlacedAll t i first last (s.image i).size segments := by
  induction h with
  | note => trivial
  | direct bytes note => exact ⟨hl.fixed_append hi bytes note, trivial⟩
  | known hv he => exact ⟨.inl ⟨_, _, hv, he, hl.fixed_append hi _ _⟩, trivial⟩
  | @place s c format label _ =>
    refine ⟨.inr ⟨s.placeholders.size, s.nextPlaceholder c i format label, hf, ?_,
      by simp [Store.placed], rfl, rfl, rfl, rfl⟩, trivial⟩
    simpa [Store.placed] using hlast
  | mark | postProcess => exact ⟨trivial, trivial⟩
  | nested _ ih => exact ⟨ih hl hi hw.1 hf hlast, trivial⟩
  | append h g ih ih' =>
    obtain ⟨hxs, hys⟩ := Segment.withinAll_append.1 hw
    obtain ⟨hlu, hiu, hsu⟩ := h.lasting hl hi hxs
    have hwu := hys.mono hsu.cells
    have hut := g.steps hlu.toValid hiu le_rfl hwu
    have hfirst := (ih hl hi hxs hf (hut.grows.placeholders.trans hlast)).keep hlu
      (hut.mono fun _ hm => hm.plain.keeps i)
    have hrest := ih' hlu hiu hwu (hf.trans hsu.placeholders) hlast
    rw [h.size hl.toValid hi hxs] at hrest
    exact Segment.placedAll_append.2 ⟨hfirst, hrest⟩

/-- A layout puts every segment of its region in its place. -/
theorem Region.layoutObserved_placed {r : Region} {observer : Observer} {l : Layout}
    (hl : Lasting s []) (hi : i < s.images.size) (hw : r.Within s.cells.size)
    (h : r.layoutObserved i observer s = .ok l t) :
    Segment.PlacedAll t i l.first l.last (s.image i).size r.segments ∧
      (t.image i).size = (s.image i).size + r.size := by
  obtain ⟨hemit, rfl⟩ := layoutObserved_eq_ok h
  have hs : Steps (Move.Writes i 0) s ((emit
    (.flattening r.segments.length (s.image i).size)).after s) := steps_emit _ fun _ _ _ => trivial
  have hs' := hs.lasting (fun m hm => hm.plain.lasting) hl
  have hemission := (emitObserved_emits hemit).emission
  exact ⟨hemission.placed hs' hi hw le_rfl le_rfl, hemission.size hs'.toValid hi hw⟩

end Emission

/-! ## The bytes of placed segments -/

section Content

variable {s : Store} {i : ImageId} {first last : FieldId}

mutual

theorem Segment.Placed.content {segment : Segment} {a : Nat} (hf : Filled s i first)
    (hp : ∀ (f : FieldId) (p : Placeholder), first ≤ f → f < last → s.placeholders[f]? = some p →
      p.patched = true)
    (h : segment.Placed s i first last a) :
    segment.content s = some ((s.image i).slice a segment.size) := by
  cases segment with
  | direct bytes note => exact congrArg some (Fixed.bytes h).symm
  | deferred format c label =>
    obtain ⟨v, bs, hv, he, hfixed⟩ | ⟨f, p, hfirst, hlast, hfp, rfl, rfl, rfl, rfl⟩ := h
    · have hbytes := hfixed.bytes
      rw [FixedFormat.length_encode he] at hbytes
      simp [Segment.content, hv, he, Except.toOption, Segment.size, hbytes]
    · obtain ⟨v, bs, hv, he, hbytes⟩ := hf f p hfirst hfp rfl (hp f p hfirst hlast hfp)
      rw [Placeholder.width] at hbytes
      simp [Segment.content, hv, he, Except.toOption, Segment.size, hbytes]
  | mark | postProcess => simp [Segment.content, Segment.size, Image.slice]
  | nested segments => exact Segment.PlacedAll.content hf hp h

theorem Segment.PlacedAll.content {segments : List Segment} {a : Nat} (hf : Filled s i first)
    (hp : ∀ (f : FieldId) (p : Placeholder), first ≤ f → f < last → s.placeholders[f]? = some p →
      p.patched = true)
    (h : Segment.PlacedAll s i first last a segments) :
    Segment.contentAll s segments = some ((s.image i).slice a (Segment.sizeAll segments)) := by
  cases segments with
  | nil => simp [Segment.contentAll, Segment.sizeAll, Image.slice]
  | cons segment rest =>
    have hfirst := Segment.Placed.content hf hp h.1
    have hrest := Segment.PlacedAll.content hf hp h.2
    simp [Segment.contentAll, Segment.sizeAll, hfirst, hrest, Image.slice_add]

end

end Content

/-! ## Strict finalization -/

theorem Error.parts_of_ofMany?_eq_none {errors : List Error} (h : Error.ofMany? errors = none) :
    ∀ e ∈ errors, e.parts = [] := by
  have hparts : errors.flatMap Error.parts = [] := by
    unfold Error.ofMany? at h
    split at h
    · assumption
    · simp at h
    · simp at h
  simpa using hparts

/-- A strict finalization that succeeds has no pending field. -/
theorem Layout.pendingFields_of_complaints {l : Layout} {config : FlattenConfig} {tally : Tally}
    {s : Store} (hc : config.enforceComplete = true)
    (h : Error.ofMany? (l.complaints config tally s) = none) : l.pendingFields s = [] := by
  by_contra hne
  have hmem : .unresolved (l.pendingFields s) ∈ l.complaints config tally s := by
    simp [complaints, hc, hne]
  have := Error.parts_of_ofMany?_eq_none h _ hmem
  simp [Error.parts] at this

theorem Layout.mem_pending {l : Layout} {s : Store} {p : Placeholder} : p ∈ l.pending s ↔
    ∃ f : FieldId, l.first ≤ f ∧ f < l.last ∧ s.placeholders[f]? = some p ∧ p.patched = false := by
  rw [pending, List.mem_filter, Layout.placeholders, List.mem_iff_getElem?]
  simp only [Array.getElem?_toList, Array.getElem?_extract, Bool.not_eq_true']
  constructor
  · rintro ⟨⟨k, hk⟩, hpatched⟩
    split_ifs at hk with hlt
    exact ⟨l.first + k, Nat.le_add_right .., (lt_min_iff.1 (Nat.lt_sub_iff_add_lt'.1 hlt)).1, hk,
      hpatched⟩
  · rintro ⟨f, hfirst, hlast, hp, hpatched⟩
    have hsize := (Array.getElem?_eq_some_iff.1 hp).1
    refine ⟨⟨f - l.first, ?_⟩, hpatched⟩
    rw [if_pos (Nat.sub_lt_sub_right hfirst (lt_min hlast hsize)), Nat.add_sub_cancel' hfirst, hp]

theorem Layout.patched_of_pendingFields {l : Layout} {s : Store} (h : l.pendingFields s = [])
    {f : FieldId} {p : Placeholder} (hf : l.first ≤ f) (hl : f < l.last)
    (hp : s.placeholders[f]? = some p) : p.patched = true := by
  by_contra hne
  have hmem : p ∈ l.pending s := mem_pending.2 ⟨f, hf, hl, hp, by simpa using hne⟩
  simp [List.map_eq_nil_iff.1 h] at hmem

/-- The call writes over bytes of the image. -/
def Call.Overwrites (i : ImageId) : Call → Prop
  | .overwrite j .. => j = i
  | _ => False

theorem Call.Lasting.keeps {call : Call} {i : ImageId} (h : call.Lasting)
    (ho : ¬ call.Overwrites i) {m : Move} (hm : call.Makes m) : m.Keeps i := by
  cases call with
  | unresolve => exact h.elim
  | onResolve =>
    obtain rfl | ⟨v, rfl⟩ := hm
    · exact h
    · exact h
  | overwrite =>
    obtain rfl := hm
    exact ho
  | _ => exact Move.Plain.keeps hm i

/-- Strict flattening is sound. Whatever was done before a region is laid out and between its layout
and its finalization, as long as no value is taken back and no one writes over the image directly:
if both succeed and the finalization is strict, the bytes that the layout added to the image are the
bytes of the direct segments and the encoded values of the deferred ones, in order, with the values
that their cells have at the end. -/
theorem strict_flattening_content {before between : List Call} {s s₁ s₂ s₃ : Store} {r : Region}
    {i : ImageId} {observer observer' : Observer} {config : FlattenConfig} {l : Layout}
    {summary : FlattenSummary} (hbefore : Run {} before s)
    (hlasting : ∀ call ∈ before, call.Lasting) (hi : i < s.images.size)
    (hr : r.Within s.cells.size) (hlayout : r.layoutObserved i observer s = .ok l s₁)
    (hbetween : Run s₁ between s₂)
    (hkeeps : ∀ call ∈ between, call.Lasting ∧ ¬ call.Overwrites i)
    (hstrict : config.enforceComplete = true)
    (hfinalize : l.finalizeObserved config observer' s₂ = .ok summary s₃) :
    Segment.contentAll s₃ r.segments = some ((s₃.image i).slice (s.image i).size
      ((s₁.image i).size - (s.image i).size)) := by
  have hl := hbefore.lasting Lasting.empty hlasting
  obtain ⟨hplaced, hsize⟩ := Region.layoutObserved_placed hl hi hr hlayout
  have hs₁ : Steps (Move.Keeps i) s s₁ := (after_of_ok hlayout ▸
    Region.steps_layoutObserved observer hl.toValid hi hr : Steps Move.Plain s s₁).mono
      fun _ hm => hm.keeps i
  have hl₁ := hs₁.lasting (fun _ => Move.Keeps.lasting) hl
  have hs₂ : Steps (Move.Keeps i) s₁ s₂ := hbetween.steps hl₁.toValid fun call hc _ =>
    (hkeeps call hc).1.keeps (hkeeps call hc).2
  have hl₂ := hs₂.lasting (fun _ => Move.Keeps.lasting) hl₁
  have hentries : ∀ e ∈ l.entries, e.Within s₂.cells.size := by
    obtain ⟨-, rfl⟩ := Region.layoutObserved_eq_ok hlayout
    exact fun e he => (Segment.WithinAll.entries hr e he).mono (hs₁.trans hs₂).grows.cells
  obtain ⟨tally, u, hentries', hnone, -, hclose⟩ :=
    Layout.finalizeObserved_eq_ok hl₂.toValid hentries hfinalize
  have hu : Steps (Move.Keeps i) s₂ u := (after_of_ok hentries' ▸ Layout.steps_runEntries l _ 0 {}
    hl₂.toValid le_rfl hentries : Steps (Move.Settles s₂.cells.size) s₂ u).mono
      fun _ hm => hm.plain.keeps i
  have hs₃ : Steps (Move.Keeps i) s₁ s₃ :=
    (hs₂.trans hu).trans (hclose.mono fun _ hm => hm.plain.keeps i)
  have hpatched : ∀ (f : FieldId) (p : Placeholder), l.first ≤ f → f < l.last →
      s₃.placeholders[f]? = some p → p.patched = true := by
    intro f p hfirst hlast hp
    have hf : f < u.placeholders.size := by
      obtain ⟨-, rfl⟩ := Region.layoutObserved_eq_ok hlayout
      exact hlast.trans_le (hs₂.trans hu).grows.placeholders
    obtain ⟨b, hb⟩ := hclose.grows.fields f _ (Array.getElem?_eq_getElem hf)
    have hcomplete := Layout.patched_of_pendingFields
      (Layout.pendingFields_of_complaints hstrict hnone) hfirst hlast (Array.getElem?_eq_getElem hf)
    obtain rfl := Option.some.inj (hp.symm.trans hb)
    simp [hcomplete]
  have hfilled : Filled s₃ i l.first := by
    have hstart : Filled s i l.first := by
      obtain ⟨-, rfl⟩ := Region.layoutObserved_eq_ok hlayout
      intro f p hf hp
      exact absurd (Array.getElem?_eq_some_iff.1 hp).1 (Nat.not_lt.2 hf)
    exact hstart.keep hl (hs₁.trans hs₃)
  have hcontent := (hplaced.keep hl₁ hs₃).content hfilled hpatched
  rwa [hsize, Nat.add_sub_cancel_left]

/-! A region whose fields get their values from a mark, from a callback of that mark, and from
outside between layout and finalization. -/

def lateCalls : List Call :=
  [.newCell (.int .i64) none false, .newCell .offset none true,
    .tryMap 1 (.int .i64) Datum.signedOffset, .newCell (.int .i64) none false,
    .onResolve 1 (.forward (.cell 0)), .newImage, .append 0 [0xEE] {}]

def lateStore : Store := lateCalls.foldl (fun s call => call.run.after s) {}

def lateRegion : Region :=
  ⟨[.direct [1, 2] {}, .deferred (.int .u8) 2 none,
    .nested [.deferred (.int .u16le) 0 none, .mark 1, .deferred (.int .u8) 0 none],
    .deferred (.int .u8) 3 none]⟩

def lateFlattening : Op (Layout × Store × FlattenSummary) := do
  let l ← lateRegion.layoutObserved 0 .silent
  let s ← get
  Store.resolve 3 (.int 9)
  return (l, s, ← l.finalizeObserved .strict .silent)

theorem strict_flattening_content_late :
    ∃ l s₁ summary s₃, lateRegion.layoutObserved 0 .silent lateStore = .ok l s₁ ∧
      l.finalizeObserved .strict .silent ((Call.resolve 3 (.int 9)).run.after s₁) =
        .ok summary s₃ ∧
      (s₃.image 0).bytes = [0xEE, 1, 2, 6, 6, 0, 6, 9] ∧
      Segment.contentAll s₃ lateRegion.segments =
        some ((s₃.image 0).slice 1 ((s₁.image 0).size - 1)) := by
  have hrun : (match lateFlattening lateStore with
      | .ok _ t => decide ((t.image 0).bytes = [0xEE, 1, 2, 6, 6, 0, 6, 9])
      | .error .. => false) = true := by decide +kernel
  cases hlate : lateFlattening lateStore with
  | error e t => simp [hlate] at hrun
  | ok result s₃ =>
    simp only [hlate, decide_eq_true_eq] at hrun
    obtain ⟨l, s₁, hlayout, hrest⟩ := bind_eq_ok.1 hlate
    obtain ⟨_, _, hget, hrest⟩ := bind_eq_ok.1 hrest
    cases hget
    obtain ⟨_, s₂, hresolve, hrest⟩ := bind_eq_ok.1 hrest
    obtain ⟨summary, t, hfinalize, hrest⟩ := bind_eq_ok.1 hrest
    cases hrest
    obtain rfl := after_of_ok hresolve
    have hbefore : Run {} lateCalls lateStore :=
      .cons trivial (.cons trivial (.cons (show 1 < _ by decide +kernel) (.cons trivial
        (.cons ⟨show 1 < _ by decide +kernel, show 0 < _ by decide +kernel⟩ (.cons trivial
          (.cons (show 0 < _ by decide +kernel) (.nil _)))))))
    have hwithin : lateRegion.Within lateStore.cells.size := by
      have hsize : lateStore.cells.size = 4 := by decide +kernel
      simp [lateRegion, Region.Within, Segment.WithinAll, Segment.Within, hsize]
    have hcells : 3 < s₁.cells.size := by
      have := (Region.steps_layoutObserved .silent (i := 0) hbefore.valid (by decide +kernel)
        hwithin).grows.cells
      rw [after_of_ok hlayout] at this
      exact Nat.lt_of_lt_of_le (by decide +kernel) this
    refine ⟨l, s₁, summary, s₃, hlayout, hfinalize, hrun, ?_⟩
    have hbetween : Run s₁ [.resolve 3 (.int 9)] ((Call.resolve 3 (.int 9)).run.after s₁) :=
      .cons hcells (.nil _)
    have hone : (lateStore.image 0).size = 1 := by decide +kernel
    rw [← hone]
    exact strict_flattening_content hbefore (by simp [lateCalls, Call.Lasting, Action.Lasting])
      (by decide +kernel) hwithin hlayout hbetween (by simp [Call.Lasting, Call.Overwrites]) rfl
      hfinalize

end Backpatch
