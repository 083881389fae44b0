import Mathlib
import Backpatch.Proofs.Forwarding

/-!
# Emitting around reserved cells

Some segments of a layout are its own: they refer to reserved cells only, and what they do is known
exactly. The others come from outside and leave the reserved cells alone. A header is a run of known
bytes and of fields of idle cells (`Laid`).
-/

namespace Backpatch

open Store Failable

variable {i : ImageId} {s t : Store} {segment : Segment} {n : Nat}

/-- Fixed bytes stay as long as nothing is written over them. -/
theorem Fixed.steps {a : Nat} {bs : Bytes} (h : Fixed s i a bs)
    (hst : Steps (Move.Writes i n) s t) : Fixed t i a bs :=
  hst.preserve (F := fun u => Fixed u i a bs)
    (fun hm hr hfixed => hfixed.step hr fun _ _ _ htask => hm _ htask) h

/-- The placeholders from `first` on belong to the image. -/
def Owns (s : Store) (i : ImageId) (first : FieldId) : Prop :=
  ∀ (f : FieldId) (p : Placeholder), first ≤ f → s.placeholders[f]? = some p → p.image = i

theorem Owns.steps {first : FieldId} (h : Owns s i first) (hst : Steps (Move.Writes i n) s t) :
    Owns t i first := by
  refine hst.preserve (F := fun u => Owns u i first) (fun hm hr h f p hf hp => ?_) h
  obtain ⟨q, b, hq, rfl⟩ | ⟨j, format, c, label, htask, -, -, -, rfl⟩ := hr.placeholder_cases hp
  · exact h f q hf hq
  · exact (hm _ htask).1

/-- No field reaches over the end of an image. -/
theorem Valid.fixed_end (h : Valid s []) (i : ImageId) : Fixed s i (s.image i).size [] where
  inside := le_rfl
  bytes := by simp [Image.slice]
  clear f p hp hpi := .inr (hpi ▸ (h.fields f p hp).2.2)

/-! ## Own segments -/

section Own

variable {first : FieldId} {c d : CellId} {format : FixedFormat} {label : Option String}

theorem Emit.direct {bytes : Bytes} {note : Note} (hv : Valid s []) (hi : i < s.images.size)
    (h : Emit i (.direct bytes note) s t) :
    Only (fun _ => False) s t ∧ Fixed t i (s.image i).size bytes ∧
      (t.image i).size = (s.image i).size + bytes.length := by
  obtain ⟨u, log, trace, reports, hrun, rfl⟩ := h
  cases hrun
  refine ⟨(Only.append hv i bytes note).trans (.journal ..), ?_, ?_⟩
  · have hfixed := hv.fixed_append hi bytes note
    exact ⟨hfixed.inside, hfixed.bytes, hfixed.clear⟩
  · change ((s.modifyImage i _).image i).size = _
    rw [image_modifyImage, if_pos ⟨rfl, hi⟩, Image.size_append]

theorem Emit.deferred (hv : Valid s []) (hi : i < s.images.size) (hidle : Idle s d)
    (hd : d < s.cells.size) (hf : first ≤ s.placeholders.size)
    (h : Emit i (.deferred format d label) s t) :
    Only (· = d) s t ∧ Awaits t i first d (s.image i).size format label ∧
      (t.image i).size = (s.image i).size + format.width := by
  obtain ⟨u, log, trace, reports, hrun, rfl⟩ := h
  simp only [emitSegment, bind_run, valueOf_run, hidle.1, place_run] at hrun
  cases hrun
  obtain ⟨honly, hawaits⟩ := hidle.placed hv hd hi hf
  exact ⟨honly.trans (.journal ..), hawaits, size_image_placed s d i format label hi⟩

theorem Emit.mark (hidle : Idle s c) (hc : c < s.cells.size) (h : Emit i (.mark c) s t) :
    Only (· = c) s t ∧ t.value? c = some (.int (s.image i).size) ∧
      (t.image i).size = (s.image i).size := by
  obtain ⟨u, log, trace, reports, hrun, rfl⟩ := h
  obtain ⟨honly, hvalue, hsize⟩ := hidle.mark hc hrun
  exact ⟨honly.trans (.journal ..), hvalue, hsize⟩

theorem Emit.mark_written {o : Nat} {format : IntFormat} (hv : Valid s []) (hpass : PassesOn s c d)
    (hawaits : Awaits s i first d o (.int format) label) (hne : d ≠ c)
    (hs : format.signed = false) (hb : format.bigEndian = false) (h : Emit i (.mark c) s t) :
    (s.image i).size < Bytes.wordCount format.width ∧ Only (fun x => x = c ∨ x = d) s t ∧
      t.value? c = some (.int (s.image i).size) ∧
      Written t i d o (.int format) (Bytes.littleEndian format.width (s.image i).size) ∧
      (t.image i).size = (s.image i).size := by
  obtain ⟨u, log, trace, reports, hrun, rfl⟩ := h
  obtain ⟨hlt, honly, hvalue, hwritten, hsize⟩ :=
    Backpatch.mark_written hv hpass hawaits hne hs hb hrun
  exact ⟨hlt, honly.trans (.journal ..), hvalue, hwritten, hsize⟩

end Own

/-! ## Stages -/

/-- The store is valid, and the cells from `lo` up to `hi` are reserved for the layout of `i`. -/
structure Stage (lo hi : Nat) (i : ImageId) (s : Store) : Prop where
  valid : Valid s []
  reserved : Reserved lo hi s
  image : i < s.images.size

section Stage

variable {lo hi : Nat} {D : Nat → Prop}

theorem Stage.own (h : Stage lo hi i s) (he : Emit i segment s t) (hw : segment.Within hi)
    (ho : Only D s t) (hD : ∀ c, D c → lo ≤ c ∧ c < hi) : Stage lo hi i t :=
  have hst := he.steps h.valid h.image h.reserved.size hw
  ⟨hst.valid h.valid, h.reserved.only ho hD, h.image.trans_le hst.grows.images⟩

theorem Move.Writes.spares {m : Move} (h : m.Writes i lo) : m.Spares lo hi := by
  cases m with
  | journal | append => trivial
  | settle => exact .inl h
  | place => exact .inl h.2
  | _ => exact h.elim

/-- Steps from outside leave the reserved cells as they are. -/
theorem Stage.foreign (h : Stage lo hi i s) (hst : Steps (Move.Writes i lo) s t) :
    Stage lo hi i t ∧ Same (fun c => lo ≤ c ∧ c < hi) s t := by
  obtain ⟨hreserved, hsame⟩ := hst.frame (fun _ hm => hm.spares) h.valid h.reserved
  exact ⟨⟨hst.valid h.valid, hreserved, h.image.trans_le hst.grows.images⟩, hsame⟩

/-! ## Headers -/

def Segment.IsField : Segment → Prop
  | .direct .. | .deferred .. => True
  | _ => False

/-- The cells of the fields among the segments. -/
def Segment.fieldCells : List Segment → List CellId
  | [] => []
  | .deferred _ d _ :: rest => d :: fieldCells rest
  | _ :: rest => fieldCells rest

theorem Segment.withinAll_of_isField {segments : List Segment} (hfields : ∀ x ∈ segments, x.IsField)
    (hcells : ∀ c ∈ fieldCells segments, c < n) : WithinAll n segments := by
  induction segments with
  | nil => trivial
  | cons segment rest ih =>
    have hrest : ∀ x ∈ rest, x.IsField := fun x hx => hfields x (.tail _ hx)
    cases segment with
    | direct => exact ⟨trivial, ih hrest hcells⟩
    | deferred => exact ⟨hcells _ (.head _), ih hrest fun c hc => hcells c (.tail _ hc)⟩
    | mark | postProcess | nested => exact (hfields _ (.head _)).elim

/-- Known bytes stand in their places, and placeholders wait in theirs. -/
def Laid (s : Store) (i : ImageId) (first : FieldId) : Nat → List Segment → Prop
  | _, [] => True
  | a, .direct bytes _ :: rest => Fixed s i a bytes ∧ Laid s i first (a + bytes.length) rest
  | a, .deferred format d label :: rest =>
    Awaits s i first d a format label ∧ Laid s i first (a + format.width) rest
  | _, _ :: _ => False

theorem Stage.laid {first : FieldId} {segments : List Segment} (h : Stage lo hi i s)
    (hfields : ∀ x ∈ segments, x.IsField)
    (hcells : ∀ c ∈ Segment.fieldCells segments, (lo ≤ c ∧ c < hi) ∧ Idle s c)
    (hnodup : (Segment.fieldCells segments).Nodup) (hf : first ≤ s.placeholders.size)
    (he : Emits i segments s t) :
    Stage lo hi i t ∧ Only (· ∈ Segment.fieldCells segments) s t ∧
      Laid t i first (s.image i).size segments ∧
      (t.image i).size = (s.image i).size + Segment.sizeAll segments := by
  induction segments generalizing s with
  | nil =>
    obtain rfl := he
    exact ⟨h, ⟨.refl t, le_rfl, rfl, rfl⟩, trivial, rfl⟩
  | cons segment rest ih =>
    have hrest : ∀ x ∈ rest, x.IsField := fun x hx => hfields x (.tail _ hx)
    obtain ⟨u, hu, he⟩ := he
    cases segment with
    | direct bytes note =>
      obtain ⟨honly, hfixed, hsize⟩ := hu.direct h.valid h.image
      have hstage := h.own hu trivial honly fun _ => False.elim
      have hsu := hu.steps h.valid h.image h.reserved.size trivial
      obtain ⟨hstage', honly', hlaid, hsize'⟩ := ih hstage hrest
        (fun c hc => ⟨(hcells c hc).1, (hcells c hc).2.same honly.toSame id⟩) hnodup
        (hf.trans hsu.grows.placeholders) he
      have hut := he.steps hstage.valid hstage.image hstage.reserved.size
        (Segment.withinAll_of_isField hrest fun c hc => (hcells c hc).1.2)
      rw [hsize] at hlaid hsize'
      refine ⟨hstage', (honly.mono fun _ => False.elim).trans honly', ⟨hfixed.steps hut, hlaid⟩, ?_⟩
      rw [hsize', Nat.add_assoc]
      rfl
    | deferred format d label =>
      obtain ⟨hdrest, hnodup'⟩ := List.nodup_cons.1 hnodup
      obtain ⟨hd, hidle⟩ := hcells d (.head _)
      obtain ⟨honly, hawaits, hsize⟩ := hu.deferred h.valid h.image hidle
        (hd.2.trans_le h.reserved.size) hf
      have hstage := h.own hu hd.2 honly fun c hc => hc ▸ hd
      have hsu := hu.steps h.valid h.image h.reserved.size hd.2
      obtain ⟨hstage', honly', hlaid, hsize'⟩ := ih hstage hrest
        (fun c hc => ⟨(hcells c (.tail _ hc)).1, (hcells c (.tail _ hc)).2.same honly.toSame
          fun hcd => hdrest (hcd ▸ hc)⟩) hnodup' (hf.trans hsu.grows.placeholders) he
      rw [hsize] at hlaid hsize'
      refine ⟨hstage', ?_, ⟨hawaits.same honly'.toSame hdrest, hlaid⟩, ?_⟩
      · exact (honly.mono fun c hc => hc ▸ .head _).trans (honly'.mono fun c hc => .tail _ hc)
      rw [hsize', Nat.add_assoc]
      rfl
    | mark | postProcess | nested => exact (hfields _ (.head _)).elim

end Stage

end Backpatch
