import Mathlib
import Backpatch.Proofs.Stability

/-!
# The rows of an image

The index of an image leads from the offset of each row to its position (`Image.Indexed`), so
writing over bytes changes the row that starts there and no other (`Image.rows_replace`). A segment
has a row for each piece of it that takes bytes (`Segment.rows`). An image is `Shown` as long as its
rows are those that its segments have in the end, apart from rows of fields that are still pending.
-/

namespace Backpatch

open Store Failable

/-- The row as it is after `bs` was written at `offset`. -/
def Row.overwritten (offset : Nat) (bs : Bytes) (note : Note) (row : Row) : Row :=
  if row.offset = offset then ⟨offset, bs, note⟩ else row

@[simp] theorem Row.offset_overwritten (offset : Nat) (bs : Bytes) (note : Note) (row : Row) :
    (row.overwritten offset bs note).offset = row.offset := by
  unfold Row.overwritten
  split_ifs with h
  · exact h.symm
  · rfl

namespace Image

/-- The index has the position of each row under the offset of the row, and nothing else. -/
def Indexed (i : Image) : Prop :=
  ∀ offset k, i.index.get? offset = some k ↔ ∃ row, i.rows[k]? = some row ∧ row.offset = offset

variable {i : Image} {offset : Nat}

theorem Indexed.empty : Indexed {} := by
  intro offset k
  simp

/-- Writing over bytes changes the row that starts there and no other. -/
theorem rows_replace (h : i.Indexed) (bs : Bytes) (note : Note) :
    (i.replace offset bs note).rows = i.rows.map (Row.overwritten offset bs note) := by
  have hother : ∀ {m : Nat} {row : Row}, i.rows[m]? = some row → i.index.get? offset ≠ some m →
      row.overwritten offset bs note = row := by
    intro m row hrow hne
    exact if_neg fun heq => hne ((h offset m).2 ⟨row, hrow, heq⟩)
  apply Array.ext_getElem?
  intro m
  rw [Array.getElem?_map]
  cases hindex : i.index.get? offset with
  | none =>
    have hrows : (i.replace offset bs note).rows = i.rows := by simp [replace, hindex]
    rw [hrows]
    cases hrow : i.rows[m]? with
    | none => rfl
    | some row => rw [Option.map_some, hother hrow (by simp [hindex])]
  | some k =>
    have hrows : (i.replace offset bs note).rows =
        i.rows.modify k fun row => { row with bytes := bs, note } := by simp [replace, hindex]
    rw [hrows, Array.getElem?_modify]
    cases hrow : i.rows[m]? with
    | none => simp
    | some row =>
      split_ifs with hkm
      · subst hkm
        obtain ⟨row', hrow', heq⟩ := (h offset k).1 hindex
        obtain rfl := Option.some.inj (hrow.symm.trans hrow')
        simp [Row.overwritten, heq]
      · rw [Option.map_some, hother hrow (by simpa [hindex] using hkm)]

/-- The new row starts at the end of the image, where no row starts yet. -/
theorem Indexed.append (h : i.Indexed)
    (hinside : ∀ (k : Nat) (row : Row), i.rows[k]? = some row → row.offset < i.size) (bs : Bytes)
    (note : Note) : (i.append bs note).Indexed := by
  intro offset k
  rw [index_append, rows_append]
  by_cases hbs : bs = []
  · rw [if_pos hbs, if_pos hbs]
    exact h offset k
  rw [if_neg hbs, if_neg hbs, RowIndex.get?_insert, Array.getElem?_push]
  by_cases hend : offset = i.size
  · subst hend
    rw [if_pos rfl]
    constructor
    · rintro ⟨⟩
      exact ⟨_, if_pos rfl, rfl⟩
    · rintro ⟨row, hrow, heq⟩
      split_ifs at hrow with hk
      · rw [hk]
      · exact absurd heq (hinside k row hrow).ne
  · rw [if_neg hend, h]
    constructor
    · rintro ⟨row, hrow, rfl⟩
      have hk : k ≠ i.rows.size := (Array.getElem?_eq_some_iff.1 hrow).1.ne
      exact ⟨row, by rw [if_neg hk, hrow], rfl⟩
    · rintro ⟨row, hrow, rfl⟩
      split_ifs at hrow with hk
      · cases hrow
        exact absurd rfl hend
      · exact ⟨row, hrow, rfl⟩

theorem Indexed.replace (h : i.Indexed) (bs : Bytes) (note : Note) :
    (i.replace offset bs note).Indexed := by
  intro o k
  rw [index_replace, rows_replace h, h o k, Array.getElem?_map]
  constructor
  · rintro ⟨row, hrow, rfl⟩
    exact ⟨_, by rw [hrow, Option.map_some], Row.offset_overwritten ..⟩
  · rintro ⟨row', hrow', rfl⟩
    obtain ⟨row, hrow, rfl⟩ := Option.map_eq_some_iff.1 hrow'
    exact ⟨row, hrow, (Row.offset_overwritten ..).symm⟩

theorem append_nil (i : Image) (note : Note) : i.append [] note = i := by
  simp [append]

end Image

/-! ## The rows of a segment -/

/-- How a field is shown: with the value of its cell, or pending if there is none that fits. -/
def Slot.row (s : Store) (x : Slot) : Row :=
  match (s.value? x.cell).map fun v => (v, x.format.encode v) with
  | some (v, .ok bs) => ⟨x.offset, bs, (Format.fixed x.format).describe (some v) x.label⟩
  | _ => ⟨x.offset, x.format.placeholder, (Format.fixed x.format).describe none x.label⟩

theorem Slot.row_of_value {s : Store} {x : Slot} {v : Datum} {bs : Bytes}
    (hv : s.value? x.cell = some v) (he : x.format.encode v = .ok bs) :
    x.row s = ⟨x.offset, bs, (Format.fixed x.format).describe (some v) x.label⟩ := by
  simp [Slot.row, hv, he]

@[simp] theorem Slot.offset_row (s : Store) (x : Slot) : (x.row s).offset = x.offset := by
  unfold Slot.row
  split <;> rfl

mutual

/-- The rows of a segment at the given offset, with the values that its cells have: one for each
piece that takes bytes. -/
def Segment.rows (s : Store) : Nat → Segment → List Row
  | a, .direct bytes note => if bytes = [] then [] else [⟨a, bytes, note⟩]
  | a, .deferred format c label =>
    if format.width = 0 then [] else [Slot.row s ⟨a, format, c, label⟩]
  | _, .mark _ | _, .postProcess _ => []
  | a, .nested segments => Segment.rowsAll s a segments

def Segment.rowsAll (s : Store) : Nat → List Segment → List Row
  | _, [] => []
  | a, segment :: rest => segment.rows s a ++ Segment.rowsAll s (a + segment.size) rest

end

def Region.rows (r : Region) (s : Store) : List Row := Segment.rowsAll s 0 r.segments

/-! ## What an image shows -/

/-- The store has every value that `s` has. -/
def Store.Knows (o s : Store) : Prop := ∀ c v, s.value? c = some v → o.value? c = some v

/-- Fields without bytes stand at the end of the image `i` only. -/
def Store.ZeroLast (s : Store) (i : ImageId) : Prop :=
  ∀ (f : FieldId) (p : Placeholder), s.placeholders[f]? = some p → p.image = i → p.width = 0 →
    (s.image i).size ≤ p.offset

/-- The move takes no value back and writes nothing to the image `i`. -/
def Move.Avoids (i : ImageId) (m : Move) : Prop := m.Keeps i ∧ ¬ m.Extends i

/-- The image `i` and its fields that take bytes are the same in both stores. -/
structure Untouched (i : ImageId) (s t : Store) : Prop where
  image : t.image i = s.image i
  fields : ∀ (f : FieldId) (p : Placeholder), p.image = i → 0 < p.width →
    (t.placeholders[f]? = some p ↔ s.placeholders[f]? = some p)

/-- The row is the other one already, or it is that of a pending field among those from `first` up
to `last`. -/
def Row.Becomes (s : Store) (i : ImageId) (first last : FieldId) (row row' : Row) : Prop :=
  row.offset = row'.offset ∧ (row = row' ∨ ∃ (f : FieldId) (p : Placeholder), first ≤ f ∧ f < last ∧
    s.placeholders[f]? = some p ∧ p.image = i ∧ 0 < p.width ∧ p.patched = false ∧
    p.offset = row'.offset)

/-- The image `i` has the given rows, apart from those of pending fields, which it will have when
the values that the store `o` knows have arrived. -/
structure Shown (o : Store) (i : ImageId) (first last : FieldId) (final : List Row) (s : Store) :
    Prop where
  indexed : (s.image i).Indexed
  size : (s.image i).rows.size = final.length
  rows : ∀ (k : Nat) (row row' : Row), (s.image i).rows[k]? = some row → final[k]? = some row' →
    row.Becomes s i first last row'
  sorted : final.Pairwise fun x y => x.offset < y.offset
  inside : ∀ row ∈ final, row.offset < (s.image i).size
  fields : ∀ (f : FieldId) (p : Placeholder), s.placeholders[f]? = some p → p.image = i →
    0 < p.width → p.slot.row o ∈ final

section Shown

variable {o s t : Store} {i : ImageId} {first last : FieldId} {final : List Row} {task : Task}
  {ts k : List Task}

theorem Store.ZeroLast.of_grows (h : t.ZeroLast i) (hst : Grows s t) : s.ZeroLast i := by
  intro f p hp hi hwidth
  obtain ⟨b, hb⟩ := hst.fields f p hp
  exact (hst.sizes i).trans (h f { p with patched := p.patched || b } hb hi hwidth)

theorem Shown.row_inside {m : Nat} {row : Row} (h : Shown o i first last final s)
    (hrow : (s.image i).rows[m]? = some row) : row.offset < (s.image i).size := by
  have hm : m < final.length := h.size ▸ (Array.getElem?_eq_some_iff.1 hrow).1
  rw [(h.rows m row final[m] hrow (List.getElem?_eq_getElem hm)).1]
  exact h.inside _ (List.getElem_mem hm)

/-- Rows that start at one offset are one row. -/
theorem Shown.eq_of_offset {x y : Row} (h : Shown o i first last final s) (hx : x ∈ final)
    (hy : y ∈ final) (hxy : x.offset = y.offset) : x = y := by
  have hnodup : (final.map Row.offset).Nodup := List.pairwise_map.2 (h.sorted.imp Nat.ne_of_lt)
  exact List.inj_on_of_nodup_map hnodup hx hy hxy

theorem Shown.untouched (hu : Untouched i s t) (h : Shown o i first last final s) :
    Shown o i first last final t where
  indexed := hu.image ▸ h.indexed
  size := by rw [hu.image, h.size]
  rows k row row' hrow hrow' := by
    rw [hu.image] at hrow
    obtain ⟨hoffset, heq | ⟨f, p, hf, hlast, hp, hpi, hwidth, hpatched, hpo⟩⟩ :=
      h.rows k row row' hrow hrow'
    · exact ⟨hoffset, .inl heq⟩
    · exact ⟨hoffset, .inr ⟨f, p, hf, hlast, (hu.fields f p hpi hwidth).2 hp, hpi, hwidth, hpatched,
        hpo⟩⟩
  sorted := h.sorted
  inside := hu.image ▸ h.inside
  fields f p hp hpi hwidth := h.fields f p ((hu.fields f p hpi hwidth).1 hp) hpi hwidth

/-- A patch makes the row of its field final, and leaves all others as they are. -/
theorem Row.Becomes.overwritten {f : FieldId} {p : Placeholder} {v : Datum} {bs : Bytes}
    {note : Note} {row row' : Row} (h : row.Becomes s i first last row')
    (hp : s.placeholders[f]? = some p)
    (hfinal : row'.offset = p.offset → row' = ⟨p.offset, bs, note⟩) :
    (row.overwritten p.offset bs note).Becomes (s.patched v f p bs) i first last row' := by
  obtain ⟨hoffset, hbecomes⟩ := h
  by_cases heq : row.offset = p.offset
  · rw [Row.overwritten, if_pos heq, hfinal (hoffset.symm.trans heq)]
    exact ⟨rfl, .inl rfl⟩
  · rw [Row.overwritten, if_neg heq]
    refine ⟨hoffset, hbecomes.imp_right ?_⟩
    rintro ⟨g, q, hg, hlast, hq, hqi, hw, hpatched, hqo⟩
    have hne : f ≠ g := by
      rintro rfl
      obtain rfl := Option.some.inj (hp.symm.trans hq)
      exact heq (hoffset.trans hqo.symm)
    refine ⟨g, q, hg, hlast, ?_, hqi, hw, hpatched, hqo⟩
    change (s.placeholders.modify f _)[g]? = _
    rwa [Array.getElem?_modify, if_neg hne]

theorem Shown.patch {f : FieldId} {p : Placeholder} {v : Datum} {bs : Bytes}
    (hi : i < s.images.size) (hp : s.placeholders[f]? = some p) (hpi : p.image = i)
    (hv : o.value? p.cell = some v) (he : p.format.encode v = .ok bs) (hz : s.ZeroLast i)
    (h : Shown o i first last final s) : Shown o i first last final (s.patched v f p bs) := by
  have himage : (s.patched v f p bs).image i = (s.image i).replace p.offset bs
      ((Format.fixed p.format).describe (some v) p.label) := by
    rw [image_patched, if_pos ⟨hpi.symm, hpi ▸ hi⟩, hpi]
  have hrows : ((s.patched v f p bs).image i).rows = (s.image i).rows.map
      (Row.overwritten p.offset bs ((Format.fixed p.format).describe (some v) p.label)) := by
    rw [himage, Image.rows_replace h.indexed]
  refine ⟨himage ▸ h.indexed.replace _ _, ?_, fun m row row' hrow hrow' => ?_, h.sorted,
    fun row hrow => ?_, fun g q hq hqi hw => ?_⟩
  · rw [hrows, Array.size_map, h.size]
  · rw [hrows, Array.getElem?_map] at hrow
    obtain ⟨old, hold, rfl⟩ := Option.map_eq_some_iff.1 hrow
    have hmem := List.mem_of_getElem? hrow'
    refine (h.rows m old row' hold hrow').overwritten hp fun hoffset => ?_
    -- A field without bytes starts where no row does.
    have hwidth : 0 < p.width := Nat.pos_of_ne_zero fun hzero => by
      have hend := hz f p hp hpi hzero
      have hinside := h.inside row' hmem
      omega
    have hfield := h.fields f p hp hpi hwidth
    rw [Slot.row_of_value (x := p.slot) hv he] at hfield
    exact h.eq_of_offset hmem hfield hoffset
  · rw [himage, Image.size_replace]
    exact h.inside row hrow
  · have hg : g < s.placeholders.size := by
      simpa [patched] using (Array.getElem?_eq_some_iff.1 hq).1
    obtain ⟨b, hb⟩ := (Grows.patched s v f p bs).fields g _ (Array.getElem?_eq_getElem hg)
    obtain rfl := Option.some.inj (hq.symm.trans hb)
    exact h.fields g s.placeholders[g] (Array.getElem?_eq_getElem hg) hqi hw

/-- A patch in another image. -/
theorem Untouched.patched {f : FieldId} {p : Placeholder} (v : Datum) (bs : Bytes)
    (hp : s.placeholders[f]? = some p) (hpi : p.image ≠ i) :
    Untouched i s (s.patched v f p bs) := by
  refine ⟨?_, fun g q hqi _ => ?_⟩
  · rw [image_patched, if_neg fun h => hpi h.1.symm]
  · change (s.placeholders.modify f _)[g]? = _ ↔ _
    rw [Array.getElem?_modify]
    split_ifs with hfg
    · subst hfg
      rw [hp]
      constructor
      · rintro ⟨⟩
        exact absurd hqi hpi
      · rintro ⟨⟩
        exact absurd hqi hpi
    · rfl

theorem Move.Avoids.untouched {m : Move} (h : m.Avoids i) (hd : m.Draws) :
    Untouched i s (m.apply s).1 := by
  obtain ⟨hkeeps, hextends⟩ := h
  cases m with
  | newImage => exact ⟨image_newImage s i, fun _ _ _ _ => Iff.rfl⟩
  | append j =>
    have hne : i ≠ j := fun h => hextends h.symm
    exact ⟨(image_modifyImage ..).trans (if_neg fun h => hne h.1), fun _ _ _ _ => Iff.rfl⟩
  | overwrite j =>
    have hne : i ≠ j := fun h => hkeeps h.symm
    exact ⟨(image_modifyImage ..).trans (if_neg fun h => hne h.1), fun _ _ _ _ => Iff.rfl⟩
  | place j format c label =>
    have hne : i ≠ j := fun h => hextends h.symm
    refine ⟨(image_placed ..).trans (if_neg fun h => hne h.1), fun f p hpi _ => ?_⟩
    change (s.placeholders.push _)[f]? = _ ↔ _
    rw [Array.getElem?_push]
    split_ifs with hf
    · constructor
      · rintro ⟨⟩
        exact absurd hpi.symm hne
      · intro hp
        exact absurd (Array.getElem?_eq_some_iff.1 hp).1 (hf ▸ lt_irrefl _)
    · rfl
  | _ => exact hd.elim

/-- A reaction leaves the image alone, or patches one of its fields. -/
theorem Reacts.untouched_or_patch (hr : Reacts s task t ts)
    (hm : ∀ m, task = .move m → m.Avoids i) : Untouched i s t ∨
      ∃ c f v p bs, task = .notify c (.patch f) v ∧ s.placeholders[f]? = some p ∧ p.image = i ∧
        p.format.encode v = .ok bs ∧ t = s.patched v f p bs := by
  obtain ⟨himages, hfields⟩ | ⟨c, f, v, p, bs, rfl, hp, he, -, rfl⟩ | ⟨m, rfl, hdraws, -, rfl⟩ :=
    hr.draws
  · exact .inl ⟨by rw [image, himages, image], fun f p _ _ => by rw [hfields]⟩
  · by_cases hpi : p.image = i
    · exact .inr ⟨c, f, v, p, bs, rfl, hp, hpi, he, rfl⟩
    · exact .inl (.patched v bs hp hpi)
  · exact .inl ((hm m rfl).untouched hdraws)

theorem Shown.step (hl : Lasting s (task :: k)) (hr : Reacts s task t ts) (hi : i < s.images.size)
    (hm : ∀ m, task = .move m → m.Avoids i) (ho : o.Knows s) (hz : s.ZeroLast i)
    (h : Shown o i first last final s) : Shown o i first last final t := by
  obtain hu | ⟨c, f, v, p, bs, rfl, hp, hpi, he, rfl⟩ := hr.untouched_or_patch hm
  · exact h.untouched hu
  · exact h.patch hi hp hpi (ho _ _ (hl.patch_value hp)) he hz

theorem Store.ZeroLast.step (hr : Reacts s task t ts) (hm : ∀ m, task = .move m → m.Avoids i)
    (h : s.ZeroLast i) : t.ZeroLast i := by
  intro f p hp hpi hwidth
  rw [hr.size_image_eq fun m htask => (hm m htask).2]
  obtain ⟨q, b, hq, rfl⟩ | ⟨j, format, c, label, htask, -, -, -, rfl⟩ := hr.placeholder_cases hp
  · exact h f q hq hpi hwidth
  · exact absurd hpi (hm _ htask).2

theorem Shown.steps (hst : Steps (Move.Avoids i) s t) (hl : Lasting s []) (hi : i < s.images.size)
    (ho : o.Knows t) (hz : s.ZeroLast i) (h : Shown o i first last final s) :
    Shown o i first last final t := by
  -- Values last, so what is known at the end is known on the way.
  have hsteps := hst.keep (F := fun u => i < u.images.size ∧ u.ZeroLast i ∧
      (o.Knows u → Shown o i first last final u))
    (fun _ hm => hm.1.lasting) hl
    (fun {u task v ts k} hl hm hr hu => by
      refine ⟨hu.1.trans_le hr.grows.images, hu.2.1.step hr hm, fun ho => ?_⟩
      have ho' : o.Knows u := fun c w hw => ho c w (hl.value?_step hr hw)
      exact (hu.2.2 ho').step hl hr hu.1 hm ho' hu.2.1)
    ⟨hi, hz, fun _ => h⟩
  exact hsteps.2.2 ho

/-- What is appended has the next row. -/
theorem Shown.append {bs : Bytes} {note : Note} {row' : Row} (hbs : bs ≠ [])
    (himage : t.image i = (s.image i).append bs note)
    (hold : ∀ (f : FieldId) (p : Placeholder), s.placeholders[f]? = some p →
      t.placeholders[f]? = some p)
    (hnew : ∀ (f : FieldId) (p : Placeholder), t.placeholders[f]? = some p → p.image = i →
      0 < p.width → s.placeholders[f]? = some p ∨ p.slot.row o = row')
    (hrow : Row.Becomes t i first last ⟨(s.image i).size, bs, note⟩ row')
    (h : Shown o i first last final s) : Shown o i first last (final ++ [row']) t := by
  have hrows : (t.image i).rows = (s.image i).rows.push ⟨(s.image i).size, bs, note⟩ := by
    rw [himage, Image.rows_append, if_neg hbs]
  have hoffset : row'.offset = (s.image i).size := hrow.1.symm
  have hsize : (s.image i).size < (t.image i).size := by
    have := List.length_pos_of_ne_nil hbs
    rw [himage, Image.size_append]
    omega
  refine ⟨himage ▸ h.indexed.append (fun _ _ => h.row_inside) _ _, ?_, fun k row row'' hk hk' => ?_,
    ?_, fun row hmem => ?_, fun f p hp hpi hw => ?_⟩
  · simp [hrows, h.size]
  · rw [hrows, Array.getElem?_push] at hk
    split_ifs at hk with hlast
    · rw [hlast, h.size, List.getElem?_concat_length] at hk'
      cases hk
      cases hk'
      exact hrow
    · have hk'' : final[k]? = some row'' := by
        have := (Array.getElem?_eq_some_iff.1 hk).1
        rwa [List.getElem?_append_left (h.size ▸ this)] at hk'
      obtain ⟨heq, hbecomes⟩ := h.rows k row row'' hk hk''
      refine ⟨heq, hbecomes.imp_right ?_⟩
      rintro ⟨f, p, hf, hl, hp, hrest⟩
      exact ⟨f, p, hf, hl, hold f p hp, hrest⟩
  · refine List.pairwise_append.2 ⟨h.sorted, List.pairwise_singleton .., fun x hx y hy => ?_⟩
    rw [List.mem_singleton.1 hy, hoffset]
    exact h.inside x hx
  · obtain hmem | hmem := List.mem_append.1 hmem
    · exact (h.inside row hmem).trans hsize
    · rwa [List.mem_singleton.1 hmem, hoffset]
  · obtain hp' | heq := hnew f p hp hpi hw
    · exact List.mem_append_left _ (h.fields f p hp' hpi hw)
    · rw [heq]
      exact List.mem_append_right _ (List.mem_singleton_self row')

theorem Shown.direct (hi : i < s.images.size) (bs : Bytes) (note : Note)
    (h : Shown o i first last final s) :
    Shown o i first last (final ++ Segment.rows o (s.image i).size (.direct bs note))
      (s.modifyImage i (·.append bs note)) := by
  have himage : (s.modifyImage i (·.append bs note)).image i = (s.image i).append bs note := by
    rw [image_modifyImage, if_pos ⟨rfl, hi⟩]
  rw [Segment.rows]
  split_ifs with hbs
  · subst hbs
    rw [List.append_nil]
    exact h.untouched ⟨himage.trans (Image.append_nil ..), fun _ _ _ _ => Iff.rfl⟩
  · exact h.append hbs himage (fun _ _ hp => hp) (fun _ _ hp _ _ => .inl hp) ⟨rfl, .inl rfl⟩

theorem Shown.placed {c : CellId} {format : FixedFormat} {label : Option String}
    (hi : i < s.images.size) (hf : first ≤ s.placeholders.size) (hlast : s.placeholders.size < last)
    (h : Shown o i first last final s) :
    Shown o i first last (final ++ Segment.rows o (s.image i).size (.deferred format c label))
      (s.placed c i format label) := by
  have himage : (s.placed c i format label).image i =
      (s.image i).append format.placeholder ((Format.fixed format).describe none label) := by
    rw [image_placed, if_pos ⟨rfl, hi⟩]
  have hfield : ∀ (f : FieldId), (s.placed c i format label).placeholders[f]? =
      if f = s.placeholders.size then some (s.nextPlaceholder c i format label)
      else s.placeholders[f]? := fun f => Array.getElem?_push
  have hold : ∀ (f : FieldId) (p : Placeholder), s.placeholders[f]? = some p →
      (s.placed c i format label).placeholders[f]? = some p := by
    intro f p hp
    rw [hfield, if_neg (Array.getElem?_eq_some_iff.1 hp).1.ne, hp]
  rw [Segment.rows]
  split_ifs with hwidth
  · rw [List.append_nil]
    refine h.untouched ⟨?_, fun f p _ hw => ⟨fun hp => ?_, hold f p⟩⟩
    · rw [himage, FixedFormat.placeholder, hwidth]
      exact Image.append_nil ..
    · rw [hfield] at hp
      split_ifs at hp with hnew
      · obtain rfl := Option.some.inj hp
        exact absurd hwidth hw.ne'
      · exact hp
  · refine h.append ?_ himage hold (fun f p hp _ _ => ?_) ⟨by simp, .inr ⟨s.placeholders.size,
      s.nextPlaceholder c i format label, hf, hlast, by rw [hfield, if_pos rfl], rfl,
      Nat.pos_of_ne_zero hwidth, rfl, by simp [nextPlaceholder]⟩⟩
    · exact List.ne_nil_of_length_pos (by simpa using Nat.pos_of_ne_zero hwidth)
    · rw [hfield] at hp
      split_ifs at hp with hnew
      · obtain rfl := Option.some.inj hp
        exact .inr rfl
      · exact .inl hp

theorem Move.Plain.avoids {m : Move} (h : m.Plain) (hd : ¬ m.Draws) : m.Avoids i := by
  refine ⟨h.keeps i, fun hextends => hd ?_⟩
  cases m with
  | append | place => trivial
  | _ => exact hextends.elim

/-- Whatever knows the values at the end of a run knows those at its start. -/
theorem Store.Knows.of_steps {P : Move → Prop} (ho : o.Knows t) (hst : Steps P s t)
    (hP : ∀ m, P m → m.Lasting) (hl : Lasting s []) : o.Knows s :=
  fun c v hv => ho c v (hst.value?_eq hP hl hv)

theorem Segment.rowsAll_append (o : Store) (a : Nat) (xs ys : List Segment) :
    rowsAll o a (xs ++ ys) = rowsAll o a xs ++ rowsAll o (a + sizeAll xs) ys := by
  induction xs generalizing a with
  | nil => rfl
  | cons x xs ih =>
    rw [List.cons_append, rowsAll, rowsAll, ih, List.append_assoc, sizeAll, Nat.add_assoc]

theorem Emission.shown {s t : Store} {segments : List Segment} {final : List Row}
    (h : Emission i segments s t) (hl : Lasting s []) (hi : i < s.images.size)
    (hw : Segment.WithinAll s.cells.size segments) (hf : first ≤ s.placeholders.size)
    (hlast : t.placeholders.size ≤ last) (ho : o.Knows t) (hz : t.ZeroLast i)
    (hs : Shown o i first last final s) :
    Shown o i first last (final ++ Segment.rowsAll o (s.image i).size segments) t := by
  induction h generalizing final with
  | @note s log trace reports =>
    have hquiet : Untouched i s { s with log, trace, reports } := ⟨rfl, fun _ _ _ _ => Iff.rfl⟩
    rw [Segment.rowsAll, List.append_nil]
    exact hs.untouched hquiet
  | direct bytes note =>
    rw [Segment.rowsAll, Segment.rowsAll, List.append_nil]
    exact hs.direct hi bytes note
  | @known s format c label v bytes hv he =>
    have hshown := hs.direct hi bytes ((Format.fixed format).describe (some v) label)
    have hempty : bytes = [] ↔ format.width = 0 := by
      rw [← FixedFormat.length_encode he, List.length_eq_zero_iff]
    rw [Segment.rowsAll, Segment.rowsAll, List.append_nil]
    simp only [Segment.rows, hempty] at hshown ⊢
    rwa [Slot.row_of_value (x := ⟨_, format, c, label⟩) (ho c v hv) he]
  | place format label =>
    rw [Segment.rowsAll, Segment.rowsAll, List.append_nil]
    exact hs.placed hi hf (by simpa [Store.placed] using hlast)
  | @mark s t c hrun =>
    have hsettle : Steps (fun m => ¬ m.Draws ∧ m.Plain) s t :=
      after_of_ok hrun ▸ steps_settleOrConfirm hl.toValid hw.1 ⟨id, trivial⟩
    simpa [Segment.rowsAll, Segment.rows] using hs.steps
      (hsettle.mono fun _ hm => hm.2.avoids hm.1) hl hi ho (hz.of_grows hsettle.grows)
  | postProcess => simpa [Segment.rowsAll, Segment.rows] using hs
  | nested _ ih =>
    rw [Segment.rowsAll, Segment.rowsAll, List.append_nil]
    exact ih hl hi hw.1 hf hlast ho hz hs
  | append h g ih ih' =>
    obtain ⟨hxs, hys⟩ := Segment.withinAll_append.1 hw
    obtain ⟨hlu, hiu, hsu⟩ := h.lasting hl hi hxs
    have hwu := hys.mono hsu.cells
    have hut := g.steps hlu.toValid hiu le_rfl hwu
    have hshown := ih hl hi hxs hf (hut.grows.placeholders.trans hlast)
      (ho.of_steps hut (fun m hm => hm.plain.lasting) hlu) (hz.of_grows hut.grows) hs
    have hrest := ih' hlu hiu hwu (hf.trans hsu.placeholders) hlast ho hz hshown
    rwa [h.size hl.toValid hi hxs, List.append_assoc, ← Segment.rowsAll_append] at hrest

/-- An empty image has no rows, and no field that takes bytes. -/
theorem Shown.empty (hv : Valid s []) (hempty : s.image i = {}) : Shown o i first last [] s where
  indexed := hempty ▸ .empty
  size := by simp [hempty]
  rows k row row' _ hrow' := by simp at hrow'
  sorted := .nil
  inside row hrow := by simp at hrow
  fields f p hp hpi hwidth := by
    have hinside := (hv.fields f p hp).2.2
    have hsize : (s.image p.image).size = 0 := by
      rw [hpi, hempty]
      rfl
    omega

theorem Region.layoutObserved_shown {r : Region} {observer : Observer} {l : Layout}
    (hl : Lasting s []) (hi : i < s.images.size) (hw : r.Within s.cells.size)
    (hempty : s.image i = {}) (h : r.layoutObserved i observer s = .ok l t) (ho : o.Knows t)
    (hz : t.ZeroLast i) : Shown o i l.first l.last (r.rows o) t := by
  obtain ⟨hemit, rfl⟩ := layoutObserved_eq_ok h
  have hs : Steps (Move.Writes i 0) s ((emit
    (.flattening r.segments.length (s.image i).size)).after s) := steps_emit _ fun _ _ _ => trivial
  have hs' := hs.lasting (fun m hm => hm.plain.lasting) hl
  have hshown := (emitObserved_emits hemit).emission.shown hs' hi hw le_rfl le_rfl ho hz
    (Shown.empty hs'.toValid hempty)
  change Shown o i _ _ ([] ++ Segment.rowsAll o (s.image i).size r.segments) t at hshown
  rwa [hempty] at hshown

/-- Once no field is pending, the rows are final. -/
theorem Shown.rows_eq (h : Shown o i first last final s)
    (hpatched : ∀ (f : FieldId) (p : Placeholder), first ≤ f → f < last →
      s.placeholders[f]? = some p → p.patched = true) : (s.image i).rows.toList = final := by
  refine List.ext_getElem (by simpa using h.size) fun k hk hk' => ?_
  have hrow : (s.image i).rows[k]? = some (s.image i).rows.toList[k] := by simp at hk ⊢
  obtain ⟨-, heq | ⟨f, p, hf, hlast, hp, -, -, hpending, -⟩⟩ :=
    h.rows k _ _ hrow (List.getElem?_eq_getElem hk')
  · exact heq
  · exact absurd (hpatched f p hf hlast hp) (by simp [hpending])

end Shown

end Backpatch
