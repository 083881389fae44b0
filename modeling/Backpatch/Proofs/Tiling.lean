import Mathlib
import Backpatch.Proofs.Digests
import Backpatch.Proofs.Rows

/-!
# The rows tile the image

Appending adds a row for every run of bytes that is not empty, behind the row before it, and puts it
into the index. Writing over a run that was appended changes the bytes of the row that the index
has for its offset, and those of the image at the same place. So the rows cover the image without
gaps, and the offset of a row is enough to find it, by the index as well as by bisection.
-/

namespace Backpatch

open Store Failable

/-! ## Bisection -/

namespace Image

/-- The rows start at different offsets and stand in the order of them. -/
def Sorted (rows : Array Row) : Prop := rows.Pairwise fun x y => x.offset < y.offset

variable {rows : Array Row} {offset steps low high k : Nat} {row : Row}

theorem Sorted.lt {row' : Row} {m : Nat} (h : Sorted rows) (hk : rows[k]? = some row)
    (hm : rows[m]? = some row') (hkm : k < m) : row.offset < row'.offset := by
  obtain ⟨hk', rfl⟩ := Array.getElem?_eq_some_iff.1 hk
  obtain ⟨hm', rfl⟩ := Array.getElem?_eq_some_iff.1 hm
  exact Array.pairwise_iff_getElem.1 h k m hk' hm' hkm

theorem Sorted.le {row' : Row} {m : Nat} (h : Sorted rows) (hk : rows[k]? = some row)
    (hm : rows[m]? = some row') (hkm : k ≤ m) : row.offset ≤ row'.offset := by
  obtain hkm | rfl := Nat.lt_or_eq_of_le hkm
  · exact (h.lt hk hm hkm).le
  · rw [Option.some.inj (hk.symm.trans hm)]

theorem Sorted.index_eq {row' : Row} {m : Nat} (h : Sorted rows) (hk : rows[k]? = some row)
    (hm : rows[m]? = some row') (heq : row.offset = row'.offset) : k = m := by
  rcases Nat.lt_trichotomy k m with hlt | heq' | hlt
  · exact absurd heq (h.lt hk hm hlt).ne
  · exact heq'
  · exact absurd heq (h.lt hm hk hlt).ne'

theorem searchRow_sound (h : searchRow rows offset steps low high = some k) :
    ∃ row, rows[k]? = some row ∧ row.offset = offset := by
  fun_induction searchRow rows offset steps low high with
  | case1 | case2 | case6 => cases h
  | case3 _ _ _ _ _ row hrow heq =>
    obtain rfl := Option.some.inj h
    exact ⟨row, hrow, heq⟩
  | case4 _ _ _ _ _ _ _ _ _ ih | case5 _ _ _ _ _ _ _ _ _ ih => exact ih h

/-- A row in the range that is searched is found. -/
theorem searchRow_complete (hs : Sorted rows) (hrow : rows[k]? = some row) (hlow : low ≤ k)
    (hhigh : k < high) (hsize : high ≤ rows.size) (hsteps : high - low < steps) :
    searchRow rows row.offset steps low high = some k := by
  generalize hoffset : row.offset = offset
  fun_induction searchRow rows offset steps low high with
  | case1 => omega
  | case2 steps low high hlt middle hnone =>
    have hmiddle : middle < rows.size := by omega
    simp [hmiddle] at hnone
  | case3 steps low high hlt middle found hfound heq =>
    exact congrArg some (hs.index_eq hfound hrow (heq.trans hoffset.symm))
  | case4 steps low high hlt middle found hfound hne hless ih =>
    have hright : middle < k := Nat.lt_of_not_le fun hle => by
      have := hs.le hrow hfound hle
      omega
    exact ih hright hhigh hsize (by omega)
  | case5 steps low high hlt middle found hfound hne hless ih =>
    have hleft : k < middle := Nat.lt_of_not_le fun hle => by
      have := hs.le hfound hrow hle
      omega
    exact ih hlow hleft (by omega) (by omega)
  | case6 => omega

theorem rowIndex?_sound {i : Image} (h : i.rowIndex? offset = some k) :
    ∃ row, i.rows[k]? = some row ∧ row.offset = offset :=
  searchRow_sound h

theorem rowIndex?_complete {i : Image} (hs : Sorted i.rows) (hrow : i.rows[k]? = some row) :
    i.rowIndex? row.offset = some k :=
  searchRow_complete hs hrow (Nat.zero_le k) (Array.getElem?_eq_some_iff.1 hrow).1 le_rfl
    (Nat.lt_succ_self _)

end Image

/-! ## Tilings -/

/-- Rows with bytes, one behind the other, from `a` up to `b`. -/
def Row.Tiles : Nat → List Row → Nat → Prop
  | a, [], b => a = b
  | a, row :: rows, b => row.offset = a ∧ row.bytes ≠ [] ∧ Row.Tiles (a + row.bytes.length) rows b

/-- Where a row starts, and how many bytes it has. -/
def Row.extent (row : Row) : Nat × Nat := (row.offset, row.bytes.length)

namespace Row.Tiles

variable {a b c : Nat} {rows rows' : List Row} {row : Row}

theorem append (h : Row.Tiles a rows b) (h' : Row.Tiles b rows' c) :
    Row.Tiles a (rows ++ rows') c := by
  induction rows generalizing a with
  | nil => exact h ▸ h'
  | cons row rows ih => exact ⟨h.1, h.2.1, ih h.2.2⟩

theorem le (h : Row.Tiles a rows b) : a ≤ b := by
  induction rows generalizing a with
  | nil => exact h.le
  | cons row rows ih => exact (Nat.le_add_right ..).trans (ih h.2.2)

theorem inside (h : Row.Tiles a rows b) (hrow : row ∈ rows) :
    a ≤ row.offset ∧ row.offset + row.bytes.length ≤ b := by
  induction rows generalizing a with
  | nil => cases hrow
  | cons first rows ih =>
    obtain ⟨rfl, -, htail⟩ := h
    rcases List.mem_cons.1 hrow with rfl | hrow
    · exact ⟨le_rfl, htail.le⟩
    · exact ⟨(Nat.le_add_right ..).trans (ih htail hrow).1, (ih htail hrow).2⟩

/-- What comes later starts behind what comes first. -/
theorem apart (h : Row.Tiles a rows b) :
    rows.Pairwise fun x y => x.offset + x.bytes.length ≤ y.offset := by
  induction rows generalizing a with
  | nil => exact .nil
  | cons row rows ih =>
    obtain ⟨rfl, -, htail⟩ := h
    exact List.pairwise_cons.2 ⟨fun y hy => (htail.inside hy).1, ih htail⟩

/-- Two different rows have no byte in common. -/
theorem disjoint (h : Row.Tiles a rows b) {x y : Row} (hx : x ∈ rows) (hy : y ∈ rows)
    (hne : x ≠ y) :
    x.offset + x.bytes.length ≤ y.offset ∨ y.offset + y.bytes.length ≤ x.offset := by
  obtain ⟨k, hk, rfl⟩ := List.getElem_of_mem hx
  obtain ⟨m, hm, rfl⟩ := List.getElem_of_mem hy
  have hapart := List.pairwise_iff_getElem.1 h.apart
  rcases Nat.lt_trichotomy k m with hlt | rfl | hlt
  · exact .inl (hapart k m hk hm hlt)
  · exact absurd rfl hne
  · exact .inr (hapart m k hm hk hlt)

theorem ne_nil (h : Row.Tiles a rows b) (hrow : row ∈ rows) : row.bytes ≠ [] := by
  induction rows generalizing a with
  | nil => cases hrow
  | cons first rows ih =>
    rcases List.mem_cons.1 hrow with rfl | hrow
    · exact h.2.1
    · exact ih h.2.2 hrow

/-- Only where rows are and how long they are matters. -/
theorem of_extents (h : Row.Tiles a rows b) (heq : rows'.map Row.extent = rows.map Row.extent) :
    Row.Tiles a rows' b := by
  induction rows generalizing a rows' with
  | nil => rwa [List.map_eq_nil_iff.1 heq]
  | cons row rows ih =>
    obtain ⟨row', rows', rfl, hrow, hrows⟩ := List.map_eq_cons_iff.1 heq
    obtain ⟨hoffset, hlength⟩ := Prod.mk.inj hrow
    obtain ⟨rfl, hne, htail⟩ := h
    refine ⟨hoffset, ?_, ?_⟩
    · rwa [← List.length_pos_iff, hlength, List.length_pos_iff]
    · rw [hlength]
      exact ih htail hrows

end Row.Tiles

/-! ## One write -/

/-- The rows tile the image, each holds the bytes of the image at its place, and the index has them
all. -/
structure Image.Tiled (i : Image) : Prop where
  rows : Row.Tiles 0 i.view.rows i.size
  bytes : ∀ row ∈ i.view.rows, i.slice row.offset row.bytes.length = row.bytes
  indexed : i.Indexed

namespace Image

variable {i : Image} {offset k : Nat} {bs : Bytes} {note : Note} {row : Row}

theorem Tiled.empty : Tiled {} := ⟨rfl, by simp [view], .empty⟩

theorem Tiled.sorted (h : i.Tiled) : Sorted i.rows := by
  refine h.rows.apart.imp_of_mem fun {x _} hx _ hle => ?_
  have := List.length_pos_iff.2 (h.rows.ne_nil hx)
  omega

theorem Tiled.row_inside (h : i.Tiled) (hrow : i.rows[k]? = some row) : row.offset < i.size := by
  have hmem : row ∈ i.view.rows := List.mem_of_getElem? (Array.getElem?_toList.trans hrow)
  have hinside := (h.rows.inside hmem).2
  have := List.length_pos_iff.2 (h.rows.ne_nil hmem)
  omega

theorem view_append (i : Image) (bs : Bytes) (note : Note) :
    (i.append bs note).view.rows =
      i.view.rows ++ if bs = [] then [] else [⟨i.size, bs, note⟩] := by
  unfold view
  rw [rows_append]
  split_ifs with h <;> simp

theorem Tiled.append (h : i.Tiled) (bs : Bytes) (note : Note) : (i.append bs note).Tiled where
  rows := by
    rw [view_append, size_append]
    refine h.rows.append ?_
    split_ifs with hbs
    · simp [hbs, Row.Tiles]
    · exact ⟨rfl, hbs, rfl⟩
  bytes row hrow := by
    rw [view_append, List.mem_append] at hrow
    rcases hrow with hrow | hrow
    · rw [slice_append i _ _ bs note (h.rows.inside hrow).2]
      exact h.bytes row hrow
    · split_ifs at hrow with hbs
      · cases hrow
      · obtain rfl := List.mem_singleton.1 hrow
        exact slice_append_end i bs note
  indexed := h.indexed.append (fun _ _ => h.row_inside) bs note

/-- Two rows that start at one offset are one row. -/
theorem Tiled.eq_of_offset {row' : Row} (h : i.Tiled) (hrow : row ∈ i.view.rows)
    (hrow' : row' ∈ i.view.rows) (heq : row.offset = row'.offset) : row = row' := by
  have hnodup : (i.view.rows.map Row.offset).Nodup :=
    List.pairwise_map.2 (h.sorted.imp Nat.ne_of_lt)
  exact List.inj_on_of_nodup_map hnodup hrow hrow' heq

theorem Tiled.view_replace (h : i.Tiled) (offset : Nat) (bs : Bytes) (note : Note) :
    (i.replace offset bs note).view.rows = i.view.rows.map (Row.overwritten offset bs note) := by
  simp [view, rows_replace h.indexed]

/-- The row that starts where a run of bytes is written has as many bytes. -/
theorem Tiled.length_eq (h : i.Tiled) (hrun : (offset, bs.length) ∈ i.view.rows.map Row.extent)
    (hrow : row ∈ i.view.rows) (heq : row.offset = offset) : row.bytes.length = bs.length := by
  obtain ⟨found, hfound, hextent⟩ := List.mem_map.1 hrun
  obtain ⟨hoffset, hlength⟩ := Prod.mk.inj hextent
  rwa [h.eq_of_offset hrow hfound (heq.trans hoffset.symm)]

theorem Tiled.extents_replace (h : i.Tiled)
    (hrun : (offset, bs.length) ∈ i.view.rows.map Row.extent) :
    (i.replace offset bs note).view.rows.map Row.extent = i.view.rows.map Row.extent := by
  rw [h.view_replace, List.map_map]
  refine List.map_congr_left fun row hrow => ?_
  unfold Function.comp Row.overwritten
  split_ifs with heq
  · exact Prod.ext heq.symm (h.length_eq hrun hrow heq).symm
  · rfl

/-- Writing over all bytes of a row keeps the tiling. -/
theorem Tiled.replace (h : i.Tiled) (hrun : (offset, bs.length) ∈ i.view.rows.map Row.extent) :
    (i.replace offset bs note).Tiled := by
  obtain ⟨found, hfound, hextent⟩ := List.mem_map.1 hrun
  obtain ⟨rfl, hlength⟩ := Prod.mk.inj hextent
  have hsize : found.offset + bs.length ≤ i.size := hlength ▸ (h.rows.inside hfound).2
  refine ⟨size_replace i found.offset bs note ▸ h.rows.of_extents (h.extents_replace hrun), ?_,
    h.indexed.replace bs note⟩
  rw [h.view_replace]
  intro row' hrow'
  obtain ⟨row, hrow, rfl⟩ := List.mem_map.1 hrow'
  unfold Row.overwritten
  split_ifs with heq
  · exact slice_replace i found.offset bs note hsize
  · -- Another row has no byte in common with the one that is written.
    have hapart := h.rows.disjoint hrow hfound fun h => heq (congrArg Row.offset h)
    rw [hlength] at hapart
    rw [slice_replace_apart i _ _ _ bs note hsize hapart]
    exact h.bytes row hrow

theorem Tiled.get?_index_eq_some_iff (h : i.Tiled) :
    i.index.get? offset = some k ↔ ∃ row, i.view.rows[k]? = some row ∧ row.offset = offset := by
  simp only [view, Array.getElem?_toList]
  exact h.indexed offset k

theorem Tiled.rowIndex?_eq_some_iff (h : i.Tiled) :
    i.rowIndex? offset = some k ↔ ∃ row, i.view.rows[k]? = some row ∧ row.offset = offset := by
  simp only [view, Array.getElem?_toList]
  constructor
  · exact rowIndex?_sound
  · rintro ⟨row, hrow, rfl⟩
    exact rowIndex?_complete h.sorted hrow

theorem Tiled.rowAt?_eq_some_iff (h : i.Tiled) :
    i.rowAt? offset = some row ↔ row ∈ i.view.rows ∧ row.offset = offset := by
  rw [rowAt?, Option.bind_eq_some_iff, List.mem_iff_getElem?]
  simp only [h.rowIndex?_eq_some_iff, ← Array.getElem?_toList]
  constructor
  · rintro ⟨k, ⟨found, hfound, rfl⟩, hrow⟩
    obtain rfl := Option.some.inj (hfound.symm.trans hrow)
    exact ⟨⟨k, hrow⟩, rfl⟩
  · rintro ⟨⟨k, hrow⟩, rfl⟩
    exact ⟨k, ⟨row, hrow, rfl⟩, hrow⟩

theorem Tiled.rowAt?_eq_none_iff (h : i.Tiled) :
    i.rowAt? offset = none ↔ ∀ row ∈ i.view.rows, row.offset ≠ offset := by
  simp only [Option.eq_none_iff_forall_ne_some, ne_eq, h.rowAt?_eq_some_iff, not_and]

theorem read_eq_ok_iff {start stop : Nat} :
    i.read start stop = .ok bs ↔
      start ≤ stop ∧ stop ≤ i.size ∧ bs = i.slice start (stop - start) := by
  refine ⟨read_eq_ok, ?_⟩
  rintro ⟨hle, hsize, rfl⟩
  have hrange : i.checkRange start (stop - start) = .ok () := by
    rw [checkRange, if_pos (by omega)]
  simp only [read, if_neg (Nat.not_lt.2 hle), hrange, slice, Image.bytes,
    ← List.extract_eq_take_drop, ← Array.toList_extract]
  rfl

end Image

/-! ## A sequence of writes -/

/-- Something that is written to an image. -/
inductive Write where
  | append (bs : Bytes) (note : Note)
  | overwrite (offset : Nat) (bs : Bytes) (note : Note)

namespace Write

def run (i : ImageId) : Write → Op Unit
  | .append bs note => Store.append i bs note
  | .overwrite offset bs note => Store.overwrite i offset bs note

/-- The number of bytes by which the image grows. -/
def growth : Write → Nat
  | .append bs _ => bs.length
  | .overwrite .. => 0

/-- The store after all writes, whether or not some of them fail. -/
def runAll (i : ImageId) (writes : List Write) (s : Store) : Store :=
  writes.foldl (fun s write => (write.run i).after s) s

def total (writes : List Write) : Nat := (writes.map growth).sum

/-- The non-empty runs that the writes append from `a` on: where each starts and how long it is. -/
def runs : Nat → List Write → List (Nat × Nat)
  | _, [] => []
  | a, .append bs _ :: writes =>
    (if bs = [] then [] else [(a, bs.length)]) ++ runs (a + bs.length) writes
  | a, .overwrite .. :: writes => runs a writes

/-- Every run that is written over was appended before, or it lies beyond the end of the image. -/
inductive Legal : List Write → Prop
  | nil : Legal []
  | append {writes : List Write} (bs : Bytes) (note : Note) : Legal writes →
    Legal (writes ++ [.append bs note])
  | overwrite {writes : List Write} {offset : Nat} {bs : Bytes} (note : Note) : Legal writes →
    (offset, bs.length) ∈ runs 0 writes ∨ total writes < offset + bs.length →
    Legal (writes ++ [.overwrite offset bs note])

variable {i : ImageId} {s t : Store} {writes : List Write} {offset : Nat} {bs : Bytes} {note : Note}

theorem runs_append (a : Nat) (writes writes' : List Write) :
    runs a (writes ++ writes') = runs a writes ++ runs (a + total writes) writes' := by
  induction writes generalizing a with
  | nil => rfl
  | cons write writes ih =>
    cases write with
    | append bs note => simp [runs, total, growth, ih, Nat.add_assoc]
    | overwrite offset bs note => simp [runs, total, growth, ih]

@[simp] theorem total_snoc (writes : List Write) (write : Write) :
    total (writes ++ [write]) = total writes + write.growth := by
  simp [total]

@[simp] theorem runAll_snoc (i : ImageId) (writes : List Write) (write : Write) (s : Store) :
    runAll i (writes ++ [write]) s = (write.run i).after (runAll i writes s) := by
  simp [runAll]

end Write

namespace Store

variable {i : ImageId} {s : Store} {offset : Nat} {bs : Bytes} {note : Note}

theorem overwrite_inside (h : offset + bs.length ≤ (s.image i).size) :
    overwrite i offset bs note s = .ok () (s.modifyImage i (·.replace offset bs note)) := by
  simp [overwrite, Image.checkRange, h]

theorem overwrite_outside (h : (s.image i).size < offset + bs.length) :
    overwrite i offset bs note s = .error (.outOfBounds offset bs.length (s.image i).size) s := by
  simp [overwrite, Image.checkRange, Nat.not_le.2 h]

end Store

/-- The image `i` is the one that the writes make of an empty one. -/
structure Covered (i : ImageId) (writes : List Write) (s : Store) : Prop where
  known : i < s.images.size
  size : (s.image i).size = Write.total writes
  runs : (s.image i).view.rows.map Row.extent = Write.runs 0 writes
  tiled : (s.image i).Tiled

namespace Covered

variable {i : ImageId} {s t : Store} {writes : List Write} {offset : Nat} {bs : Bytes} {note : Note}

theorem start (h : newImage s = .ok i t) : Covered i [] t := by
  obtain ⟨rfl, rfl⟩ := EStateM.Result.ok.inj h
  have himage : ({ s with images := s.images.push {} } : Store).image s.images.size = {} :=
    (image_newImage s _).trans (image_of_size_le s _ le_rfl)
  refine ⟨by simp, ?_, ?_, ?_⟩
  · rw [himage, Image.size]
    rfl
  · rw [himage]
    rfl
  · rw [himage]
    exact .empty

theorem append (h : Covered i writes s) (bs : Bytes) (note : Note) :
    Covered i (writes ++ [.append bs note]) (((Write.append bs note).run i).after s) := by
  have himage : (((Write.append bs note).run i).after s).image i =
      (s.image i).append bs note :=
    (image_modifyImage ..).trans (if_pos ⟨rfl, h.known⟩)
  refine ⟨?_, ?_, ?_, himage ▸ h.tiled.append bs note⟩
  · simpa [Write.run, after, Store.append, modifyImage] using h.known
  · rw [himage, Image.size_append, h.size, Write.total_snoc, Write.growth]
  · rw [himage, Image.view_append, List.map_append, h.runs, Write.runs_append, h.size, Nat.zero_add,
      Write.runs, Write.runs]
    split_ifs <;> rfl

theorem overwrite (h : Covered i writes s)
    (hrun : (offset, bs.length) ∈ Write.runs 0 writes ∨ Write.total writes < offset + bs.length) :
    Covered i (writes ++ [.overwrite offset bs note])
      (((Write.overwrite offset bs note).run i).after s) := by
  have hruns : Write.runs 0 (writes ++ [.overwrite offset bs note]) = Write.runs 0 writes := by
    simp [Write.runs_append, Write.runs]
  have htotal : Write.total (writes ++ [.overwrite offset bs note]) = Write.total writes := by
    simp [Write.growth]
  rcases hrun with hrun | hrun
  · rw [← h.runs] at hrun
    obtain ⟨found, hfound, hextent⟩ := List.mem_map.1 hrun
    obtain ⟨hoffset, hlength⟩ := Prod.mk.inj hextent
    have hinside : offset + bs.length ≤ (s.image i).size :=
      hoffset ▸ hlength ▸ (h.tiled.rows.inside hfound).2
    have hafter : ((Write.overwrite offset bs note).run i).after s =
        s.modifyImage i (·.replace offset bs note) := after_of_ok (overwrite_inside hinside)
    have himage : (s.modifyImage i (·.replace offset bs note)).image i =
        (s.image i).replace offset bs note :=
      (image_modifyImage ..).trans (if_pos ⟨rfl, h.known⟩)
    rw [hafter]
    refine ⟨by simpa [modifyImage] using h.known, ?_, ?_, himage ▸ h.tiled.replace hrun⟩
    · rw [himage, Image.size_replace, h.size, htotal]
    · rw [himage, h.tiled.extents_replace hrun, h.runs, hruns]
  · have hafter : ((Write.overwrite offset bs note).run i).after s = s :=
      after_of_error (overwrite_outside (h.size ▸ hrun))
    rw [hafter]
    exact ⟨h.known, h.size.trans htotal.symm, h.runs.trans hruns.symm, h.tiled⟩

theorem runAll (hs : Covered i [] s) (h : Write.Legal writes) :
    Covered i writes (Write.runAll i writes s) := by
  induction h with
  | nil => exact hs
  | append bs note _ ih => exact Write.runAll_snoc .. ▸ ih.append bs note
  | overwrite note _ hrun ih => exact Write.runAll_snoc .. ▸ ih.overwrite hrun

end Covered

/-- After any writes to a new image, of which those over earlier bytes replace a run that was
appended or fail, the rows tile the image, in the order in which their runs were appended. The index
leads from the offset of each row to its position and from nowhere else, and bisection finds the
same rows. Writing beyond the end fails and changes nothing, and a range can be read if and only if
it lies inside of the image. -/
theorem rows_tile_image (s t : Store) (i : ImageId) (writes : List Write)
    (hnew : newImage s = .ok i t) (hwrites : Write.Legal writes) :
    let u := Write.runAll i writes t
    let image := u.image i
    image.size = Write.total writes ∧
    image.view.rows.map Row.extent = Write.runs 0 writes ∧
    Row.Tiles 0 image.view.rows image.size ∧
    (∀ row ∈ image.view.rows, image.slice row.offset row.bytes.length = row.bytes) ∧
    (∀ offset k, image.index.get? offset = some k ↔
      ∃ row, image.view.rows[k]? = some row ∧ row.offset = offset) ∧
    (∀ offset k, image.rowIndex? offset = some k ↔
      ∃ row, image.view.rows[k]? = some row ∧ row.offset = offset) ∧
    (∀ offset row, image.rowAt? offset = some row ↔
      row ∈ image.view.rows ∧ row.offset = offset) ∧
    (∀ offset, image.rowAt? offset = none ↔ ∀ row ∈ image.view.rows, row.offset ≠ offset) ∧
    (∀ offset bs note, image.size < offset + bs.length →
      overwrite i offset bs note u = .error (.outOfBounds offset bs.length image.size) u) ∧
    (∀ offset bs note, offset + bs.length ≤ image.size → ∃ v,
      overwrite i offset bs note u = .ok () v ∧ (v.image i).bytes =
        image.bytes.take offset ++ bs ++ image.bytes.drop (offset + bs.length)) ∧
    (∀ start stop bs, image.read start stop = .ok bs ↔
      start ≤ stop ∧ stop ≤ image.size ∧ bs = image.slice start (stop - start)) := by
  intro u image
  have h : Covered i writes u := (Covered.start hnew).runAll hwrites
  refine ⟨h.size, h.runs, h.tiled.rows, h.tiled.bytes, fun _ _ => h.tiled.get?_index_eq_some_iff,
    fun _ _ => h.tiled.rowIndex?_eq_some_iff, fun _ _ => h.tiled.rowAt?_eq_some_iff,
    fun _ => h.tiled.rowAt?_eq_none_iff, fun _ _ _ => overwrite_outside,
    fun offset bs note hinside => ?_, fun _ _ _ => Image.read_eq_ok_iff⟩
  refine ⟨_, overwrite_inside hinside, ?_⟩
  rw [image_modifyImage, if_pos ⟨rfl, h.known⟩]
  exact Image.bytes_replace image offset bs note hinside

/-- An empty run takes no row, one run is written over, and one write misses the image. -/
def sampleWrites : List Write :=
  [.append [1, 2] {}, .append [] {}, .append [3] {}, .overwrite 0 [9, 8] {}, .overwrite 2 [7, 7] {}]

theorem rows_tile_image_overwritten :
    let image := (Write.runAll 0 sampleWrites { images := #[{}] }).image 0
    newImage {} = .ok 0 { images := #[{}] } ∧ Write.Legal sampleWrites ∧
    image.view.rows.map Row.extent = [(0, 2), (2, 1)] ∧ Row.Tiles 0 image.view.rows image.size ∧
    image.index.get? 2 = some 1 ∧ image.rowAt? 1 = none := by
  intro image
  have hlegal : Write.Legal sampleWrites :=
    .overwrite {} (.overwrite {} (.append [3] {} (.append [] {} (.append [1, 2] {} .nil)))
      (.inl (by decide))) (.inr (by decide))
  have h := rows_tile_image {} { images := #[{}] } 0 sampleWrites rfl hlegal
  have hrows : image.view.rows.map Row.extent = [(0, 2), (2, 1)] := h.2.1
  refine ⟨rfl, hlegal, hrows, h.2.2.1, (h.2.2.2.2.1 2 1).2 ⟨⟨2, [3], {}⟩, rfl, rfl⟩,
    (h.2.2.2.2.2.2.2.1 1).2 fun row hrow heq => ?_⟩
  have hmem : row.extent ∈ [(0, 2), (2, 1)] := hrows ▸ List.mem_map_of_mem hrow
  simp [Row.extent, heq] at hmem

end Backpatch
