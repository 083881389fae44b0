import Mathlib
import Backpatch.Proofs.Emission
import Backpatch.Proofs.Preparation

/-!
# Sections of a snapshot

Between the marks of its bounds a section may do what it likes: it cannot reach the cells of the
snapshot. So each section starts where the one before it ends, and the table in the header holds
their offsets (`Sections`).
-/

namespace Backpatch

open Store Failable

theorem Same.value? {C : Nat → Prop} {s t : Store} {c : Nat} (h : Same C s t) (hc : C c) :
    t.value? c = s.value? c :=
  congrArg Cell.value (h.cells c hc)

namespace Snapshot

/-- The sections follow each other from `a` to `z` without gaps. -/
def Tiles : Nat → Nat → List SectionInfo → Prop
  | a, z, [] => a = z
  | a, z, info :: rest => info.offset = a ∧ Tiles (a + info.size) z rest

namespace Builder

/-- The section table, with its cells counted from `d` on. -/
def tableFrom (d : Nat) : List PendingSection → List Segment
  | [] => []
  | part :: rest => .deferred word d (some part.name) :: tableFrom (d + 1) rest

/-- The sections between their marks, with the cells of their bounds counted from `c` on. -/
def bodiesFrom (c : Nat) : List PendingSection → List Segment
  | [] => []
  | part :: rest =>
    .mark c :: .nested part.region.segments :: .mark (c + 1) :: bodiesFrom (c + 2) rest

theorem zipWith_table (d : Nat) (parts : List PendingSection) :
    List.zipWith (fun part c => Segment.deferred word c (some part.name)) parts
      (List.range' d parts.length) = tableFrom d parts := by
  induction parts generalizing d with
  | nil => rfl
  | cons part rest ih => simp [List.range'_succ, tableFrom, ih]

theorem flatten_zipWith_body (c : Nat) (parts : List PendingSection) :
    (List.zipWith body parts (boundsFrom c parts.length)).flatten = bodiesFrom c parts := by
  induction parts generalizing c with
  | nil => rfl
  | cons part rest ih => simp [boundsFrom, body, bodiesFrom, ih]

/-- The header of a snapshot whose cells are counted from `m` on. -/
def headerFrom (b : Builder) (m : Nat) : List Segment :=
  b.fixedSegments (m + 3 + 2 * b.sections.size) (m + 4 + 2 * b.sections.size) (m + 2) ++
    tableFrom (m + 5 + 2 * b.sections.size) b.sections.toList

theorem segments_eq (b : Builder) (m : Nat) :
    b.segments (referencesFrom m b.sections.size) (m + 3 + 2 * b.sections.size)
      (m + 4 + 2 * b.sections.size)
      (List.range' (m + 5 + 2 * b.sections.size) b.sections.size) =
    b.headerFrom m ++ .mark m :: (bodiesFrom (m + 3) b.sections.toList ++ [.mark (m + 1)]) := by
  rw [headerFrom, ← zipWith_table, ← flatten_zipWith_body]
  simp [segments, referencesFrom]

/-! ## Laid out sections -/

/-- The sections follow each other from the offset `a` to `z`. The bounds of the first one are the
values of `c` and the next cell, and the word at `o`, which belongs to `d`, holds its offset. -/
def Sections (s : Store) (i : ImageId) :
    Nat → Nat → Nat → Nat → Nat → List PendingSection → Prop
  | _, _, _, a, z, [] => a = z
  | c, d, o, a, z, _ :: rest => ∃ b : Nat, a ≤ b ∧ a < 65536 ∧
    s.value? c = some (.int a) ∧ s.value? (c + 1) = some (.int b) ∧
    Written s i d o word (Bytes.littleEndian 2 a) ∧ Sections s i (c + 2) (d + 1) (o + 2) b z rest

variable {s t : Store} {i : ImageId} {c d o a z : Nat} {parts : List PendingSection}

theorem Sections.same {C : Nat → Prop} (h : Sections s i c d o a z parts) (hs : Same C s t)
    (hc : ∀ x : Nat, c ≤ x → x < c + 2 * parts.length → C x)
    (hd : ∀ x : Nat, d ≤ x → x < d + parts.length → C x) : Sections t i c d o a z parts := by
  induction parts generalizing c d o a with
  | nil => exact h
  | cons part rest ih =>
    simp only [List.length_cons] at hc hd
    obtain ⟨b, hab, ha, hstart, hstop, hwritten, hrest⟩ := h
    refine ⟨b, hab, ha, (hs.value? (hc c (by omega) (by omega))).trans hstart,
      (hs.value? (hc (c + 1) (by omega) (by omega))).trans hstop,
      hwritten.same hs (hd d (by omega) (by omega)), ih hrest ?_ ?_⟩
    · exact fun x hx hx' => hc x (by omega) (by omega)
    · exact fun x hx hx' => hd x (by omega) (by omega)

/-- A store with the same values knows the sections: they tile the body, and the table holds their
offsets. -/
theorem Sections.infos (h : Sections s i c d o a z parts) (hv : ∀ c, t.value? c = s.value? c) :
    ∃ infos, ((parts.zip (boundsFrom c parts.length)).mapM fun p => sectionInfo p.1 p.2) t =
        .ok infos t ∧ Tiles a z infos ∧ infos.length = parts.length ∧
      (∀ n ∈ infos.map (·.offset), n < 65536) ∧
      (s.image i).slice o (2 * parts.length) =
        (infos.map (·.offset)).flatMap (Bytes.littleEndian 2) := by
  induction parts generalizing c d o a with
  | nil => exact ⟨[], rfl, h, rfl, by simp, by simp [Image.slice]⟩
  | cons part rest ih =>
    obtain ⟨b, hab, ha, hstart, hstop, hwritten, hrest⟩ := h
    obtain ⟨infos, hrun, htiles, hlength, hbound, hslice⟩ := ih hrest
    have hinfo : sectionInfo part (c, c + 1) t = .ok ⟨part.name, a, b - a⟩ t := by
      simp [sectionInfo, offset?, hv, hstart, hstop, Datum.offset?]
    refine ⟨⟨part.name, a, b - a⟩ :: infos, ?_, ⟨rfl, ?_⟩, by simp [hlength], ?_, ?_⟩
    · rw [List.length_cons, boundsFrom, List.zip_cons_cons, List.mapM_cons, bind_run, hinfo]
      simp only [bind_run, hrun, pure_run]
    · rwa [Nat.add_sub_cancel' hab]
    · simpa [ha] using hbound
    · obtain ⟨f, p, -, -, -, -, -, hword⟩ := hwritten
      rw [List.length_cons, show 2 * (rest.length + 1) = 2 + 2 * rest.length by omega,
        Image.slice_add, hslice]
      exact congrArg (· ++ _) hword

/-- Sections are ready to be laid out: a start is passed on to a word of the table, from `o` on. -/
structure Ready (s : Store) (i : ImageId) (first : FieldId) (c d o n : Nat) : Prop where
  starts : ∀ k < n, PassesOn s (c + 2 * k) (d + k)
  stops : ∀ k < n, Idle s (c + 1 + 2 * k)
  words : ∀ k < n, ∃ label, Awaits s i first (d + k) (o + 2 * k) word label

theorem Ready.same {C : Nat → Prop} {first : FieldId} {n : Nat} (h : Ready s i first c d o n)
    (hs : Same C s t) (hc : ∀ x : Nat, c ≤ x → x < c + 2 * n → C x)
    (hd : ∀ x : Nat, d ≤ x → x < d + n → C x) : Ready t i first c d o n where
  starts k hk := (h.starts k hk).same hs (hc _ (by omega) (by omega))
  stops k hk := (h.stops k hk).same hs (hc _ (by omega) (by omega))
  words k hk :=
    let ⟨label, hawaits⟩ := h.words k hk
    ⟨label, hawaits.same hs (hd _ (by omega) (by omega))⟩

theorem Ready.tail {first : FieldId} {n : Nat} (h : Ready s i first c d o (n + 1)) :
    Ready s i first (c + 2) (d + 1) (o + 2) n where
  starts k hk := by
    have := h.starts (k + 1) (by omega)
    rwa [show c + 2 * (k + 1) = c + 2 + 2 * k by omega,
      show d + (k + 1) = d + 1 + k by omega] at this
  stops k hk := by
    have := h.stops (k + 1) (by omega)
    rwa [show c + 1 + 2 * (k + 1) = c + 2 + 1 + 2 * k by omega] at this
  words k hk := by
    have := h.words (k + 1) (by omega)
    rwa [show o + 2 * (k + 1) = o + 2 + 2 * k by omega,
      show d + (k + 1) = d + 1 + k by omega] at this

/-- Laying the sections out one by one. -/
theorem Ready.sections {lo hi : Nat} {first : FieldId} (hready : Ready s i first c d o parts.length)
    (h : Stage lo hi i s) (hparts : ∀ part ∈ parts, part.region.Within lo) (hc : lo ≤ c)
    (hcd : c + 2 * parts.length ≤ d) (hd : d + parts.length ≤ hi)
    (he : Emits i (bodiesFrom c parts) s t) :
    Stage lo hi i t ∧
      Same (fun x => (lo ≤ x ∧ x < c) ∨ (c + 2 * parts.length ≤ x ∧ x < d) ∨
        (d + parts.length ≤ x ∧ x < hi)) s t ∧
      (s.image i).size ≤ (t.image i).size ∧
      Sections t i c d o (s.image i).size (t.image i).size parts := by
  induction parts generalizing s c d o with
  | nil =>
    obtain rfl := he
    exact ⟨h, .refl t, le_rfl, rfl⟩
  | cons part rest ih =>
    simp only [List.length_cons] at hcd hd hready ⊢
    obtain ⟨s₁, hs₁, s₂, hs₂, s₃, hs₃, he⟩ := he
    -- The start of the section, which is written into the table
    obtain ⟨label, hawaits⟩ := hready.words 0 (by omega)
    obtain ⟨hlt, honly₁, hvalue₁, hwritten₁, hsize₁⟩ := hs₁.mark_written h.valid
      (hready.starts 0 (by omega)) hawaits (show d ≠ c by omega) rfl rfl
    have h₁ := h.own hs₁ (show c < hi by omega) honly₁ (by omega)
    -- The section itself
    have hsteps := hs₂.steps h₁.valid h₁.image (by have := h₁.reserved.size; omega)
      (hparts part (.head _))
    obtain ⟨h₂, hsame₂⟩ := h₁.foreign hsteps
    have hsize₂ := hsteps.grows.sizes i
    -- Its end
    have hidle : Idle s₂ (c + 1) := ((hready.stops 0 (by omega)).same honly₁.toSame
      (by omega)).same hsame₂ (by omega)
    obtain ⟨honly₃, hvalue₃, hsize₃⟩ := hs₃.mark hidle
      (show c + 1 < _ by have := h₂.reserved.size; omega)
    have h₃ := h₂.own hs₃ (show c + 1 < hi by omega) honly₃ (by omega)
    have hsame : Same (fun x => (lo ≤ x ∧ x < hi) ∧ x ≠ c ∧ x ≠ c + 1 ∧ x ≠ d) s s₃ :=
      ((honly₁.toSame.mono fun x hx => by omega).trans (hsame₂.mono fun x hx => hx.1)).trans
        (honly₃.toSame.mono fun x hx => by omega)
    obtain ⟨h₄, hsame₄, hsize₄, hsections⟩ := ih
      (hready.tail.same hsame (fun x hx hx' => by omega) fun x hx hx' => by omega) h₃
      (fun part hp => hparts part (.tail _ hp)) (by omega) (by omega) (by omega) he
    refine ⟨h₄, ?_, by omega, (s₂.image i).size, by omega, hlt, ?_, ?_, ?_, ?_⟩
    · exact (hsame.mono fun x hx => by omega).trans (hsame₄.mono fun x hx => by omega)
    · rw [hsame₄.value? (by omega), honly₃.toSame.value? (by omega), hsame₂.value? (by omega)]
      exact hvalue₁
    · rw [hsame₄.value? (by omega)]
      exact hvalue₃
    · have hwritten₃ := (hwritten₁.same hsame₂ (by omega)).same honly₃.toSame (by omega)
      exact hwritten₃.same hsame₄ (by omega)
    · rwa [hsize₃] at hsections

/-! ## Headers -/

theorem isField_tableFrom : ∀ x ∈ tableFrom d parts, x.IsField := by
  induction parts generalizing d with
  | nil => simp [tableFrom]
  | cons part rest ih =>
    intro x hx
    obtain rfl | hx := List.mem_cons.1 hx
    · trivial
    · exact ih x hx

theorem fieldCells_tableFrom (d : Nat) (parts : List PendingSection) :
    Segment.fieldCells (tableFrom d parts) = List.range' d parts.length := by
  induction parts generalizing d with
  | nil => rfl
  | cons part rest ih => simp [tableFrom, Segment.fieldCells, ih, List.range'_succ]

theorem sizeAll_tableFrom (d : Nat) (parts : List PendingSection) :
    Segment.sizeAll (tableFrom d parts) = 2 * parts.length := by
  induction parts generalizing d with
  | nil => rfl
  | cons part rest ih =>
    rw [tableFrom, Segment.sizeAll, ih, List.length_cons]
    change 2 + _ = _
    omega

theorem awaits_of_laid_tableFrom {first : FieldId} (h : Laid s i first o (tableFrom d parts)) :
    ∀ k < parts.length, ∃ label, Awaits s i first (d + k) (o + 2 * k) word label := by
  induction parts generalizing d o with
  | nil => simp
  | cons part rest ih =>
    intro k hk
    cases k with
    | zero => exact ⟨_, h.1⟩
    | succ k =>
      obtain ⟨label, hawaits⟩ := ih h.2 k (by simpa using hk)
      refine ⟨label, ?_⟩
      rwa [show d + 1 + k = d + (k + 1) by omega,
        show o + word.width + 2 * k = o + 2 * (k + 1) by change o + 2 + 2 * k = _; omega] at hawaits

theorem isField_headerFrom (b : Builder) (m : Nat) : ∀ x ∈ b.headerFrom m, x.IsField := by
  intro x hx
  obtain hx | hx := List.mem_append.1 hx
  · simp only [fixedSegments, List.mem_cons, List.not_mem_nil, or_false] at hx
    obtain rfl | rfl | rfl | rfl | rfl | rfl := hx <;> trivial
  · exact isField_tableFrom x hx

theorem fieldCells_headerFrom (b : Builder) (m : Nat) :
    Segment.fieldCells (b.headerFrom m) = (m + 3 + 2 * b.sections.size) ::
      (m + 4 + 2 * b.sections.size) :: (m + 2) ::
        List.range' (m + 5 + 2 * b.sections.size) b.sections.size := by
  have htable := fieldCells_tableFrom (m + 5 + 2 * b.sections.size) b.sections.toList
  rw [Array.length_toList] at htable
  rw [← htable]
  rfl

theorem mem_fieldCells_headerFrom {b : Builder} {m x : Nat} :
    x ∈ Segment.fieldCells (b.headerFrom m) ↔ x = m + 3 + 2 * b.sections.size ∨
      x = m + 4 + 2 * b.sections.size ∨ x = m + 2 ∨
      (m + 5 + 2 * b.sections.size ≤ x ∧ x < m + 5 + 3 * b.sections.size) := by
  rw [fieldCells_headerFrom]
  simp only [List.mem_cons, List.mem_range'_1]
  omega

theorem nodup_fieldCells_headerFrom (b : Builder) (m : Nat) :
    (Segment.fieldCells (b.headerFrom m)).Nodup := by
  have hnodup : ((m + 3 + 2 * b.sections.size) :: (m + 4 + 2 * b.sections.size) :: (m + 2) ::
      List.range' (m + 5 + 2 * b.sections.size) b.sections.size).Nodup := by
    simp [List.nodup_range', List.mem_range'_1]
    omega
  rwa [fieldCells_headerFrom]

theorem within_headerFrom (b : Builder) (m : Nat) :
    Segment.WithinAll (m + 6 + 3 * b.sections.size) (b.headerFrom m) := by
  have hlt : ∀ x : Nat, x ∈ Segment.fieldCells (b.headerFrom m) →
      x < m + 6 + 3 * b.sections.size := by
    intro x hx
    have hfields := mem_fieldCells_headerFrom.1 hx
    omega
  exact Segment.withinAll_of_isField (isField_headerFrom b m) hlt

theorem sizeAll_headerFrom (b : Builder) (m : Nat) :
    Segment.sizeAll (b.headerFrom m) = 16 + 2 * b.sections.size := by
  have htable := sizeAll_tableFrom (m + 5 + 2 * b.sections.size) b.sections.toList
  rw [Array.length_toList] at htable
  change 4 + (2 + (2 + (4 + (2 + (2 + Segment.sizeAll (tableFrom ..)))))) = _
  omega

/-- The header stands in the image `i`, and its words wait for their values. -/
structure HeaderLaid (b : Builder) (m : Nat) (i : ImageId) (first : FieldId) (s : Store) :
    Prop where
  size : (s.image i).size = 16 + 2 * b.sections.size
  magic : Fixed s i 0 (Bytes.littleEndian 4 magic)
  version : Fixed s i 4 (Bytes.littleEndian 2 b.version.toNat)
  count : Fixed s i 14 (Bytes.littleEndian 2 b.sections.size)
  headerSize : Awaits s i first (m + 3 + 2 * b.sections.size) 6 word (some "header size")
  imageSize : Awaits s i first (m + 4 + 2 * b.sections.size) 8 (.int .u32le) (some "bytecode size")
  crcField : Awaits s i first (m + 2) 12 word (some "crc")
  words : ∀ k < b.sections.size,
    ∃ label, Awaits s i first (m + 5 + 2 * b.sections.size + k) (16 + 2 * k) word label

theorem Referenced.headerLaid {b : Builder} {m : Nat} {first : FieldId}
    (hr : Referenced m b.sections.size s) (h : Stage m (m + 6 + 3 * b.sections.size) i s)
    (hempty : (s.image i).size = 0) (hfirst : first ≤ s.placeholders.size)
    (he : Emits i (b.headerFrom m) s t) :
    Stage m (m + 6 + 3 * b.sections.size) i t ∧ b.HeaderLaid m i first t ∧
      Only (fun x => x = m + 2 ∨
        (m + 3 + 2 * b.sections.size ≤ x ∧ x < m + 5 + 3 * b.sections.size)) s t := by
  have hidle : ∀ x : Nat, x ∈ Segment.fieldCells (b.headerFrom m) →
      (m ≤ x ∧ x < m + 6 + 3 * b.sections.size) ∧ Idle s x := by
    intro x hx
    obtain rfl | rfl | rfl | hx := mem_fieldCells_headerFrom.1 hx
    · exact ⟨by omega, hr.headerSize⟩
    · exact ⟨by omega, hr.imageSize⟩
    · exact ⟨by omega, hr.crcField⟩
    · obtain ⟨k, rfl⟩ := Nat.exists_eq_add_of_le hx.1
      exact ⟨by omega, hr.offsets k (by omega)⟩
  obtain ⟨ht, honly, hlaid, hsize⟩ := h.laid (isField_headerFrom b m) hidle
    (nodup_fieldCells_headerFrom b m) hfirst he
  rw [sizeAll_headerFrom, hempty, Nat.zero_add] at hsize
  rw [hempty] at hlaid
  obtain ⟨hmagic, hversion, hheaderSize, himageSize, hcrcField, hcount, htable⟩ := hlaid
  refine ⟨ht, ?_, honly.mono fun x hx => ?_⟩
  · exact {
      size := hsize
      magic := hmagic
      version := hversion
      count := hcount
      headerSize := hheaderSize
      imageSize := himageSize
      crcField := hcrcField
      words := fun k hk => awaits_of_laid_tableFrom htable k (by simpa using hk) }
  · have hfields := mem_fieldCells_headerFrom.1 hx
    omega

/-- The header and the mark at its end are emitted, and the sections come next. -/
structure Headed (b : Builder) (m : Nat) (i : ImageId) (first : FieldId) (s : Store) : Prop where
  stage : Stage m (m + 6 + 3 * b.sections.size) i s
  size : (s.image i).size = 16 + 2 * b.sections.size
  ready : Ready s i first (m + 3) (m + 5 + 2 * b.sections.size) 16 b.sections.toList.length
  image : PassesOn s (m + 1) (m + 4 + 2 * b.sections.size)
  imageSize : Awaits s i first (m + 4 + 2 * b.sections.size) 8 (.int .u32le) (some "bytecode size")

theorem HeaderLaid.headed {b : Builder} {m : Nat} {first : FieldId} {u : Store}
    (hl : b.HeaderLaid m i first t)
    (h : Stage m (m + 6 + 3 * b.sections.size) i t) (hr : Referenced m b.sections.size s)
    (hst : Only (fun x => x = m + 2 ∨
      (m + 3 + 2 * b.sections.size ≤ x ∧ x < m + 5 + 3 * b.sections.size)) s t)
    (hmark : Emit i (.mark m) t u) : b.Headed m i first u := by
  have hlength : b.sections.toList.length = b.sections.size := Array.length_toList
  obtain ⟨-, honly, -, -, hsize⟩ := hmark.mark_written h.valid
    (hr.header.same hst.toSame (by omega)) hl.headerSize
    (show m + 3 + 2 * b.sections.size ≠ m by omega) rfl rfl
  have hsame : Same (fun x => x ≠ m ∧ x ≠ m + 2 ∧ x < m + 3 + 2 * b.sections.size) s u :=
    (hst.toSame.mono fun x hx => by omega).trans (honly.toSame.mono fun x hx => by omega)
  exact {
    stage := h.own hmark (show m < m + 6 + 3 * b.sections.size by omega) honly (by omega)
    size := hsize.trans hl.size
    ready := {
      starts := fun k hk => (hr.starts k (by omega)).same hsame (by omega)
      stops := fun k hk => (hr.stops k (by omega)).same hsame (by omega)
      words := fun k hk =>
        let ⟨label, hawaits⟩ := hl.words k (by omega)
        ⟨label, hawaits.same honly.toSame (by omega)⟩ }
    image := hr.image.same hsame (by omega)
    imageSize := hl.imageSize.same honly.toSame (by omega) }

/-! ## The whole layout -/

/-- Header and sections stand in the image, the cells of the snapshot counted from `m` on. Only the
checksum is not considered. -/
structure LaidOut (b : Builder) (m z : Nat) (i : ImageId) (s : Store) : Prop where
  size : (s.image i).size = z
  magic : Fixed s i 0 (Bytes.littleEndian 4 magic)
  version : Fixed s i 4 (Bytes.littleEndian 2 b.version.toNat)
  count : Fixed s i 14 (Bytes.littleEndian 2 b.sections.size)
  headerFits : 16 + 2 * b.sections.size < 65536
  headerEnd : s.value? m = some (.int (16 + 2 * b.sections.size : Nat))
  headerSize : Written s i (m + 3 + 2 * b.sections.size) 6 word
    (Bytes.littleEndian 2 (16 + 2 * b.sections.size))
  imageFits : z < 4294967296
  imageEnd : s.value? (m + 1) = some (.int z)
  imageSize : Written s i (m + 4 + 2 * b.sections.size) 8 (.int .u32le) (Bytes.littleEndian 4 z)
  body : 16 + 2 * b.sections.size ≤ z
  boundary : Fixed s i (16 + 2 * b.sections.size) []
  sections : Sections s i (m + 3) (m + 5 + 2 * b.sections.size) 16 (16 + 2 * b.sections.size) z
    b.sections.toList

/-- The checksum is still to be settled; its cell is to be passed on to a word of the header. -/
structure AwaitsChecksum (m n : Nat) (i : ImageId) (first : FieldId) (s : Store) : Prop where
  stage : Stage m (m + 6 + 3 * n) i s
  crcField : Awaits s i first (m + 2) 12 word (some "crc")
  given : (s.cell (m + 2)).derived = false
  pending : s.value? (m + 5 + 3 * n) = none
  passes : ∃ id, (s.cell (m + 5 + 3 * n)).queue = [(id, .act (.forward (.cell (m + 2))))]

theorem within_bodiesFrom {lo hi : Nat} (hlo : lo ≤ c) (hc : c + 2 * parts.length ≤ hi)
    (hparts : ∀ part ∈ parts, part.region.Within lo) :
    Segment.WithinAll hi (bodiesFrom c parts) := by
  induction parts generalizing c with
  | nil => trivial
  | cons part rest ih =>
    simp only [List.length_cons] at hc
    have hpart : part.region.Within lo := hparts part (.head _)
    exact ⟨show c < hi by omega, Segment.WithinAll.mono hpart (by omega), show c + 1 < hi by omega,
      ih (by omega) (by omega) fun part hp => hparts part (.tail _ hp)⟩

/-- Laying out header and sections. -/
theorem Prepared.laidOut {b : Builder} {m : Nat} {first : FieldId}
    (hprepared : Prepared m b.sections.size s) (h : Stage m (m + 6 + 3 * b.sections.size) i s)
    (hb : b.Within m) (hempty : (s.image i).size = 0) (hfirst : first ≤ s.placeholders.size)
    (he : Emits i (b.headerFrom m ++ .mark m ::
      (bodiesFrom (m + 3) b.sections.toList ++ [.mark (m + 1)])) s t) :
    b.LaidOut m (t.image i).size i t ∧ AwaitsChecksum m b.sections.size i first t := by
  obtain ⟨s₁, hheader, s₂, hmark, he⟩ := he.append
  obtain ⟨s₃, hbodies, u, hend, htu⟩ := he.append
  obtain rfl : t = u := htu
  have hparts : ∀ part ∈ b.sections.toList, part.region.Within m :=
    fun part hp => hb part (by simpa using hp)
  have hlength : b.sections.toList.length = b.sections.size := Array.length_toList
  have hwithin : Segment.WithinAll (m + 6 + 3 * b.sections.size)
      (bodiesFrom (m + 3) b.sections.toList) :=
    within_bodiesFrom (by omega) (by omega) hparts
  obtain ⟨h₁, hheader₁, honly₁⟩ := hprepared.headerLaid h hempty hfirst hheader
  -- Its end, which is its size
  obtain ⟨hlt, honly₂, hvalue₂, hwritten₂, -⟩ := hmark.mark_written h₁.valid
    (hprepared.header.same honly₁.toSame (by omega)) hheader₁.headerSize
    (show m + 3 + 2 * b.sections.size ≠ m by omega) rfl rfl
  rw [hheader₁.size] at hlt hvalue₂ hwritten₂
  have hheaded := hheader₁.headed h₁ hprepared.toReferenced honly₁ hmark
  have h₂ := hheaded.stage
  have hboundary := h₂.valid.fixed_end i
  rw [hheaded.size] at hboundary
  have hsame₂ : Same (fun x => m + 5 + 3 * b.sections.size ≤ x) s s₂ :=
    (honly₁.toSame.mono fun x hx => by omega).trans (honly₂.toSame.mono fun x hx => by omega)
  -- The sections
  obtain ⟨h₃, hsame₃, hsize₃, hsections⟩ := hheaded.ready.sections h₂ hparts (by omega) (by omega)
    (by omega) hbodies
  rw [hlength] at hsame₃
  rw [hheaded.size] at hsize₃ hsections
  -- Their end, which is the size of the image
  obtain ⟨hlt', honly₄, hvalue₄, hwritten₄, hsize₄⟩ := hend.mark_written h₃.valid
    (hheaded.image.same hsame₃ (by omega)) (hheaded.imageSize.same hsame₃ (by omega))
    (show m + 4 + 2 * b.sections.size ≠ m + 1 by omega) rfl rfl
  have h₄ := h₃.own hend (show m + 1 < m + 6 + 3 * b.sections.size by omega) honly₄ (by omega)
  have hsame : Same (fun x => x = m ∨ x = m + 2 ∨ x = m + 3 + 2 * b.sections.size ∨
      m + 5 + 3 * b.sections.size ≤ x ∧ x < m + 6 + 3 * b.sections.size) s₂ t :=
    (hsame₃.mono fun x hx => by omega).trans (honly₄.toSame.mono fun x hx => by omega)
  have hsteps₂ : Steps (Move.Writes i (m + 6 + 3 * b.sections.size)) s₂ t :=
    (hbodies.steps h₂.valid h₂.image h₂.reserved.size hwithin).trans
      (hend.steps h₃.valid h₃.image h₃.reserved.size (show m + 1 < _ by omega))
  have hsteps₁ :=
    (hmark.steps h₁.valid h₁.image h₁.reserved.size (show m < _ by omega)).trans hsteps₂
  have hsteps₀ := hheader.steps h.valid h.image h.reserved.size (within_headerFrom b m)
  have hcrc : m + 2 < s.cells.size := by
    have := h.reserved.size
    omega
  constructor
  · exact {
      size := rfl
      magic := hheader₁.magic.steps hsteps₁
      version := hheader₁.version.steps hsteps₁
      count := hheader₁.count.steps hsteps₁
      headerFits := hlt
      headerEnd := (hsame.value? (by omega)).trans hvalue₂
      headerSize := hwritten₂.same hsame (by omega)
      imageFits := hsize₄ ▸ hlt'
      imageEnd := hsize₄ ▸ hvalue₄
      imageSize := hsize₄ ▸ hwritten₄
      body := hsize₄ ▸ hsize₃
      boundary := hboundary.steps hsteps₂
      sections := hsize₄ ▸ hsections.same honly₄.toSame (fun x hx hx' => by omega)
        fun x hx hx' => by omega }
  · exact {
      stage := h₄
      crcField := (hheader₁.crcField.same honly₂.toSame (by omega)).same hsame (by omega)
      given := ((hsteps₀.trans hsteps₁).grows.derived (m + 2) hcrc).trans hprepared.given
      pending := (hsame.value? (by omega)).trans ((hsame₂.value? (by omega)).trans hprepared.crc.1)
      passes := by
        rw [hsame.cells _ (by omega), hsame₂.cells _ (by omega)]
        exact hprepared.crc.2 }

end Builder

end Snapshot

end Backpatch
