import Mathlib
import Backpatch.Proofs.Headers

/-!
# The grammar of headers

`Header.Grammatical` says which byte strings start with a header: the fixed part is there, it starts
with the magic number, and the sizes agree with each other and with the bytes at hand. The parser
accepts exactly these byte strings. Its reads stand at fixed offsets, so each is a word `wordAt` of
the byte string, and the sizes bound the section table before it is read.
-/

namespace Backpatch

theorem Bytes.littleEndian_toNat (bs : Bytes) : littleEndian bs.length (toNat bs) = bs := by
  induction bs with
  | nil => rfl
  | cons b bs ih =>
    have hb := b.toNat_lt
    have hhead : UInt8.ofNat (b.toNat + 256 * toNat bs) = b := by
      rw [← UInt8.toNat_inj, UInt8.toNat_ofNat']
      omega
    have htail : (b.toNat + 256 * toNat bs) / 256 = toNat bs := by omega
    rw [toNat, List.length_cons, littleEndian, hhead, htail, ih]

namespace Snapshot

/-- The little-endian word of `width` bytes at an offset. -/
def wordAt (data : Bytes) (offset width : Nat) : Nat :=
  Bytes.toNat ((data.drop offset).take width)

/-- The words of one width that follow each other from an offset on. -/
def wordsAt (data : Bytes) (offset width count : Nat) : List Nat :=
  (List.range count).map fun k => wordAt data (offset + width * k) width

/-- The cursor at an offset of a byte string. -/
def Cursor.at (data : Bytes) (offset : Nat) : Cursor := ⟨offset, data.drop offset, data.length⟩

section Words

variable {data : Bytes} {offset width : Nat}

theorem length_take_drop (h : offset + width ≤ data.length) :
    ((data.drop offset).take width).length = width := by
  rw [List.length_take, List.length_drop]
  omega

theorem take_drop_join (offset width next : Nat) :
    (data.drop offset).take width ++ (data.drop (offset + width)).take next =
      (data.drop offset).take (width + next) := by
  rw [List.take_add, List.drop_drop]

theorem littleEndian_wordAt (h : offset + width ≤ data.length) :
    Bytes.littleEndian width (wordAt data offset width) = (data.drop offset).take width := by
  have hword := Bytes.littleEndian_toNat ((data.drop offset).take width)
  rwa [length_take_drop h] at hword

theorem wordAt_append (h : offset + width ≤ data.length) (more : Bytes) :
    wordAt (data ++ more) offset width = wordAt data offset width := by
  rw [wordAt, List.drop_append_of_le_length (by omega),
    List.take_append_of_le_length (by rw [List.length_drop]; omega), wordAt]

theorem readWord_at (h : offset + width ≤ data.length) :
    readWord width (.at data offset) =
      .ok (wordAt data offset width, .at data (offset + width)) := by
  simp [readWord, Cursor.at, length_take_drop h, wordAt]

/-- A word that does not fit is out of bounds, and the error says where it was looked for. -/
theorem readWord_past (hpos : 0 < width) (h : data.length < offset + width) :
    readWord width (.at data offset) = .error (.outOfBounds offset width data.length) := by
  have hshort : ((data.drop offset).take width).length ≠ width := by
    rw [List.length_take, List.length_drop]
    omega
  exact if_neg hshort

theorem wordsAt_succ (data : Bytes) (offset width count : Nat) :
    wordsAt data offset width (count + 1) =
      wordAt data offset width :: wordsAt data (offset + width) width count := by
  simp only [wordsAt, List.range_succ_eq_map, List.map_cons, List.map_map, Nat.mul_zero,
    Nat.add_zero, List.cons.injEq, true_and]
  refine List.map_congr_left fun k _ => ?_
  rw [Function.comp, Nat.mul_succ, Nat.add_right_comm, Nat.add_assoc offset]

theorem wordsAt_append {count : Nat} (h : offset + width * count ≤ data.length) (more : Bytes) :
    wordsAt (data ++ more) offset width count = wordsAt data offset width count := by
  refine List.map_congr_left fun k hk => wordAt_append ?_ more
  have hk : k + 1 ≤ count := List.mem_range.mp hk
  have := Nat.mul_le_mul_left width hk
  grind

theorem readWords_at {count : Nat} (h : offset + width * count ≤ data.length) :
    readWords width count (.at data offset) =
      .ok (wordsAt data offset width count, .at data (offset + width * count)) := by
  induction count generalizing offset with
  | zero => rfl
  | succ count ih =>
    rw [Nat.mul_succ] at h
    have hfits : offset + width + width * count ≤ data.length := by omega
    have hrest := ih hfits
    change (readWord width (.at data offset)).bind _ = _
    rw [readWord_at (by omega)]
    change (readWords width count (.at data (offset + width))).bind _ = _
    rw [hrest, wordsAt_succ, Nat.mul_succ]
    change Except.ok _ = _
    rw [Nat.add_assoc, Nat.add_comm width]

/-- The words of a table, written again, are its bytes. -/
theorem flatMap_wordsAt {count : Nat} (h : offset + width * count ≤ data.length) :
    (wordsAt data offset width count).flatMap (Bytes.littleEndian width) =
      (data.drop offset).take (width * count) := by
  induction count generalizing offset with
  | zero => simp [wordsAt]
  | succ count ih =>
    rw [Nat.mul_succ] at h
    rw [wordsAt_succ, List.flatMap_cons, littleEndian_wordAt (by omega), ih (by omega),
      Nat.mul_succ, Nat.add_comm (width * count), List.take_add, List.drop_drop]

end Words

namespace Header

/-- The byte string starts with the magic number. -/
def Marked (data : Bytes) : Prop := data.take 4 = Bytes.littleEndian 4 magic

instance (data : Bytes) : Decidable (Marked data) := inferInstanceAs (Decidable (_ = _))

/-- The words of the header that `data` starts with. -/
def fields (data : Bytes) : Header where
  version := wordAt data 4 2
  headerSize := wordAt data 6 2
  imageSize := wordAt data 8 4
  crc := wordAt data 12 2
  sectionOffsets := wordsAt data fixedHeaderSize 2 (wordAt data 14 2)

/-- The byte string starts with a header, and the image that the header describes is there. -/
structure Grammatical (data : Bytes) : Prop where
  fixed : fixedHeaderSize ≤ data.length
  marked : Marked data
  headerSize : wordAt data 6 2 = fixedHeaderSize + 2 * wordAt data 14 2
  body : fixedHeaderSize + 2 * wordAt data 14 2 ≤ wordAt data 8 4
  image : wordAt data 8 4 ≤ data.length

/-- There is no room for the magic number, or there is the magic number and no room for the rest of
the fixed part. -/
def Truncated (data : Bytes) : Prop :=
  data.length < 4 ∨ Marked data ∧ data.length < fixedHeaderSize

section Parsing

variable {data : Bytes}

theorem bind_of_ok {α β : Type} {x : Reader α} {f : α → Reader β} {c c' : Cursor} {a : α}
    (h : x c = .ok (a, c')) : (x >>= f) c = f a c' := by
  change (x c).bind (fun p => f p.1 p.2) = _
  rw [h]
  rfl

theorem bind_of_error {α β : Type} {x : Reader α} {f : α → Reader β} {c : Cursor} {e : Error}
    (h : x c = .error e) : (x >>= f) c = .error e := by
  change (x c).bind (fun p => f p.1 p.2) = _
  rw [h]
  rfl

/-- The result is an error that names a word which runs over the end of the data. -/
def RunsOver {α : Type} (data : Bytes) (r : Except Error α) : Prop :=
  ∃ offset width, offset ≤ data.length ∧ data.length < offset + width ∧
    r = .error (.outOfBounds offset width data.length)

/-- The result is an error about what the data says, not about its length. -/
def Refused {α : Type} (r : Except Error α) : Prop :=
  ∃ message line, r = .error (.malformed message (some (.inUnit "image/header" line)))

theorem RunsOver.bind_word {α : Type} {f : Nat → Reader α} {offset width : Nat} (hpos : 0 < width)
    (ho : offset ≤ data.length)
    (hnext : offset + width ≤ data.length →
      RunsOver data (f (wordAt data offset width) (.at data (offset + width)))) :
    RunsOver data ((readWord width >>= f) (.at data offset)) := by
  by_cases hfits : offset + width ≤ data.length
  · rw [bind_of_ok (readWord_at hfits)]
    exact hnext hfits
  · rw [bind_of_error (readWord_past hpos (by omega))]
    exact ⟨offset, width, ho, by omega, rfl⟩

theorem parse_of_read {h : Header} {c : Cursor}
    (hread : read data.length (.at data 0) = .ok (h, c)) : parse data = .ok h := by
  change (·.1) <$> read data.length (.at data 0) = _
  rw [hread]
  rfl

theorem RunsOver.parse (hread : RunsOver data (read data.length (.at data 0))) :
    RunsOver data (parse data) := by
  obtain ⟨offset, width, ho, hover, hread⟩ := hread
  refine ⟨offset, width, ho, hover, ?_⟩
  change (·.1) <$> read data.length (.at data 0) = _
  rw [hread]
  rfl

theorem Refused.parse (hread : Refused (read data.length (.at data 0))) :
    Refused (parse data) := by
  obtain ⟨message, line, hread⟩ := hread
  refine ⟨message, line, ?_⟩
  change (·.1) <$> read data.length (.at data 0) = _
  rw [hread]
  rfl

theorem marked_iff (hfour : 4 ≤ data.length) : Marked data ↔ wordAt data 0 4 = magic := by
  have hfits : 0 + 4 ≤ data.length := by omega
  have hword := littleEndian_wordAt hfits
  rw [List.drop_zero] at hword
  constructor
  · intro hm
    rw [wordAt, List.drop_zero, hm]
    decide
  · intro hm
    rw [Marked, ← hword, hm]

theorem parse_truncated (hshort : Truncated data) : RunsOver data (parse data) := by
  apply RunsOver.parse
  refine .bind_word (by decide) (Nat.zero_le _) fun hfour => ?_
  obtain hlt | ⟨hm, hlt⟩ := hshort
  · omega
  rw [if_neg (by simpa using (marked_iff hfour).mp hm)]
  refine .bind_word (by decide) hfour fun hversion => ?_
  refine .bind_word (by decide) hversion fun hheader => ?_
  refine .bind_word (by decide) hheader fun himage => ?_
  refine .bind_word (by decide) himage fun hcrc => ?_
  refine .bind_word (by decide) hcrc fun hcount => ?_
  rw [fixedHeaderSize] at hlt
  omega

theorem parse_refused_of_not_marked (hfour : 4 ≤ data.length) (hm : ¬ Marked data) :
    Refused (parse data) := by
  apply Refused.parse
  rw [read, bind_of_ok (readWord_at (by omega)), if_pos ((marked_iff hfour).not.mp hm)]
  exact ⟨_, _, rfl⟩

/-- Behind the fixed part the sizes decide, and the section table is read without fail. -/
theorem read_of_marked (hfixed : fixedHeaderSize ≤ data.length) (hm : Marked data) :
    (Grammatical data ∧ read data.length (.at data 0) =
        .ok (fields data, .at data (fixedHeaderSize + 2 * wordAt data 14 2))) ∨
      (¬ Grammatical data ∧ Refused (read data.length (.at data 0))) := by
  rw [fixedHeaderSize] at hfixed
  rw [read, bind_of_ok (readWord_at (by omega)),
    if_neg (by simpa using (marked_iff (by omega)).mp hm)]
  dsimp only
  rw [bind_of_ok (readWord_at (by omega)), bind_of_ok (readWord_at (by omega)),
    bind_of_ok (readWord_at (by omega)), bind_of_ok (readWord_at (by omega)),
    bind_of_ok (readWord_at (by omega))]
  simp only [Nat.zero_add, Nat.reduceAdd]
  by_cases hsize : wordAt data 6 2 = fixedHeaderSize + 2 * wordAt data 14 2
  · rw [if_neg (by simpa using hsize)]
    by_cases himage : wordAt data 8 4 > data.length ∨
        wordAt data 8 4 < fixedHeaderSize + 2 * wordAt data 14 2
    · rw [if_pos himage]
      refine .inr ⟨fun hg => ?_, _, _, rfl⟩
      have := hg.body
      have := hg.image
      omega
    · rw [if_neg himage]
      have htable : readWords 2 (wordAt data 14 2) (.at data 16) = _ :=
        readWords_at (by rw [fixedHeaderSize] at himage; omega)
      rw [bind_of_ok htable]
      exact .inl ⟨⟨hfixed, hm, hsize, by omega, by omega⟩, rfl⟩
  · rw [if_pos hsize]
    exact .inr ⟨fun hg => hsize hg.headerSize, _, _, rfl⟩

/-- Every byte string starts with a header, ends too early or is refused, and only one of these. -/
theorem parse_cases (data : Bytes) :
    (Grammatical data ∧ ¬ Truncated data ∧ parse data = .ok (fields data)) ∨
      (¬ Grammatical data ∧ Truncated data ∧ RunsOver data (parse data)) ∨
      (¬ Grammatical data ∧ ¬ Truncated data ∧ Refused (parse data)) := by
  by_cases hshort : Truncated data
  · refine .inr (.inl ⟨fun hg => ?_, hshort, parse_truncated hshort⟩)
    have hfixed := hg.fixed
    obtain hlt | ⟨-, hlt⟩ := hshort
    · rw [fixedHeaderSize] at hfixed
      omega
    · omega
  have hfour : 4 ≤ data.length := by grind [Truncated]
  by_cases hm : Marked data
  · have hfixed : fixedHeaderSize ≤ data.length := by grind [Truncated]
    obtain ⟨hg, hread⟩ | ⟨hng, hread⟩ := read_of_marked hfixed hm
    · exact .inl ⟨hg, hshort, parse_of_read hread⟩
    · exact .inr (.inr ⟨hng, hshort, hread.parse⟩)
  · exact .inr (.inr ⟨fun hg => hm hg.marked, hshort, parse_refused_of_not_marked hfour hm⟩)

theorem parse_eq_ok_iff {h : Header} :
    parse data = .ok h ↔ Grammatical data ∧ h = fields data := by
  obtain ⟨hg, -, hp⟩ | ⟨hng, -, _, _, -, -, hp⟩ | ⟨hng, -, _, _, hp⟩ := parse_cases data
  · simp [hp, hg, eq_comm]
  · simp [hp, hng]
  · simp [hp, hng]

theorem parse_outOfBounds_iff :
    (∃ offset width size, parse data = .error (.outOfBounds offset width size)) ↔
      Truncated data := by
  obtain ⟨-, hnt, hp⟩ | ⟨-, ht, _, _, -, -, hp⟩ | ⟨-, hnt, _, _, hp⟩ := parse_cases data
  · simp [hp, hnt]
  · simp [hp, ht]
  · simp [hp, hnt]

theorem parse_malformed_iff :
    (∃ message origin, parse data = .error (.malformed message origin)) ↔
      ¬ Grammatical data ∧ ¬ Truncated data := by
  obtain ⟨hg, -, hp⟩ | ⟨-, ht, _, _, -, -, hp⟩ | ⟨hng, hnt, _, _, hp⟩ := parse_cases data
  · simp [hp, hg]
  · simp [hp, ht]
  · simp [hp, hng, hnt]

end Parsing

namespace Grammatical

variable {data : Bytes}

theorem append (hg : Grammatical data) (more : Bytes) :
    Grammatical (data ++ more) ∧ fields (data ++ more) = fields data := by
  obtain ⟨hfixed, hm, hsize, hbody, himage⟩ := hg
  have htable : wordsAt (data ++ more) fixedHeaderSize 2 (wordAt data 14 2) =
    wordsAt data fixedHeaderSize 2 (wordAt data 14 2) := wordsAt_append (by omega) more
  rw [fixedHeaderSize] at hfixed
  have hword : ∀ o w, o + w ≤ 16 → wordAt (data ++ more) o w = wordAt data o w :=
    fun o w how => wordAt_append (by omega) more
  refine ⟨⟨?_, ?_, ?_, ?_, ?_⟩, ?_⟩
  · rw [List.length_append, fixedHeaderSize]
    omega
  · rw [Marked, List.take_append_of_le_length (by omega), hm]
  · rw [hword 6 2 (by decide), hword 14 2 (by decide), hsize]
  · rwa [hword 8 4 (by decide), hword 14 2 (by decide)]
  · rw [hword 8 4 (by decide), List.length_append]
    omega
  · simp only [fields, hword 4 2 (by decide), hword 6 2 (by decide), hword 8 4 (by decide),
      hword 12 2 (by decide), hword 14 2 (by decide), htable]

/-- The words of the header, written again, are the bytes of the header. -/
theorem encode_fields (hg : Grammatical data) :
    (fields data).encode = data.take (fields data).headerSize := by
  obtain ⟨hfixed, hm, hsize, hbody, himage⟩ := hg
  have hcount : (fields data).sectionOffsets.length = wordAt data 14 2 := by simp [fields, wordsAt]
  have hfits : 16 + 2 * wordAt data 14 2 ≤ data.length := by
    rw [fixedHeaderSize] at hbody
    omega
  have htable := flatMap_wordsAt hfits
  rw [fixedHeaderSize] at hfixed
  have hword : ∀ o w, o + w ≤ 16 →
      Bytes.littleEndian w (wordAt data o w) = (data.drop o).take w :=
    fun o w how => littleEndian_wordAt (by omega)
  rw [encode, hcount, ← hm]
  simp only [fields]
  rw [hword 4 2 (by decide), hword 6 2 (by decide), hword 8 4 (by decide),
    hword 12 2 (by decide), hword 14 2 (by decide), fixedHeaderSize, htable, hsize, fixedHeaderSize]
  rw [take_drop_join 14 2, take_drop_join 12 2, take_drop_join 8 4, take_drop_join 6 2,
    take_drop_join 4 2, ← List.take_add]
  congr 1
  omega

theorem sizes (hg : Grammatical data) :
    (fields data).headerSize ≤ (fields data).imageSize ∧
      (fields data).imageSize ≤ data.length :=
  ⟨hg.headerSize.trans_le hg.body, hg.image⟩

theorem table (hg : Grammatical data) :
    fixedHeaderSize + 2 * wordAt data 14 2 ≤ data.length := hg.body.trans hg.image

end Grammatical

theorem body?_of_sizes {h : Header} {data : Bytes} (hheader : h.headerSize ≤ h.imageSize)
    (himage : h.imageSize ≤ data.length) :
    h.body? data = some ((data.take h.imageSize).drop h.headerSize) :=
  if_pos ⟨hheader, himage⟩

/-- The image alone is checked, so bytes behind it make no difference. -/
theorem verify_append {h : Header} {data : Bytes} (hheader : h.headerSize ≤ h.imageSize)
    (himage : h.imageSize ≤ data.length) (more : Bytes) :
    h.verify (data ++ more) = h.verify data := by
  have hmore : h.imageSize ≤ (data ++ more).length := by
    rw [List.length_append]
    omega
  rw [verify, verify, body?_of_sizes hheader himage, body?_of_sizes hheader hmore,
    List.take_append_of_le_length himage]

/-- The parser accepts exactly the byte strings that start with a header: it returns their words,
which written again are their first bytes, and bytes behind the image make no difference. It runs
over the end of the data exactly if the fixed part is cut off, never in the section table, and
refuses everything else. -/
theorem header_grammar (data : Bytes) :
    ((∃ h, parse data = .ok h) ↔ Grammatical data) ∧
    (∀ h, parse data = .ok h →
      h = fields data ∧ h.encode = data.take h.headerSize ∧
      h.headerSize ≤ h.imageSize ∧ h.imageSize ≤ data.length ∧
      (h.verify data = true ↔
        (Digest.crc16 ((data.take h.imageSize).drop h.headerSize)).toNat = h.crc) ∧
      ∀ more, parse (data ++ more) = .ok h ∧ h.verify (data ++ more) = h.verify data) ∧
    ((∃ offset width size, parse data = .error (.outOfBounds offset width size)) ↔
      Truncated data) ∧
    ((∃ message origin, parse data = .error (.malformed message origin)) ↔
      ¬ Grammatical data ∧ ¬ Truncated data) ∧
    (Grammatical data →
      readWords 2 (wordAt data 14 2) (.at data fixedHeaderSize) =
        .ok (wordsAt data fixedHeaderSize 2 (wordAt data 14 2),
          .at data (fixedHeaderSize + 2 * wordAt data 14 2))) := by
  refine ⟨by simp [parse_eq_ok_iff], ?_, parse_outOfBounds_iff, parse_malformed_iff,
    fun hg => readWords_at hg.table⟩
  intro h hp
  obtain ⟨hg, rfl⟩ := parse_eq_ok_iff.mp hp
  obtain ⟨hheader, himage⟩ := hg.sizes
  refine ⟨rfl, hg.encode_fields, hheader, himage, ?_, fun more => ⟨?_, ?_⟩⟩
  · simp [verify, body?_of_sizes hheader himage]
  · obtain ⟨hmore, hfields⟩ := hg.append more
    exact parse_eq_ok_iff.mpr ⟨hmore, hfields.symm⟩
  · exact verify_append hheader himage more

end Header

end Snapshot

end Backpatch
