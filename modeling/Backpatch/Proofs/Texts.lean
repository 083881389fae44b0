import Mathlib
import Backpatch.Proofs.Image

/-!
# Texts say where they end

UTF-8 has a zero byte for NUL and for no other character (`zero_mem_toUTF8`), so the byte that
closes a text is the first zero behind its start. Reading a text takes the bytes up to there, and
accepts exactly what writing one produces, whatever follows (`Bytes.readText?_eq_some_iff`).
-/

namespace Backpatch

/-! ## Zero bytes -/

/-- The bytes of a character are those of its number, cut into pieces below marker bits. Only the
number zero has a byte without any bit. -/
theorem zero_mem_utf8EncodeChar {c : Char} : 0 ∈ String.utf8EncodeChar c ↔ c = '\x00' := by
  have hchar : c = '\x00' ↔ c.val.toNat = 0 := by
    rw [← Char.val_inj, ← UInt32.toNat_inj]
    rfl
  have hbyte : ∀ n : Nat, (0 : UInt8) = UInt8.ofNat n ↔ n % 256 = 0 := by
    intro n
    rw [eq_comm, ← UInt8.toNat_inj, UInt8.toNat_ofNat']
    rfl
  rw [hchar]
  -- One case for each number of bytes.
  fun_cases String.utf8EncodeChar c <;>
    simp only [List.mem_cons, List.not_mem_nil, or_false, hbyte] <;> omega

theorem zero_mem_toUTF8 {s : String} : 0 ∈ s.toUTF8.data.toList ↔ '\x00' ∈ s.toList := by
  have hbytes : s.toUTF8.data.toList = s.toList.flatMap String.utf8EncodeChar := by
    rw [String.toUTF8, ← String.utf8Encode_toList, List.utf8Encode]
    simp
  simp only [hbytes, List.mem_flatMap, zero_mem_utf8EncodeChar, exists_eq_right]

/-! ## Writing and reading -/

theorem encodeText_eq_ok_iff {s : String} {bs : Bytes} :
    encodeText s = .ok bs ↔ '\x00' ∉ s.toList ∧ bs = s.toUTF8.data.toList ++ [0] := by
  unfold encodeText
  split_ifs with h
  · simp [h]
  · rw [Except.ok.injEq, eq_comm]
    exact (and_iff_right h).symm

namespace Bytes

/-- The bytes in front of the first zero. -/
def untilZero (bs : Bytes) : Bytes := bs.takeWhile (· != 0)

/-- Reads a text from the front of some bytes: the text is what stands before the first zero, as
UTF-8, and the rest is what comes behind that zero. -/
def readText? (bs : Bytes) : Option (String × Bytes) :=
  match bs.dropWhile (· != 0) with
  | [] => none
  | _ :: rest => (String.fromUTF8? ⟨bs.untilZero.toArray⟩).map (·, rest)

variable {bs rest : Bytes} {s : String}

theorem untilZero_append (h : 0 ∉ bs) (rest : Bytes) :
    untilZero (bs ++ 0 :: rest) = bs ∧
      (bs ++ 0 :: rest).dropWhile (· != 0) = 0 :: rest := by
  have hbs : ∀ b ∈ bs, (b != 0) = true := by
    intro b hb
    rw [bne_iff_ne]
    rintro rfl
    exact h hb
  constructor
  · rw [untilZero, List.takeWhile_append_of_pos hbs, List.takeWhile_cons_of_neg (by simp),
      List.append_nil]
  · rw [List.dropWhile_append_of_pos hbs, List.dropWhile_cons_of_neg (by simp)]

theorem zero_notMem_untilZero (bs : Bytes) : 0 ∉ bs.untilZero := by
  intro h
  have := List.mem_takeWhile_imp h
  simp at this

theorem fromUTF8?_eq_some_iff :
    String.fromUTF8? ⟨bs.toArray⟩ = some s ↔ bs = s.toUTF8.data.toList := by
  unfold String.fromUTF8?
  constructor
  · intro h
    split_ifs at h
    obtain rfl := Option.some.inj h
    rfl
  · rintro rfl
    have hbytes : (⟨s.toUTF8.data.toList.toArray⟩ : ByteArray) = s.toByteArray := by simp
    rw [hbytes, dif_pos s.isValidUTF8]
    rfl

/-- The bytes of a text are found again, whatever follows. -/
theorem untilZero_of_encodeText (h : encodeText s = .ok bs) (rest : Bytes) :
    untilZero (bs ++ rest) = s.toUTF8.data.toList ∧
      (bs ++ rest).dropWhile (· != 0) = 0 :: rest := by
  obtain ⟨hnul, rfl⟩ := encodeText_eq_ok_iff.1 h
  rw [List.append_assoc]
  exact untilZero_append (mt zero_mem_toUTF8.1 hnul) rest

/-- Reading accepts exactly what writing produces. -/
theorem readText?_eq_some_iff :
    readText? bs = some (s, rest) ↔ ∃ code, encodeText s = .ok code ∧ bs = code ++ rest := by
  constructor
  · intro h
    unfold readText? at h
    split at h
    next => cases h
    next z tail hdrop =>
      obtain ⟨text, htext, hpair⟩ := Option.map_eq_some_iff.1 h
      obtain ⟨rfl, rfl⟩ := Prod.mk.inj hpair
      have hbytes := fromUTF8?_eq_some_iff.1 htext
      have hzero : z = 0 := by
        have := List.head?_dropWhile_not (· != 0) bs
        simpa [hdrop] using this
      have hnul : '\x00' ∉ text.toList :=
        mt zero_mem_toUTF8.2 (hbytes ▸ zero_notMem_untilZero bs)
      refine ⟨_, encodeText_eq_ok_iff.2 ⟨hnul, rfl⟩, ?_⟩
      rw [← hbytes, List.append_assoc, List.singleton_append, ← hzero, ← hdrop]
      exact List.takeWhile_append_dropWhile.symm
  · rintro ⟨code, hcode, rfl⟩
    obtain ⟨htake, hdrop⟩ := untilZero_of_encodeText hcode rest
    simp only [readText?, hdrop, htake, fromUTF8?_eq_some_iff.2 rfl, Option.map_some]

end Bytes

/-- Text fields say where they end. A text can be written exactly if it has no NUL. Two texts that
are written in front of any bytes give the same bytes only if they are the same text in front of the
same bytes. So the bytes before the first zero are the UTF-8 of the text, wherever it stands in an
image and whatever follows it there. -/
theorem text_self_delimiting (s : String) :
    ((∃ bs, Format.text.encode (.text s) = .ok bs) ↔ '\x00' ∉ s.toList) ∧
    ∀ bs, Format.text.encode (.text s) = .ok bs →
      (∀ t cs, Format.text.encode (.text t) = .ok cs → ∀ x y, bs ++ x = cs ++ y →
        s = t ∧ x = y) ∧
      (∀ x, String.fromUTF8? ⟨(Bytes.untilZero (bs ++ x)).toArray⟩ = some s ∧
        Bytes.readText? (bs ++ x) = some (s, x)) ∧
      ∀ (image : Image) a, image.slice a bs.length = bs →
        String.fromUTF8? ⟨(Bytes.untilZero (image.bytes.drop a)).toArray⟩ = some s := by
  have hread : ∀ {t : String} {cs : Bytes}, encodeText t = .ok cs → ∀ y,
      Bytes.readText? (cs ++ y) = some (t, y) :=
    fun h y => Bytes.readText?_eq_some_iff.2 ⟨_, h, rfl⟩
  have huntil : ∀ {bs : Bytes}, encodeText s = .ok bs → ∀ x,
      String.fromUTF8? ⟨(Bytes.untilZero (bs ++ x)).toArray⟩ = some s :=
    fun h x => Bytes.fromUTF8?_eq_some_iff.2 (Bytes.untilZero_of_encodeText h x).1
  constructor
  · constructor
    · rintro ⟨bs, h⟩
      exact (encodeText_eq_ok_iff.1 h).1
    · exact fun h => ⟨_, encodeText_eq_ok_iff.2 ⟨h, rfl⟩⟩
  · intro bs hs
    refine ⟨fun t cs ht x y heq => ?_, fun x => ⟨huntil hs x, hread hs x⟩, fun image a hslice => ?_⟩
    · have hsame := (hread hs x).symm.trans (heq ▸ hread ht y)
      exact Prod.mk.inj (Option.some.inj hsame)
    · rw [← List.take_append_drop bs.length (image.bytes.drop a)]
      change String.fromUTF8? ⟨(Bytes.untilZero (image.slice a bs.length ++ _)).toArray⟩ = some s
      rw [hslice]
      exact huntil hs _

/-- A text of four characters, which take one to four bytes, with another text behind it. -/
theorem text_self_delimiting_all_lengths :
    Format.text.encode (.text "aé日😀") =
        .ok [0x61, 0xC3, 0xA9, 0xE6, 0x97, 0xA5, 0xF0, 0x9F, 0x98, 0x80, 0] ∧
      Bytes.readText? [0x61, 0xC3, 0xA9, 0xE6, 0x97, 0xA5, 0xF0, 0x9F, 0x98, 0x80, 0, 0x62, 0] =
        some ("aé日😀", [0x62, 0]) := by
  have hcode : Format.text.encode (.text "aé日😀") =
      .ok [0x61, 0xC3, 0xA9, 0xE6, 0x97, 0xA5, 0xF0, 0x9F, 0x98, 0x80, 0] :=
    encodeText_eq_ok_iff.2 ⟨by decide +kernel, by decide +kernel⟩
  exact ⟨hcode, (((text_self_delimiting "aé日😀").2 _ hcode).2.1 [0x62, 0]).2⟩

end Backpatch
