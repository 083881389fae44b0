import Mathlib
import Backpatch.Proofs.Branches
import Backpatch.Proofs.Grammar

/-!
# Whole numbers are read back

A number format writes the low bytes of a two's complement. Reading goes the other way: the bytes
are put into the order least significant first and extended to sixteen bytes, with zeros or with
copies of the sign, and the wide two's complement is the number (`IntFormat.decode`). A format
takes exactly the numbers of the type that it is named for, and its bytes are exactly those of its
width which are read as the number.
-/

namespace Backpatch

namespace Bytes

/-! ## Numbers of joined bytes -/

theorem wordCount_pos (width : Nat) : 0 < wordCount width := Nat.pow_pos (by decide)

theorem wordCount_add (m n : Nat) : wordCount (m + n) = wordCount m * wordCount n :=
  Nat.pow_add 256 m n

theorem toNat_append (xs ys : Bytes) :
    toNat (xs ++ ys) = toNat xs + wordCount xs.length * toNat ys := by
  induction xs with
  | nil => simp [toNat, wordCount]
  | cons x xs ih =>
    rw [List.cons_append, toNat, toNat, ih, List.length_cons, Nat.add_comm xs.length,
      wordCount_add, show wordCount 1 = 256 from rfl]
    ring

theorem toNat_lt_wordCount (bs : Bytes) : toNat bs < wordCount bs.length := by
  rw [← littleEndian_toNat bs, toNat_littleEndian, length_littleEndian]
  exact Nat.mod_lt _ (wordCount_pos _)

theorem toNat_zeros (n : Nat) : toNat (List.replicate n 0) = 0 := by
  induction n with
  | zero => rfl
  | succ n ih => simp [List.replicate_succ, toNat, ih]

theorem toNat_ones (n : Nat) : toNat (List.replicate n 255) + 1 = wordCount n := by
  induction n with
  | zero => rfl
  | succ n ih =>
    rw [List.replicate_succ, toNat, Nat.add_comm n, wordCount_add, ← ih,
      show (255 : UInt8).toNat = 255 from rfl, show wordCount 1 = 256 from rfl]
    ring

/-! ## Wide words -/

/-- The bytes, least significant first, with `fill` behind them up to sixteen bytes. -/
def extend (fill : UInt8) (bs : Bytes) : Bytes :=
  bs ++ List.replicate (16 - bs.length) fill

/-- What stands above the bytes of a two's complement: the sign in every bit. -/
def signByte (bs : Bytes) : UInt8 :=
  if bs.getLastD 0 < 128 then 0 else 255

variable {bs : Bytes}

theorem length_extend (fill : UInt8) (h : bs.length ≤ 16) : (extend fill bs).length = 16 := by
  rw [extend, List.length_append, List.length_replicate]
  omega

/-- The top bit of the last byte is the top bit of the number. -/
theorem getLastD_lt_iff (h : bs ≠ []) :
    bs.getLastD 0 < 128 ↔ 2 * toNat bs < wordCount bs.length := by
  obtain ⟨low, top, rfl⟩ := (List.eq_nil_or_concat' bs).resolve_left h
  have hlow := toNat_lt_wordCount low
  have htop : toNat [top] = top.toNat := by simp [toNat]
  rw [List.getLastD_concat, toNat_append, htop, List.length_append, wordCount_add,
    show wordCount [top].length = 256 from rfl, UInt8.lt_iff_toNat_lt]
  change top.toNat < 128 ↔ _
  constructor
  · intro hlt
    have := Nat.mul_le_mul_left (wordCount low.length) (Nat.le_of_lt_succ hlt)
    omega
  · intro hlt
    by_contra hge
    have := Nat.mul_le_mul_left (wordCount low.length) (Nat.le_of_not_lt hge)
    omega

/-- Zeros above an unsigned word keep its number. -/
theorem toInt_extend_zero (h : bs.length < 16) : toInt (extend 0 bs) = toNat bs := by
  have hnat : toNat (extend 0 bs) = toNat bs := by
    rw [extend, toNat_append, toNat_zeros, Nat.mul_zero, Nat.add_zero]
  have hwide : wordCount 16 = wordCount bs.length * wordCount (16 - bs.length) := by
    rw [← wordCount_add, Nat.add_sub_cancel' h.le]
  have hroom : 256 ≤ wordCount (16 - bs.length) := Nat.le_self_pow (by omega) 256
  have := Nat.mul_le_mul_left (wordCount bs.length) hroom
  have := toNat_lt_wordCount bs
  rw [toInt, length_extend 0 h.le, hnat, if_pos (by omega)]

/-- Copies of the sign above a two's complement keep its number. -/
theorem toInt_extend_signByte (hne : bs ≠ []) (h : bs.length < 16) :
    toInt (extend (signByte bs) bs) = toInt bs := by
  by_cases hpos : 2 * toNat bs < wordCount bs.length
  · rw [signByte, if_pos ((getLastD_lt_iff hne).2 hpos), toInt_extend_zero h, toInt, if_pos hpos]
  · have hones := toNat_ones (16 - bs.length)
    have hwide : wordCount 16 = wordCount bs.length * wordCount (16 - bs.length) := by
      rw [← wordCount_add, Nat.add_sub_cancel' h.le]
    have hnat : toNat (extend 255 bs) + wordCount bs.length = toNat bs + wordCount 16 := by
      rw [extend, toNat_append, hwide, ← hones]
      ring
    have hroom : 256 ≤ wordCount (16 - bs.length) := Nat.le_self_pow (by omega) 256
    have := Nat.mul_le_mul_left (wordCount bs.length) hroom
    rw [signByte, if_neg fun hlt => hpos ((getLastD_lt_iff hne).1 hlt), toInt,
      length_extend 255 h.le, if_neg (by omega), toInt, if_neg hpos]
    omega

/-! ## Two's complements -/

/-- The two's complement of `n` is the word of that width with the number `n` up to whole turns. -/
theorem twosComplement_eq_iff {width : Nat} {n : Int} :
    twosComplement width n = bs ↔ bs.length = width ∧ (toNat bs : Int) = n % wordCount width := by
  have hpos := wordCount_pos width
  have hnonneg : 0 ≤ n % (wordCount width : Int) := Int.emod_nonneg n (by omega)
  have hlt : n % (wordCount width : Int) < wordCount width := Int.emod_lt_of_pos n (by omega)
  constructor
  · rintro rfl
    refine ⟨length_twosComplement width n, ?_⟩
    rw [twosComplement, toNat_littleEndian, Nat.mod_eq_of_lt (by omega),
      Int.toNat_of_nonneg hnonneg]
  · rintro ⟨rfl, hnat⟩
    rw [twosComplement, ← hnat, Int.toNat_natCast, littleEndian_toNat]

/-- A number that lies between the bounds of a signed word is the only one there that its two's
complement stands for. -/
theorem toNat_eq_emod_iff_toInt {half : Nat} {n : Int} (hw : wordCount bs.length = 2 * half)
    (hle : -half ≤ n) (hlt : n < half) :
    (toNat bs : Int) = n % wordCount bs.length ↔ toInt bs = n := by
  have hbs := toNat_lt_wordCount bs
  constructor
  · intro hnat
    rw [← twosComplement_eq_iff.2 ⟨rfl, hnat⟩, toInt_twosComplement hw hle hlt]
  · rintro rfl
    rw [toInt]
    split
    · rw [Int.emod_eq_of_lt (by omega) (by omega)]
    · rw [Int.sub_emod_right, Int.emod_eq_of_lt (by omega) (by omega)]

/-- The number of a signed word lies between its bounds. -/
theorem toInt_mem {half : Nat} (hw : wordCount bs.length = 2 * half) :
    -half ≤ toInt bs ∧ toInt bs < half := by
  have hbs := toNat_lt_wordCount bs
  rw [toInt]
  split <;> omega

end Bytes

namespace IntFormat

/-! ## Formats -/

/-- The numbers of the type that the format is named for. -/
def Holds (n : Int) : IntFormat → Prop
  | u8 => 0 ≤ n ∧ n < 2 ^ 8
  | i8 => -2 ^ 7 ≤ n ∧ n < 2 ^ 7
  | u16le | u16be => 0 ≤ n ∧ n < 2 ^ 16
  | i16le => -2 ^ 15 ≤ n ∧ n < 2 ^ 15
  | u32le | u32be => 0 ≤ n ∧ n < 2 ^ 32
  | i32le => -2 ^ 31 ≤ n ∧ n < 2 ^ 31
  | u64le => 0 ≤ n ∧ n < 2 ^ 64
  | i64le => -2 ^ 63 ≤ n ∧ n < 2 ^ 63

/-- The number that bytes stand for in the byte order of the format. -/
def decode (bs : Bytes) : IntFormat → Int
  | u8 | u16le | u32le | u64le => Bytes.toInt (Bytes.extend 0 bs)
  | u16be | u32be => Bytes.toInt (Bytes.extend 0 bs.reverse)
  | i8 | i16le | i32le | i64le => Bytes.toInt (Bytes.extend (Bytes.signByte bs) bs)

variable {f : IntFormat} {n : Int} {bs : Bytes}

theorem holds_of_unsigned (hs : f.signed = false) :
    f.Holds n ↔ 0 ≤ n ∧ n < Bytes.wordCount f.width := by
  cases f with
  | u8 | u16le | u16be | u32le | u32be | u64le => exact Iff.rfl
  | i8 | i16le | i32le | i64le => cases hs

theorem holds_of_signed (hs : f.signed = true) :
    ∃ half : Nat, Bytes.wordCount f.width = 2 * half ∧ (f.Holds n ↔ -half ≤ n ∧ n < half) := by
  cases f with
  | u8 | u16le | u16be | u32le | u32be | u64le => cases hs
  | i8 => exact ⟨2 ^ 7, rfl, Iff.rfl⟩
  | i16le => exact ⟨2 ^ 15, rfl, Iff.rfl⟩
  | i32le => exact ⟨2 ^ 31, rfl, Iff.rfl⟩
  | i64le => exact ⟨2 ^ 63, rfl, Iff.rfl⟩

theorem decode_of_unsigned (hs : f.signed = false) (hl : bs.length = f.width) :
    f.decode bs = Bytes.toNat (if f.bigEndian then bs.reverse else bs) := by
  have hlt : bs.length < 16 := by cases f <;> simp [width] at hl <;> omega
  cases f with
  | u8 | u16le | u32le | u64le => exact Bytes.toInt_extend_zero hlt
  | u16be | u32be => exact Bytes.toInt_extend_zero (by rwa [List.length_reverse])
  | i8 | i16le | i32le | i64le => cases hs

theorem decode_of_signed (hs : f.signed = true) (hl : bs.length = f.width) :
    f.decode bs = Bytes.toInt bs := by
  have hlt : bs.length < 16 := by cases f <;> simp [width] at hl <;> omega
  have hne : bs ≠ [] := by
    rintro rfl
    cases f <;> cases hl
  cases f with
  | u8 | u16le | u16be | u32le | u32be | u64le => cases hs
  | i8 | i16le | i32le | i64le => exact Bytes.toInt_extend_signByte hne hlt

theorem bigEndian_of_signed (hs : f.signed = true) : f.bigEndian = false := by
  cases f <;> first | rfl | cases hs

/-- The check in front of encoding admits the numbers of the type and no other. -/
theorem range_iff : (f.least ≤ n ∧ n ≤ f.greatest) ↔ f.Holds n := by
  cases f <;> exact and_congr Iff.rfl Int.le_sub_one_iff

instance : Decidable (f.Holds n) := decidable_of_iff _ range_iff

theorem encode_of_holds (h : f.Holds n) :
    f.encode n = .ok (if f.bigEndian then (Bytes.twosComplement f.width n).reverse
      else Bytes.twosComplement f.width n) := by
  rw [encode, if_pos (range_iff.2 h)]

theorem encode_of_not_holds (h : ¬ f.Holds n) :
    f.encode n = .error (.valueOutOfRange (toString n) f.name) := by
  rw [encode, if_neg fun hr => h (range_iff.1 hr)]

theorem encode_eq_ok_iff_holds :
    f.encode n = .ok bs ↔ f.Holds n ∧
      Bytes.twosComplement f.width n = if f.bigEndian then bs.reverse else bs := by
  constructor
  · intro h
    by_cases hn : f.Holds n
    · obtain rfl := Except.ok.inj ((encode_of_holds hn).symm.trans h)
      refine ⟨hn, ?_⟩
      split <;> simp
    · rw [encode_of_not_holds hn] at h
      cases h
  · rintro ⟨hn, hbs⟩
    rw [encode_of_holds hn, hbs]
    split <;> simp

/-- Bytes of the right number stand for a number of the type. -/
theorem holds_decode (hl : bs.length = f.width) : f.Holds (f.decode bs) := by
  cases hs : f.signed with
  | false =>
    rw [holds_of_unsigned hs, decode_of_unsigned hs hl, ← hl]
    split
    · have := Bytes.toNat_lt_wordCount bs.reverse
      rw [List.length_reverse] at this
      omega
    · have := Bytes.toNat_lt_wordCount bs
      omega
  | true =>
    obtain ⟨half, hw, hiff⟩ := holds_of_signed (n := f.decode bs) hs
    rw [hiff, decode_of_signed hs hl]
    exact Bytes.toInt_mem (by rw [hl, hw])

/-- A number of the type has the two's complement that is read as the number. -/
theorem twosComplement_eq_iff_decode (hn : f.Holds n) :
    Bytes.twosComplement f.width n = (if f.bigEndian then bs.reverse else bs) ↔
      bs.length = f.width ∧ f.decode bs = n := by
  have hlength : (if f.bigEndian then bs.reverse else bs).length = bs.length := by
    split <;> simp
  rw [Bytes.twosComplement_eq_iff, hlength]
  refine and_congr_right fun hl => ?_
  cases hs : f.signed with
  | false =>
    obtain ⟨hle, hlt⟩ := (holds_of_unsigned hs).1 hn
    rw [decode_of_unsigned hs hl, Int.emod_eq_of_lt hle hlt]
  | true =>
    obtain ⟨half, hw, hiff⟩ := holds_of_signed (n := n) hs
    obtain ⟨hle, hlt⟩ := hiff.1 hn
    rw [decode_of_signed hs hl, bigEndian_of_signed hs, if_neg Bool.false_ne_true, ← hl]
    exact Bytes.toNat_eq_emod_iff_toInt (by rw [hl, hw]) hle hlt

/-- The encoding of a number is the word of the format's width that is read as the number. -/
theorem encode_eq_ok_iff_decode :
    f.encode n = .ok bs ↔ bs.length = f.width ∧ f.decode bs = n := by
  rw [encode_eq_ok_iff_holds]
  constructor
  · rintro ⟨hn, hbs⟩
    exact (twosComplement_eq_iff_decode hn).1 hbs
  · intro h
    have hn : f.Holds n := by
      rw [← h.2]
      exact holds_decode h.1
    exact ⟨hn, (twosComplement_eq_iff_decode hn).2 h⟩

/-- A format takes exactly the numbers of its type. What it writes is the one word of its width that
is read as the number, so no two numbers have the same bytes; any other number is out of range. -/
theorem encode_reads_back (f : IntFormat) (n : Int) :
    ((∃ bs, f.encode n = .ok bs) ↔ f.Holds n) ∧
    (f.encode n = .error (.valueOutOfRange (toString n) f.name) ↔ ¬ f.Holds n) ∧
    (∀ bs, f.encode n = .ok bs ↔ bs.length = f.width ∧ f.decode bs = n) ∧
    (∀ m bs, f.encode n = .ok bs → f.encode m = .ok bs → n = m) := by
  refine ⟨⟨?_, fun h => ⟨_, encode_of_holds h⟩⟩, ⟨?_, encode_of_not_holds⟩,
    fun bs => encode_eq_ok_iff_decode, ?_⟩
  · rintro ⟨bs, h⟩
    exact (encode_eq_ok_iff_holds.1 h).1
  · intro h hn
    rw [encode_of_holds hn] at h
    cases h
  · intro m bs hn hm
    rw [← (encode_eq_ok_iff_decode.1 hn).2, (encode_eq_ok_iff_decode.1 hm).2]

/-- The least number of a signed format and the greatest of an unsigned one, the other way round. -/
theorem encode_reads_back_at_bounds :
    i16le.encode (-32768) = .ok [0x00, 0x80] ∧ i16le.decode [0x00, 0x80] = -32768 ∧
    u16be.encode 65534 = .ok [0xFF, 0xFE] ∧ u16be.decode [0xFF, 0xFE] = 65534 ∧
    (∀ m, i16le.encode m = .ok [0x00, 0x80] → -32768 = m) ∧
    i16le.encode 32768 = .error (.valueOutOfRange (toString (32768 : Int)) "I16Le") :=
  ⟨((encode_reads_back i16le (-32768)).2.2.1 _).2 (by decide), by decide,
    ((encode_reads_back u16be 65534).2.2.1 _).2 (by decide), by decide,
    fun m => (encode_reads_back i16le (-32768)).2.2.2 m _ rfl,
    (encode_reads_back i16le 32768).2.1.2 (by decide)⟩

end IntFormat

end Backpatch
