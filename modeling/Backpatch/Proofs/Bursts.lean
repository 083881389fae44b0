import Mathlib
import Backpatch.Proofs.Grammar

/-!
# Bursts

The checksum takes in the bits of the data one after another (`crc16_eq_foldl`), and the register is
linear in them. So two byte strings of one length have the same checksum just if the bits in which
they differ leave an empty register empty. A burst of at most sixteen bits does not: what the
polynomial puts into the lowest place of the register cannot leave it within fifteen more bits
(`dvd_of_foldl_crcBit_eq_zero`), and zeros that follow do not clear it.
-/

namespace Backpatch

namespace Bytes

/-- The bits of a byte, most significant first. -/
def byteBits (b : UInt8) : List Bool :=
  (List.range 8).map fun k => b.toNat.testBit (7 - k)

/-- The bits of a byte string, most significant first within each byte. -/
def bits (bs : Bytes) : List Bool :=
  bs.flatMap byteBits

@[simp] theorem length_byteBits (b : UInt8) : (byteBits b).length = 8 := by simp [byteBits]

@[simp] theorem length_bits (bs : Bytes) : (bits bs).length = 8 * bs.length := by
  simp [bits, Nat.mul_comm]

@[simp] theorem bits_cons (b : UInt8) (bs : Bytes) : bits (b :: bs) = byteBits b ++ bits bs := rfl

theorem byteBits_injective : Function.Injective byteBits := by
  intro b c h
  apply UInt8.toNat_inj.1
  apply Nat.eq_of_testBit_eq
  intro k
  by_cases hk : k < 8
  · have hbit := congrArg (·[7 - k]?) h
    simpa [byteBits, show 7 - k < 8 by omega, show 7 - (7 - k) = k by omega] using hbit
  · have hpow : 2 ^ 8 ≤ 2 ^ k := Nat.pow_le_pow_right (by decide) (by omega)
    rw [Nat.testBit_lt_two_pow (b.toNat_lt.trans_le hpow),
      Nat.testBit_lt_two_pow (c.toNat_lt.trans_le hpow)]

theorem bits_injective : Function.Injective bits := by
  intro bs
  induction bs with
  | nil =>
    intro cs h
    have hlength := congrArg List.length h
    simp only [length_bits] at hlength
    exact (List.length_eq_zero_iff.1 (by simpa using hlength.symm)).symm
  | cons b bs ih =>
    rintro (_ | ⟨c, cs⟩) h
    · simp [bits, byteBits] at h
    · obtain ⟨hhead, htail⟩ := List.append_inj h (by simp)
      rw [byteBits_injective hhead, ih htail]

theorem bits_take (bs : Bytes) (n : Nat) : bits (bs.take n) = (bits bs).take (8 * n) := by
  induction bs generalizing n with
  | nil => simp [bits]
  | cons b bs ih =>
    cases n with
    | zero => simp [bits]
    | succ n => simp [ih, List.take_append, Nat.mul_succ, List.take_of_length_le]

theorem bits_drop (bs : Bytes) (n : Nat) : bits (bs.drop n) = (bits bs).drop (8 * n) := by
  induction bs generalizing n with
  | nil => simp [bits]
  | cons b bs ih =>
    cases n with
    | zero => simp
    | succ n => simp [ih, List.drop_append, Nat.mul_succ, List.drop_of_length_le]

theorem getElem?_bits_take_drop (bs : Bytes) (a b i : Nat) :
    (bits ((bs.take b).drop a))[i]? =
      if 8 * a + i < 8 * b then (bits bs)[8 * a + i]? else none := by
  rw [bits_drop, bits_take, List.getElem?_drop, List.getElem?_take]

end Bytes

namespace Digest

/-- Takes one bit into the register: the polynomial comes in if the bit differs from the one that
leaves. -/
def crcBit (r : UInt16) (x : Bool) : UInt16 :=
  if (r.toNat.testBit 15) ^^ x then (r <<< 1) ^^^ crcPolynomial else r <<< 1

theorem crcShift_eq_crcBit (r : UInt16) : crcShift r = crcBit r false := by
  have htop : r &&& 0x8000 = 0 ↔ r.toNat.testBit 15 = false := by
    rw [← UInt16.toNat_inj, UInt16.toNat_and]
    change r.toNat &&& 2 ^ 15 = 0 ↔ _
    rw [Nat.and_two_pow]
    cases r.toNat.testBit 15 <;> decide
  simp only [crcShift, crcBit, htop, Bool.xor_false]
  split_ifs <;> simp_all

/-- The register is linear in what it holds and in what comes in. -/
theorem crcBit_xor (r q : UInt16) (x y : Bool) :
    crcBit (r ^^^ q) (x ^^ y) = crcBit r x ^^^ crcBit q y := by
  have hsplit : ∀ (r : UInt16) (x : Bool),
      crcBit r x = (r <<< 1) ^^^ (if (r.toNat.testBit 15) ^^ x then crcPolynomial else 0) := by
    intro r x
    unfold crcBit
    split_ifs <;> simp
  have hbit : ((r ^^^ q).toNat.testBit 15 ^^ (x ^^ y)) =
      ((r.toNat.testBit 15 ^^ x) ^^ (q.toNat.testBit 15 ^^ y)) := by
    rw [UInt16.toNat_xor, Nat.testBit_xor, Bool.xor_assoc, Bool.xor_assoc, Bool.xor_left_comm x]
  have hpoly : ∀ a b : Bool, (if a ^^ b then crcPolynomial else 0) =
      (if a then crcPolynomial else 0) ^^^ (if b then crcPolynomial else 0) := by decide
  rw [hsplit, hsplit, hsplit, hbit, hpoly, UInt16.shiftLeft_xor]
  ac_rfl

theorem crcShift_xor (r m : UInt16) :
    crcShift (r ^^^ m) = crcBit r (m.toNat.testBit 15) ^^^ (m <<< 1) := by
  have hm : m <<< 1 = crcBit m (m.toNat.testBit 15) := by simp [crcBit]
  rw [hm, ← crcBit_xor, Bool.xor_self, crcShift_eq_crcBit]

/-- Shifting what was taken in as a whole is taking it in bit by bit, as far as it was shifted. -/
theorem repeat_crcShift_xor (r m : UInt16) {n : Nat} (hn : n < 16) :
    Nat.repeat crcShift n (r ^^^ m) =
      ((List.range n).map fun k => m.toNat.testBit (15 - k)).foldl crcBit r ^^^
        (m <<< UInt16.ofNat n) := by
  induction n with
  | zero => simp [Nat.repeat]
  | succ n ih =>
    have hmod : UInt16.toNat (UInt16.ofNat n) = n := by
      rw [UInt16.toNat_ofNat']
      omega
    have htop : (m <<< UInt16.ofNat n).toNat.testBit 15 = m.toNat.testBit (15 - n) := by
      rw [UInt16.toNat_shiftLeft, hmod, Nat.mod_eq_of_lt (by omega : n < 16),
        Nat.testBit_mod_two_pow, Nat.testBit_shiftLeft]
      simp [show n ≤ 15 by omega]
    have hshift : m <<< UInt16.ofNat n <<< 1 = m <<< UInt16.ofNat (n + 1) := by
      have hlt : UInt16.ofNat n < 16 := by
        rw [UInt16.lt_iff_toNat_lt, hmod]
        exact Nat.lt_of_succ_lt hn
      have hlt' : UInt16.ofNat n + 1 < 16 := by
        rw [UInt16.lt_iff_toNat_lt, UInt16.toNat_add, hmod]
        exact (Nat.mod_le ..).trans_lt hn
      rw [UInt16.ofNat_add]
      exact (UInt16.shiftLeft_add hlt (by decide) hlt').symm
    rw [Nat.repeat, ih (by omega), crcShift_xor, htop, hshift, List.range_succ, List.map_append,
      List.foldl_append]
    rfl

theorem crcByte_eq_foldl (r : UInt16) (b : UInt8) :
    crcByte r b = (Bytes.byteBits b).foldl crcBit r := by
  have hb := b.toNat_lt
  have hword : (b.toUInt16 <<< 8).toNat = b.toNat <<< 8 := by
    rw [UInt16.toNat_shiftLeft, UInt8.toNat_toUInt16]
    apply Nat.mod_eq_of_lt
    rw [Nat.shiftLeft_eq]
    change b.toNat * 2 ^ 8 < _
    omega
  have hout : b.toUInt16 <<< 8 <<< (UInt16.ofNat 8) = 0 := by
    rw [← UInt16.toNat_inj, UInt16.toNat_shiftLeft, hword]
    simp [Nat.shiftLeft_eq]
    omega
  rw [crcByte, repeat_crcShift_xor _ _ (by decide), hout, UInt16.xor_zero, Bytes.byteBits, hword]
  congr 1
  refine List.map_congr_left fun k hk => ?_
  have hk : k < 8 := List.mem_range.1 hk
  rw [Nat.testBit_shiftLeft, show 15 - k - 8 = 7 - k by omega]
  simp
  omega

/-- The check takes in the bits of the data one after another. -/
theorem crc16_eq_foldl (bs : Bytes) : crc16 bs = (Bytes.bits bs).foldl crcBit 0xFFFF := by
  rw [crc16, Bytes.bits, List.foldl_flatMap]
  congr 1
  funext r b
  exact crcByte_eq_foldl r b

theorem foldl_crcBit_xor {xs ys : List Bool} (hlength : xs.length = ys.length) (r q : UInt16) :
    (List.zipWith xor xs ys).foldl crcBit (r ^^^ q) =
      xs.foldl crcBit r ^^^ ys.foldl crcBit q := by
  induction xs generalizing ys r q with
  | nil =>
    obtain rfl : ys = [] := List.length_eq_zero_iff.1 hlength.symm
    rfl
  | cons x xs ih =>
    rcases ys with _ | ⟨y, ys⟩
    · cases hlength
    · rw [List.zipWith_cons_cons, List.foldl_cons, crcBit_xor]
      exact ih (Nat.succ.inj hlength) (crcBit r x) (crcBit q y)

/-- The polynomial has a constant term, so it shows in the last bit of the register. -/
theorem crcBit_eq_shiftLeft {r : UInt16} {x : Bool} (h : 2 ∣ (crcBit r x).toNat) :
    (r.toNat.testBit 15 ^^ x) = false ∧ (crcBit r x).toNat = 2 * r.toNat % 2 ^ 16 := by
  have hshift : (r <<< 1).toNat = 2 * r.toNat % 2 ^ 16 := by
    rw [UInt16.toNat_shiftLeft, Nat.shiftLeft_eq, Nat.mul_comm]
    rfl
  unfold crcBit at h ⊢
  cases hx : r.toNat.testBit 15 ^^ x with
  | false => exact ⟨rfl, hshift⟩
  | true =>
    have hlast : ((r <<< 1) ^^^ crcPolynomial).toNat.testBit 0 = true := by
      rw [UInt16.toNat_xor, Nat.testBit_xor, hshift]
      simp [crcPolynomial]
    rw [hx, if_pos rfl] at h
    rw [Nat.testBit_zero] at hlast
    have := of_decide_eq_true hlast
    omega

/-- A register that `n` bits can clear is a multiple of `x ^ (16 - n)`. -/
theorem dvd_of_foldl_crcBit_eq_zero {r : UInt16} {xs : List Bool} (hlength : xs.length ≤ 16)
    (h : xs.foldl crcBit r = 0) : 2 ^ (16 - xs.length) ∣ r.toNat := by
  induction xs generalizing r with
  | nil =>
    obtain rfl : r = 0 := h
    exact Nat.dvd_zero _
  | cons x xs ih =>
    rw [List.length_cons] at hlength ⊢
    have hnext := ih (by omega) h
    have hpow : 2 ^ (16 - xs.length) = 2 * 2 ^ (16 - (xs.length + 1)) := by
      rw [← Nat.pow_succ', show 16 - xs.length = 16 - (xs.length + 1) + 1 by omega]
    have heven : 2 ∣ (crcBit r x).toNat := (Dvd.intro _ hpow.symm).trans hnext
    rw [(crcBit_eq_shiftLeft heven).2, Nat.dvd_mod_iff (Nat.pow_dvd_pow 2 (Nat.sub_le ..)),
      hpow] at hnext
    exact Nat.dvd_of_mul_dvd_mul_left (by decide) hnext

/-- Zeros that come in do not clear the register. -/
theorem eq_zero_of_foldl_crcBit {r : UInt16} {xs : List Bool} (hzeros : ∀ x ∈ xs, x = false)
    (h : xs.foldl crcBit r = 0) : r = 0 := by
  induction xs generalizing r with
  | nil => exact h
  | cons x xs ih =>
    obtain rfl : x = false := hzeros x (.head _)
    have hnext : crcBit r false = 0 := ih (fun x hx => hzeros x (.tail _ hx)) h
    have hr := r.toNat_lt
    obtain ⟨htop, hshift⟩ := crcBit_eq_shiftLeft (r := r) (x := false) (by rw [hnext]; decide)
    rw [hnext, UInt16.toNat_zero] at hshift
    rw [Bool.xor_false, Nat.testBit_eq_decide_div_mod_eq, decide_eq_false_iff_not] at htop
    rw [← UInt16.toNat_inj, UInt16.toNat_zero]
    omega

/-- A burst of up to sixteen bits does not cancel out: from its first bit on, the fifteen bits that
may follow leave the constant term of the polynomial in the register. -/
theorem foldl_crcBit_burst {xs : List Bool} (start : Nat)
    (hwindow : ∀ i, xs[i]? = some true → start ≤ i ∧ i < start + 16)
    (h : xs.foldl crcBit 0 = 0) : ∀ x ∈ xs, x = false := by
  induction xs generalizing start with
  | nil => simp
  | cons x xs ih =>
    cases x with
    | false =>
      have hnext : ∀ i, xs[i]? = some true → start - 1 ≤ i ∧ i < start - 1 + 16 := by
        intro i hi
        have := hwindow (i + 1) hi
        omega
      simpa using ih (start - 1) hnext h
    | true =>
      have hstart := (hwindow 0 rfl).1
      have hzeros : ∀ x ∈ xs.drop 15, x = false := by
        intro x hx
        obtain ⟨i, hi⟩ := List.mem_iff_getElem?.1 hx
        rw [List.getElem?_drop] at hi
        rw [← Bool.not_eq_true]
        rintro rfl
        have := (hwindow (15 + i + 1) hi).2
        omega
      rw [← List.take_append_drop 15 xs, List.foldl_cons, List.foldl_append] at h
      have hburst := dvd_of_foldl_crcBit_eq_zero (by simp) (eq_zero_of_foldl_crcBit hzeros h)
      have heven : 2 ∣ (crcBit 0 true).toNat := by
        refine (dvd_pow_self 2 ?_).trans hburst
        rw [List.length_take]
        omega
      exact absurd heven (by decide)

/-- Two byte strings that differ by a burst have different checks. -/
theorem crc16_ne_of_burst {bs cs : Bytes} (start : Nat) (hlength : cs.length = bs.length)
    (hne : cs ≠ bs)
    (hwindow : ∀ i, (Bytes.bits cs)[i]? ≠ (Bytes.bits bs)[i]? → start ≤ i ∧ i < start + 16) :
    crc16 cs ≠ crc16 bs := by
  intro heq
  have hbits : (Bytes.bits cs).length = (Bytes.bits bs).length := by simp [hlength]
  have hsum : (List.zipWith xor (Bytes.bits cs) (Bytes.bits bs)).foldl crcBit 0 = 0 := by
    have hxor := foldl_crcBit_xor hbits 0xFFFF 0xFFFF
    rwa [← crc16_eq_foldl, ← crc16_eq_foldl, heq, UInt16.xor_self, UInt16.xor_self] at hxor
  have hdiff : ∀ i : Nat, (List.zipWith xor (Bytes.bits cs) (Bytes.bits bs))[i]? = some true →
      (Bytes.bits cs)[i]? ≠ (Bytes.bits bs)[i]? := by
    intro i hi
    obtain ⟨x, y, hx, hy, hxy⟩ := List.getElem?_zipWith_eq_some.1 hi
    rw [hx, hy]
    rintro ⟨⟩
    simp at hxy
  have hclear := foldl_crcBit_burst start (fun i hi => hwindow i (hdiff i hi)) hsum
  refine hne (Bytes.bits_injective (List.ext_getElem hbits fun i hi hi' => ?_))
  have hmem : ((Bytes.bits cs)[i] ^^ (Bytes.bits bs)[i]) ∈
      List.zipWith xor (Bytes.bits cs) (Bytes.bits bs) :=
    List.mem_iff_getElem.2 ⟨i, by rw [List.length_zipWith]; omega, by simp⟩
  simpa using hclear _ hmem

end Digest

namespace Snapshot

theorem wordAt_take {data : Bytes} {offset width n : Nat} (h : offset + width ≤ n) :
    wordAt (data.take n) offset width = wordAt data offset width := by
  rw [wordAt, List.drop_take, List.take_take, Nat.min_eq_left (by omega), wordAt]

namespace Header

/-- A header is read from its own bytes alone. -/
theorem Grammatical.of_take_eq {data data' : Bytes} (hg : Grammatical data)
    (hlength : data'.length = data.length)
    (htake : data'.take (fields data).headerSize = data.take (fields data).headerSize) :
    Grammatical data' ∧ fields data' = fields data := by
  obtain ⟨hfixed, hm, hsize, hbody, himage⟩ := hg
  have hheader : (fields data).headerSize = 16 + 2 * wordAt data 14 2 := hsize
  rw [hheader] at htake
  have hword : ∀ o w, o + w ≤ 16 + 2 * wordAt data 14 2 → wordAt data' o w = wordAt data o w := by
    intro o w how
    rw [← wordAt_take how, htake, wordAt_take how]
  have h4 := hword 4 2 (by omega)
  have h6 := hword 6 2 (by omega)
  have h8 := hword 8 4 (by omega)
  have h12 := hword 12 2 (by omega)
  have h14 := hword 14 2 (by omega)
  refine ⟨⟨by rwa [hlength], ?_, by rwa [h6, h14], by rwa [h8, h14], by rwa [h8, hlength]⟩, ?_⟩
  · have hfour := congrArg (List.take 4) htake
    rw [List.take_take, List.take_take, Nat.min_eq_left (by omega)] at hfour
    rw [Marked, hfour, hm]
  · have htable : wordsAt data' fixedHeaderSize 2 (wordAt data 14 2) =
        wordsAt data fixedHeaderSize 2 (wordAt data 14 2) := by
      refine List.map_congr_left fun k hk => hword _ _ ?_
      have hk := List.mem_range.1 hk
      rw [fixedHeaderSize]
      omega
    simp only [fields, h4, h6, h8, h12, h14, htable]

/-- Bursts are detected: if a snapshot passes its check, and then bits of its body are changed, all
of them within sixteen bits in a row, its header is still read the same and the check fails. -/
theorem bursts_detected {data data' : Bytes} {h : Header} {start : Nat}
    (hparse : parse data = .ok h) (hverify : h.verify data = true)
    (hlength : data'.length = data.length) (hne : data' ≠ data)
    (hwindow : ∀ i, (Bytes.bits data')[i]? ≠ (Bytes.bits data)[i]? →
      (start ≤ i ∧ i < start + 16) ∧ 8 * h.headerSize ≤ i ∧ i < 8 * h.imageSize) :
    parse data' = .ok h ∧ h.verify data' = false := by
  obtain ⟨hg, hfields⟩ := parse_eq_ok_iff.1 hparse
  obtain ⟨hheader, himage⟩ := hg.sizes
  rw [← hfields] at hheader himage
  have htake : data'.take h.headerSize = data.take h.headerSize := by
    apply Bytes.bits_injective
    apply List.ext_getElem?
    intro i
    rw [Bytes.bits_take, Bytes.bits_take, List.getElem?_take, List.getElem?_take]
    split_ifs with hi
    · by_contra hdiff
      have := (hwindow i hdiff).2.1
      omega
    · rfl
  obtain ⟨hg', hfields'⟩ := hg.of_take_eq hlength (hfields ▸ htake)
  refine ⟨parse_eq_ok_iff.2 ⟨hg', hfields.trans hfields'.symm⟩, ?_⟩
  have hbody : (data'.take h.imageSize).drop h.headerSize ≠
      (data.take h.imageSize).drop h.headerSize := by
    intro hsame
    refine hne (Bytes.bits_injective (List.ext_getElem? fun i => ?_))
    by_contra hdiff
    obtain ⟨-, hlo, hhi⟩ := hwindow i hdiff
    have hbit := congrArg (fun bs => (Bytes.bits bs)[i - 8 * h.headerSize]?) hsame
    simp only [Bytes.getElem?_bits_take_drop, Nat.add_sub_cancel' hlo, if_pos hhi] at hbit
    exact hdiff hbit
  have hcrc := Digest.crc16_ne_of_burst (start - 8 * h.headerSize) (by simp [hlength]) hbody (by
    intro i hdiff
    rw [Bytes.getElem?_bits_take_drop, Bytes.getElem?_bits_take_drop] at hdiff
    split_ifs at hdiff with hi
    · have := (hwindow _ hdiff).1
      omega
    · exact absurd rfl hdiff)
  simp only [verify, body?_of_sizes hheader himage, Option.any_some, beq_iff_eq] at hverify
  rw [verify, body?_of_sizes hheader (hlength ▸ himage), Option.any_some, ← hverify]
  simpa [UInt16.toNat_inj] using hcrc

/-- An image with one section of four bytes, and a byte behind it. -/
def sealedImage : Bytes :=
  [0x53, 0x4E, 0x41, 0x50, 1, 0, 18, 0, 22, 0, 0, 0, 0xEC, 0x30, 1, 0, 18, 0,
    0x12, 0x34, 0x56, 0x78, 0xFF]

/-- Of sixteen bits that begin in the first byte of the section and end in its third, the outermost
two are changed. -/
def struckImage : Bytes :=
  [0x53, 0x4E, 0x41, 0x50, 1, 0, 18, 0, 22, 0, 0, 0, 0xEC, 0x30, 1, 0, 18, 0,
    0x02, 0x34, 0x76, 0x78, 0xFF]

theorem bursts_detected_across_bytes :
    parse sealedImage = .ok (fields sealedImage) ∧ (fields sealedImage).verify sealedImage = true ∧
      parse struckImage = .ok (fields sealedImage) ∧
      (fields sealedImage).verify struckImage = false := by
  have hparse : parse sealedImage = .ok (fields sealedImage) :=
    parse_eq_ok_iff.2 ⟨⟨by decide, by decide, by decide, by decide, by decide⟩, rfl⟩
  have hverify : (fields sealedImage).verify sealedImage = true := by decide +kernel
  have hwindow : ∀ i, (Bytes.bits struckImage)[i]? ≠ (Bytes.bits sealedImage)[i]? →
      (147 ≤ i ∧ i < 147 + 16) ∧ 8 * (fields sealedImage).headerSize ≤ i ∧
        i < 8 * (fields sealedImage).imageSize := by
    intro i
    by_cases hlt : i < 184
    · revert hlt
      revert i
      decide +kernel
    · rw [List.getElem?_eq_none (by rw [Bytes.length_bits]; exact Nat.le_of_not_lt hlt),
        List.getElem?_eq_none (by rw [Bytes.length_bits]; exact Nat.le_of_not_lt hlt)]
      exact fun h => absurd rfl h
  exact ⟨hparse, hverify, bursts_detected hparse hverify rfl (by decide) hwindow⟩

end Header

end Snapshot

end Backpatch
