import Mathlib
import Backpatch.Proofs.Bursts

/-!
# The check is a remainder

Over the field with two elements a byte string is a polynomial, its first bit the coefficient of the
highest power. The register of the check holds a polynomial of degree below sixteen. Taking in a bit
multiplies it by `X`, adds the bit at `X ^ 16`, and takes the polynomial of the check off once if
that brings the degree back below sixteen (`registerPolynomial_crcBit`). So after the whole message
the register holds the remainder of message and preset.
-/

namespace Backpatch.Digest

open Polynomial

/-! ## The bit-serial check -/

/-- Takes in bit `k` of a byte. The register moves up by one place, and the polynomial comes in if
the bit differs from the one that left. -/
def serialBit (b : UInt8) (r : UInt16) (k : Nat) : UInt16 :=
  let input := (b >>> UInt8.ofNat k) &&& 1 == 1
  let top := r &&& 0x8000 != 0
  let moved := r <<< 1
  if input != top then moved ^^^ 0x1021 else moved

/-- The check with the bits taken in one by one, the most significant bit of each byte first. -/
def serialCrc (bs : Bytes) : UInt16 :=
  bs.foldl (fun r b => (List.range 8).reverse.foldl (serialBit b) r) 0xFFFF

theorem serialBit_eq_crcBit (b : UInt8) (r : UInt16) {k : Nat} (hk : k < 8) :
    serialBit b r k = crcBit r (b.toNat.testBit k) := by
  have hinput : ((b >>> UInt8.ofNat k) &&& 1 == 1) = b.toNat.testBit k := by
    have hmod : (UInt8.ofNat k).toNat % 8 = k := by
      rw [UInt8.toNat_ofNat']
      omega
    rw [Bool.eq_iff_iff, beq_iff_eq, ← UInt8.toNat_inj, UInt8.toNat_and, UInt8.toNat_shiftRight,
      hmod, UInt8.toNat_one, Nat.and_one_is_mod, Nat.testBit_eq_decide_div_mod_eq,
      Nat.shiftRight_eq_div_pow, decide_eq_true_iff]
  have htop : (r &&& 0x8000 != 0) = r.toNat.testBit 15 := by
    rw [Bool.eq_iff_iff, bne_iff_ne, Ne, ← UInt16.toNat_inj, UInt16.toNat_and]
    change ¬ r.toNat &&& 2 ^ 15 = 0 ↔ _
    rw [Nat.and_two_pow]
    cases r.toNat.testBit 15 <;> decide
  rw [serialBit, hinput, htop, crcBit, Bool.xor_comm]
  cases b.toNat.testBit k <;> cases r.toNat.testBit 15 <;> rfl

theorem foldl_serialBit (b : UInt8) (r : UInt16) :
    (List.range 8).reverse.foldl (serialBit b) r = (Bytes.byteBits b).foldl crcBit r := by
  have hbits : Bytes.byteBits b = (List.range 8).reverse.map b.toNat.testBit := rfl
  rw [hbits, List.foldl_map]
  refine List.foldl_ext _ _ _ fun q k hk => serialBit_eq_crcBit b q ?_
  simpa using hk

theorem serialCrc_eq_foldl (bs : Bytes) : serialCrc bs = (Bytes.bits bs).foldl crcBit 0xFFFF := by
  rw [serialCrc, Bytes.bits, List.foldl_flatMap]
  congr 1
  funext r b
  exact foldl_serialBit b r

/-! ## Polynomials over two elements -/

/-- A bit as a coefficient. -/
def coefficient (x : Bool) : ZMod 2 := if x then 1 else 0

@[simp] theorem coefficient_xor (x y : Bool) :
    coefficient (x ^^ y) = coefficient x + coefficient y := by
  cases x <;> cases y <;> decide

theorem coefficient_injective : Function.Injective coefficient := by decide

/-- The polynomial of a bit string, the first bit at the highest power. -/
noncomputable def bitPolynomial : List Bool → (ZMod 2)[X]
  | [] => 0
  | x :: xs => C (coefficient x) * X ^ xs.length + bitPolynomial xs

/-- The polynomial that a register holds, bit `k` at the power `k`. -/
noncomputable def registerPolynomial (r : UInt16) : (ZMod 2)[X] :=
  ∑ k ∈ Finset.range 16, C (coefficient (r.toNat.testBit k)) * X ^ k

/-- The polynomial that the check divides by. -/
noncomputable def generator : (ZMod 2)[X] := X ^ 16 + X ^ 12 + X ^ 5 + 1

theorem generator_monic : generator.Monic := by
  unfold generator
  monicity!

theorem generator_degree : generator.degree = 16 := by
  unfold generator
  compute_degree!

theorem coeff_registerPolynomial (r : UInt16) {k : Nat} (hk : k < 16) :
    (registerPolynomial r).coeff k = coefficient (r.toNat.testBit k) := by
  simp only [registerPolynomial, finsetSum_coeff, coeff_C_mul, coeff_X_pow, mul_ite, mul_one,
    mul_zero]
  rw [Finset.sum_ite_eq, if_pos (Finset.mem_range.2 hk)]

theorem registerPolynomial_injective : Function.Injective registerPolynomial := by
  intro r q h
  apply UInt16.toNat_inj.1
  apply Nat.eq_of_testBit_eq
  intro k
  by_cases hk : k < 16
  · apply coefficient_injective
    rw [← coeff_registerPolynomial r hk, h, coeff_registerPolynomial q hk]
  · have hpow : 2 ^ 16 ≤ 2 ^ k := Nat.pow_le_pow_right (by decide) (by omega)
    rw [Nat.testBit_lt_two_pow (r.toNat_lt.trans_le hpow),
      Nat.testBit_lt_two_pow (q.toNat_lt.trans_le hpow)]

theorem degree_registerPolynomial_lt (r : UInt16) : (registerPolynomial r).degree < 16 := by
  refine (degree_sum_le _ _).trans_lt ((Finset.sup_lt_iff (by decide)).2 fun k hk => ?_)
  refine (degree_C_mul_X_pow_le k _).trans_lt ?_
  exact_mod_cast Finset.mem_range.1 hk

theorem registerPolynomial_xor (r q : UInt16) :
    registerPolynomial (r ^^^ q) = registerPolynomial r + registerPolynomial q := by
  simp only [registerPolynomial, UInt16.toNat_xor, Nat.testBit_xor, coefficient_xor, C_add, add_mul,
    Finset.sum_add_distrib]

/-- Moving the register up multiplies by `X`; what leaves it was at `X ^ 16`. -/
theorem registerPolynomial_shiftLeft (r : UInt16) :
    registerPolynomial (r <<< 1) + C (coefficient (r.toNat.testBit 15)) * X ^ 16 =
      registerPolynomial r * X := by
  have hbit : ∀ k < 16,
      (r <<< 1).toNat.testBit k = (decide (1 ≤ k) && r.toNat.testBit (k - 1)) := by
    intro k hk
    rw [UInt16.toNat_shiftLeft, Nat.testBit_mod_two_pow, Nat.testBit_shiftLeft]
    simp [hk]
  have hlow : registerPolynomial (r <<< 1) =
      ∑ k ∈ Finset.range 15, C (coefficient (r.toNat.testBit k)) * X ^ (k + 1) := by
    have hzero : coefficient ((r <<< 1).toNat.testBit 0) = 0 := by
      rw [hbit 0 (by decide)]
      rfl
    rw [registerPolynomial, Finset.sum_range_succ', hzero, C_0, zero_mul, add_zero]
    refine Finset.sum_congr rfl fun k hk => ?_
    have hk : k + 1 < 16 := Nat.succ_lt_succ (Finset.mem_range.1 hk)
    rw [hbit (k + 1) hk]
    simp
  rw [hlow, ← Finset.sum_range_succ, registerPolynomial, Finset.sum_mul]
  exact Finset.sum_congr rfl fun k _ => by ring

theorem registerPolynomial_crcPolynomial :
    registerPolynomial crcPolynomial + X ^ 16 = generator := by
  have hbits : ∀ k < 16, crcPolynomial.toNat.testBit k = decide (k = 0 ∨ k = 5 ∨ k = 12) := by
    decide
  simp only [registerPolynomial, Finset.sum_range_succ, Finset.sum_range_zero]
  simp [hbits, coefficient, generator]
  ring

/-! ## One bit, and the whole message -/

/-- One bit more is one coefficient more, up to a multiple of the generator. -/
theorem registerPolynomial_crcBit (r : UInt16) (x : Bool) :
    registerPolynomial (crcBit r x) = registerPolynomial r * X + C (coefficient x) * X ^ 16 +
      C (coefficient (r.toNat.testBit 15 ^^ x)) * generator := by
  have htwo : (2 : (ZMod 2)[X]) = 0 := CharTwo.two_eq_zero
  have hfeed : registerPolynomial (crcBit r x) = registerPolynomial (r <<< 1) +
      C (coefficient (r.toNat.testBit 15 ^^ x)) * registerPolynomial crcPolynomial := by
    unfold crcBit
    cases r.toNat.testBit 15 ^^ x with
    | false => simp [coefficient]
    | true => simp [coefficient, registerPolynomial_xor]
  rw [hfeed, ← registerPolynomial_shiftLeft, ← registerPolynomial_crcPolynomial, coefficient_xor,
    C_add]
  linear_combination (-(C (coefficient (r.toNat.testBit 15)) + C (coefficient x)) * X ^ 16) * htwo

/-- The register after a run of bits is the remainder of what it held, moved up by as many places,
and of the bits. -/
theorem registerPolynomial_foldl (xs : List Bool) (r : UInt16) :
    registerPolynomial (xs.foldl crcBit r) =
      (bitPolynomial xs * X ^ 16 + registerPolynomial r * X ^ xs.length) %ₘ generator := by
  induction xs generalizing r with
  | nil =>
    have hsmall : (registerPolynomial r).degree < generator.degree := by
      rw [generator_degree]
      exact degree_registerPolynomial_lt r
    simp [bitPolynomial, (modByMonic_eq_self_iff generator_monic).2 hsmall]
  | cons x xs ih =>
    rw [List.foldl_cons, ih, registerPolynomial_crcBit]
    refine modByMonic_eq_of_dvd_sub generator_monic
      ⟨C (coefficient (r.toNat.testBit 15 ^^ x)) * X ^ xs.length, ?_⟩
    rw [bitPolynomial, List.length_cons]
    ring

/-- The check of a byte string is the bit-serial one. It is the one register that holds the
remainder of the message at `X ^ 16`, with all ones in front of it. -/
theorem crc16_serial_remainder (bs : Bytes) :
    crc16 bs = serialCrc bs ∧
    ∀ r, crc16 bs = r ↔ registerPolynomial r =
      (bitPolynomial (Bytes.bits bs) * X ^ 16 +
        registerPolynomial 0xFFFF * X ^ (8 * bs.length)) %ₘ generator := by
  refine ⟨by rw [crc16_eq_foldl, serialCrc_eq_foldl], fun r => ?_⟩
  rw [← Bytes.length_bits, ← registerPolynomial_foldl, ← crc16_eq_foldl,
    registerPolynomial_injective.eq_iff, eq_comm]

end Backpatch.Digest
