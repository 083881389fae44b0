/-!
# Byte strings

Words of a fixed width as little-endian bytes, the way back, the ranges of machine words, and the
hexadecimal texts in which offsets and bytes are shown.
-/

namespace Backpatch

abbrev Bytes := List UInt8

namespace Bytes

/-- The `width` low bytes of `n`, least significant first. -/
def littleEndian : Nat → Nat → Bytes
  | 0, _ => []
  | width + 1, n => UInt8.ofNat n :: littleEndian width (n / 256)

/-- The number whose little-endian bytes are given. -/
def toNat : Bytes → Nat
  | [] => 0
  | b :: bs => b.toNat + 256 * toNat bs

/-- How many different words have `width` bytes. -/
def wordCount (width : Nat) : Nat := Nat.pow 256 width

/-- The `width` low bytes of the two's complement of `n`, least significant first. -/
def twosComplement (width : Nat) (n : Int) : Bytes :=
  littleEndian width (n % wordCount width).toNat

/-- The number whose little-endian two's complement bytes are given. -/
def toInt (bs : Bytes) : Int :=
  if 2 * toNat bs < wordCount bs.length then toNat bs else toNat bs - wordCount bs.length

@[simp] theorem length_littleEndian (width n : Nat) : (littleEndian width n).length = width := by
  induction width generalizing n with
  | zero => rfl
  | succ width ih => simp [littleEndian, ih]

@[simp] theorem length_twosComplement (width : Nat) (n : Int) :
    (twosComplement width n).length = width := length_littleEndian ..

end Bytes

namespace Word

/-- The least number of a word of `bits` bits. -/
def least (signed : Bool) (bits : Nat) : Int :=
  if signed then -(Nat.pow 2 (bits - 1) : Nat) else 0

/-- The greatest number of a word of `bits` bits. -/
def greatest (signed : Bool) (bits : Nat) : Int :=
  if signed then (Nat.pow 2 (bits - 1) : Nat) - 1 else (Nat.pow 2 bits : Nat) - 1

end Word

/-- The hexadecimal digits of `n` in capitals, with zeros in front up to `width` digits. -/
def capitalHex (width n : Nat) : String :=
  let digits := (Nat.toDigits 16 n).map Char.toUpper
  String.ofList (List.replicate (width - digits.length) '0' ++ digits)

/-- The digit of a number below sixteen. -/
def hexDigit (n : UInt8) : Char :=
  Nat.digitChar n.toNat

/-- Two small hexadecimal digits for each byte. -/
def Bytes.hex (bs : Bytes) : String :=
  String.ofList (bs.flatMap fun b => [hexDigit (b / 16), hexDigit (b % 16)])

end Backpatch
