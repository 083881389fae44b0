import Backpatch.Bytes

/-!
# Checksums

Byte sums, and the cyclic redundancy check with the polynomial `x ^ 16 + x ^ 12 + x ^ 5 + 1`, all
ones at the start and the most significant bit first.
-/

namespace Backpatch.Digest

def sum8 (bs : Bytes) : UInt8 :=
  bs.foldl (· + ·) 0

def sum16 (bs : Bytes) : UInt16 :=
  bs.foldl (fun sum b => sum + b.toUInt16) 0

/-- The polynomial without its leading term. -/
def crcPolynomial : UInt16 := 0x1021

/-- Multiplies the register by `x`, modulo the polynomial. -/
def crcShift (r : UInt16) : UInt16 :=
  if r &&& 0x8000 = 0 then r <<< 1 else (r <<< 1) ^^^ crcPolynomial

/-- Takes a whole byte into the top of the register and shifts it through. -/
def crcByte (r : UInt16) (b : UInt8) : UInt16 :=
  Nat.repeat crcShift 8 (r ^^^ (b.toUInt16 <<< 8))

def crc16 (bs : Bytes) : UInt16 :=
  bs.foldl crcByte 0xFFFF

end Backpatch.Digest
