/-!
# Shortest decimals

A binary double is written with the fewest decimal digits that read back as the same double.
Among decimals of that length the nearest one is taken, and of two equally near the larger.
-/

namespace Backpatch.Decimal

/-- The number `significand * 10 ^ exponent`. -/
structure Scientific where
  significand : Nat
  exponent : Int
deriving DecidableEq

/-- The number `mantissa * 2 ^ exponent`; `narrow` says that the gap to the next smaller
double is half the gap to the next larger one. -/
structure Binary where
  mantissa : Nat
  exponent : Int
  narrow : Bool
deriving DecidableEq

/-- What the 64 bits of a double stand for, its sign apart. -/
inductive Magnitude where
  | finite (value : Binary)
  | infinite
  | notANumber
deriving DecidableEq

def isNegative (bits : UInt64) : Bool :=
  bits >>> 63 == 1

def magnitude (bits : UInt64) : Magnitude :=
  let fraction := (bits &&& 0x000FFFFFFFFFFFFF).toNat
  match (bits >>> 52 &&& 0x7FF).toNat with
  | 0 => .finite ⟨fraction, -1074, false⟩
  | 0x7FF => if fraction = 0 then .infinite else .notANumber
  | e => .finite ⟨fraction + 0x10000000000000, e - 1075, fraction = 0 && 1 < e⟩

/-- The reals that round to a double, as the quarters `low`, `mid` and `high` over a common
denominator; the ends belong to the interval if `closed`. -/
structure Interval where
  low : Nat
  mid : Nat
  high : Nat
  denominator : Nat
  closed : Bool

/-- Ties of the binary rounding go to the even mantissa, so its interval holds its ends. -/
def Binary.interval (b : Binary) : Interval :=
  let unit := Nat.pow 2 (b.exponent - 2).toNat
  { low := (4 * b.mantissa - if b.narrow then 1 else 2) * unit
    mid := 4 * b.mantissa * unit
    high := (4 * b.mantissa + 2) * unit
    denominator := Nat.pow 2 (2 - b.exponent).toNat
    closed := b.mantissa % 2 = 0 }

/-- The interval measured in units of `10 ^ exponent`. -/
def Interval.scale (i : Interval) (exponent : Int) : Interval :=
  let up := Nat.pow 10 (-exponent).toNat
  { i with
    low := i.low * up
    mid := i.mid * up
    high := i.high * up
    denominator := i.denominator * Nat.pow 10 exponent.toNat }

def Interval.contains (i : Interval) (n : Nat) : Bool :=
  let x := n * i.denominator
  if i.closed then i.low ≤ x && x ≤ i.high else i.low < x && x < i.high

/-- The whole number of the interval nearest to its middle, if there is one. -/
def Interval.nearest? (i : Interval) : Option Nat :=
  let below := i.mid / i.denominator
  let above := below + 1
  match i.contains below, i.contains above with
  | true, true =>
    some (if 2 * (i.mid % i.denominator) < i.denominator then below else above)
  | true, false => some below
  | false, true => some above
  | false, false => none

/-- The exponent of the leading decimal digit of a positive middle. -/
def Interval.leading (i : Interval) : Int :=
  if i.denominator ≤ i.mid then
    (Nat.toDigits 10 (i.mid / i.denominator)).length - 1
  else
    -(Nat.toDigits 10 ((i.denominator - 1) / i.mid)).length

/-- Moves trailing zeros of the significand into the exponent, at most `steps` of them. -/
def Scientific.trim : Nat → Scientific → Scientific
  | 0, d => d
  | steps + 1, d =>
    if d.significand ≠ 0 ∧ d.significand % 10 = 0 then
      trim steps ⟨d.significand / 10, d.exponent + 1⟩
    else d

/-- Every double is determined by seventeen digits. -/
def maxDigits : Nat := 17

def Binary.shortest (b : Binary) : Scientific :=
  let i := b.interval
  if b.mantissa = 0 then ⟨0, 0⟩ else
    let grid (digits : Nat) : Option Scientific :=
      let exponent := i.leading - digits
      (i.scale exponent).nearest?.map (⟨·, exponent⟩)
    ((List.range maxDigits).findSome? grid).getD ⟨0, 0⟩ |>.trim maxDigits

end Backpatch.Decimal
