import Backpatch.Decimal.Shortest

/-!
# Texts of doubles

A `Style` fixes how a shortest decimal is laid out: whether a whole number keeps a fraction
digit, and which magnitudes are written with an exponent.
-/

namespace Backpatch.Decimal

structure Style where
  /-- A whole number ends in this text. -/
  whole : String
  /-- The exponents of the leading digit that are written positionally. -/
  positional : Int → Bool

/-- Every number in full, a whole one without a point. -/
def plain : Style := ⟨"", fun _ => true⟩

/-- A whole number keeps a zero after the point; very large and very small numbers have an
exponent. -/
def exact : Style := ⟨".0", fun e => -4 ≤ e && e < 16⟩

/-- The digits of `n` as characters. -/
def digits (n : Nat) : List Char := Nat.toDigits 10 n

def Scientific.leading (d : Scientific) : Int :=
  (digits d.significand).length + d.exponent - 1

/-- Digits with a point: zeros fill the places that the significand does not reach. -/
def Scientific.positional (style : Style) (d : Scientific) : String :=
  let ds := digits d.significand
  if 0 ≤ d.exponent then
    String.ofList (ds ++ List.replicate d.exponent.toNat '0') ++ style.whole
  else
    let places := (-d.exponent).toNat
    let ds := List.replicate (places + 1 - ds.length) '0' ++ ds
    let (before, after) := ds.splitAt (ds.length - places)
    String.ofList (before ++ '.' :: after)

/-- One digit before the point and the exponent of that digit. -/
def Scientific.exponential (d : Scientific) : String :=
  let mantissa :=
    match digits d.significand with
    | first :: second :: rest => first :: '.' :: second :: rest
    | ds => ds
  String.ofList mantissa ++ "e" ++ toString d.leading

def Scientific.text (style : Style) (d : Scientific) : String :=
  if d.significand = 0 || style.positional d.leading then d.positional style
  else d.exponential

/-- The text of the double with the given bits. -/
def text (style : Style) (bits : UInt64) : String :=
  let sign := if isNegative bits then "-" else ""
  match magnitude bits with
  | .notANumber => "NaN"
  | .infinite => sign ++ "inf"
  | .finite b => sign ++ b.shortest.text style

end Backpatch.Decimal
