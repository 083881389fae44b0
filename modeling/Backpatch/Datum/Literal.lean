import Backpatch.Datum

/-!
# Literals

A value as it is written down. What it means depends on the cell it is for: the same digits are a
number, a text, or bytes. A literal therefore keeps its readings apart until the kind of the cell
is known.
-/

namespace Backpatch

/-- The readings of a literal, as far as it has them. -/
structure Literal where
  number : Option Int := none
  /-- The bits of a double. -/
  bits : Option UInt64 := none
  nibbles : Option (UInt8 × UInt8) := none
  text : Option String := none
  flag : Option Bool := none
  bytes : Option Bytes := none
deriving DecidableEq

/-- The value of a literal for a cell of the given kind. -/
def Literal.read (l : Literal) : Kind → Option Datum
  | .int kind => (l.number.filter kind.holds).map .int
  | .real => l.bits.map .real
  | .nibbles => l.nibbles.map fun (high, low) => .nibbles high low
  | .text => l.text.map .text
  | .flag => l.flag.map .flag
  | .bytes => l.bytes.map .bytes
  | .block width => (l.bytes.filter (·.length == width)).map .bytes

end Backpatch
