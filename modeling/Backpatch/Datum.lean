import Backpatch.Decimal.Text
import Backpatch.Error
import Backpatch.Text.Quoted

/-!
# Values

A `Datum` is a value that a cell can hold, and a `Kind` the set of values a cell is meant for.
Whole numbers have the ranges of machine words, which `IntKind.difference` respects.
-/

namespace Backpatch

/-- The machine words. -/
inductive IntKind where
  | i16 | i32 | i64 | isize | u8 | u16 | u32 | u64 | usize
deriving DecidableEq

namespace IntKind

def name : IntKind → String
  | i16 => "i16"
  | i32 => "i32"
  | i64 => "i64"
  | isize => "isize"
  | u8 => "u8"
  | u16 => "u16"
  | u32 => "u32"
  | u64 => "u64"
  | usize => "usize"

def bits : IntKind → Nat
  | u8 => 8
  | i16 | u16 => 16
  | i32 | u32 => 32
  | i64 | isize | u64 | usize => 64

def signed : IntKind → Bool
  | i16 | i32 | i64 | isize => true
  | u8 | u16 | u32 | u64 | usize => false

def least (k : IntKind) : Int := Word.least k.signed k.bits

def greatest (k : IntKind) : Int := Word.greatest k.signed k.bits

def holds (k : IntKind) (n : Int) : Bool :=
  k.least ≤ n && n ≤ k.greatest

/-- The number of the kind that agrees with `n` modulo the size of the word. -/
def wrap (k : IntKind) (n : Int) : Int :=
  if k.signed then Int.bmod n (Nat.pow 2 k.bits) else n % Nat.pow 2 k.bits

/-- The difference of two numbers of the kind, if it is one as well. -/
def difference (k : IntKind) (a b : Int) : Except Error Int :=
  if k.holds (a - b) then .ok (a - b)
  else .error (.valueOutOfRange (toString a ++ " - " ++ toString b) k.name)

end IntKind

/-- What a cell is meant to hold. -/
inductive Kind where
  | int (kind : IntKind)
  | real
  | nibbles
  | text
  | flag
  | bytes
  | block (width : Nat)
deriving DecidableEq

/-- Offsets in an image. -/
def Kind.offset : Kind := .int .usize

inductive Datum where
  | int (n : Int)
  /-- A double, given by its bits. -/
  | real (bits : UInt64)
  | nibbles (high low : UInt8)
  | text (s : String)
  | flag (b : Bool)
  | bytes (bs : Bytes)
deriving DecidableEq

namespace Datum

/-- Doubles are compared as numbers: both zeros agree, and what is not a number differs from
everything. -/
def sameReal (a b : UInt64) : Bool :=
  Decimal.magnitude a != .notANumber &&
    (a == b || (a <<< 1 == 0 && b <<< 1 == 0))

/-- Whether two values count as equal. -/
def same : Datum → Datum → Bool
  | real a, real b => sameReal a b
  | a, b => a == b

def listText (items : List String) : String :=
  "[" ++ String.intercalate ", " items ++ "]"

/-- The text of a value in messages and reports. -/
def display : Datum → String
  | int n => toString n
  | real bits => Decimal.text Decimal.exact bits
  | nibbles high low => "(" ++ toString high.toNat ++ ", " ++ toString low.toNat ++ ")"
  | text s => Text.quoted s
  | flag b => toString b
  | bytes bs => listText (bs.map fun b => toString b.toNat)

/-- The difference of two whole numbers of a kind; other values have none. -/
def difference (kind : IntKind) : Datum → Datum → Except Error Datum
  | int a, int b => int <$> kind.difference a b
  | a, b => .error (.valueOutOfRange (a.display ++ " - " ++ b.display) kind.name)

/-- The offset that a value stands for. -/
def offset? : Datum → Option Nat
  | int n => some n.toNat
  | _ => none

/-- The offset `n` bytes after the given one. -/
def advance (n : Nat) : Datum → Datum
  | int offset => int (offset + n)
  | v => v

/-- An offset as a signed number of 64 bits. -/
def signedOffset (v : Datum) : Except Error Datum :=
  match v with
  | int n => if IntKind.i64.holds n then .ok v else .error (.valueOutOfRange (toString n) "i64")
  | v => .error (.valueOutOfRange v.display "i64")

end Datum

end Backpatch
