import Backpatch.Datum

/-!
# Field formats

How a value becomes the bytes of a field. A `FixedFormat` always takes the same number of bytes,
so a field can be placed before its value is known; texts and raw runs take as many bytes as
their value needs.
-/

namespace Backpatch

/-- Whole numbers of one to eight bytes. -/
inductive IntFormat where
  | u8 | i8 | u16le | i16le | u16be | u32le | i32le | u32be | u64le | i64le
deriving DecidableEq

namespace IntFormat

def name : IntFormat → String
  | u8 => "U8"
  | i8 => "I8"
  | u16le => "U16Le"
  | i16le => "I16Le"
  | u16be => "U16Be"
  | u32le => "U32Le"
  | i32le => "I32Le"
  | u32be => "U32Be"
  | u64le => "U64Le"
  | i64le => "I64Le"

def width : IntFormat → Nat
  | u8 | i8 => 1
  | u16le | i16le | u16be => 2
  | u32le | i32le | u32be => 4
  | u64le | i64le => 8

def signed : IntFormat → Bool
  | i8 | i16le | i32le | i64le => true
  | u8 | u16le | u16be | u32le | u32be | u64le => false

def bigEndian : IntFormat → Bool
  | u16be | u32be => true
  | u8 | i8 | u16le | i16le | u32le | i32le | u64le | i64le => false

def least (f : IntFormat) : Int := Word.least f.signed (8 * f.width)

def greatest (f : IntFormat) : Int := Word.greatest f.signed (8 * f.width)

def encode (f : IntFormat) (n : Int) : Except Error Bytes :=
  if f.least ≤ n ∧ n ≤ f.greatest then
    let bytes := Bytes.twosComplement f.width n
    .ok (if f.bigEndian then bytes.reverse else bytes)
  else .error (.valueOutOfRange (toString n) f.name)

end IntFormat

/-- The formats whose width does not depend on the value. -/
inductive FixedFormat where
  | int (format : IntFormat)
  /-- A double, little-endian. -/
  | real
  /-- Two numbers below sixteen in one byte. -/
  | nibbles
  /-- Exactly `width` bytes as they are. -/
  | block (width : Nat)
deriving DecidableEq

namespace FixedFormat

def name : FixedFormat → String
  | int f => f.name
  | real => "F64Le"
  | nibbles => "Nibbles"
  | block _ => "FixedBytes"

def width : FixedFormat → Nat
  | int f => f.width
  | real => 8
  | nibbles => 1
  | block n => n

/-- What stands in a field before its value is known. -/
def placeholder (f : FixedFormat) : Bytes :=
  List.replicate f.width 0

/-- The bytes of a value; a value of another kind does not fit the format. -/
def encode (f : FixedFormat) (v : Datum) : Except Error Bytes :=
  let unfit := Except.error (.valueOutOfRange v.display f.name)
  match f, v with
  | int f, .int n => f.encode n
  | real, .real bits => .ok (Bytes.littleEndian 8 bits.toNat)
  | nibbles, .nibbles high low =>
    if high < 16 ∧ low < 16 then .ok [high * 16 + low] else unfit
  | block width, .bytes bs => if bs.length = width then .ok bs else unfit
  | _, _ => unfit

/-- How a field shows its value. -/
def render (f : FixedFormat) (v : Datum) : String :=
  match f, v with
  | real, .real bits => Decimal.text Decimal.plain bits
  | nibbles, .nibbles high low => capitalHex 1 high.toNat ++ ":" ++ capitalHex 1 low.toNat
  | block _, .bytes bs => bs.hex
  | _, v => v.display

end FixedFormat

/-- All formats. -/
inductive Format where
  | fixed (format : FixedFormat)
  /-- UTF-8 closed by a zero byte. -/
  | text
  /-- A run of bytes as they are. -/
  | raw
deriving DecidableEq

/-- What is shown of a field: its value, absent while it is pending, and its label. -/
structure Note where
  value : Option String := none
  label : Option String := none
deriving DecidableEq

def Note.isPending (n : Note) : Bool := n.value.isNone

/-- The UTF-8 bytes of a text without NUL, closed by a zero byte. -/
def encodeText (s : String) : Except Error Bytes :=
  if '\x00' ∈ s.toList then
    .error (.invalidText (Text.quoted s ++ " contains an interior NUL"))
  else .ok (s.toUTF8.data.toList ++ [0])

namespace Format

def name : Format → String
  | fixed f => f.name
  | text => "Text"
  | raw => "RawBytes"

def encode (f : Format) (v : Datum) : Except Error Bytes :=
  match f, v with
  | fixed f, v => f.encode v
  | text, .text s => encodeText s
  | raw, .bytes bs => .ok bs
  | f, v => .error (.valueOutOfRange v.display f.name)

def render (f : Format) (v : Datum) : String :=
  match f, v with
  | fixed f, v => f.render v
  | raw, .bytes bs => toString bs.length ++ " bytes"
  | _, v => v.display

/-- The note of a field that holds `value` or is still pending. -/
def describe (f : Format) (value : Option Datum) (label : Option String) : Note :=
  ⟨value.map f.render, label⟩

end Format

end Backpatch
