import Backpatch.Cell
import Backpatch.Digest.Checksum
import Backpatch.Digest.Md5
import Backpatch.Digest.Sha1

/-!
# Functions of scripts

The functions by which a script derives one value from another, or a value from the bytes of a
range.
-/

namespace Backpatch.Session

/-- Functions that always succeed. -/
inductive MapFunction where
  /-- Sum and product with a constant, in the words of the source. -/
  | add (k : Int)
  | mul (k : Int)
  /-- A whole number or a truth value as a word of a kind. -/
  | toInt (kind : IntKind)
  | display
  /-- A byte as two nibbles. -/
  | nibbles
  /-- The first bytes of a block. -/
  | first (count : Nat)

/-- The kind of the result, given that of the source. -/
def MapFunction.kind : MapFunction → Kind → Kind
  | add _, source | mul _, source => source
  | toInt kind, _ => .int kind
  | display, _ => .text
  | nibbles, _ => .nibbles
  | first count, _ => .block count

def MapFunction.apply : MapFunction → Kind → Datum → Datum
  | add k, .int kind, .int n => .int (kind.wrap (n + k))
  | mul k, .int kind, .int n => .int (kind.wrap (n * k))
  | toInt kind, _, .int n => .int (kind.wrap n)
  | toInt _, _, .flag b => .int (if b then 1 else 0)
  | display, _, v => .text v.display
  | nibbles, _, .int n => .nibbles (UInt8.ofNat (n.toNat / 16)) (UInt8.ofNat (n.toNat % 16))
  | first count, _, .bytes bs => .bytes (bs.take count)
  | _, _, v => v

/-- Functions that may refuse a value. -/
inductive TryFunction where
  | even
  | toOffset

def TryFunction.kind : TryFunction → Kind
  | even => .int .i64
  | toOffset => .offset

def TryFunction.apply : TryFunction → Datum → Except Error Datum
  | even, .int n =>
    if n % 2 = 0 then .ok (.int n) else .error (.invalidText ("odd " ++ toString n))
  | toOffset, .int n =>
    if 0 ≤ n then .ok (.int n) else .error (.valueOutOfRange (toString n) "usize")
  | _, v => .ok v

/-- Functions of the bytes of a range. -/
inductive DigestFunction where
  | sum8
  | sum16
  | crc16
  | sha1
  | md5
  | sha1Id
  | length
  | copy

def DigestFunction.kind : DigestFunction → Kind
  | sum8 => .int .u8
  | sum16 | crc16 => .int .u16
  | sha1 => .block 20
  | md5 => .block 16
  | sha1Id => .int .u64
  | length => .offset
  | copy => .bytes

def DigestFunction.apply (f : DigestFunction) (bs : Bytes) : Datum :=
  match f with
  | sum8 => .int (Digest.sum8 bs).toNat
  | sum16 => .int (Digest.sum16 bs).toNat
  | crc16 => .int (Digest.crc16 bs).toNat
  | sha1 => .bytes (Digest.sha1 bs)
  | md5 => .bytes (Digest.md5 bs)
  | sha1Id => .int (Digest.sha1Id bs)
  | length => .int bs.length
  | copy => .bytes bs

/-- The cell of a table that a number chooses, counted around its end. -/
def chooseAround (table : List CellId) : Datum → CellId
  | .int i => table.getD (i % table.length).toNat 0
  | _ => 0

/-- The cell of a table that a number chooses, read as an unsigned word. -/
def chooseWithin (table : List CellId) : Datum → Except Error CellId
  | .int i =>
    let index := (IntKind.u64.wrap i).toNat
    match table[index]? with
    | some c => .ok c
    | none => .error (.outOfBounds index 1 table.length)
  | v => .error (.invalidText v.display)

end Backpatch.Session
