import Backpatch.Format

/-!
# Images

An image is a growing byte string. Every non-empty run that is appended leaves a row, which
remembers where it starts, its bytes, and what they mean; a run written over an earlier one
replaces the row that starts at the same offset. An index leads from the offset of a row to its
position, so that bytes can be written over at any time. Rows stand in the order of their offsets,
so a reader, who has no index, finds them by bisection.
-/

namespace Backpatch

/-- One field of an image. -/
structure Row where
  offset : Nat
  bytes : Bytes
  note : Note
deriving DecidableEq

/-- A finite map from offsets to positions, as a table with a place for each offset up to the
greatest key. -/
structure RowIndex where
  places : Array (Option Nat) := #[]

namespace RowIndex

def get? (m : RowIndex) (offset : Nat) : Option Nat := m.places[offset]?.join

def insert (m : RowIndex) (offset position : Nat) : RowIndex :=
  ⟨(m.places.rightpad (offset + 1) none).setIfInBounds offset (some position)⟩

end RowIndex

structure Image where
  data : Array UInt8 := #[]
  rows : Array Row := #[]
  /-- The position of the row that starts at an offset. -/
  index : RowIndex := {}

namespace Image

/-- The offset of the next byte to be appended. -/
def size (i : Image) : Nat := i.data.size

def bytes (i : Image) : Bytes := i.data.toList

/-- A run without bytes would share its offset with the next one, so it leaves no row. -/
def append (i : Image) (bs : Bytes) (note : Note) : Image :=
  match i.size, i.rows.size, i with
  | offset, position, ⟨data, rows, index⟩ =>
    if bs.isEmpty then ⟨data ++ bs, rows, index⟩
    else ⟨data ++ bs, rows.push ⟨offset, bs, note⟩, index.insert offset position⟩

/-- Bisects the rows `low, …, high - 1` at most `steps` times. -/
def searchRow (rows : Array Row) (offset : Nat) : Nat → Nat → Nat → Option Nat
  | 0, _, _ => none
  | steps + 1, low, high =>
    if low < high then
      let middle := (low + high) / 2
      match rows[middle]? with
      | none => none
      | some row =>
        if row.offset = offset then some middle
        else if row.offset < offset then searchRow rows offset steps (middle + 1) high
        else searchRow rows offset steps low middle
    else none

/-- The position of the row that starts at `offset`, by bisection. -/
def rowIndex? (i : Image) (offset : Nat) : Option Nat :=
  searchRow i.rows offset (i.rows.size + 1) 0 i.rows.size

def rowAt? (i : Image) (offset : Nat) : Option Row :=
  (i.rowIndex? offset).bind (i.rows[·]?)

/-- The bytes of `data` with those from `offset` on replaced. -/
def splice (data : Array UInt8) : Nat → Bytes → Array UInt8
  | _, [] => data
  | offset, b :: bs => splice (data.setIfInBounds offset b) (offset + 1) bs

def checkRange (i : Image) (offset length : Nat) : Except Error Unit :=
  if offset + length ≤ i.size then .ok () else .error (.outOfBounds offset length i.size)

/-- Replaces bytes inside the image, and with them the row that the index has for `offset`. -/
def replace (i : Image) (offset : Nat) (bs : Bytes) (note : Note) : Image :=
  match i.index.get? offset, i with
  | none, ⟨data, rows, index⟩ => ⟨splice data offset bs, rows, index⟩
  | some r, ⟨data, rows, index⟩ =>
    ⟨splice data offset bs, rows.modify r fun row => { row with bytes := bs, note }, index⟩

/-- The bytes from `start` up to `stop`. -/
def read (i : Image) (start stop : Nat) : Except Error Bytes := do
  if stop < start then throw (.outOfBounds start 0 i.size)
  i.checkRange start (stop - start)
  return (i.data.extract start stop).toList

/-- The rows whose value is not known yet. -/
def pendingRows (i : Image) : List Row :=
  i.rows.toList.filter (·.note.isPending)

end Image

end Backpatch
