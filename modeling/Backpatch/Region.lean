import Backpatch.Store.Derive

/-!
# Regions

A region is an ordered list of segments: bytes that are known, fields whose value is a cell,
marks that note an offset, ranges to be digested afterwards, and nested regions. It describes a
part of an image before its place is known.
-/

namespace Backpatch

/-- A digest of the bytes between two offsets, which settles `result`. -/
structure Entry where
  start : CellId
  stop : CellId
  digest : Bytes → Datum
  result : CellId

inductive Segment where
  | direct (bytes : Bytes) (note : Note)
  | deferred (format : FixedFormat) (cell : CellId) (label : Option String)
  /-- Settles a cell with the offset at which the segment stands. -/
  | mark (cell : CellId)
  | postProcess (entry : Entry)
  | nested (segments : List Segment)

mutual

/-- The number of bytes that a segment takes, whatever its values are. -/
def Segment.size : Segment → Nat
  | .direct bytes _ => bytes.length
  | .deferred format _ _ => format.width
  | .mark _ | .postProcess _ => 0
  | .nested segments => Segment.sizeAll segments

def Segment.sizeAll : List Segment → Nat
  | [] => 0
  | s :: rest => s.size + Segment.sizeAll rest

end

mutual

/-- The post-processing entries of a segment, in the order in which they are met. -/
def Segment.entries : Segment → List Entry
  | .direct .. | .deferred .. | .mark _ => []
  | .postProcess entry => [entry]
  | .nested segments => Segment.entriesAll segments

def Segment.entriesAll : List Segment → List Entry
  | [] => []
  | s :: rest => s.entries ++ Segment.entriesAll rest

end

/-- The value of a field: known when it is written, or a cell that will hold it. -/
inductive FieldValue where
  | known (v : Datum)
  | deferred (cell : CellId)
deriving DecidableEq

structure Region where
  segments : List Segment := []

namespace Region

/-- The number of bytes that the region takes. -/
def size (r : Region) : Nat := Segment.sizeAll r.segments

def entries (r : Region) : List Entry := Segment.entriesAll r.segments

def push (r : Region) (s : Segment) : Region := ⟨r.segments ++ [s]⟩

/-- Writes a known value. -/
def write (r : Region) (format : Format) (v : Datum) (label : Option String) :
    Except Error Region := do
  return r.push (.direct (← format.encode v) (format.describe (some v) label))

/-- Writes a field of fixed width; the range of a deferred value is checked when it arrives. -/
def writeField (r : Region) (format : FixedFormat) (value : FieldValue)
    (label : Option String) : Except Error Region :=
  match value with
  | .known v => r.write (.fixed format) v label
  | .deferred cell => .ok (r.push (.deferred format cell label))

def writeText (r : Region) (s : String) (label : Option String) : Except Error Region :=
  r.write .text (.text s) label

def writeBytes (r : Region) (bs : Bytes) (label : Option String) : Region :=
  r.push (.direct bs (Format.raw.describe (some (.bytes bs)) label))

def embed (r child : Region) : Region := r.push (.nested child.segments)

def mark (r : Region) (cell : CellId) : Region := r.push (.mark cell)

/-- A new cell for the offset at which the region now ends. -/
def currentAddress (r : Region) : Op (CellId × Region) := do
  let cell ← Store.newCell .offset none true
  return (cell, r.mark cell)

/-- A new cell for the digest of the bytes from `start` up to `stop`. -/
def postProcess (r : Region) (start stop : CellId) (kind : Kind) (digest : Bytes → Datum) :
    Op (CellId × Region) := do
  let result ← Store.newCell kind none true
  return (result, r.push (.postProcess ⟨start, stop, digest, result⟩))

def display (r : Region) : String :=
  "Region \x7b segments: " ++ toString r.segments.length ++ " \x7d"

end Region

end Backpatch
