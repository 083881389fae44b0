import Backpatch.Cell
import Backpatch.Failable
import Backpatch.Image
import Backpatch.Journal

/-!
# Stores

A store owns the cells, the images, and the placeholders that tie the two together. Operations
are state transformers that may fail; a failure keeps the changes made before it.
-/

namespace Backpatch

abbrev ImageId := Nat

/-- A field of an image that was written before its value was known. -/
structure Placeholder where
  image : ImageId
  offset : Nat
  format : FixedFormat
  label : Option String
  /-- The cell that will provide the value, and the number of the waiting patch in its queue. -/
  cell : CellId
  subscription : Nat
  patched : Bool := false
deriving DecidableEq

namespace Placeholder

def width (p : Placeholder) : Nat := p.format.width

def report (p : Placeholder) : UnresolvedField := ⟨p.offset, p.width, p.label⟩

/-- Whether the field has a byte in common with the range from `start` up to `stop`. -/
def overlaps (p : Placeholder) (start stop : Nat) : Bool :=
  p.offset < stop && start < p.offset + p.width

end Placeholder

/-- A place in the queue of a cell. A callback that ran at once has the number zero. -/
structure Subscription where
  cell : CellId
  id : Nat
deriving DecidableEq

structure Store where
  cells : Array Cell := #[]
  images : Array Image := #[]
  placeholders : Array Placeholder := #[]
  /-- Names under which callbacks find cells and subscriptions, the latest first. -/
  names : List (String × CellId) := []
  subscriptions : List (String × Subscription) := []
  /-- The weight of all subscribers queued so far. -/
  issued : Nat := 0
  log : Array LogEntry := #[]
  trace : Array Event := #[]
  reports : Array Report := #[]

namespace Store

/-- The cell with the given number; what was never made is pending. -/
def cell (s : Store) (c : CellId) : Cell := s.cells[c]?.getD {}

def image (s : Store) (i : ImageId) : Image := s.images[i]?.getD {}

def kind (s : Store) (c : CellId) : Kind := (s.cell c).kind

def value? (s : Store) (c : CellId) : Option Datum := (s.cell c).value

/-- The offset that a cell holds. -/
def offset? (s : Store) (c : CellId) : Option Nat := (s.value? c).bind Datum.offset?

def modifyCell (s : Store) (c : CellId) (f : Cell → Cell) : Store :=
  { s with cells := s.cells.modify c f }

def modifyImage (s : Store) (i : ImageId) (f : Image → Image) : Store :=
  { s with images := s.images.modify i f }

def find? (s : Store) : Target → Option CellId
  | .cell c => some c
  | .named name => s.names.lookup name

end Store

abbrev Op := Failable Store

namespace Store

def newCell (kind : Kind) (value : Option Datum) (derived : Bool) : Op CellId :=
  modifyGet fun s => (s.cells.size, { s with cells := s.cells.push { kind, value, derived } })

def kindOf (c : CellId) : Op Kind :=
  return (← get).kind c

def valueOf (c : CellId) : Op (Option Datum) :=
  return (← get).value? c

/-- Adds a subscriber to the queue of a cell and returns its number. -/
def queue (c : CellId) (sub : Subscriber) : Op Nat :=
  modifyGet fun s =>
    let id := (s.cell c).next
    let issued := s.issued + sub.weight
    (id, { s.modifyCell c (·.push sub) with issued })

/-- Takes a subscriber out of the queue of a cell, and says whether it was there. -/
def unsubscribe (c : CellId) (id : Nat) : Op Bool :=
  modifyGet fun s => ((s.cell c).isQueued id, s.modifyCell c (·.remove id))

/-- Forgets the value of a cell; its queue stays as it is. -/
def unresolve (c : CellId) : Op Unit :=
  modify fun s => s.modifyCell c fun cell => { cell with value := none }

/-- Stores the value of a cell and takes its queue. -/
def deliver (c : CellId) (v : Datum) : Op (List (Nat × Subscriber)) :=
  modifyGet fun s =>
    ((s.cell c).queue, s.modifyCell c fun cell => { cell with value := some v, queue := [] })

def logEntry (entry : LogEntry) : Op Unit :=
  modify fun s => { s with log := s.log.push entry }

def emit (event : Event) : Op Unit :=
  modify fun s => { s with trace := s.trace.push event }

def newImage : Op ImageId :=
  modifyGet fun s => (s.images.size, { s with images := s.images.push {} })

def imageSize (i : ImageId) : Op Nat :=
  return ((← get).image i).size

def append (i : ImageId) (bs : Bytes) (note : Note) : Op Unit :=
  modify fun s => s.modifyImage i (·.append bs note)

/-- Replaces bytes that were written before; bytes beyond the image are an error. -/
def overwrite (i : ImageId) (offset : Nat) (bs : Bytes) (note : Note) : Op Unit := do
  Failable.ofExcept (((← get).image i).checkRange offset bs.length)
  modify fun s => s.modifyImage i (·.replace offset bs note)

/-- Writes a value over a placeholder. A value that does not fit leaves it as it was. -/
def patch (field : FieldId) (v : Datum) : Op Unit := do
  let some p := (← get).placeholders[field]? | return
  let bs ← Failable.ofExcept (p.format.encode v)
  overwrite p.image p.offset bs ((Format.fixed p.format).describe (some v) p.label)
  modify fun s => { s with
    placeholders := s.placeholders.modify field fun p => { p with patched := true } }

end Store

end Backpatch
