import Backpatch.Instruction

/-!
# Short-call tables

A table of at most 256 functions that instructions call by index. Each entry takes three bytes:
the address of the function and the number of its arguments.
-/

namespace Backpatch.Instruction

structure ShortCallTable where
  region : Region
  /-- The offset of the first entry. -/
  start : CellId
  count : Nat

namespace ShortCallTable

def entrySize : Nat := 3

def maxEntries : Nat := 256

def new : Op ShortCallTable := do
  let (start, region) ← Region.currentAddress {}
  return ⟨region, start, 0⟩

/-- Appends an entry and returns its index with the new table. -/
def add (t : ShortCallTable) (function : CellId) (argc : UInt8) :
    Op (Nat × ShortCallTable) := do
  if maxEntries ≤ t.count then
    throw (.valueOutOfRange (toString t.count) "ShortCallTable")
  let address ← Store.signedOffset function
  check .u16le (.deferred address)
  let r ← Failable.ofExcept
    (t.region.writeField (.int .u16le) (.deferred address) (some "short call function"))
  let r ← Failable.ofExcept (r.writeField (.int .u8) (number argc) (some "short call argc"))
  return (t.count, ⟨r, t.start, t.count + 1⟩)

/-- A cell for the offset of an entry, if the table has it. -/
def entryOffset (t : ShortCallTable) (index : Nat) : Op (Option CellId) := do
  if t.count ≤ index then return none
  return some (← Store.map t.start .offset (Datum.advance (index * entrySize)))

def size (t : ShortCallTable) : Nat := t.count * entrySize

def display (t : ShortCallTable) (s : Store) : String :=
  "ShortCallTable \x7b region: " ++ t.region.display ++
    ", start: " ++ (s.cell t.start).display ++
    ", entries: " ++ toString t.count ++ " \x7d"

end ShortCallTable

end Backpatch.Instruction
