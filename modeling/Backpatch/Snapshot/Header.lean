import Backpatch.Digest.Checksum
import Backpatch.Error

/-!
# Snapshot headers

A snapshot starts with a magic number, its version, the sizes of header and image, a checksum of
the body, and the offsets of its sections. `Header.parse` reads these words one after another and
checks the sizes against each other and against the bytes at hand.
-/

namespace Backpatch.Snapshot

/-- The letters `SNAP`, least significant byte first. -/
def magic : Nat := 0x50414E53

/-- The bytes in front of the section table. -/
def fixedHeaderSize : Nat := 16

structure Header where
  version : Nat
  headerSize : Nat
  imageSize : Nat
  crc : Nat
  sectionOffsets : List Nat
deriving DecidableEq

/-- A position in a byte string of the given size. -/
structure Cursor where
  offset : Nat
  rest : Bytes
  size : Nat

abbrev Reader := StateT Cursor (Except Error)

def Cursor.start (data : Bytes) : Cursor := ⟨0, data, data.length⟩

/-- Reads a little-endian word. -/
def readWord (width : Nat) : Reader Nat := fun c =>
  let word := c.rest.take width
  if word.length = width then
    .ok (Bytes.toNat word, { c with offset := c.offset + width, rest := c.rest.drop width })
  else .error (.outOfBounds c.offset width c.size)

def readWords (width : Nat) : Nat → Reader (List Nat)
  | 0 => pure []
  | count + 1 => do
    let word ← readWord width
    let words ← readWords width count
    return word :: words

namespace Header

/-- Fails at the given line of the unit that checks headers. -/
def malformed {α : Type} (line : Nat) (message : String) : Reader α :=
  throw (.malformed message (some (.inUnit "image/header" line)))

def read (available : Nat) : Reader Header := do
  let found ← readWord 4
  if found ≠ magic then
    malformed 57 ("Invalid snapshot magic - 0x" ++ capitalHex 8 found)
  let version ← readWord 2
  let headerSize ← readWord 2
  let imageSize ← readWord 4
  let crc ← readWord 2
  let sections ← readWord 2
  let expected := fixedHeaderSize + 2 * sections
  if headerSize ≠ expected then
    malformed 68 s!"Header size {headerSize} does not match {sections} sections"
  if imageSize > available ∨ imageSize < expected then
    malformed 75 s!"Image size {imageSize} is inconsistent with {available} available bytes"
  let sectionOffsets ← readWords 2 sections
  return { version, headerSize, imageSize, crc, sectionOffsets }

/-- Reads the header at the start of `data`. -/
def parse (data : Bytes) : Except Error Header :=
  (read data.length).run' (Cursor.start data)

/-- The part of the image that the checksum covers, if `data` is long enough. -/
def body? (h : Header) (data : Bytes) : Option Bytes :=
  if h.headerSize ≤ h.imageSize ∧ h.imageSize ≤ data.length then
    some ((data.take h.imageSize).drop h.headerSize)
  else none

/-- Whether the checksum agrees with the body of `data`. -/
def verify (h : Header) (data : Bytes) : Bool :=
  (h.body? data).any fun body => (Digest.crc16 body).toNat == h.crc

end Header

end Backpatch.Snapshot
