import Backpatch.Disk.Path
import Backpatch.Failable
import Backpatch.Image
import Backpatch.Journal

/-!
# Image files

An image is saved through a file of its final size that is mapped into memory. The file stays
only if it is finalized. Opening, sizing and mapping are done by a `Host`, which may refuse each
of them; a `Disk` holds the contents of the files.
-/

namespace Backpatch

/-- Numbered files and the paths that lead to them, the latest first. -/
structure Disk where
  names : List (Path × Nat) := []
  contents : Array (Array UInt8) := #[]
  trace : Array Event := #[]

/-- Why a system refuses to open, to size or to map a file, if it does. -/
structure Host where
  openFault : Disk → String → Option String
  sizeFault : Nat → Option String
  mapFault : Nat → Option String

namespace Disk

/-- The file to which a path leads. -/
def find? (d : Disk) (path : String) : Option Nat := d.names.lookup (Path.parse path)

def read? (d : Disk) (path : String) : Option Bytes := do
  let file ← d.find? path
  let bytes ← d.contents[file]?
  return bytes.toList

def setContents (d : Disk) (file : Nat) (bytes : Array UInt8) : Disk :=
  { d with contents := d.contents.setIfInBounds file bytes }

/-- Makes a new file, or empties the one that is there. -/
def openEmpty (path : String) : Failable Disk Nat :=
  modifyGet fun d =>
    match d.find? path with
    | some file => (file, d.setContents file #[])
    | none =>
      (d.contents.size,
        { d with
          names := (Path.parse path, d.contents.size) :: d.names
          contents := d.contents.push #[] })

def emit (event : Event) : Failable Disk Unit :=
  modify fun d => { d with trace := d.trace.push event }

end Disk

/-- A file that is being written. -/
structure ImageFile where
  path : String
  file : Nat
  size : Nat
deriving DecidableEq

namespace ImageFile

/-- Makes a file of `size` zeros. A refusal after the file was opened leaves it behind. -/
def create (host : Host) (path : String) (size : Nat) : Failable Disk ImageFile := do
  if let some reason := host.openFault (← get) path then
    throw (.mappingFailed ("Failed to create target file: " ++ reason))
  let file ← Disk.openEmpty path
  if let some reason := host.sizeFault size then
    throw (.mappingFailed ("Failed to set file size: " ++ reason))
  modify fun d => d.setContents file (Array.replicate size 0)
  if size ≠ 0 then
    if let some reason := host.mapFault size then
      throw (.mappingFailed ("Failed to create memory mapping: " ++ reason))
  Disk.emit (.createdFile path size)
  return { path, file, size }

/-- Offsets are words of 64 bits. -/
def maxOffset : Nat := 0xFFFFFFFFFFFFFFFF

/-- Where a range ends. An end that is no offset any more is cut off at the greatest one. -/
def rangeEnd (offset length : Nat) : Nat := min (offset + length) maxOffset

@[simp] theorem not_lt_rangeEnd (length : Nat) : ¬ length < rangeEnd 0 length := by
  rw [rangeEnd, Nat.zero_add]
  exact Nat.not_lt.2 (Nat.min_le_left ..)

def writeAt (f : ImageFile) (offset : Nat) (bs : Bytes) : Failable Disk Unit := do
  if f.size < rangeEnd offset bs.length then
    throw (.outOfBounds offset bs.length f.size)
  modify fun d => { d with contents := d.contents.modify f.file (Image.splice · offset bs) }

/-- Writes a little-endian word. -/
def writeWordAt (f : ImageFile) (width offset n : Nat) : Failable Disk Unit :=
  f.writeAt offset (Bytes.littleEndian width n)

/-- Keeps the file. -/
def finalize (f : ImageFile) : Failable Disk Unit :=
  Disk.emit (.finalizedFile f.path)

/-- Gives the file up and removes what its path leads to. -/
def discard (f : ImageFile) : Failable Disk Unit := do
  modify fun d => { d with names := d.names.filter (·.1 != Path.parse f.path) }
  Disk.emit (.removedFile f.path)

end ImageFile

/-- Writes a whole file; one that cannot be written in full is removed again. -/
def Disk.save (host : Host) (path : String) (bs : Bytes) : Failable Disk Unit := do
  let f ← ImageFile.create host path bs.length
  Failable.onFailure (f.writeAt 0 bs) f.discard
  f.finalize

namespace Host

/-- File offsets are signed numbers of 64 bits. -/
def maxFileSize : Nat := 0x7FFFFFFFFFFFFFFF

/-- The bytes that the name of a file may have. -/
def maxNameSize : Nat := 255

/-- A single folder without subfolders. -/
def folder : Host where
  openFault d path :=
    if '\x00' ∈ path.toList then some "file name contained an unexpected NUL byte"
    else
      match Path.parse path with
      | .folder => some "Is a directory (os error 21)"
      | .file _ name =>
        if maxNameSize < name.utf8ByteSize then some "File name too long (os error 36)" else none
      | .inside up name =>
        if maxNameSize < name.utf8ByteSize then some "File name too long (os error 36)"
        else if (d.names.lookup (.file up name)).isSome then some "Not a directory (os error 20)"
        else some "No such file or directory (os error 2)"
  sizeFault size :=
    if maxFileSize < size then some "number too large to fit in target type" else none
  mapFault _ := none

end Host

end Backpatch
