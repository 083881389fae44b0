import Backpatch.Layout.Finalize
import Backpatch.Snapshot.Header

/-!
# Building snapshots

A snapshot is an image of a header and named sections. All sizes and offsets in the header are
forward references: they are cells, which marks between the sections settle while the image is
laid out. The checksum of the body is a post-processing entry after all those of the sections.
-/

namespace Backpatch.Snapshot

structure PendingSection where
  name : String
  region : Region

/-- The parts of a snapshot before it is built. -/
structure Builder where
  version : UInt16 := 1
  sections : Array PendingSection := #[]

structure SectionInfo where
  name : String
  offset : Nat
  size : Nat
deriving DecidableEq

end Snapshot

/-- A finished image with its layout. -/
structure Snapshot where
  bytes : Bytes
  view : View
  crc : Option Nat
  sections : List Snapshot.SectionInfo
  summary : FlattenSummary

namespace Snapshot

def size (s : Snapshot) : Nat := s.bytes.length

/-- The first section of the given name. -/
def lookup (s : Snapshot) (name : String) : Option SectionInfo :=
  s.sections.find? (·.name == name)

namespace Builder

/-- The header counts sections in sixteen bits. -/
def maxSections : Nat := 65535

/-- Appends a section, if there is room for it, and returns its index. -/
def addSection (b : Builder) (name : String) (region : Region) : Except Error Nat × Builder :=
  let count := b.sections.size
  if maxSections ≤ count then
    (.error (.valueOutOfRange (toString (count + 1)) "section count"), b)
  else (.ok count, { b with sections := b.sections.push ⟨name, region⟩ })

/-- The cells of the forward references in a snapshot. -/
structure References where
  endOfHeader : CellId
  endOfImage : CellId
  crcField : CellId
  /-- The start and the end of each section. -/
  bounds : List (CellId × CellId)

def newReferences (sections : Nat) : Op References := do
  let endOfHeader ← Store.newCell .offset none false
  let endOfImage ← Store.newCell .offset none false
  let crcField ← Store.newCell (.int .i64) none false
  let bounds ← (List.range sections).mapM fun _ => do
    return (← Store.newCell .offset none false, ← Store.newCell .offset none true)
  return { endOfHeader, endOfImage, crcField, bounds }

def word : FixedFormat := .int .u16le

/-- The fields in front of the section table. -/
def fixedFields (b : Builder) (headerSize imageSize crc : CellId) : Except Error Region := do
  let r ← Region.writeField {} (.int .u32le) (.known (.int magic)) (some "magic")
  let r ← r.writeField word (.known (.int b.version.toNat)) (some "version")
  let r ← r.writeField word (.deferred headerSize) (some "header size")
  let r ← r.writeField (.int .u32le) (.deferred imageSize) (some "bytecode size")
  let r ← r.writeField word (.deferred crc) (some "crc")
  r.writeField word (.known (.int b.sections.size)) (some "section count")

/-- The segments of a section between the marks of its bounds. -/
def body (part : PendingSection) (bounds : CellId × CellId) : List Segment :=
  [.mark bounds.1, .nested part.region.segments, .mark bounds.2]

/-- Header and sections as one region. -/
def region (b : Builder) (refs : References) : Op Region := do
  let headerSize ← Store.signedOffset refs.endOfHeader
  let imageSize ← Store.signedOffset refs.endOfImage
  let fixed ← Failable.ofExcept (b.fixedFields headerSize imageSize refs.crcField)
  let offsets ← refs.bounds.mapM fun (start, _) => Store.signedOffset start
  let table := List.zipWith (fun part c => Segment.deferred word c (some part.name))
    b.sections.toList offsets
  let bodies := List.zipWith body b.sections.toList refs.bounds
  return ⟨fixed.segments ++ table ++ .mark refs.endOfHeader :: bodies.flatten ++
    [.mark refs.endOfImage]⟩

/-- The error of a check at the given line of the unit that builds snapshots. -/
def malformed (line : Nat) (message : String) : Error :=
  .malformed message (some (.inUnit "image/builder" line))

def sectionInfo (part : PendingSection) (bounds : CellId × CellId) : Op SectionInfo := do
  let s ← get
  match s.offset? bounds.1, s.offset? bounds.2 with
  | some start, some stop => return ⟨part.name, start, stop - start⟩
  | _, _ => throw (malformed 152 ("Section '" ++ part.name ++ "' was never placed"))

/-- The region of a snapshot, the checksum of the body included, with its forward references and
the cell of the checksum. -/
def prepare (b : Builder) : Op (References × CellId × Region) := do
  let refs ← newReferences b.sections.size
  let r ← b.region refs
  let (crc, r) ← r.postProcess refs.endOfHeader refs.endOfImage (.int .u16) fun bs =>
    .int (Digest.crc16 bs).toNat
  discard (Store.onResolve crc (.act (.forward (.cell refs.crcField))))
  return (refs, crc, r)

/-- What is known about a snapshot after its region was flattened. -/
def collect (b : Builder) (config : FlattenConfig) (refs : References) (crc : CellId)
    (i : ImageId) (summary : FlattenSummary) : Op Snapshot := do
  let sections ← (b.sections.toList.zip refs.bounds).mapM fun (part, bounds) =>
    sectionInfo part bounds
  let s ← get
  let crc := s.offset? crc
  if crc.isNone && config.enforceComplete then
    throw (malformed 165 "Snapshot CRC was never computed")
  let image := s.image i
  Store.emit (.builtSnapshot image.size sections.length crc)
  return { bytes := image.bytes, view := image.view, crc, sections, summary }

/-- Flattens header and sections into an image of its own. -/
def build (b : Builder) (config : FlattenConfig) : Op Snapshot := do
  let (refs, crc, r) ← b.prepare
  let i ← Store.newImage
  b.collect config refs crc i (← r.flatten i config)

end Builder

end Snapshot

end Backpatch
