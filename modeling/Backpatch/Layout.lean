import Backpatch.Region

/-!
# Layouts

Laying a region out appends its segments to an image one after another. A field whose value is
not known yet becomes a placeholder of zeros, and a patch waits in the queue of its cell. The
layout keeps track of these placeholders until it is finalized or dropped; then the patches that
still wait are taken out of their queues.
-/

namespace Backpatch

/-- A region placed in an image. Its placeholders are those from `first` up to `last`. -/
structure Layout where
  image : ImageId
  first : FieldId
  last : FieldId
  entries : List Entry

namespace Store

/-- Tells an observer of a checkpoint. -/
def checkpoint (observer : Observer) (i : ImageId) (c : Checkpoint) : Op Unit := do
  match observer with
  | .silent => return
  | .tracing =>
    match c with
    | .segment index offset => emit (.flattenedSegment index offset)
    | .postProcessed applied skipped => emit (.postProcessed applied skipped)
    | .finalized size unresolved =>
      emit (.finalizedLayout size unresolved ((← get).image i).pendingRows.length)
  | .recording =>
    modify fun s => { s with
      reports := s.reports.push ⟨c, (s.image i).size, (s.image i).pendingRows.length⟩ }

/-- Writes a placeholder and queues its patch. -/
def place (i : ImageId) (format : FixedFormat) (cell : CellId) (label : Option String) :
    Op Unit := do
  let offset ← imageSize i
  append i format.placeholder ((Format.fixed format).describe none label)
  let field := (← get).placeholders.size
  let subscription ← queue cell (.patch field)
  modify fun s => { s with
    placeholders := s.placeholders.push { image := i, offset, format, label, cell, subscription } }

mutual

/-- Appends a segment to an image. -/
def emitSegment (i : ImageId) : Segment → Op Unit
  | .direct bytes note => append i bytes note
  | .deferred format cell label => do
    match ← valueOf cell with
    | some v =>
      let bytes ← Failable.ofExcept (format.encode v)
      append i bytes ((Format.fixed format).describe (some v) label)
    | none => place i format cell label
  | .mark cell => do settleOrConfirm cell (.int (← imageSize i))
  | .postProcess _ => return
  | .nested segments => emitAll i segments

def emitAll (i : ImageId) : List Segment → Op Unit
  | [] => return
  | s :: rest => do
    emitSegment i s
    emitAll i rest

end

/-- Appends the segments of a region, numbered from `index`, with a checkpoint after each. -/
def emitObserved (observer : Observer) (i : ImageId) : Nat → List Segment → Op Unit
  | _, [] => return
  | index, s :: rest => do
    emitSegment i s
    checkpoint observer i (.segment index (← imageSize i))
    emitObserved observer i (index + 1) rest

/-- Takes the patches of the placeholders from `first` up to `last` out of their queues. -/
def release (first last : FieldId) : Op Unit := do
  let fields := (← get).placeholders.extract first last
  fields.forM fun p => discard (unsubscribe p.cell p.subscription)

end Store

open Store

/-- Lays a region out at the end of an image. A failure on the way leaves what was appended, but
no patches. -/
def Region.layoutObserved (r : Region) (i : ImageId) (observer : Observer) : Op Layout := do
  emit (.flattening r.segments.length (← imageSize i))
  let first := (← get).placeholders.size
  Failable.onFailure (emitObserved observer i 0 r.segments) do
    release first (← get).placeholders.size
  return ⟨i, first, (← get).placeholders.size, r.entries⟩

def Region.layout (r : Region) (i : ImageId) : Op Layout := r.layoutObserved i .silent

namespace Layout

/-- The placeholders of the layout, in the order of their offsets. -/
def placeholders (l : Layout) (s : Store) : Array Placeholder :=
  s.placeholders.extract l.first l.last

/-- The placeholders that still wait for their value. -/
def pending (l : Layout) (s : Store) : List Placeholder :=
  (l.placeholders s).toList.filter (!·.patched)

def pendingFields (l : Layout) (s : Store) : List UnresolvedField :=
  (l.pending s).map (·.report)

/-- The number of fields that were not known when they were placed. -/
def deferredFields (l : Layout) : Nat := l.last - l.first

/-- Gives the layout up without finishing it. -/
def drop (l : Layout) : Op Unit := release l.first l.last

def display (l : Layout) (s : Store) : String :=
  "Layout \x7b size: " ++ toString (s.image l.image).size ++
    ", deferred_fields: " ++ toString l.deferredFields ++
    ", post_processing: " ++ toString l.entries.length ++ ", .. \x7d"

end Layout

end Backpatch
