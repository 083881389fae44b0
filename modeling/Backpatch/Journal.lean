import Backpatch.Datum

/-!
# Journal

What a run leaves behind for its reader besides the image: trace events, the checkpoints of a
flattening, and the entries that callbacks log.
-/

namespace Backpatch

inductive Level where
  | debug
  | trace
deriving DecidableEq

def Level.name : Level → String
  | debug => "DEBUG"
  | trace => "TRACE"

inductive Event where
  | flattening (segments start : Nat)
  | flattenedSegment (index offset : Nat)
  /-- A post-processing range still holds a placeholder. -/
  | skippedCovered (index start stop : Nat)
  /-- A post-processing range has an unknown bound. -/
  | skippedUnbounded (index : Nat)
  | postProcessed (applied skipped : Nat)
  | unresolvedFields (count : Nat)
  | finalizedLayout (size unresolved pending : Nat)
  | flattened (size deferred unresolved : Nat)
  | builtSnapshot (size sections : Nat) (crc : Option Nat)
  | createdFile (path : String) (size : Nat)
  | finalizedFile (path : String)
  | removedFile (path : String)
deriving DecidableEq

namespace Event

def level : Event → Level
  | flattenedSegment .. => .trace
  | _ => .debug

def message : Event → String
  | flattening .. => "flattening region"
  | flattenedSegment .. => "flattened segment"
  | skippedCovered .. => "skipping post-processing entry over unresolved fields"
  | skippedUnbounded .. => "skipping post-processing entry with unresolved bounds"
  | postProcessed .. => "post-processing complete"
  | unresolvedFields .. => "unresolved fields at finalization"
  | finalizedLayout .. => "finalized layout"
  | flattened .. => "flattened region"
  | builtSnapshot .. => "built snapshot"
  | createdFile .. => "created image file"
  | finalizedFile .. => "finalized image file"
  | removedFile .. => "removed unfinalized image file"

/-- The named texts that accompany the message. -/
def fields : Event → List (String × String)
  | flattening segments start =>
    [("segments", toString segments), ("start", toString start)]
  | flattenedSegment index offset =>
    [("index", toString index), ("offset", toString offset)]
  | skippedCovered index start stop =>
    [("index", toString index), ("start", toString start), ("end", toString stop)]
  | skippedUnbounded index => [("index", toString index)]
  | postProcessed applied skipped =>
    [("applied", toString applied), ("skipped", toString skipped)]
  | unresolvedFields count => [("count", toString count)]
  | finalizedLayout size unresolved pending =>
    [("size", toString size), ("unresolved", toString unresolved), ("pending", toString pending)]
  | flattened size deferred unresolved =>
    [("size", toString size), ("deferred", toString deferred),
     ("unresolved", toString unresolved)]
  | builtSnapshot size sections crc =>
    [("size", toString size), ("sections", toString sections), ("crc", optionText crc)]
  | createdFile path size => [("path", path), ("size", toString size)]
  | finalizedFile path => [("path", path)]
  | removedFile path => [("path", path)]

end Event

/-- The stages of a flattening that an observer hears of. -/
inductive Checkpoint where
  | segment (index offset : Nat)
  | postProcessed (applied skipped : Nat)
  | finalized (size unresolved : Nat)
deriving DecidableEq

/-- A checkpoint with the size of the image and the number of its pending rows at that moment. -/
structure Report where
  checkpoint : Checkpoint
  written : Nat
  pending : Nat
deriving DecidableEq

/-- Who hears of checkpoints: nobody, the trace, or the list of reports. -/
inductive Observer where
  | silent
  | tracing
  | recording
deriving DecidableEq

/-- What callbacks and recording observers log. -/
inductive LogEntry where
  | delivered (tag : String) (value : Datum)
  /-- A subscription was cancelled: whether it was still queued, if the name was known. -/
  | cancelled (name : String) (removed : Option Bool)
  /-- All that one observed flattening reported. -/
  | checkpoints (reports : List Report)
deriving DecidableEq

end Backpatch
