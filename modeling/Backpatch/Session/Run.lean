import Backpatch.Session.Images
import Backpatch.Session.Regions
import Backpatch.Session.Snapshots
import Backpatch.Session.Values

/-!
# Running scripts

A step may be repeated. Its result comes with all that it logged and traced, and with the cells
and images that it changed.
-/

namespace Backpatch.Session

inductive Step where
  | value (step : ValueStep)
  | region (step : RegionStep)
  | image (step : ImageStep)
  | table (step : TableStep)
  | snapshot (step : SnapshotStep)
  | file (step : FileStep)

def Step.run : Step → Script Outcome
  | value step => step.run
  | region step => step.run
  | image step => step.run
  | table step => step.run
  | snapshot step => step.run
  | file step => step.run

/-- The results of a repeated step: how many failed, the first and the last. -/
structure Repeated where
  failed : Nat := 0
  first : Option Outcome := none
  last : Option Outcome := none

def Repeated.add (r : Repeated) (o : Outcome) : Repeated where
  failed := if o.isFailure then r.failed + 1 else r.failed
  first := r.first <|> some o
  last := some o

/-- How a cell looks from outside: its text and the length of its queue. -/
structure CellState where
  display : String
  subscribers : Nat
deriving DecidableEq

structure StepReport where
  log : List LogEntry
  trace : List Event
  /-- The cells that are new or changed. -/
  cells : List (String × CellState)
  /-- The images that are new or changed. -/
  images : List (String × Bytes)

def clearJournal (s : Session) : Session :=
  { s with
    store := { s.store with log := #[], trace := #[], reports := #[] }
    disk := { s.disk with trace := #[] } }

def cellStates (s : Session) : List (String × CellState) :=
  s.store.names.map fun (name, c) =>
    let cell := s.store.cell c
    (name, ⟨cell.display, cell.queue.length⟩)

/-- What happened from one state of a session to a later one. -/
def report (before after : Session) : StepReport :=
  let states := before.cellStates
  let data (s : Session) (i : ImageId) : Array UInt8 := (s.store.image i).data
  { log := after.store.log.toList
    trace := after.store.trace.toList ++ after.disk.trace.toList
    cells := after.cellStates.filter fun (name, state) => states.lookup name != some state
    images := after.images.filterMap fun (name, i) =>
      let changed := match before.images.lookup name with
        | none => true
        | some j => data before j != data after i
      if changed then some (name, (data after i).toList) else none }

/-- Runs a step once, and turns a failure into a result. -/
def runStep (s : Session) (step : Step) : Outcome × Session :=
  match Script.outcome step.run s with
  | .ok o s => (o, s)
  | .error _ s => (.absent, s)

/-- Runs a step `count` times more. -/
def runAgain (step : Step) : Nat → Repeated → Session → Repeated × Session
  | 0, r, s => (r, s)
  | count + 1, r, s =>
    let (o, s) := s.runStep step
    runAgain step count (r.add o) s

/-- Runs a step `count` times, which may be none at all. -/
def runTimes (s : Session) (step : Step) (count : Nat) : Repeated × Session :=
  runAgain step count {} s

end Backpatch.Session
