import Backpatch.Disk
import Backpatch.Instruction.ShortCall
import Backpatch.Snapshot.Builder

/-!
# Sessions

A session gives names to the things of the library, one set of names for each sort of thing, and
keeps them from one step of a script to the next. A step either fails and defines no name, or
succeeds and defines at most one.
-/

namespace Backpatch

/-- Named things, the latest first. -/
abbrev Names (α : Type) := List (String × α)

namespace Names

variable {α : Type}

def drop (names : Names α) (name : String) : Names α :=
  names.filter (·.1 != name)

def define (names : Names α) (name : String) (a : α) : Names α :=
  (name, a) :: drop names name

end Names

structure Session where
  store : Store := {}
  disk : Disk := {}
  host : Host := Host.folder
  regions : Names Region := []
  images : Names ImageId := []
  layouts : Names Layout := []
  tables : Names Instruction.ShortCallTable := []
  builders : Names Snapshot.Builder := []
  snapshots : Names Snapshot := []
  files : Names ImageFile := []

/-- Why a step has no result: it failed, it used a name that stands for nothing, or a value of a
kind that does not fit. -/
inductive Fault where
  | failed (error : Error)
  | unknown (name : String)
  | unfit

abbrev Script := EStateM Fault Session

/-- The result of a step. -/
inductive Outcome where
  | done
  | absent
  | flag (b : Bool)
  | number (n : Nat)
  | subscription (id : Nat)
  | cell (c : Cell)
  | bytes (bs : Bytes)
  | view (v : View)
  | row (r : Row)
  | region (r : Region)
  | summary (s : FlattenSummary)
  | layout (pending : List UnresolvedField) (image : Image) (display : String)
  | image (i : Image)
  | table (t : Instruction.ShortCallTable) (display : String)
  | snapshot (s : Snapshot)
  | part (info : Snapshot.SectionInfo)
  | opened (size : Nat)
  | content (bytes : Option Bytes)
  /-- A result together with the content of a file afterwards. -/
  | stored (result : Outcome) (bytes : Option Bytes)
  | failed (error : Error)
  | unknown (name : String)
  | unfit

def Outcome.isFailure : Outcome → Bool
  | .failed _ => true
  | _ => false

namespace Script

variable {α : Type}

/-- Runs an operation of the store. -/
def op (x : Op α) : Script α := fun s =>
  match x s.store with
  | .ok a store => .ok a { s with store }
  | .error e store => .error (.failed e) { s with store }

/-- Runs an operation of the disk. -/
def onDisk (x : Failable Disk α) : Script α := fun s =>
  match x s.disk with
  | .ok a disk => .ok a { s with disk }
  | .error e disk => .error (.failed e) { s with disk }

def ofExcept (x : Except Error α) : Script α :=
  match x with
  | .ok a => return a
  | .error e => throw (.failed e)

/-- What a name stands for. -/
def find (names : Session → Names α) (name : String) : Script α := do
  match (names (← get)).lookup name with
  | some a => return a
  | none => throw (.unknown name)

def cell (name : String) : Script CellId := find (·.store.names) name

def kindOf (c : CellId) : Script Kind :=
  return (← get).store.kind c

/-- The value of a literal for a cell of the given kind. -/
def literal (l : Literal) (kind : Kind) : Script Datum :=
  match l.read kind with
  | some v => return v
  | none => throw .unfit

def defineCell (name : String) (c : CellId) : Script Unit :=
  modify fun s => { s with store := { s.store with names := Names.define s.store.names name c } }

def region (name : String) : Script Region := find (·.regions) name

def defineRegion (name : String) (r : Region) : Script Unit :=
  modify fun s => { s with regions := Names.define s.regions name r }

/-- Takes a region out of the session. -/
def takeRegion (name : String) : Script Region := do
  let r ← region name
  modify fun s => { s with regions := Names.drop s.regions name }
  return r

/-- The image of the given name, which is made when it is first used. -/
def image (name : String) : Script ImageId := do
  match (← get).images.lookup name with
  | some i => return i
  | none =>
    let i ← op Store.newImage
    modify fun s => { s with images := Names.define s.images name i }
    return i

/-- Turns a failure into a result. -/
def outcome (x : Script Outcome) : Script Outcome := fun s =>
  match x s with
  | .ok o s => .ok o s
  | .error (.failed e) s => .ok (.failed e) s
  | .error (.unknown name) s => .ok (.unknown name) s
  | .error .unfit s => .ok .unfit s

end Script

end Backpatch
