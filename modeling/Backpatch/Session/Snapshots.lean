import Backpatch.Session

/-!
# Steps on short-call tables, snapshots and files
-/

namespace Backpatch.Session

inductive TableStep where
  | new (t : String)
  | add (t target : String) (argc : UInt8)
  | entry (t : String) (index : Nat) (v : String)
  | start (t v : String)
  | info (t : String)
  /-- Turns a table into a region. -/
  | region (t r : String)

inductive SnapshotStep where
  | builder (b : String) (version : Option UInt16)
  /-- A section without a region is empty. -/
  | addSection (b name : String) (r : Option String)
  | sectionCount (b : String)
  | build (b : String) (config : FlattenConfig) (snapshot : String)
  | writeTo (b : String) (config : FlattenConfig) (file : String)
  | lookup (snapshot name : String)
  | save (snapshot file : String)
  | saveImage (image file : String)

inductive FileStep where
  | create (f file : String) (size : Nat)
  | write (f : String) (offset : Nat) (bs : Bytes)
  | writeWord (f : String) (width offset n : Nat)
  | finalize (f : String)
  | discard (f : String)
  | read (file : String)

open Script

def TableStep.run : TableStep → Script Outcome
  | new t => do
    let table ← op Instruction.ShortCallTable.new
    modify fun s => { s with tables := Names.define s.tables t table }
    return .done
  | add t target argc => do
    let table ← find (·.tables) t
    let (index, table) ← op (table.add (← cell target) argc)
    modify fun s => { s with tables := Names.define s.tables t table }
    return .number index
  | entry t index v => do
    let table ← find (·.tables) t
    match ← op (table.entryOffset index) with
    | none => return .absent
    | some c =>
      defineCell v c
      return .done
  | start t v => do
    let table ← find (·.tables) t
    defineCell v table.start
    return .done
  | info t => do
    let table ← find (·.tables) t
    return .table table (table.display (← get).store)
  | region t r => do
    let table ← find (·.tables) t
    modify fun s => { s with tables := Names.drop s.tables t }
    defineRegion r table.region
    return .done

/-- The result of a step that writes a file, with the content of the file afterwards. -/
def withFile (file : String) (x : Script Outcome) : Script Outcome := do
  let result ← outcome x
  return .stored result ((← get).disk.read? file)

def saveBytes (file : String) (bs : Bytes) : Script Unit := do
  onDisk (Disk.save (← get).host file bs)

def takeBuilder (name : String) : Script Snapshot.Builder := do
  let b ← find (·.builders) name
  modify fun s => { s with builders := Names.drop s.builders name }
  return b

def SnapshotStep.run : SnapshotStep → Script Outcome
  | builder b version => do
    let made : Snapshot.Builder := match version with
      | none => {}
      | some version => { version }
    modify fun s => { s with builders := Names.define s.builders b made }
    return .done
  | addSection b name r => do
    let r ← match r with
      | none => pure {}
      | some r => takeRegion r
    -- Taken out first, so that the list of sections is extended in place.
    let (index, made) := (← takeBuilder b).addSection name r
    modify fun s => { s with builders := Names.define s.builders b made }
    return .number (← Script.ofExcept index)
  | sectionCount b => return .number (← find (·.builders) b).sections.size
  | build b config snapshot => do
    let b ← takeBuilder b
    let made ← op (b.build config)
    modify fun s => { s with snapshots := Names.define s.snapshots snapshot made }
    return .snapshot made
  | writeTo b config file => do
    let b ← takeBuilder b
    withFile file do
      let made ← op (b.build config)
      saveBytes file made.bytes
      return .snapshot made
  | lookup snapshot name => do
    match (← find (·.snapshots) snapshot).lookup name with
    | none => return .absent
    | some info => return .part info
  | save snapshot file => do
    let made ← find (·.snapshots) snapshot
    withFile file do
      saveBytes file made.bytes
      return .done
  | saveImage image file => do
    let i ← Script.image image
    withFile file do
      saveBytes file ((← get).store.image i).bytes
      return .done

/-- Takes an open file out of the session. -/
def takeFile (name : String) : Script ImageFile := do
  let f ← find (·.files) name
  modify fun s => { s with files := Names.drop s.files name }
  return f

def FileStep.run : FileStep → Script Outcome
  | create f file size =>
    withFile file do
      let made ← onDisk (ImageFile.create (← get).host file size)
      -- The name may stand for an older file, which ends here.
      if let some old := (← get).files.lookup f then
        onDisk old.discard
      modify fun s => { s with files := Names.define s.files f made }
      return .opened made.size
  | write f offset bs => do
    let f ← find (·.files) f
    onDisk (f.writeAt offset bs)
    return .done
  | writeWord f width offset n => do
    let f ← find (·.files) f
    onDisk (f.writeWordAt width offset n)
    return .done
  | finalize f => do
    let f ← takeFile f
    onDisk f.finalize
    return .done
  | discard f => do
    let f ← takeFile f
    onDisk f.discard
    return .done
  | read file => return .content ((← get).disk.read? file)

end Backpatch.Session
