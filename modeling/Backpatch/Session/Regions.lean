import Backpatch.Session
import Backpatch.Session.Function

/-!
# Steps on regions
-/

namespace Backpatch.Session

/-- The value of a field in a script: known, or the name of a cell. -/
inductive FieldSource where
  | known (v : Datum)
  | named (cell : String)

/-- An instruction whose cells are given by name. -/
inductive InstructionStep where
  | op (opcode : Instruction.Opcode) (operand : UInt8)
  | ex1 (sub : Instruction.Page1)
  | ex2 (sub : Instruction.Page2) (payload : FieldSource)
  | ex2Signed (sub : Instruction.Page2) (payload : FieldSource)
  | ex3 (sub : Instruction.Page3) (payload : FieldSource)
  | ex3Signed (sub : Instruction.Page3) (payload : FieldSource)
  | label (target : String)
  | branch8 (target : String)
  | jump8 (target : String)
  | branch16 (target : String)
  | jump16 (target : String)
  | callShort (index : UInt8)
  | callShort8 (index : UInt8)
  | callGeneral (target : String) (argc : UInt8)

inductive RegionStep where
  | new (r : String)
  | write (r : String) (format : Format) (value : Datum) (label : Option String)
  | writeField (r : String) (format : FixedFormat) (value : FieldSource) (label : Option String)
  | writeText (r : String) (s : String) (label : Option String)
  | writeBytes (r : String) (bs : Bytes) (label : Option String)
  /-- The child is moved into the region. -/
  | embed (r child : String)
  | currentAddress (r v : String)
  | mark (r v : String)
  | postProcess (r start stop : String) (f : DigestFunction) (v : String)
  | info (r : String)
  | writeInstruction (r : String) (i : InstructionStep)

open Script

def FieldSource.value : FieldSource → Script FieldValue
  | known v => return .known v
  | named name => return .deferred (← cell name)

def InstructionStep.instruction : InstructionStep → Script Instruction
  | op opcode operand => return .op opcode operand
  | ex1 sub => return .ex1 sub
  | ex2 sub payload => return .ex2 sub (← payload.value)
  | ex2Signed sub payload => return .ex2Signed sub (← payload.value)
  | ex3 sub payload => return .ex3 sub (← payload.value)
  | ex3Signed sub payload => return .ex3Signed sub (← payload.value)
  | label target => return .label (← cell target)
  | branch8 target => return .branch8 (← cell target)
  | jump8 target => return .jump8 (← cell target)
  | branch16 target => return .branch16 (← cell target)
  | jump16 target => return .jump16 (← cell target)
  | callShort index => return .callShort index
  | callShort8 index => return .callShort8 index
  | callGeneral target argc => return .callGeneral (← cell target) argc

/-- Replaces a region by what a function makes of it. -/
def updateRegion (name : String) (f : Region → Script Region) : Script Outcome := do
  defineRegion name (← f (← region name))
  return .done

/-- Replaces a region and defines the cell that comes with it. -/
def extendRegion (name v : String) (f : Region → Op (CellId × Region)) : Script Outcome := do
  let (c, r) ← Script.op (f (← region name))
  defineRegion name r
  defineCell v c
  return .done

def RegionStep.run : RegionStep → Script Outcome
  | new r => do
    defineRegion r {}
    return .done
  | write r format value label =>
    updateRegion r fun region => Script.ofExcept (region.write format value label)
  | writeField r format value label =>
    updateRegion r fun region => do
      Script.ofExcept (region.writeField format (← value.value) label)
  | writeText r s label => updateRegion r fun region => Script.ofExcept (region.writeText s label)
  | writeBytes r bs label => updateRegion r fun region => return region.writeBytes bs label
  | embed r child => do
    let child ← takeRegion child
    updateRegion r fun region => return region.embed child
  | currentAddress r v => extendRegion r v (·.currentAddress)
  | mark r v => updateRegion r fun region => return region.mark (← cell v)
  | postProcess r start stop f v => do
    let start ← cell start
    let stop ← cell stop
    extendRegion r v (·.postProcess start stop f.kind f.apply)
  | info r => return .region (← region r)
  | writeInstruction r i =>
    updateRegion r fun region => do Script.op (region.writeInstruction (← i.instruction))

end Backpatch.Session
