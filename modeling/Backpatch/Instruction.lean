import Backpatch.Instruction.Opcode
import Backpatch.Region

/-!
# Instructions

An instruction is a byte of two nibbles, on some pages followed by a payload of one or two bytes,
which may be known later. Branches hold the distance from their own end to their target.
Writing an instruction either appends all of it to a region or nothing.
-/

namespace Backpatch

open Instruction

inductive Instruction where
  /-- A primary opcode with an operand below sixteen. -/
  | op (opcode : Opcode) (operand : UInt8)
  | ex1 (sub : Page1)
  | ex2 (sub : Page2) (payload : FieldValue)
  | ex2Signed (sub : Page2) (payload : FieldValue)
  | ex3 (sub : Page3) (payload : FieldValue)
  | ex3Signed (sub : Page3) (payload : FieldValue)
  /-- Places a label at the next instruction. -/
  | label (target : CellId)
  | branch8 (target : CellId)
  | jump8 (target : CellId)
  | branch16 (target : CellId)
  | jump16 (target : CellId)
  /-- Calls an entry of the short-call table. -/
  | callShort (index : UInt8)
  | callShort8 (index : UInt8)
  /-- Calls the function at an address. -/
  | callGeneral (target : CellId) (argc : UInt8)
deriving DecidableEq

namespace Instruction

/-- A payload that is known already has to fit its format. -/
def check (format : IntFormat) (payload : FieldValue) : Op Unit := do
  let known ← match payload with
    | .known v => pure (some v)
    | .deferred cell => Store.valueOf cell
  if let some v := known then
    discard (Failable.ofExcept (FixedFormat.encode (.int format) v))

/-- The distance from `stop` to `target`. -/
def distance (target stop : CellId) : Op CellId := do
  let target ← Store.signedOffset target
  let stop ← Store.signedOffset stop
  Store.subtract .i64 target stop

/-- The byte of an entry on a page. -/
def writeByte {α : Type} [Table α] (r : Region) (page : UInt8) (sub : α) : Op Region :=
  Failable.ofExcept (r.writeField .nibbles (.known (.nibbles page (Table.nibble sub)))
    (some (Table.name sub)))

/-- The byte of an entry and its payload. -/
def writePaged {α : Type} [Table α] (r : Region) (page : Opcode) (sub : α) (format : IntFormat)
    (payload : FieldValue) (label : Option String) : Op Region := do
  check format payload
  let r ← writeByte r page.nibble sub
  Failable.ofExcept (r.writeField (.int format) payload label)

/-- A jump over a distance; the end of the instruction is marked by a cell of its own. -/
def writeRelative {α : Type} [Table α] (r : Region) (page : Opcode) (sub : α)
    (format : IntFormat) (target : CellId) : Op Region := do
  let stop ← Store.newCell .offset none false
  let payload ← distance target stop
  let r ← writePaged r page sub format (.deferred payload) (some "relative")
  return r.mark stop

def number (n : UInt8) : FieldValue := .known (.int n.toNat)

end Instruction

/-- Appends an instruction to a region. -/
def Region.writeInstruction (r : Region) : Instruction → Op Region
  | .op opcode operand =>
    Failable.ofExcept (r.writeField .nibbles (.known (.nibbles opcode.nibble operand))
      (some opcode.name))
  | .ex1 sub => writeByte r Opcode.extended1.nibble sub
  | .ex2 sub payload => writePaged r .extended2 sub .u8 payload none
  | .ex2Signed sub payload => writePaged r .extended2 sub .i8 payload none
  | .ex3 sub payload => writePaged r .extended3 sub .u16le payload none
  | .ex3Signed sub payload => writePaged r .extended3 sub .i16le payload none
  | .label target => return r.mark target
  | .branch8 target => writeRelative r .extended2 Page2.branch1 .i8 target
  | .jump8 target => writeRelative r .extended2 Page2.jump1 .i8 target
  | .branch16 target => writeRelative r .extended3 Page3.branch2 .i16le target
  | .jump16 target => writeRelative r .extended3 Page3.jump2 .i16le target
  | .callShort index =>
    Failable.ofExcept (r.writeField .nibbles (.known (.nibbles Opcode.call1.nibble index))
      (some Opcode.call1.name))
  | .callShort8 index => writePaged r .extended2 Page2.call2 .u8 (number index) none
  | .callGeneral target argc => do
    let address ← Store.signedOffset target
    check .u16le (.deferred address)
    let r ← writePaged r .extended2 Page2.call3 .u8 (number argc) none
    Failable.ofExcept (r.writeField (.int .u16le) (.deferred address) (some "call target"))

end Backpatch
