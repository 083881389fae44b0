/-!
# Opcodes

An instruction starts with a byte of two nibbles. Six tables give the nibbles their meaning; each
has a name and a number for every entry, and some numbers are free.
-/

namespace Backpatch.Instruction

/-- The entries of a table, with their names and nibbles. -/
class Table (α : Type) where
  all : List α
  name : α → String
  nibble : α → UInt8

namespace Table

/-- The entry with the given nibble, if it is not free. -/
def ofNibble? (α : Type) [Table α] (n : UInt8) : Option α :=
  (all : List α).find? fun a => nibble a == n

def ofName? (α : Type) [Table α] (s : String) : Option α :=
  (all : List α).find? fun a => name a == s

end Table

/-- The first nibble of an instruction byte. The three extended pages and the two operator groups
read the second nibble through a table of their own. -/
inductive Opcode where
  | loadSmallLiteral | loadVar1 | loadScoped1 | loadArg1 | call1 | fixedArrayNew1 | extended1
  | extended2 | extended3 | call5 | storeVar1 | storeScoped1 | arrayGet1 | arraySet1 | numOp
  | bitOp
deriving DecidableEq

namespace Opcode

def all : List Opcode :=
  [.loadSmallLiteral, .loadVar1, .loadScoped1, .loadArg1, .call1, .fixedArrayNew1, .extended1,
   .extended2, .extended3, .call5, .storeVar1, .storeScoped1, .arrayGet1, .arraySet1, .numOp,
   .bitOp]

def name : Opcode → String
  | loadSmallLiteral => "LoadSmallLiteral"
  | loadVar1 => "LoadVar1"
  | loadScoped1 => "LoadScoped1"
  | loadArg1 => "LoadArg1"
  | call1 => "Call1"
  | fixedArrayNew1 => "FixedArrayNew1"
  | extended1 => "Extended1"
  | extended2 => "Extended2"
  | extended3 => "Extended3"
  | call5 => "Call5"
  | storeVar1 => "StoreVar1"
  | storeScoped1 => "StoreScoped1"
  | arrayGet1 => "ArrayGet1"
  | arraySet1 => "ArraySet1"
  | numOp => "NumOp"
  | bitOp => "BitOp"

def nibble : Opcode → UInt8
  | loadSmallLiteral => 0x0
  | loadVar1 => 0x1
  | loadScoped1 => 0x2
  | loadArg1 => 0x3
  | call1 => 0x4
  | fixedArrayNew1 => 0x5
  | extended1 => 0x6
  | extended2 => 0x7
  | extended3 => 0x8
  | call5 => 0x9
  | storeVar1 => 0xA
  | storeScoped1 => 0xB
  | arrayGet1 => 0xC
  | arraySet1 => 0xD
  | numOp => 0xE
  | bitOp => 0xF

instance : Table Opcode := ⟨all, name, nibble⟩

end Opcode

/-- The second nibble on the page without a payload. -/
inductive Page1 where
  | ret | throw | closureNew | new | scopePush | typeCodeOf | pop | typeOf | objectNew
  | logicalNot | objectGet1 | add | equal | notEqual | objectSet1
deriving DecidableEq

namespace Page1

def all : List Page1 :=
  [.ret, .throw, .closureNew, .new, .scopePush, .typeCodeOf, .pop, .typeOf, .objectNew,
   .logicalNot, .objectGet1, .add, .equal, .notEqual, .objectSet1]

def name : Page1 → String
  | ret => "Return"
  | throw => "Throw"
  | closureNew => "ClosureNew"
  | new => "New"
  | scopePush => "ScopePush"
  | typeCodeOf => "TypeCodeOf"
  | pop => "Pop"
  | typeOf => "TypeOf"
  | objectNew => "ObjectNew"
  | logicalNot => "LogicalNot"
  | objectGet1 => "ObjectGet1"
  | add => "Add"
  | equal => "Equal"
  | notEqual => "NotEqual"
  | objectSet1 => "ObjectSet1"

def nibble : Page1 → UInt8
  | ret => 0x0
  | throw => 0x1
  | closureNew => 0x2
  | new => 0x3
  | scopePush => 0x5
  | typeCodeOf => 0x6
  | pop => 0x7
  | typeOf => 0x8
  | objectNew => 0x9
  | logicalNot => 0xA
  | objectGet1 => 0xB
  | add => 0xC
  | equal => 0xD
  | notEqual => 0xE
  | objectSet1 => 0xF

instance : Table Page1 := ⟨all, name, nibble⟩

end Page1

/-- The second nibble on the page with a payload of one byte. -/
inductive Page2 where
  | branch1 | storeArg | storeScoped2 | storeVar2 | jump1 | call2 | call3 | arrayNew | loadVar2
  | loadScoped2 | loadArg2
deriving DecidableEq

namespace Page2

def all : List Page2 :=
  [.branch1, .storeArg, .storeScoped2, .storeVar2, .jump1, .call2, .call3, .arrayNew, .loadVar2,
   .loadScoped2, .loadArg2]

def name : Page2 → String
  | branch1 => "Branch1"
  | storeArg => "StoreArg"
  | storeScoped2 => "StoreScoped2"
  | storeVar2 => "StoreVar2"
  | jump1 => "Jump1"
  | call2 => "Call2"
  | call3 => "Call3"
  | arrayNew => "ArrayNew"
  | loadVar2 => "LoadVar2"
  | loadScoped2 => "LoadScoped2"
  | loadArg2 => "LoadArg2"

def nibble : Page2 → UInt8
  | branch1 => 0x0
  | storeArg => 0x1
  | storeScoped2 => 0x2
  | storeVar2 => 0x3
  | jump1 => 0x4
  | call2 => 0x5
  | call3 => 0x6
  | arrayNew => 0x7
  | loadVar2 => 0x8
  | loadScoped2 => 0x9
  | loadArg2 => 0xA

instance : Table Page2 := ⟨all, name, nibble⟩

end Page2

/-- The second nibble on the page with a payload of two bytes. -/
inductive Page3 where
  | branch2 | jump2 | loadLiteral | loadGlobal3 | storeGlobal3 | objectGet2 | objectSet2
deriving DecidableEq

namespace Page3

def all : List Page3 :=
  [.branch2, .jump2, .loadLiteral, .loadGlobal3, .storeGlobal3, .objectGet2, .objectSet2]

def name : Page3 → String
  | branch2 => "Branch2"
  | jump2 => "Jump2"
  | loadLiteral => "LoadLiteral"
  | loadGlobal3 => "LoadGlobal3"
  | storeGlobal3 => "StoreGlobal3"
  | objectGet2 => "ObjectGet2"
  | objectSet2 => "ObjectSet2"

def nibble : Page3 → UInt8
  | branch2 => 0x0
  | jump2 => 0x1
  | loadLiteral => 0x2
  | loadGlobal3 => 0x3
  | storeGlobal3 => 0x4
  | objectGet2 => 0x5
  | objectSet2 => 0x6

instance : Table Page3 := ⟨all, name, nibble⟩

end Page3

/-- Operators on numbers. -/
inductive NumOp where
  | lessThan | greaterThan | lessEqual | greaterEqual | addNum | subtract | multiply | divide
  | divideTrunc | remainder | power | negate | unaryPlus
deriving DecidableEq

namespace NumOp

def all : List NumOp :=
  [.lessThan, .greaterThan, .lessEqual, .greaterEqual, .addNum, .subtract, .multiply, .divide,
   .divideTrunc, .remainder, .power, .negate, .unaryPlus]

def name : NumOp → String
  | lessThan => "LessThan"
  | greaterThan => "GreaterThan"
  | lessEqual => "LessEqual"
  | greaterEqual => "GreaterEqual"
  | addNum => "AddNum"
  | subtract => "Subtract"
  | multiply => "Multiply"
  | divide => "Divide"
  | divideTrunc => "DivideTrunc"
  | remainder => "Remainder"
  | power => "Power"
  | negate => "Negate"
  | unaryPlus => "UnaryPlus"

def nibble : NumOp → UInt8
  | lessThan => 0x0
  | greaterThan => 0x1
  | lessEqual => 0x2
  | greaterEqual => 0x3
  | addNum => 0x4
  | subtract => 0x5
  | multiply => 0x6
  | divide => 0x7
  | divideTrunc => 0x8
  | remainder => 0x9
  | power => 0xA
  | negate => 0xB
  | unaryPlus => 0xC

instance : Table NumOp := ⟨all, name, nibble⟩

end NumOp

/-- Operators on bit patterns. -/
inductive BitOp where
  | shiftRightArithmetic | shiftRightLogical | shiftLeft | or | and | xor | not
deriving DecidableEq

namespace BitOp

def all : List BitOp :=
  [.shiftRightArithmetic, .shiftRightLogical, .shiftLeft, .or, .and, .xor, .not]

def name : BitOp → String
  | shiftRightArithmetic => "ShiftRightArithmetic"
  | shiftRightLogical => "ShiftRightLogical"
  | shiftLeft => "ShiftLeft"
  | or => "Or"
  | and => "And"
  | xor => "Xor"
  | not => "Not"

def nibble : BitOp → UInt8
  | shiftRightArithmetic => 0x0
  | shiftRightLogical => 0x1
  | shiftLeft => 0x2
  | or => 0x4
  | and => 0x5
  | xor => 0x6
  | not => 0x7

instance : Table BitOp := ⟨all, name, nibble⟩

end BitOp

end Backpatch.Instruction
