import Backpatch.Bytes

/-!
# Failures

Every operation of the library fails with an `Error`, which names the cause. `Error.message` is
the one place where causes are put into words. Several failures of one operation are reported
together by `Error.ofMany?`, which unpacks the aggregates among them by one level: an aggregate
inside of an aggregate stays one, and an aggregate of nothing is lost.
-/

namespace Backpatch

/-- A field of an image that still holds its placeholder. -/
structure UnresolvedField where
  offset : Nat
  width : Nat
  label : Option String
deriving DecidableEq

/-- Where a consistency check stands. -/
structure Origin where
  file : String
  line : Nat
deriving DecidableEq

def Origin.suffix : String := "rs"

/-- The origin of a check in a unit of the library. -/
def Origin.inUnit (unit : String) (line : Nat) : Origin := ⟨s!"src/{unit}.{suffix}", line⟩

inductive Error where
  /-- A cell was given a second value; both are kept as texts. -/
  | alreadyResolved (existing attempted : String)
  /-- A derived cell was given a value from outside. -/
  | derivedResolve
  | valueOutOfRange (value format : String)
  | invalidText (text : String)
  | unresolved (fields : List UnresolvedField)
  | postProcessingRange (index : Nat) (start stop : Option Nat)
  | outOfBounds (offset length size : Nat)
  | aggregate (errors : List Error)
  | malformed (message : String) (origin : Option Origin)
  | mappingFailed (message : String)
  | finalizationFailed (message : String)
  | fileFailed (message : String)
deriving Inhabited

/-- The text of a number that may be missing. -/
def optionText : Option Nat → String
  | none => "None"
  | some n => s!"Some({n})"

namespace UnresolvedField

def text (f : UnresolvedField) : String :=
  let place := "0x" ++ capitalHex 4 f.offset ++ " (" ++ toString f.width ++ " bytes"
  match f.label with
  | none => place ++ ")"
  | some label => place ++ ", '" ++ label ++ "')"

end UnresolvedField

namespace Error

mutual

def message : Error → String
  | alreadyResolved existing attempted =>
    s!"Value already resolved to {existing}, refusing {attempted}"
  | derivedResolve => "Derived values are resolved by their sources only"
  | valueOutOfRange value format => s!"Value {value} does not fit format {format}"
  | invalidText text => s!"Invalid text field - {text}"
  | unresolved fields =>
    toString fields.length ++ " unresolved field(s): " ++
      String.intercalate ", " (fields.map UnresolvedField.text)
  | postProcessingRange index start stop =>
    s!"Post-processing entry #{index} has unresolved bounds (start: " ++ optionText start ++
      ", end: " ++ optionText stop ++ ")"
  | outOfBounds offset length size =>
    s!"Access at offset {offset} of {length} byte(s) exceeds output size {size}"
  | aggregate errors =>
    toString errors.length ++ " error(s): " ++ String.intercalate "; " (messages errors)
  | malformed text none => s!"Malformed - {text}"
  | malformed text (some origin) =>
    s!"Malformed - {origin.file}:{origin.line}: {text}"
  | mappingFailed text => s!"Output file mapping failed - {text}"
  | finalizationFailed text => s!"Output file finalization failed - {text}"
  | fileFailed text => text

def messages : List Error → List String
  | [] => []
  | e :: es => message e :: messages es

end

mutual

/-- The unresolved fields that an error reports, at any depth. -/
def unresolvedFields : Error → List UnresolvedField
  | unresolved fields => fields
  | aggregate errors => allUnresolvedFields errors
  | _ => []

def allUnresolvedFields : List Error → List UnresolvedField
  | [] => []
  | e :: es => unresolvedFields e ++ allUnresolvedFields es

end

/-- The errors that an aggregate holds, or the error itself. -/
def parts : Error → List Error
  | aggregate errors => errors
  | e => [e]

/-- One error for a list of failures: none for none, a single one as it is, and otherwise one
aggregate of their parts. -/
def ofMany? (errors : List Error) : Option Error :=
  match errors.flatMap parts with
  | [] => none
  | [e] => some e
  | es => some (aggregate es)

end Error

end Backpatch
