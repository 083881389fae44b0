import Backpatch.Image

/-!
# Views

A view is the table of an image's rows: offset, bytes, value and label. Long runs of bytes are
cut, and a value that is not known yet shows as pending.
-/

namespace Backpatch

structure View where
  rows : List Row
deriving DecidableEq

def Image.view (i : Image) : View := ⟨i.rows.toList⟩

/-- The number of bytes that a line shows. -/
def Row.shownBytes : Nat := 8

/-- The width of the column of bytes. -/
def Row.byteColumn : Nat := 28

namespace Row

def hexColumn (r : Row) : String :=
  let shown := String.intercalate " " ((r.bytes.take shownBytes).map fun b => capitalHex 2 b.toNat)
  let text := if shownBytes < r.bytes.length then shown ++ " .." else shown
  text ++ String.ofList (List.replicate (byteColumn - text.length) ' ')

def line (r : Row) : String :=
  let value := r.note.value.getD "<pending>"
  let label := match r.note.label with
    | none => ""
    | some label => "  " ++ label
  capitalHex 4 r.offset ++ "  " ++ r.hexColumn ++ value ++ label ++ "\n"

end Row

namespace View

def text (v : View) : String :=
  v.rows.foldl (fun text r => text ++ r.line) ""

def pending (v : View) : List Row :=
  v.rows.filter (·.note.isPending)

end View

end Backpatch
