/-!
# Paths

Where a path leads to, seen from a folder that has files but no folders in it. Empty parts and
single dots change nothing, and two dots lead one folder up.
-/

namespace Backpatch

inductive Path where
  /-- A file, and how many folders further up it lies. -/
  | file (up : Nat) (name : String)
  /-- A folder, or what is written like one. -/
  | folder
  /-- Something in a folder that does not exist. -/
  | inside (up : Nat) (name : String)
deriving DecidableEq

namespace Path

/-- The parts between the slashes, of which there is at least one. -/
def parts : List Char → List (List Char)
  | [] => [[]]
  | c :: rest =>
    match parts rest with
    | [] => [[c]]
    | part :: others => if c = '/' then [] :: part :: others else (c :: part) :: others

/-- Follows the parts of a path from the folder that lies `up` folders further up. -/
def follow (up : Nat) : List (List Char) → Path
  | [] => folder
  | part :: rest =>
    if part = [] ∨ part = ['.'] then follow up rest
    else if part = ['.', '.'] then follow (up + 1) rest
    else if rest = [] then file up (String.ofList part)
    else if rest.all (·.isEmpty) then folder
    else inside up (String.ofList part)

def parse (path : String) : Path := follow 0 (parts path.toList)

end Path

end Backpatch
