import Backpatch.Error

/-!
# Operations that may fail

State transformers in which a failure keeps the changes made before it.
-/

namespace Backpatch

abbrev Failable (σ : Type) := EStateM Error σ

namespace Failable

variable {σ α : Type}

def ofExcept : Except Error α → Failable σ α
  | .ok a => pure a
  | .error e => throw e

/-- Runs an operation that may fail, and returns its failure as a result. -/
def attempt (x : Failable σ α) : Failable σ (Except Error α) := fun s =>
  match x s with
  | .ok a s => .ok (.ok a) s
  | .error e s => .ok (.error e) s

/-- Runs an operation that may fail, and returns its failure as a list. -/
def failures (x : Failable σ Unit) : Failable σ (List Error) := fun s =>
  match x s with
  | .ok () s => .ok [] s
  | .error e s => .ok [e] s

/-- Fails with the given failures, if there are any. -/
def raise (errors : List Error) : Failable σ Unit :=
  match Error.ofMany? errors with
  | none => pure ()
  | some e => throw e

/-- Runs `cleanup` if the operation fails, and fails as it did. -/
def onFailure (x : Failable σ α) (cleanup : Failable σ Unit) : Failable σ α := fun s =>
  match x s with
  | .ok a s => .ok a s
  | .error e s => (do cleanup; throw e : Failable σ α) s

end Failable

end Backpatch
