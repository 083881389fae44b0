import Backpatch.Datum.Literal

/-!
# Cells

A cell holds a value of its kind, which becomes known at most once at a time. Until then
subscribers wait in its queue: derivations of other cells, fields of an image to be patched, and
callbacks. All of them are data, so a queue can be inspected and weighed.
-/

namespace Backpatch

abbrev CellId := Nat

/-- Names a placeholder written by a layout. -/
abbrev FieldId := Nat

/-- A cell, or a name that is looked up when it is needed. -/
inductive Target where
  | cell (id : CellId)
  | named (name : String)
deriving DecidableEq

/-- What a callback does with the value that is delivered to it. -/
inductive Action where
  | done
  | log (tag : String)
  | fail (error : Error)
  /-- Resolves the target with the delivered value. -/
  | forward (target : Target)
  /-- Resolves the target with a value, read for the kind of the target. -/
  | resolve (target : Target) (value : Literal)
  | confirm (target : Target) (value : Literal)
  | unresolve (target : Target)
  | watch (target : Target) (callback : Action)
  /-- Cancels the subscription stored under a name, and logs whether it was still queued. -/
  | unsubscribe (name : String)
  /-- The second action runs only if the first one succeeds. -/
  | andThen (first second : Action)

/-- Who waits for the value of a cell. -/
inductive Subscriber where
  /-- Settles `target` with a function of the value. -/
  | derive (target : CellId) (f : Datum → Except Error Datum)
  /-- Lets `target` follow the cell that the value chooses. -/
  | follow (target : CellId) (choose : Datum → Except Error CellId)
  /-- Lets `target` follow the value less that of `subtrahend`. -/
  | minus (target : CellId) (kind : IntKind) (subtrahend : CellId)
  /-- Writes the value over a placeholder. -/
  | patch (field : FieldId)
  | act (action : Action)

/-- An upper bound for the number of callbacks that an action can set off by itself, those it
queues elsewhere included. -/
def Action.weight : Action → Nat
  | done => 0
  | log _ | fail _ | forward _ | resolve .. | confirm .. | unresolve _ | unsubscribe _ => 1
  | watch _ callback => callback.weight + 2
  | andThen first second => first.weight + second.weight

/-- A subscriber weighs more than all that it queues when it runs. -/
def Subscriber.weight : Subscriber → Nat
  | derive .. => 1
  | follow .. => 2
  | minus .. => 3
  | patch _ => 1
  | act action => action.weight + 1

structure Cell where
  kind : Kind := .int .i64
  value : Option Datum := none
  /-- Waiting subscribers with their numbers, the oldest first. -/
  queue : List (Nat × Subscriber) := []
  /-- The number of the next subscriber. -/
  next : Nat := 1
  /-- A derived cell takes its value from its sources only. -/
  derived : Bool := false

namespace Cell

def push (c : Cell) (s : Subscriber) : Cell :=
  { c with queue := c.queue ++ [(c.next, s)], next := c.next + 1 }

def remove (c : Cell) (id : Nat) : Cell :=
  { c with queue := c.queue.filter (·.1 != id) }

def isQueued (c : Cell) (id : Nat) : Bool :=
  c.queue.any (·.1 == id)

/-- Whether the cell holds a value equal to `v`. -/
def holds (c : Cell) (v : Datum) : Bool :=
  c.value.any (·.same v)

def display (c : Cell) : String :=
  match c.value with
  | none => "Pending"
  | some v => "Resolved(" ++ v.display ++ ")"

end Cell

end Backpatch
