import Backpatch.Session
import Backpatch.Session.Function

/-!
# Steps on cells
-/

namespace Backpatch.Session

inductive ValueStep where
  | new (v : String) (kind : Kind)
  | resolved (v : String) (kind : Kind) (value : Literal)
  /-- A second name for the same cell. -/
  | clone (v source : String)
  | resolve (v : String) (value : Literal)
  | confirm (v : String) (value : Literal)
  | unresolve (v : String)
  | query (v : String)
  | same (a b : String)
  | watch (v : String) (callback : Action) (subscription : Option String)
  /-- Cancels a subscription in the queue of the cell it was made for, or of another one. -/
  | unsubscribe (subscription : String) (v : Option String)
  | map (v source : String) (f : MapFunction)
  | tryMap (v source : String) (f : TryFunction)
  | bind (v source : String) (table : List String)
  | tryBind (v source : String) (table : List String)
  | subtract (v a b : String)
  | signedOffset (v source : String)

open Script

/-- Defines the cell that an operation makes. -/
def makeCell (v : String) (x : Op CellId) : Script Outcome := do
  defineCell v (← op x)
  return .done

/-- The cells of a table, and the kind that they share. -/
def tableCells (names : List String) : Script (List CellId × Kind) := do
  let table ← names.mapM cell
  match table with
  | [] => throw .unfit
  | c :: _ => return (table, ← kindOf c)

def ValueStep.run : ValueStep → Script Outcome
  | new v kind => makeCell v (Store.newCell kind none false)
  | resolved v kind value => do
    let value ← literal value kind
    makeCell v (Store.newCell kind (some value) false)
  | clone v source => do
    defineCell v (← cell source)
    return .done
  | resolve v value => do
    let c ← cell v
    op (Store.resolve c (← literal value (← kindOf c)))
    return .done
  | confirm v value => do
    let c ← cell v
    op (Store.confirm c (← literal value (← kindOf c)))
    return .done
  | unresolve v => do
    op (Store.unresolve (← cell v))
    return .done
  | query v => do
    let c ← cell v
    return .cell ((← get).store.cell c)
  | same a b => return .flag ((← cell a) == (← cell b))
  | watch v callback subscription => do
    let c ← cell v
    let id ← op (Store.onResolve c (.act callback))
    if let some name := subscription then
      modify fun s => { s with store := { s.store with
        subscriptions := Names.define s.store.subscriptions name ⟨c, id⟩ } }
    return .subscription id
  | unsubscribe subscription v => do
    match (← get).store.subscriptions.lookup subscription with
    | none => return .absent
    | some sub =>
      let c ← match v with
        | none => pure sub.cell
        | some v => cell v
      return .flag (← op (Store.unsubscribe c sub.id))
  | map v source f => do
    let c ← cell source
    let kind ← kindOf c
    makeCell v (Store.map c (f.kind kind) (f.apply kind))
  | tryMap v source f => do makeCell v (Store.tryMap (← cell source) f.kind f.apply)
  | bind v source table => do
    let (table, kind) ← tableCells table
    makeCell v (Store.bind (← cell source) kind (chooseAround table))
  | tryBind v source table => do
    let (table, kind) ← tableCells table
    makeCell v (Store.tryBind (← cell source) kind (chooseWithin table))
  | subtract v a b => do
    let a ← cell a
    let .int kind ← kindOf a | throw .unfit
    makeCell v (Store.subtract kind a (← cell b))
  | signedOffset v source => do makeCell v (Store.signedOffset (← cell source))

end Backpatch.Session
