import Mathlib
import Backpatch.Proofs.Building

/-!
# Histories

A `Call` is one use of the library, with handles that earlier calls returned. Every store that some
calls lead to is valid.
-/

namespace Backpatch

open Store Failable

/-- The operations that the library offers. -/
inductive Call where
  | newCell (kind : Kind) (value : Option Datum) (derived : Bool)
  | tryMap (source : CellId) (kind : Kind) (f : Datum → Except Error Datum)
  | tryBind (source : CellId) (kind : Kind) (choose : Datum → Except Error CellId)
  | subtract (kind : IntKind) (minuend subtrahend : CellId)
  | resolve (c : CellId) (v : Datum)
  | confirm (c : CellId) (v : Datum)
  | unresolve (c : CellId)
  | onResolve (c : CellId) (a : Action)
  | unsubscribe (c : CellId) (id : Nat)
  /-- Says which names callbacks know. -/
  | define (names : List (String × CellId)) (subscriptions : List (String × Subscription))
  | newImage
  | append (i : ImageId) (bs : Bytes) (note : Note)
  | overwrite (i : ImageId) (offset : Nat) (bs : Bytes) (note : Note)
  | layout (r : Region) (i : ImageId) (observer : Observer)
  | finalize (l : Layout) (config : FlattenConfig) (observer : Observer)
  | drop (l : Layout)
  | flatten (r : Region) (i : ImageId) (config : FlattenConfig) (observer : Observer)
  | build (b : Snapshot.Builder) (config : FlattenConfig)

namespace Call

def run : Call → Op Unit
  | newCell kind value derived => discard (Store.newCell kind value derived)
  | tryMap source kind f => discard (Store.tryMap source kind f)
  | tryBind source kind choose => discard (Store.tryBind source kind choose)
  | subtract kind minuend subtrahend => discard (Store.subtract kind minuend subtrahend)
  | resolve c v => Store.resolve c v
  | confirm c v => Store.confirm c v
  | unresolve c => Store.unresolve c
  | onResolve c a => discard (Store.onResolve c (.act a))
  | unsubscribe c id => discard (Store.unsubscribe c id)
  | define names subscriptions => modify fun s => { s with names, subscriptions }
  | newImage => discard Store.newImage
  | append i bs note => Store.append i bs note
  | overwrite i offset bs note => Store.overwrite i offset bs note
  | layout r i observer => discard (r.layoutObserved i observer)
  | finalize l config observer => discard (l.finalizeObserved config observer)
  | drop l => l.drop
  | flatten r i config observer => discard (r.flattenObserved i config observer)
  | build b config => discard (b.build config)

/-- The handles that a call uses exist. -/
def Admissible (s : Store) : Call → Prop
  | newCell .. | newImage | drop _ => True
  | tryMap source .. => source < s.cells.size
  | tryBind source _ choose =>
    source < s.cells.size ∧ ∀ v inner, choose v = .ok inner → inner < s.cells.size
  | subtract _ minuend subtrahend => minuend < s.cells.size ∧ subtrahend < s.cells.size
  | resolve c _ | confirm c _ | unresolve c | unsubscribe c _ => c < s.cells.size
  | onResolve c a => c < s.cells.size ∧ a.Within s.cells.size
  | define names subscriptions =>
    (∀ p ∈ names, p.2 < s.cells.size) ∧ ∀ p ∈ subscriptions, p.2.cell < s.cells.size
  | append i .. | overwrite i .. => i < s.images.size
  | layout r i _ | flatten r i .. => i < s.images.size ∧ r.Within s.cells.size
  | finalize l .. => ∀ e ∈ l.entries, e.Within s.cells.size
  | build b _ => b.Within s.cells.size

/-- The moves that a call can make. -/
def Makes : Call → Move → Prop
  | unresolve c, m => m = .unresolve c
  | onResolve c a, m => m = .watch c a ∨ ∃ v, m = .run c a v
  | overwrite i offset bs note, m => m = .overwrite i offset bs note
  | _, m => m.Plain

/-- The moves that a call can make in the given store: those of `Makes`, and in more detail. -/
def Causes (s : Store) : Call → Move → Prop
  | newCell .., m | tryMap .., m | tryBind .., m | subtract .., m => m.Creates
  | resolve c v, m | confirm c v, m => m = .resolve c v
  | unresolve c, m => m = .unresolve c
  | onResolve c a, m => m = .watch c a ∨ ∃ v, m = .run c a v
  | unsubscribe c id, m => m = .unsubscribe c id
  | define names subscriptions, m => m = .define names subscriptions
  | newImage, m => m = .newImage
  | append i bs note, m => m = .append i bs note
  | overwrite i offset bs note, m => m = .overwrite i offset bs note
  | layout _ i _, m | flatten _ i _ _, m => m.Flattens i
  | finalize .., m => m.Finalizes
  | drop _, m => m.Closes
  | build .., m => m.Prepares ∨ ∃ i, s.images.size ≤ i ∧ m.Flattens i

variable {s : Store} {call : Call}

theorem causes (h : Valid s []) (ha : call.Admissible s) :
    Steps (call.Causes s) s (call.run.after s) := by
  cases call with
  | newCell kind value derived =>
    exact .quiet (m := .create kind value derived) trivial trivial rfl
  | tryMap source kind f =>
    rw [run, after_discard]
    exact steps_tryMap ha kind f
  | tryBind source kind choose =>
    rw [run, after_discard]
    exact steps_tryBind ha.1 kind ha.2
  | subtract kind minuend subtrahend =>
    rw [run, after_discard]
    exact steps_subtract kind ha.1 ha.2
  | resolve c v => exact steps_resolve h ha rfl
  | confirm c v => exact steps_confirm h ha rfl
  | unresolve c => exact .quiet (m := .unresolve c) rfl ha rfl
  | onResolve c a =>
    rw [run, after_discard]
    exact steps_onResolve h ha.1 ha.2 (.inl rfl) fun v => .inr ⟨v, rfl⟩
  | unsubscribe c id => exact .quiet (m := .unsubscribe c id) rfl ha rfl
  | define names subscriptions => exact .quiet (m := .define names subscriptions) rfl ha rfl
  | newImage => exact .quiet (m := .newImage) rfl trivial rfl
  | append i bs note => exact .quiet (m := .append i bs note) rfl ha rfl
  | overwrite i offset bs note =>
    simp only [run, Store.overwrite, after_bind, get_run, Image.checkRange]
    by_cases hr : offset + bs.length ≤ (s.image i).size
    · simp only [if_pos hr, ofExcept_ok_run]
      exact .quiet (m := .overwrite i offset bs note) rfl ⟨ha, hr⟩ rfl
    · simp only [if_neg hr, ofExcept_error_run]
      exact .refl s
  | layout r i observer =>
    rw [run, after_discard]
    exact Region.layoutObserved_flattens observer h ha.1 ha.2
  | finalize l config observer =>
    rw [run, after_discard]
    exact Layout.finalizeObserved_finalizes config observer h ha
  | drop l => exact l.steps_drop h
  | flatten r i config observer =>
    rw [run, after_discard]
    exact Region.flattenObserved_flattens config observer h ha.1 ha.2
  | build b config =>
    rw [run, after_discard]
    obtain ⟨i, hi, hsteps⟩ := Snapshot.Builder.build_flattens config h ha
    exact hsteps.mono fun m hm => hm.imp_right fun hm => ⟨i, hi, hm⟩

theorem Causes.makes {m : Move} (h : call.Causes s m) : call.Makes m := by
  cases call with
  | newCell | tryMap | tryBind | subtract => exact Move.Creates.plain h
  | unresolve | onResolve | overwrite => exact h
  | resolve | confirm | unsubscribe | define | newImage | append =>
    rw [show m = _ from h]
    trivial
  | layout | flatten => exact Move.Flattens.plain h
  | finalize => exact (Move.Finalizes.flattens h 0).plain
  | drop => exact Move.Closes.plain h
  | build =>
    obtain h | ⟨i, -, h⟩ := h
    · exact Move.Prepares.plain h
    · exact Move.Flattens.plain h

theorem steps (h : Valid s []) (ha : call.Admissible s) :
    Steps call.Makes s (call.run.after s) :=
  (causes h ha).mono fun _ => Causes.makes

end Call

/-- Calls one after another, whether they fail or not. -/
inductive Run : Store → List Call → Store → Prop where
  | nil (s : Store) : Run s [] s
  | cons {s call calls t} (h : call.Admissible s) (rest : Run (call.run.after s) calls t) :
      Run s (call :: calls) t

namespace Run

variable {s t : Store} {calls : List Call}

theorem steps {P : Move → Prop} (h : Run s calls t) (hs : Valid s [])
    (hP : ∀ call ∈ calls, ∀ m, call.Makes m → P m) : Steps P s t := by
  induction h with
  | nil s => exact .refl s
  | cons h _ ih =>
    have hcall := Call.steps hs h
    exact (hcall.mono (hP _ (.head _))).trans
      (ih (hcall.valid hs) fun call hc => hP call (.tail _ hc))

/-- Every store that calls lead to is valid. -/
theorem valid (h : Run {} calls s) : Valid s [] :=
  (h.steps (P := fun _ => True) Valid.empty fun _ _ _ _ => trivial).valid Valid.empty

end Run

end Backpatch
