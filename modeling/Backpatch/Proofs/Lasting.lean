import Mathlib
import Backpatch.Proofs.History

/-!
# Lasting values

Where nothing takes a value back, a value lasts: a cell that has one keeps it, through every
reaction. A subscriber that runs then runs with the value that its cell still has, so a patched
field holds the bytes of the value of its cell.
-/

namespace Backpatch

open Store Failable

/-- The move takes no value back, now or later. -/
def Move.Lasting : Move → Prop
  | .unresolve _ => False
  | .watch _ a | .run _ a _ => a.Lasting
  | _ => True

theorem Move.Plain.lasting {m : Move} (h : m.Plain) : m.Lasting := by
  cases m with
  | unresolve => exact h.elim
  | watch | run => exact h
  | _ => trivial

/-- A valid store in which no action, waiting or about to run, takes a value back, and in which
subscribers run with the value of the cell that they waited for. -/
structure Lasting (s : Store) (tasks : List Task) : Prop extends Valid s tasks where
  waiting : ∀ c, ∀ q ∈ (s.cell c).queue, q.2.Acts Action.Lasting
  planned : ∀ task ∈ tasks, task.Acts Action.Lasting
  moves : ∀ m, .move m ∈ tasks → m.Lasting
  values : ∀ c sub v, .notify c sub v ∈ tasks → s.value? c = some v

theorem Lasting.empty : Lasting {} [] :=
  { Valid.empty with
    waiting := fun c q hq => by simp [Store.cell] at hq
    planned := by simp
    moves := by simp
    values := by simp }

theorem Action.hereditary_lasting : Hereditary Action.Lasting :=
  ⟨fun _ _ h => h, fun _ _ h => h⟩

section Steps

variable {s t : Store} {task : Task} {ts k : List Task} {c : CellId} {v : Datum}

theorem Store.value?_fire (s : Store) (d : CellId) (w : Datum) (h : s.value? c = some v) :
    (s.fire d w).1.value? c = some v := by
  obtain ⟨x, -, hf⟩ | ⟨hd, hf⟩ := fire_cases s d w
  · rwa [hf]
  · rw [hf]
    simp only [delivered, value?, cell_modifyCell]
    split_ifs with hc
    · rw [hc.1, hd] at h
      simp at h
    · exact h

theorem Store.value?_newDerived_of_some (s : Store) (kind : Kind) (value : Option Datum)
    (h : s.value? c = some v) : (s.newDerived kind value).value? c = some v := by
  rw [value?_newDerived, if_neg (Nat.ne_of_lt (lt_size_of_value? s c h))]
  exact h

theorem Move.value?_apply {m : Move} (hm : m.Lasting) (h : s.value? c = some v) :
    (m.apply s).1.value? c = some v := by
  cases m with
  | journal | define | run | newImage | append | overwrite => exact h
  | create kind value derived =>
    change (s.addCell _).value? c = _
    rw [value?_addCell, if_neg (Nat.ne_of_lt (lt_size_of_value? s c h))]
    exact h
  | attach kind source sub =>
    change ((s.newDerived kind none).enqueue source _).value? c = _
    rw [value?_enqueue]
    exact value?_newDerived_of_some s kind none h
  | watch d a =>
    change (s.enqueue d _).value? c = _
    rwa [value?_enqueue]
  | resolve d w | settle d w => exact value?_fire s d w h
  | unresolve => exact hm.elim
  | unsubscribe d id =>
    change (s.withdrawn d id).value? c = _
    rwa [value?_withdrawn]
  | place i format d label =>
    change ((s.modifyImage i _).enqueue d _).value? c = _
    rwa [value?_enqueue]

/-- Values last. -/
theorem Lasting.value?_step (h : Lasting s (task :: k)) (hr : Reacts s task t ts)
    (hv : s.value? c = some v) : t.value? c = some v := by
  cases hr with
  | move => exact Move.value?_apply (h.moves _ (.head k)) hv
  | refuse | patch | start | log | watch | andThen => exact hv
  | derive | follow | assign => exact value?_fire s _ _ hv
  | followLater | watchLater => rwa [value?_enqueue]
  | minus => exact value?_fire _ _ _ (value?_newDerived_of_some s _ _ hv)
  | minusLater =>
    rw [value?_enqueue, value?_enqueue]
    exact value?_newDerived_of_some s _ _ hv
  | unresolve => exact (h.planned _ (.head k)).elim
  | unsubscribe =>
    change (s.withdrawn _ _).value? c = _
    rwa [value?_withdrawn]

theorem Reacts.not_move (hr : Reacts s task t ts) (m : Move) : .move m ∉ ts := by
  have fired : ∀ {s : Store} {d w}, .move m ∉ (s.fire d w).2 := by
    intro s d w h
    obtain ⟨q, -, he, -⟩ := mem_fire s d w h
    cases he
  cases hr with
  | @move m _ =>
    cases m with
    | resolve | settle => exact fired
    | journal | define | create | attach | watch | run | unresolve | unsubscribe | newImage
    | append | place | overwrite => simp [Move.apply]
  | derive | follow | assign | minus => exact fired
  | refuse | followLater | minusLater | patch | start | log | unresolve | watch | watchLater
  | unsubscribe | andThen => simp

theorem Reacts.move_mem {m : Move} (hr : Reacts s task t ts) (hm : .move m ∈ ts ++ k) :
    .move m ∈ task :: k := by
  obtain hm | hm := List.mem_append.1 hm
  · exact absurd hm (hr.not_move m)
  · exact .tail _ hm

theorem Lasting.step (hr : Reacts s task t ts) (h : Lasting s (task :: k)) : Lasting t (ts ++ k) :=
  { Valid.step hr h.toValid with
    waiting := fun c q hq =>
      (hr.acts_queue Action.hereditary_lasting (h.planned task (.head k)) hq).elim
        (h.waiting c q) id
    planned := fun x hx => by
      obtain hx | hx := List.mem_append.1 hx
      · exact hr.acts Action.hereditary_lasting (h.planned task (.head k)) h.waiting x hx
      · exact h.planned x (.tail _ hx)
    moves := fun m hm => h.moves m (hr.move_mem hm)
    values := fun c sub v hx => by
      obtain hx | hx := List.mem_append.1 hx
      · exact (hr.notified hx).2
      · exact h.value?_step hr (h.values c sub v (.tail _ hx)) }

theorem Lasting.start {m : Move} (hm : m.Lasting) (h : Lasting s []) : Lasting s [.move m] :=
  { h.toValid.start m with
    waiting := h.waiting
    planned := by
      intro x hx
      obtain rfl := List.mem_singleton.1 hx
      cases m with
      | watch | run => exact hm
      | _ => trivial
    moves := by
      intro m' hx
      cases List.mem_singleton.1 hx
      exact hm
    values := by simp }

end Steps

namespace Steps

variable {P : Move → Prop} {s t : Store}

/-- A fact that every reaction keeps holds after any number of steps. -/
theorem preserve (h : Steps P s t) {F : Store → Prop}
    (step : ∀ {s task t ts}, (∀ m, task = .move m → P m) → Reacts s task t ts → F s → F t)
    (hf : F s) : F t := by
  refine (h.invariant (I := fun s tasks => (∀ m, .move m ∈ tasks → P m) ∧ F s)
    (fun hm hi => ⟨by simpa using hm, hi.2⟩) (fun {s task t ts k} hr hi => ?_) ⟨by simp, hf⟩).2
  exact ⟨fun m hm => hi.1 m (hr.move_mem hm),
    step (fun m hm => hi.1 m (hm ▸ .head k)) hr hi.2⟩

theorem lasting (h : Steps P s t) (hP : ∀ m, P m → m.Lasting) (hs : Lasting s []) : Lasting t [] :=
  h.invariant (I := Lasting) (fun hm hs => hs.start (hP _ hm)) Lasting.step hs

/-- A fact that every reaction in a lasting store keeps holds after steps that let values last. -/
theorem keep (h : Steps P s t) (hP : ∀ m, P m → m.Lasting) (hs : Lasting s []) {F : Store → Prop}
    (step : ∀ {s task t ts k}, Lasting s (task :: k) → (∀ m, task = .move m → P m) →
      Reacts s task t ts → F s → F t) (hf : F s) : F t := by
  have := h.invariant
    (I := fun s tasks => Lasting s tasks ∧ (∀ m, .move m ∈ tasks → P m) ∧ F s)
    (fun hm hi => ⟨hi.1.start (hP _ hm), by simpa using hm, hi.2.2⟩)
    (fun {s task t ts k} hr hi => ⟨Lasting.step hr hi.1, fun m hm => hi.2.1 m (hr.move_mem hm),
      step hi.1 (fun m hm => hi.2.1 m (hm ▸ .head k)) hr hi.2.2⟩)
    ⟨hs, by simp, hf⟩
  exact this.2.2

theorem value?_eq {c : CellId} {v : Datum} (h : Steps P s t) (hP : ∀ m, P m → m.Lasting)
    (hs : Lasting s []) (hv : s.value? c = some v) : t.value? c = some v :=
  h.keep (F := fun s => s.value? c = some v) hP hs (fun hl _ hr hv => hl.value?_step hr hv) hv

end Steps

/-- The call takes no value back, now or by a callback. -/
def Call.Lasting : Call → Prop
  | .unresolve _ => False
  | .onResolve _ a => a.Lasting
  | _ => True

theorem Call.Lasting.makes {call : Call} (h : call.Lasting) {m : Move} (hm : call.Makes m) :
    m.Lasting := by
  cases call with
  | unresolve => exact h.elim
  | onResolve =>
    obtain rfl | ⟨v, rfl⟩ := hm
    · exact h
    · exact h
  | overwrite =>
    obtain rfl := hm
    trivial
  | _ => exact Move.Plain.lasting hm

/-- Every store that lasting calls lead to is a lasting one. -/
theorem Run.lasting {s t : Store} {calls : List Call} (h : Run s calls t) (hs : Lasting s [])
    (hc : ∀ call ∈ calls, call.Lasting) : Lasting t [] :=
  (h.steps (P := Move.Lasting) hs.toValid fun call hm _ => (hc call hm).makes).lasting
    (fun _ hm => hm) hs

end Backpatch
