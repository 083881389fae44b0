import Mathlib
import Backpatch.Proofs.Dispatch

/-!
# The queues of cells

A cell that has a value has no queue, and the numbers in a queue stand in the order in which they
were given out. No number is given out twice, so it names one subscriber for good. This holds at any
moment (`Evolves`), in the middle of operations and while callbacks call further ones, because every
reaction keeps it.
-/

namespace Backpatch

open Store Failable

/-- Who waits for the cell: nobody, once it has a value, and otherwise subscribers whose numbers were
given out by the cell, in this order. -/
structure Cell.Orderly (cell : Cell) : Prop where
  vacant : ∀ v, cell.value = some v → cell.queue = []
  positive : ∀ q ∈ cell.queue, 1 ≤ q.1
  issued : ∀ q ∈ cell.queue, q.1 < cell.next
  increasing : cell.queue.Pairwise fun p q => p.1 < q.1

/-! ## Moments of a run -/

/-- How a run goes on, from a store and the tasks that are still to be done in it. Any operation may
be called at any time, since callbacks may call them, and while it runs its own reactions may set
callbacks off. -/
inductive Evolves (s : Store) (k : List Task) : Store → List Task → Prop
  | refl : Evolves s k s k
  /-- An operation is called and returns. -/
  | call {t k'} {call : Call} (h : Evolves s k t k') (ha : call.Admissible t) :
      Evolves s k (call.run.after t) k'
  /-- An operation is under way and about to make a move. -/
  | start {t k'} (m : Move) (h : Evolves s k t k') : Evolves s k t (.move m :: k')
  /-- The next task is carried out. -/
  | react {t u task ts k'} (h : Evolves s k t (task :: k')) (hr : Reacts t task u ts) :
      Evolves s k u (ts ++ k')

theorem Evolves.trans {s t u : Store} {k k' k'' : List Task} (h : Evolves s k t k')
    (g : Evolves t k' u k'') : Evolves s k u k'' := by
  induction g with
  | refl => exact h
  | call _ ha ih => exact ih.call ha
  | start m _ ih => exact ih.start m
  | react _ hr ih => exact ih.react hr

/-- No cell has both a value and a queue. -/
def Store.Vacant (s : Store) : Prop :=
  ∀ c v, s.value? c = some v → (s.cell c).queue = []

/-- From one store to the other, cells give out new numbers only. -/
def Store.Renews (s t : Store) : Prop :=
  ∀ c, (s.cell c).next ≤ (t.cell c).next ∧
    ∀ q ∈ (t.cell c).queue, q.1 < (s.cell c).next → q ∈ (s.cell c).queue

namespace Store.Vacant

variable {s t : Store} {task : Task} {ts : List Task}

theorem of_cells (h : s.Vacant) (hcells : t.cells = s.cells) : t.Vacant := by
  unfold Vacant value? cell at *
  rwa [hcells]

theorem enqueue {c : CellId} (h : s.Vacant) (hc : s.value? c = none) (sub : Subscriber) :
    (s.enqueue c sub).Vacant := by
  intro d v hv
  rw [value?_enqueue] at hv
  rw [cell_enqueue, if_neg]
  · exact h d v hv
  · rintro ⟨rfl, -⟩
    simp [hc] at hv

theorem withdrawn (h : s.Vacant) (c : CellId) (id : Nat) : (s.withdrawn c id).Vacant := by
  intro d v hv
  rw [value?_withdrawn] at hv
  obtain heq | ⟨-, heq⟩ := queue_withdrawn_cases s c d id
  · rw [heq, h d v hv]
  · rw [heq, h d v hv, List.filter_nil]

theorem cleared (h : s.Vacant) (c : CellId) : (s.cleared c).Vacant := by
  intro d v hv
  rw [value?, cell_cleared] at hv
  rw [queue_cleared]
  split_ifs at hv
  exact h d v hv

theorem addCell (h : s.Vacant) (kind : Kind) (value : Option Datum) (derived : Bool) :
    (s.addCell { kind, value, derived }).Vacant := by
  intro c v hv
  rw [(queue_addCell s kind value derived c).1]
  rw [value?_addCell] at hv
  split_ifs at hv with hc
  · rw [hc, cell_of_size_le s _ le_rfl]
  · exact h c v hv

theorem fire (h : s.Vacant) (c : CellId) (v : Datum) : (s.fire c v).1.Vacant := by
  intro d w hw
  obtain heq | ⟨-, -, hempty⟩ := queue_fire_cases s c d v
  · rw [value?, heq] at hw
    rw [heq]
    exact h d w hw
  · exact hempty

theorem move {m : Move} (h : s.Vacant) (hm : m.Fits s) : (m.apply s).1.Vacant := by
  cases m with
  | journal | define | run | newImage | append | overwrite => exact h.of_cells rfl
  | create kind value derived => exact h.addCell kind value derived
  | attach kind source sub =>
    refine (h.addCell kind none true).enqueue ?_ _
    rw [value?_addCell, if_neg (Nat.ne_of_lt hm.1)]
    exact hm.2.1
  | watch c a => exact h.enqueue hm.2.1 _
  | resolve c v | settle c v => exact h.fire c v
  | unresolve c => exact h.cleared c
  | unsubscribe c id => exact h.withdrawn c id
  | place i format c label =>
    have hplaced : (s.modifyImage i (·.append format.placeholder
        ((Format.fixed format).describe none label))).Vacant := h.of_cells rfl
    exact (hplaced.enqueue hm.2.2 (.patch s.placeholders.size)).of_cells rfl

theorem step (h : s.Vacant) (hr : Reacts s task t ts) : t.Vacant := by
  cases hr with
  | move hm => exact h.move hm
  | refuse | patch | start | log | watch | andThen => exact h.of_cells rfl
  | derive | follow | assign => exact h.fire _ _
  | followLater _ hw | watchLater _ hw => exact h.enqueue hw _
  | minus => exact (h.addCell _ _ true).fire _ _
  | @minusLater _ target kind subtrahend v hy =>
    have hpending : ∀ c, s.value? c = none → (s.newDerived (.int kind) none).value? c = none := by
      intro c hc
      rw [value?_newDerived]
      split_ifs
      · rfl
      · exact hc
    have hinner : s.value? s.cells.size = none := by rw [value?, cell_of_size_le s _ le_rfl]
    refine ((h.addCell _ none true).enqueue (hpending _ hy) _).enqueue ?_ _
    rw [value?_enqueue]
    exact hpending _ hinner
  | unresolve => exact h.cleared _
  | unsubscribe => exact (h.withdrawn _ _).of_cells rfl

end Store.Vacant

namespace Store.Renews

variable {s t u : Store} {task : Task} {ts k : List Task}

theorem refl (s : Store) : s.Renews s := fun _ => ⟨le_rfl, fun _ hq _ => hq⟩

theorem trans (h : s.Renews t) (g : t.Renews u) : s.Renews u := by
  intro c
  refine ⟨(h c).1.trans (g c).1, fun q hq hlt => ?_⟩
  exact (h c).2 q ((g c).2 q hq (hlt.trans_le (h c).1)) hlt

theorem step (hv : Valid s (task :: k)) (hr : Reacts s task t ts) : s.Renews t := by
  intro c
  obtain hthin | ⟨sub, -, -, hpush⟩ := hr.queue_cases hv c
  · exact ⟨hthin.2.ge, fun q hq _ => hthin.1 hq⟩
  · refine ⟨hpush.2 ▸ Nat.le_succ _, fun q hq hlt => ?_⟩
    rw [hpush.1] at hq
    obtain hq | hq := List.mem_append.1 hq
    · exact hq
    · rw [List.mem_singleton.1 hq] at hlt
      exact absurd hlt (lt_irrefl _)

end Store.Renews

/-! ## Every moment -/

/-- What holds of a store at any moment, together with the tasks that are still to be done. -/
structure Maintained (s : Store) (k : List Task) : Prop where
  valid : Valid s k
  ordered : Ordered s
  numbered : Numbered s
  vacant : s.Vacant

namespace Maintained

variable {s t : Store} {task : Task} {ts k : List Task}

theorem empty : Maintained {} [] where
  valid := .empty
  ordered := .empty
  numbered := .empty
  vacant c v hv := by simp [value?, Store.cell] at hv

theorem start (h : Maintained s k) (m : Move) : Maintained s (.move m :: k) where
  valid :=
    { h.valid with
      running := fun c sub v hmem => h.valid.running c sub v (by simpa using hmem)
      acting := fun a v hmem => h.valid.acting a v (by simpa using hmem)
      driven := fun c => by simpa [drivers_cons, Task.drives] using h.valid.driven c }
  ordered := h.ordered
  numbered := h.numbered
  vacant := h.vacant

theorem step (h : Maintained s (task :: k)) (hr : Reacts s task t ts) : Maintained t (ts ++ k) where
  valid := Valid.step hr h.valid
  ordered := h.ordered.step h.valid h.numbered hr
  numbered := h.numbered.step h.valid hr
  vacant := h.vacant.step hr

theorem done (h : Maintained s k) : Valid s [] :=
  { h.valid with
    running := by simp
    acting := by simp
    driven := fun c => (Nat.le_add_right ..).trans (h.valid.driven c) }

theorem cascade {tasks : List Task} (h : Maintained s (tasks ++ k)) (hc : Cascade s tasks t) :
    Maintained t k ∧ s.Renews t :=
  hc.invariant (I := fun t tasks => Maintained t (tasks ++ k) ∧ s.Renews t)
    (fun hr hi => ⟨List.append_assoc .. ▸ hi.1.step hr, hi.2.trans (.step hi.1.valid hr)⟩)
    ⟨h, .refl s⟩

theorem steps {P : Move → Prop} (h : Maintained s k) (hst : Steps P s t) :
    Maintained t k ∧ s.Renews t :=
  hst.invariant (I := fun t tasks => Maintained t (tasks ++ k) ∧ s.Renews t)
    (fun _ hi => ⟨hi.1.start _, hi.2⟩)
    (fun hr hi => ⟨List.append_assoc .. ▸ hi.1.step hr, hi.2.trans (.step hi.1.valid hr)⟩)
    ⟨h, .refl s⟩

theorem evolves {k' : List Task} (h : Maintained s k) (hst : Evolves s k t k') :
    Maintained t k' ∧ s.Renews t := by
  induction hst with
  | refl => exact ⟨h, .refl s⟩
  | call _ ha ih =>
    obtain ⟨hcall, hrenews⟩ := ih.1.steps (Call.steps ih.1.done ha)
    exact ⟨hcall, ih.2.trans hrenews⟩
  | start m _ ih => exact ⟨ih.1.start m, ih.2⟩
  | react _ hr ih => exact ⟨ih.1.step hr, ih.2.trans (.step ih.1.valid hr)⟩

theorem orderly (h : Maintained s k) (c : CellId) : (s.cell c).Orderly :=
  ⟨h.vacant c, h.ordered.positive c, h.numbered.fresh c, h.ordered.increasing c⟩

end Maintained

/-- Calls one after another, from outside or from a callback, are a way to go on. -/
theorem Run.evolves {s t : Store} {k : List Task} {calls : List Call} (h : Run s calls t) :
    Evolves s k t k := by
  suffices ∀ {o : Store} {k' : List Task}, Evolves o k' s k → Evolves o k' t k from this .refl
  induction h with
  | nil => exact id
  | cons ha _ ih => exact fun h => ih (h.call ha)

/-! ## Taking a subscriber out -/

section Removal

variable {cell : Cell} {id : Nat}

theorem Cell.isQueued_iff : cell.isQueued id = true ↔ ∃ q ∈ cell.queue, q.1 = id := by
  simp [Cell.isQueued]

theorem Cell.remove_of_not_queued (h : cell.isQueued id = false) : cell.remove id = cell := by
  have hqueue : cell.queue.filter (·.1 != id) = cell.queue := by
    rw [List.filter_eq_self]
    intro q hq
    rw [bne_iff_ne]
    rintro rfl
    rw [Cell.isQueued_iff.2 ⟨q, hq, rfl⟩] at h
    cases h
  rw [Cell.remove, hqueue]

/-- A number names at most one subscriber, so removing it leaves all others, in their order. -/
theorem Cell.Orderly.remove_of_queued (h : cell.Orderly) (hq : cell.isQueued id = true) :
    ∃ front sub back, cell.queue = front ++ (id, sub) :: back ∧
      cell.remove id = { cell with queue := front ++ back } := by
  obtain ⟨⟨id, sub⟩, hmem, rfl⟩ := Cell.isQueued_iff.1 hq
  obtain ⟨front, back, hsplit⟩ := List.append_of_mem hmem
  have hincreasing := h.increasing
  rw [hsplit, List.pairwise_append, List.pairwise_cons] at hincreasing
  obtain ⟨-, ⟨hback, -⟩, hfront⟩ := hincreasing
  have hbefore : front.filter (·.1 != id) = front :=
    List.filter_eq_self.2 fun q hq => bne_iff_ne.2 (hfront q hq _ (.head back)).ne
  have hbehind : back.filter (·.1 != id) = back :=
    List.filter_eq_self.2 fun q hq => bne_iff_ne.2 (hback q hq).ne'
  refine ⟨front, sub, back, hsplit, ?_⟩
  rw [Cell.remove, hsplit, List.filter_append, List.filter_cons_of_neg (by simp), hbefore, hbehind]

/-- Only what the change makes of the cell as it is matters. -/
theorem Store.modifyCell_congr {s : Store} {c : CellId} {f g : Cell → Cell}
    (h : f (s.cell c) = g (s.cell c)) : s.modifyCell c f = s.modifyCell c g := by
  have hcells : s.cells.modify c f = s.cells.modify c g := by
    apply Array.ext_getElem?
    intro d
    rw [Array.getElem?_modify, Array.getElem?_modify]
    split_ifs with hd
    · subst hd
      cases hc : s.cells[c]? with
      | none => rfl
      | some cell =>
        have hcell : s.cell c = cell := by rw [Store.cell, hc, Option.getD_some]
        rw [Option.map_some, Option.map_some, ← hcell, h]
    · rfl
  rw [modifyCell, modifyCell, hcells]

theorem Store.modifyCell_eq_self {s : Store} {c : CellId} {f : Cell → Cell}
    (h : f (s.cell c) = s.cell c) : s.modifyCell c f = s := by
  have hcells : s.cells.modify c (fun cell => cell) = s.cells := by
    apply Array.ext_getElem?
    intro d
    rw [Array.getElem?_modify, Option.map_id']
    split_ifs <;> rfl
  rw [modifyCell_congr (g := fun cell => cell) h, modifyCell, hcells]

end Removal

/-- At any moment of any run, callbacks included, a cell with a value has no queue, and the numbers
in a queue are positive, increasing and below the next one. Whatever happens later, no number that
was given out comes back for somebody else. So a number removes at most one subscriber, and that if
and only if it is queued; the others stay in order, and zero removes nobody. -/
theorem queues_orderly_at_any_time (s t : Store) (k k' : List Task) (hs : Evolves {} [] s k)
    (ht : Evolves s k t k') :
    (∀ c, (s.cell c).Orderly) ∧
    (∀ c, (s.cell c).next ≤ (t.cell c).next ∧
      ∀ q ∈ (t.cell c).queue, q.1 < (s.cell c).next → q ∈ (s.cell c).queue) ∧
    ∀ c id, ∃ removed u, unsubscribe c id s = .ok removed u ∧
      (removed = true ↔ ∃ q ∈ (s.cell c).queue, q.1 = id) ∧
      (removed = true → ∃ front sub back, (s.cell c).queue = front ++ (id, sub) :: back ∧
        u = s.modifyCell c fun cell => { cell with queue := front ++ back }) ∧
      (removed = false → u = s) ∧
      (id = 0 → removed = false) := by
  have hmaintained := (Maintained.empty.evolves hs).1
  refine ⟨hmaintained.orderly, (hmaintained.evolves ht).2, fun c id => ?_⟩
  have horderly := hmaintained.orderly c
  refine ⟨_, _, unsubscribe_run s c id, Cell.isQueued_iff, fun hqueued => ?_, fun hqueued => ?_, ?_⟩
  · obtain ⟨front, sub, back, hsplit, hremove⟩ := horderly.remove_of_queued hqueued
    exact ⟨front, sub, back, hsplit, modifyCell_congr hremove⟩
  · exact modifyCell_eq_self (Cell.remove_of_not_queued hqueued)
  · rintro rfl
    rw [Bool.eq_false_iff]
    intro hqueued
    obtain ⟨q, hq, hzero⟩ := Cell.isQueued_iff.1 hqueued
    exact absurd (horderly.positive q hq) (by omega)

/-- Three callbacks wait, the first of which takes the value back; the second is taken out. -/
def recallCalls : List Call :=
  [.newCell (.int .i64) none false, .onResolve 0 (.unresolve (.cell 0)), .onResolve 0 .done,
    .onResolve 0 .done, .unsubscribe 0 2]

def recallStore : Store := recallCalls.foldl (fun s call => call.run.after s) {}

/-- The first callback ran, and called for another one; the third is still to run. -/
def recallNested : Store :=
  (Call.onResolve 0 .done).run.after (((Move.resolve 0 (.int 5)).apply recallStore).1.cleared 0)

theorem queues_orderly_at_any_time_recalled :
    Evolves {} [] recallStore [] ∧
    Evolves recallStore [] recallNested [.notify 0 (.act .done) (.int 5)] ∧
    (recallStore.cell 0).queue.map Prod.fst = [1, 3] ∧
    (recallNested.cell 0).queue.map Prod.fst = [4] ∧
    (∀ c, (recallNested.cell c).Orderly) ∧
    (∃ u, unsubscribe 0 3 recallStore = .ok true u) ∧
    ∃ u, unsubscribe 0 2 recallStore = .ok false u := by
  have hs : Evolves {} [] recallStore [] :=
    (show Run {} recallCalls recallStore from
      .cons trivial (.cons ⟨show 0 < _ by decide +kernel, show 0 < _ by decide +kernel⟩
        (.cons ⟨show 0 < _ by decide +kernel, trivial⟩
          (.cons ⟨show 0 < _ by decide +kernel, trivial⟩
            (.cons (show 0 < _ by decide +kernel) (.nil _)))))).evolves
  have hfits : (Move.resolve 0 (.int 5)).Fits recallStore :=
    ⟨by decide +kernel, by decide +kernel⟩
  have hfired : Evolves recallStore [] ((Move.resolve 0 (.int 5)).apply recallStore).1
      [.notify 0 (.act (.unresolve (.cell 0))) (.int 5), .notify 0 (.act .done) (.int 5)] :=
    (Evolves.refl.start _).react (.move hfits)
  have ht : Evolves recallStore [] recallNested [.notify 0 (.act .done) (.int 5)] :=
    ((hfired.react .start).react (.unresolve rfl)).call ⟨show 0 < _ by decide +kernel, trivial⟩
  have hnumbers : (recallStore.cell 0).queue.map Prod.fst = [1, 3] := by decide +kernel
  obtain ⟨-, -, hremoves⟩ := queues_orderly_at_any_time _ _ _ _ hs ht
  obtain ⟨found, u, hfound, hqueued, -⟩ := hremoves 0 3
  obtain ⟨missed, u', hmissed, hgone, -⟩ := hremoves 0 2
  rw [← List.mem_map, hnumbers] at hqueued hgone
  refine ⟨hs, ht, hnumbers, by decide +kernel,
    (queues_orderly_at_any_time _ _ _ _ (hs.trans ht) .refl).1, ⟨u, ?_⟩, u', ?_⟩
  · rw [hfound, hqueued.2 (by decide)]
  · rw [hmissed, Bool.eq_false_iff.2 fun h => absurd (hgone.1 h) (by decide)]

end Backpatch
