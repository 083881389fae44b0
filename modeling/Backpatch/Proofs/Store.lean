import Mathlib
import Backpatch.Proofs.Failable
import Backpatch.Store.Derive

/-!
# Changes of a store

Every operation on a store is put together from a few changes: a cell is added, a subscriber is
queued or withdrawn, a value is delivered or cleared, bytes are appended or replaced. Each change is
a function here, with what it does to the cells, the images and the placeholders.

`total` adds a measure up over all queues. It serves twice: as the weight that is still waiting,
and as the number of subscribers that are going to settle a given cell.
-/

namespace Backpatch

/-- The sum of a measure over the queue of a cell. -/
def Cell.total (w : Subscriber → Nat) (c : Cell) : Nat := (c.queue.map fun q => w q.2).sum

theorem Cell.total_push (w : Subscriber → Nat) (c : Cell) (sub : Subscriber) :
    (c.push sub).total w = c.total w + w sub := by
  simp [Cell.total, Cell.push]

theorem Cell.total_remove_le (w : Subscriber → Nat) (c : Cell) (id : Nat) :
    (c.remove id).total w ≤ c.total w := by
  have h : List.Sublist (c.remove id).queue c.queue := List.filter_sublist
  exact (h.map fun q => w q.2).sum_le_sum (by simp)

theorem Cell.le_total {w : Subscriber → Nat} {c : Cell} {id : Nat} {sub : Subscriber}
    (h : (id, sub) ∈ c.queue) : w sub ≤ c.total w :=
  List.single_le_sum (by simp) _ (List.mem_map.2 ⟨(id, sub), h, rfl⟩)

/-- Changing one item of a list exchanges one summand. -/
theorem sum_map_modify {α : Type} (g : α → Nat) (f : α → α) (l : List α) (i : Nat) (a : α)
    (h : l[i]? = some a) : ((l.modify i f).map g).sum + g a = (l.map g).sum + g (f a) := by
  induction l generalizing i with
  | nil => simp at h
  | cons b l ih =>
    cases i with
    | zero =>
      obtain rfl : b = a := by simpa using h
      simp
      omega
    | succ i =>
      have := ih i (by simpa using h)
      simp
      omega

namespace Store

variable (s : Store) (c d : CellId) (v : Datum) (sub : Subscriber) (w : Subscriber → Nat)

/-- The sum of a measure over all queues. -/
def total (w : Subscriber → Nat) : Nat := (s.cells.toList.map (Cell.total w)).sum

/-- The weight of all waiting subscribers. -/
abbrev load : Nat := s.total Subscriber.weight

def enqueue : Store :=
  { s.modifyCell c (·.push sub) with issued := s.issued + sub.weight }

def delivered : Store :=
  s.modifyCell c fun cell => { cell with value := some v, queue := [] }

def withdrawn (id : Nat) : Store := s.modifyCell c (·.remove id)

def cleared : Store := s.modifyCell c fun cell => { cell with value := none }

def addCell (cell : Cell) : Store := { s with cells := s.cells.push cell }

/-- A new derived cell. -/
def newDerived (kind : Kind) (value : Option Datum) : Store :=
  s.addCell { kind, value, derived := true }

def logged (entry : LogEntry) : Store := { s with log := s.log.push entry }

/-! ## Operations as changes -/

@[simp] theorem valueOf_run : valueOf c s = .ok (s.value? c) s := rfl

@[simp] theorem kindOf_run : kindOf c s = .ok (s.kind c) s := rfl

@[simp] theorem queue_run : queue c sub s = .ok (s.cell c).next (s.enqueue c sub) := rfl

@[simp] theorem deliver_run : deliver c v s = .ok (s.cell c).queue (s.delivered c v) := rfl

@[simp] theorem newCell_run (kind : Kind) (value : Option Datum) (derived : Bool) :
    newCell kind value derived s = .ok s.cells.size (s.addCell { kind, value, derived }) := rfl

@[simp] theorem unsubscribe_run (id : Nat) :
    unsubscribe c id s = .ok ((s.cell c).isQueued id) (s.withdrawn c id) := rfl

@[simp] theorem unresolve_run : unresolve c s = .ok () (s.cleared c) := rfl

@[simp] theorem logEntry_run (entry : LogEntry) : logEntry entry s = .ok () (s.logged entry) := rfl

/-! ## Cells -/

theorem cell_of_size_le (h : s.cells.size ≤ c) : s.cell c = {} := by
  simp [cell, Array.getElem?_eq_none h]

theorem modifyCell_of_size_le (f : Cell → Cell) (hc : s.cells.size ≤ c) : s.modifyCell c f = s := by
  have h : s.cells.modify c f = s.cells := by
    apply Array.ext_getElem?
    intro i
    rw [Array.getElem?_modify]
    split_ifs with hi
    · subst hi
      simp [Array.getElem?_eq_none hc]
    · rfl
  simp [modifyCell, h]

theorem cell_modifyCell (f : Cell → Cell) :
    (s.modifyCell c f).cell d = if d = c ∧ c < s.cells.size then f (s.cell c) else s.cell d := by
  rcases Nat.lt_or_ge c s.cells.size with hc | hc
  · simp only [cell, modifyCell, Array.getElem?_modify, hc, and_true]
    by_cases hd : d = c
    · subst hd
      simp [hc]
    · simp [hd, Ne.symm hd]
  · rw [modifyCell_of_size_le s c f hc, if_neg fun h => Nat.not_lt.2 hc h.2]

theorem cell_addCell (cell : Cell) :
    (s.addCell cell).cell d = if d = s.cells.size then cell else s.cell d := by
  by_cases hd : d = s.cells.size <;> simp [Store.cell, addCell, Array.getElem?_push, hd]

theorem total_modifyCell (f : Cell → Cell) (hc : c < s.cells.size) :
    (s.modifyCell c f).total w + (s.cell c).total w = s.total w + (f (s.cell c)).total w := by
  have h : s.cells.toList[c]? = some (s.cell c) := by
    simp [cell, hc]
  simpa [total, modifyCell, Array.toList_modify] using
    sum_map_modify (Cell.total w) f s.cells.toList c (s.cell c) h

/-! ## What each change does to the cells -/

@[simp] theorem size_enqueue : (s.enqueue c sub).cells.size = s.cells.size := by
  simp [enqueue, modifyCell]

@[simp] theorem size_delivered : (s.delivered c v).cells.size = s.cells.size := by
  simp [delivered, modifyCell]

@[simp] theorem size_withdrawn (id : Nat) : (s.withdrawn c id).cells.size = s.cells.size := by
  simp [withdrawn, modifyCell]

@[simp] theorem size_cleared : (s.cleared c).cells.size = s.cells.size := by
  simp [cleared, modifyCell]

@[simp] theorem size_addCell (cell : Cell) : (s.addCell cell).cells.size = s.cells.size + 1 := by
  simp [addCell]

theorem cell_enqueue :
    (s.enqueue c sub).cell d = if d = c ∧ c < s.cells.size then (s.cell c).push sub
      else s.cell d :=
  cell_modifyCell s c d (·.push sub)

theorem cell_delivered :
    (s.delivered c v).cell d = if d = c ∧ c < s.cells.size then
      { s.cell c with value := some v, queue := [] } else s.cell d :=
  cell_modifyCell ..

theorem cell_withdrawn (id : Nat) :
    (s.withdrawn c id).cell d = if d = c ∧ c < s.cells.size then (s.cell c).remove id
      else s.cell d :=
  cell_modifyCell ..

theorem cell_cleared :
    (s.cleared c).cell d = if d = c ∧ c < s.cells.size then { s.cell c with value := none }
      else s.cell d :=
  cell_modifyCell ..

@[simp] theorem value?_enqueue : (s.enqueue c sub).value? d = s.value? d := by
  simp only [value?, cell_enqueue]
  split_ifs with h
  · simp [Cell.push, h.1]
  · rfl

theorem value?_delivered (hc : c < s.cells.size) :
    (s.delivered c v).value? d = if d = c then some v else s.value? d := by
  simp only [value?, cell_delivered, hc, and_true]
  split_ifs <;> rfl

@[simp] theorem value?_withdrawn (id : Nat) : (s.withdrawn c id).value? d = s.value? d := by
  simp only [value?, cell_withdrawn]
  split_ifs with h
  · simp [Cell.remove, h.1]
  · rfl

theorem value?_addCell (cell : Cell) :
    (s.addCell cell).value? d = if d = s.cells.size then cell.value else s.value? d := by
  simp only [value?, cell_addCell]
  split_ifs <;> rfl

@[simp] theorem size_newDerived (kind : Kind) (value : Option Datum) :
    (s.newDerived kind value).cells.size = s.cells.size + 1 :=
  size_addCell ..

theorem value?_newDerived (kind : Kind) (value : Option Datum) :
    (s.newDerived kind value).value? d = if d = s.cells.size then value else s.value? d :=
  value?_addCell ..

theorem lt_size_of_value? {v : Datum} (h : s.value? c = some v) : c < s.cells.size := by
  by_contra hc
  simp [value?, cell_of_size_le s c (Nat.le_of_not_lt hc)] at h

theorem lt_size_of_queue {q : Nat × Subscriber} (h : q ∈ (s.cell c).queue) :
    c < s.cells.size := by
  by_contra hc
  simp [cell_of_size_le s c (Nat.le_of_not_lt hc)] at h

theorem forall_queue_of_cells {s : Store} {P : Nat × Subscriber → Prop}
    (h : ∀ cell ∈ s.cells.toList, ∀ q ∈ cell.queue, P q) (c : CellId) :
    ∀ q ∈ (s.cell c).queue, P q := by
  intro q hq
  have hc := lt_size_of_queue s c hq
  refine h (s.cell c) ?_ q hq
  simp [Store.cell, Array.getElem?_eq_getElem hc]

@[simp] theorem derived_enqueue : ((s.enqueue c sub).cell d).derived = (s.cell d).derived := by
  rw [cell_enqueue]
  split_ifs with h
  · simp [Cell.push, h.1]
  · rfl

@[simp] theorem derived_delivered : ((s.delivered c v).cell d).derived = (s.cell d).derived := by
  rw [cell_delivered]
  split_ifs with h
  · simp [h.1]
  · rfl

@[simp] theorem derived_withdrawn (id : Nat) :
    ((s.withdrawn c id).cell d).derived = (s.cell d).derived := by
  rw [cell_withdrawn]
  split_ifs with h
  · simp [Cell.remove, h.1]
  · rfl

@[simp] theorem derived_cleared : ((s.cleared c).cell d).derived = (s.cell d).derived := by
  rw [cell_cleared]
  split_ifs with h
  · simp [h.1]
  · rfl

theorem mem_queue_enqueue {q : Nat × Subscriber} (h : q ∈ ((s.enqueue c sub).cell d).queue) :
    q ∈ (s.cell d).queue ∨ d = c ∧ q.2 = sub := by
  rw [cell_enqueue] at h
  split_ifs at h with hd
  · obtain ⟨rfl, -⟩ := hd
    simp only [Cell.push, List.mem_append, List.mem_singleton] at h
    exact h.imp_right fun hq => ⟨rfl, by rw [hq]⟩
  · exact .inl h

theorem mem_queue_delivered {q : Nat × Subscriber} (h : q ∈ ((s.delivered c v).cell d).queue) :
    q ∈ (s.cell d).queue := by
  rw [cell_delivered] at h
  split_ifs at h
  · simp at h
  · exact h

theorem mem_queue_withdrawn {q : Nat × Subscriber} {id : Nat}
    (h : q ∈ ((s.withdrawn c id).cell d).queue) : q ∈ (s.cell d).queue := by
  rw [cell_withdrawn] at h
  split_ifs at h with hd
  · rw [hd.1]
    exact List.mem_of_mem_filter h
  · exact h

theorem mem_queue_cleared {q : Nat × Subscriber} (h : q ∈ ((s.cleared c).cell d).queue) :
    q ∈ (s.cell d).queue := by
  rw [cell_cleared] at h
  split_ifs at h with hd
  · rw [hd.1]
    exact h
  · exact h

theorem mem_queue_addCell {q : Nat × Subscriber} {kind : Kind} {value : Option Datum}
    {derived : Bool} (h : q ∈ ((s.addCell { kind, value, derived }).cell d).queue) :
    q ∈ (s.cell d).queue := by
  rw [cell_addCell] at h
  split_ifs at h
  · simp at h
  · exact h

/-! ## Images -/

theorem image_modifyImage (i j : ImageId) (f : Image → Image) :
    (s.modifyImage i f).image j =
      if j = i ∧ i < s.images.size then f (s.image i) else s.image j := by
  simp only [image, modifyImage, Array.getElem?_modify]
  by_cases hj : j = i
  · subst hj
    by_cases hi : j < s.images.size
    · simp [hi]
    · simp [hi]
  · simp [hj, Ne.symm hj]

theorem image_of_size_le (i : ImageId) (h : s.images.size ≤ i) : s.image i = {} := by
  simp [image, Array.getElem?_eq_none h]

@[simp] theorem size_modifyImage (i : ImageId) (f : Image → Image) :
    (s.modifyImage i f).images.size = s.images.size := by
  simp [modifyImage]

/-! ## What each change does to a total -/

theorem total_enqueue (hc : c < s.cells.size) :
    (s.enqueue c sub).total w = s.total w + w sub := by
  have h := total_modifyCell s c w (·.push sub) hc
  rw [Cell.total_push] at h
  change (s.modifyCell c (·.push sub)).total w = _
  omega

theorem total_enqueue_le : (s.enqueue c sub).total w ≤ s.total w + w sub := by
  rcases Nat.lt_or_ge c s.cells.size with hc | hc
  · exact (total_enqueue s c sub w hc).le
  · change (s.modifyCell c (·.push sub)).total w ≤ _
    rw [modifyCell_of_size_le s c _ hc]
    omega

theorem total_delivered : (s.delivered c v).total w + (s.cell c).total w = s.total w := by
  rcases Nat.lt_or_ge c s.cells.size with hc | hc
  · exact total_modifyCell s c w _ hc
  · rw [delivered, modifyCell_of_size_le s c _ hc, cell_of_size_le s c hc]
    rfl

theorem total_withdrawn_le (id : Nat) : (s.withdrawn c id).total w ≤ s.total w := by
  rcases Nat.lt_or_ge c s.cells.size with hc | hc
  · have h := total_modifyCell s c w (·.remove id) hc
    have := Cell.total_remove_le w (s.cell c) id
    change (s.modifyCell c (·.remove id)).total w ≤ _
    omega
  · rw [withdrawn, modifyCell_of_size_le s c _ hc]

@[simp] theorem total_cleared : (s.cleared c).total w = s.total w := by
  rcases Nat.lt_or_ge c s.cells.size with hc | hc
  · exact Nat.add_right_cancel (total_modifyCell s c w _ hc)
  · rw [cleared, modifyCell_of_size_le s c _ hc]

theorem total_addCell (cell : Cell) : (s.addCell cell).total w = s.total w + cell.total w := by
  simp [total, addCell]

@[simp] theorem total_newDerived (kind : Kind) (value : Option Datum) :
    (s.newDerived kind value).total w = s.total w :=
  total_addCell ..

theorem le_total {id : Nat} (h : (id, sub) ∈ (s.cell c).queue) : w sub ≤ s.total w := by
  have := total_delivered s c (.int 0) w
  have := Cell.le_total (w := w) h
  omega

/-! ## What each change does to the load -/

theorem load_enqueue_le : (s.enqueue c sub).load ≤ s.load + sub.weight :=
  total_enqueue_le s c sub Subscriber.weight

theorem load_delivered : (s.delivered c v).load + (s.cell c).total Subscriber.weight = s.load :=
  total_delivered s c v Subscriber.weight

theorem load_withdrawn_le (id : Nat) : (s.withdrawn c id).load ≤ s.load :=
  total_withdrawn_le s c Subscriber.weight id

@[simp] theorem load_cleared : (s.cleared c).load = s.load :=
  total_cleared s c Subscriber.weight

@[simp] theorem load_newDerived (kind : Kind) (value : Option Datum) :
    (s.newDerived kind value).load = s.load :=
  total_newDerived ..

end Store

end Backpatch
