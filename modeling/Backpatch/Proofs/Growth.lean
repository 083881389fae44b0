import Mathlib
import Backpatch.Proofs.Cascade
import Backpatch.Proofs.Image

/-!
# Stores only grow

Cells, images and placeholders are added and none is taken away, a cell stays derived or not, an
image does not get shorter, and of a placeholder only the flag changes.
-/

namespace Backpatch

open Store

/-- The later store has all that the earlier one has. -/
structure Grows (s t : Store) : Prop where
  cells : s.cells.size ≤ t.cells.size
  derived : ∀ c, c < s.cells.size → (t.cell c).derived = (s.cell c).derived
  fields : ∀ (f : FieldId) (p : Placeholder), s.placeholders[f]? = some p →
    ∃ b, t.placeholders[f]? = some { p with patched := p.patched || b }
  images : s.images.size ≤ t.images.size
  sizes : ∀ i, (s.image i).size ≤ (t.image i).size

namespace Grows

variable {s t u : Store}

/-- Nothing but cells changed, and none became derived or ceased to be. -/
theorem ofCells (hc : s.cells.size ≤ t.cells.size)
    (hd : ∀ c, c < s.cells.size → (t.cell c).derived = (s.cell c).derived)
    (hp : t.placeholders = s.placeholders) (hi : t.images = s.images) : Grows s t where
  cells := hc
  derived := hd
  fields f p h := ⟨false, by simpa [hp] using h⟩
  images := by rw [hi]
  sizes i := by rw [image, image, hi]

theorem refl (s : Store) : Grows s s := ofCells le_rfl (fun _ _ => rfl) rfl rfl

theorem trans (h : Grows s t) (g : Grows t u) : Grows s u where
  cells := h.cells.trans g.cells
  derived c hc := (g.derived c (hc.trans_le h.cells)).trans (h.derived c hc)
  fields f p hp := by
    obtain ⟨b, hb⟩ := h.fields f p hp
    obtain ⟨b', hb'⟩ := g.fields f _ hb
    exact ⟨b || b', by simpa [Bool.or_assoc] using hb'⟩
  images := h.images.trans g.images
  sizes i := (h.sizes i).trans (g.sizes i)

variable (s) (c : CellId) (v : Datum)

theorem enqueue (sub : Subscriber) : Grows s (s.enqueue c sub) :=
  ofCells (by simp) (by simp) rfl rfl

theorem withdrawn (id : Nat) : Grows s (s.withdrawn c id) :=
  ofCells (by simp) (by simp) rfl rfl

theorem cleared : Grows s (s.cleared c) := ofCells (by simp) (by simp) rfl rfl

theorem addCell (cell : Cell) : Grows s (s.addCell cell) :=
  ofCells (by simp) (fun c hc => by rw [cell_addCell, if_neg (Nat.ne_of_lt hc)]) rfl rfl

theorem newDerived (kind : Kind) (value : Option Datum) : Grows s (s.newDerived kind value) :=
  addCell ..

theorem fire : Grows s (s.fire c v).1 := ofCells (by simp) (by simp) (by simp) (by simp)

theorem modifyImage (i : ImageId) (f : Image → Image)
    (h : (s.image i).size ≤ (f (s.image i)).size) : Grows s (s.modifyImage i f) where
  cells := le_rfl
  derived _ _ := rfl
  fields f p hp := ⟨false, by simpa [Store.modifyImage] using hp⟩
  images := by simp
  sizes j := by
    rw [image_modifyImage]
    split_ifs with hj
    · rw [hj.1]
      exact h
    · rfl

theorem patched (f : FieldId) (p : Placeholder) (bs : Bytes) : Grows s (s.patched v f p bs) := by
  have h := modifyImage s p.image
    (·.replace p.offset bs ((Format.fixed p.format).describe (some v) p.label)) (by simp)
  refine ⟨h.cells, h.derived, ?_, h.images, h.sizes⟩
  intro g q hq
  change ∃ b, (s.placeholders.modify f fun p => { p with patched := true })[g]? = _
  rw [Array.getElem?_modify, hq]
  split_ifs
  · exact ⟨true, by simp⟩
  · exact ⟨false, by simp⟩

theorem placed (i : ImageId) (format : FixedFormat) (label : Option String) :
    Grows s (s.placed c i format label) := by
  have h := (modifyImage s i (·.append format.placeholder
    ((Format.fixed format).describe none label)) (by simp)).trans
      (enqueue _ c (.patch s.placeholders.size))
  refine ⟨h.cells, h.derived, ?_, h.images, h.sizes⟩
  intro g q hq
  have hg : g ≠ s.placeholders.size := Nat.ne_of_lt (Array.getElem?_eq_some_iff.1 hq).1
  refine ⟨false, ?_⟩
  change (s.placeholders.push _)[g]? = _
  rw [Array.getElem?_push, if_neg hg, hq]
  simp

theorem newImage : Grows s { s with images := s.images.push {} } where
  cells := le_rfl
  derived _ _ := rfl
  fields f p hp := ⟨false, by simpa using hp⟩
  images := by simp
  sizes i := by
    simp only [image, Array.getElem?_push]
    split_ifs with h
    · simp [h]
    · rfl

variable {s} in
theorem placeholders (h : Grows s t) : s.placeholders.size ≤ t.placeholders.size := by
  by_contra hlt
  have hf : t.placeholders.size < s.placeholders.size := by omega
  obtain ⟨b, hb⟩ := h.fields t.placeholders.size _ (Array.getElem?_eq_getElem hf)
  exact lt_irrefl _ (Array.getElem?_eq_some_iff.1 hb).1

end Grows

theorem Move.grows (s : Store) (m : Move) : Grows s (m.apply s).1 := by
  cases m with
  | journal | define | run => exact .ofCells le_rfl (fun _ _ => rfl) rfl rfl
  | create => exact .addCell ..
  | attach => exact (Grows.newDerived ..).trans (.enqueue ..)
  | watch => exact .enqueue ..
  | resolve | settle => exact .fire ..
  | unresolve => exact .cleared ..
  | unsubscribe => exact .withdrawn ..
  | newImage => exact .newImage ..
  | append => exact .modifyImage _ _ _ (by simp)
  | place => exact .placed ..
  | overwrite => exact .modifyImage _ _ _ (by simp)

theorem Reacts.grows {s t : Store} {task : Task} {ts : List Task} (h : Reacts s task t ts) :
    Grows s t := by
  cases h with
  | move => exact Move.grows ..
  | refuse | start | watch | andThen => exact .refl s
  | derive | follow | assign => exact .fire ..
  | followLater | watchLater => exact .enqueue ..
  | minus => exact (Grows.newDerived ..).trans (.fire ..)
  | minusLater => exact (Grows.newDerived ..).trans ((Grows.enqueue ..).trans (.enqueue ..))
  | patch => exact .patched ..
  | log => exact .ofCells le_rfl (fun _ _ => rfl) rfl rfl
  | unresolve => exact .cleared ..
  | unsubscribe => exact (Grows.withdrawn ..).trans (.ofCells le_rfl (fun _ _ => rfl) rfl rfl)


theorem Subscriber.Sound.mono {s t : Store} {c : CellId} {sub : Subscriber} (h : sub.Sound s c)
    (g : Grows s t) : sub.Sound t c := by
  cases sub with
  | derive target f =>
    exact ⟨h.1.trans_le g.cells, (g.derived _ h.1).trans h.2⟩
  | follow target choose =>
    exact ⟨h.1.trans_le g.cells, (g.derived _ h.1).trans h.2.1,
      fun v inner hi => (h.2.2 v inner hi).trans_le g.cells⟩
  | minus target kind subtrahend =>
    exact ⟨h.1.trans_le g.cells, (g.derived _ h.1).trans h.2.1, h.2.2.trans_le g.cells⟩
  | patch f =>
    obtain ⟨p, hp, hc⟩ := h
    obtain ⟨b, hb⟩ := g.fields f p hp
    exact ⟨_, hb, hc⟩
  | act a => exact Action.Within.mono h g.cells

end Backpatch
