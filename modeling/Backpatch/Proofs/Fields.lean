import Mathlib
import Backpatch.Proofs.Lasting

/-!
# Fields and fixed bytes

Of all reactions only a few draw on images: patches and four moves. Bytes outside of all fields stay
as they were written (`Fixed`), as long as no one writes over them directly, and where values last a
patched field holds the bytes of the value of its cell (`Filled`).
-/

namespace Backpatch

open Store

/-- The move changes an image. -/
def Move.Draws : Move → Prop
  | .newImage | .append .. | .place .. | .overwrite .. => True
  | _ => False

section

variable {s t : Store} {task : Task} {ts k : List Task} {i : ImageId} {f : FieldId}

/-- What a reaction does to images and placeholders: nothing, or it is a patch or a drawing move. -/
theorem Reacts.draws (hr : Reacts s task t ts) :
    (t.images = s.images ∧ t.placeholders = s.placeholders) ∨
    (∃ c f v p bs, task = .notify c (.patch f) v ∧ s.placeholders[f]? = some p ∧
      p.format.encode v = .ok bs ∧ p.offset + bs.length ≤ (s.image p.image).size ∧
      t = s.patched v f p bs) ∨
    ∃ m, task = .move m ∧ m.Draws ∧ m.Fits s ∧ t = (m.apply s).1 := by
  cases hr with
  | @move m hm =>
    cases m with
    | newImage | append | place | overwrite => exact .inr (.inr ⟨_, rfl, trivial, hm, rfl⟩)
    | resolve | settle => exact .inl ⟨fire_images .., fire_placeholders ..⟩
    | journal | define | create | attach | watch | run | unresolve | unsubscribe =>
      exact .inl ⟨rfl, rfl⟩
  | patch hp he hr => exact .inr (.inl ⟨_, _, _, _, _, rfl, hp, he, hr, rfl⟩)
  | derive | follow | assign => exact .inl ⟨fire_images .., fire_placeholders ..⟩
  | minus => exact .inl ⟨fire_images (s.newDerived ..) .., fire_placeholders (s.newDerived ..) ..⟩
  | refuse | followLater | minusLater | start | log | unresolve | watch | watchLater | unsubscribe
  | andThen => exact .inl ⟨rfl, rfl⟩

theorem Store.image_patched (s : Store) (v : Datum) (f : FieldId) (p : Placeholder) (bs : Bytes)
    (j : ImageId) : (s.patched v f p bs).image j =
      if j = p.image ∧ p.image < s.images.size then
        (s.image p.image).replace p.offset bs ((Format.fixed p.format).describe (some v) p.label)
      else s.image j :=
  image_modifyImage ..

theorem Store.image_placed (s : Store) (c : CellId) (i j : ImageId) (format : FixedFormat)
    (label : Option String) : (s.placed c i format label).image j =
      if j = i ∧ i < s.images.size then
        (s.image i).append format.placeholder ((Format.fixed format).describe none label)
      else s.image j :=
  image_modifyImage ..

theorem Store.image_newImage (s : Store) (j : ImageId) :
    ({ s with images := s.images.push {} } : Store).image j = s.image j := by
  simp only [image, Array.getElem?_push]
  split_ifs with h
  · simp [h]
  · rfl

/-- A slice inside of an image that no patch touches stays as it is. -/
theorem Reacts.slice_eq (hr : Reacts s task t ts) {a n : Nat} (ha : a + n ≤ (s.image i).size)
    (ho : ∀ o bs note, task ≠ .move (.overwrite i o bs note))
    (hp : ∀ c f v p, task = .notify c (.patch f) v → s.placeholders[f]? = some p → p.image = i →
      a + n ≤ p.offset ∨ p.offset + p.width ≤ a) :
    (t.image i).slice a n = (s.image i).slice a n := by
  obtain ⟨hi, -⟩ | ⟨c, f, v, p, bs, rfl, hf, he, hb, rfl⟩ | ⟨m, rfl, hd, hm, rfl⟩ := hr.draws
  · rw [image, hi, image]
  · rw [image_patched]
    split_ifs with hj
    · obtain ⟨rfl, -⟩ := hj
      have hapart := hp c f v p rfl hf rfl
      rw [Placeholder.width, ← FixedFormat.length_encode he] at hapart
      exact Image.slice_replace_apart _ _ _ _ _ _ hb hapart
    · rfl
  · cases m with
    | newImage => exact congrArg (·.slice a n) (image_newImage s i)
    | append j bs note =>
      simp only [Move.apply, image_modifyImage]
      split_ifs with hj
      · rw [← hj.1]
        exact Image.slice_append _ _ _ _ _ ha
      · rfl
    | place j format c label =>
      simp only [Move.apply, image_placed]
      split_ifs with hj
      · rw [← hj.1]
        exact Image.slice_append _ _ _ _ _ ha
      · rfl
    | overwrite j o bs note =>
      simp only [Move.apply, image_modifyImage]
      split_ifs with hj
      · exact absurd rfl (hj.1 ▸ ho o bs note)
      · rfl
    | journal | define | create | attach | watch | run | resolve | settle | unresolve
    | unsubscribe => exact hd.elim

/-- The bytes `bs` stand at `a`, and no field has a byte in common with them. -/
structure Fixed (s : Store) (i : ImageId) (a : Nat) (bs : Bytes) : Prop where
  inside : a + bs.length ≤ (s.image i).size
  bytes : (s.image i).slice a bs.length = bs
  clear : ∀ (f : FieldId) (p : Placeholder), s.placeholders[f]? = some p → p.image = i →
    a + bs.length ≤ p.offset ∨ p.offset + p.width ≤ a

theorem Fixed.step {a : Nat} {bs : Bytes} (hr : Reacts s task t ts)
    (ho : ∀ o bs note, task ≠ .move (.overwrite i o bs note)) (h : Fixed s i a bs) :
    Fixed t i a bs where
  inside := h.inside.trans (hr.grows.sizes i)
  bytes := (hr.slice_eq h.inside ho fun _ f _ p _ => h.clear f p).trans h.bytes
  clear f p hp hpi := by
    obtain ⟨q, b, hq, rfl⟩ | ⟨j, format, c, label, -, -, -, -, rfl⟩ := hr.placeholder_cases hp
    · exact h.clear f q hq hpi
    · obtain rfl : j = i := hpi
      exact .inl h.inside

/-- A field that is patched was so before, or the reaction patched it. -/
theorem Reacts.patched (hr : Reacts s task t ts) {p : Placeholder}
    (hp : t.placeholders[f]? = some p) (hpatched : p.patched = true) :
    s.placeholders[f]? = some p ∨
    ∃ c v q, task = .notify c (.patch f) v ∧ s.placeholders[f]? = some q ∧
      p = { q with patched := true } := by
  obtain ⟨-, heq⟩ | ⟨c, g, v, q, bs, rfl, hq, -, -, rfl⟩ | ⟨m, rfl, hd, hm, rfl⟩ := hr.draws
  · exact .inl (heq ▸ hp)
  · change (s.placeholders.modify g fun p => { p with patched := true })[f]? = some p at hp
    rw [Array.getElem?_modify] at hp
    split_ifs at hp with hg
    · subst hg
      rw [hq] at hp
      exact .inr ⟨c, v, q, rfl, hq, (Option.some.inj hp).symm⟩
    · exact .inl hp
  · cases m with
    | newImage | append | overwrite => exact .inl hp
    | place j format c label =>
      simp only [Move.apply, placed, Array.getElem?_push] at hp
      split_ifs at hp with hf
      · obtain rfl := Option.some.inj hp
        simp [nextPlaceholder] at hpatched
      · exact .inl hp
    | journal | define | create | attach | watch | run | resolve | settle | unresolve
    | unsubscribe => exact hd.elim

/-- The fields of an image, from the field `first` on, hold the values of their cells as soon as
they are patched. -/
def Filled (s : Store) (i : ImageId) (first : FieldId) : Prop :=
  ∀ (f : FieldId) (p : Placeholder), first ≤ f → s.placeholders[f]? = some p → p.image = i →
    p.patched = true → ∃ v bs, s.value? p.cell = some v ∧ p.format.encode v = .ok bs ∧
      (s.image i).slice p.offset p.width = bs

/-- A patch writes the value of the cell of its field. -/
theorem Lasting.patch_value {c : CellId} {v : Datum} {p : Placeholder}
    (h : Lasting s (.notify c (.patch f) v :: k)) (hp : s.placeholders[f]? = some p) :
    s.value? p.cell = some v := by
  obtain ⟨q, hq, rfl⟩ := h.running c (.patch f) v (.head k)
  obtain rfl : p = q := Option.some.inj (hp.symm.trans hq)
  exact h.values _ _ _ (.head k)

theorem Filled.step {first : FieldId} (hl : Lasting s (task :: k)) (hr : Reacts s task t ts)
    (ho : ∀ o bs note, task ≠ .move (.overwrite i o bs note)) (h : Filled s i first) :
    Filled t i first := by
  intro f p hf hp hpi hpatched
  -- Either the field is being patched, or its bytes stay as they are.
  by_cases htask : ∃ c v, task = .notify c (.patch f) v
  · obtain ⟨c, v, rfl⟩ := htask
    obtain ⟨hi, hph⟩ | ⟨c', g, v', q, bs, htask, hq, he, hb, rfl⟩ | ⟨m, hm, -⟩ := hr.draws
    · rw [hph] at hp
      obtain ⟨w, bs, hw, he, hbytes⟩ := h f p hf hp hpi hpatched
      exact ⟨w, bs, hl.value?_step hr hw, he, by rwa [image, hi]⟩
    · cases htask
      have hp' : (s.placeholders.modify f fun p => { p with patched := true })[f]? = some p := hp
      rw [Array.getElem?_modify, if_pos rfl, hq] at hp'
      obtain rfl : { q with patched := true } = p := Option.some.inj hp'
      obtain rfl : q.image = i := hpi
      have hv := hl.value?_step hr (hl.patch_value hq)
      refine ⟨v, bs, hv, he, ?_⟩
      have hlength : q.width = bs.length := (FixedFormat.length_encode he).symm
      rw [image_patched, if_pos ⟨rfl, (hl.fields f q hq).1⟩]
      change ((s.image q.image).replace q.offset bs _).slice q.offset q.width = bs
      rw [hlength]
      exact Image.slice_replace _ _ _ _ hb
    · cases hm
  · obtain hp' | ⟨c, v, q, hpatch, -⟩ := hr.patched hp hpatched
    · obtain ⟨w, bs, hw, he, hbytes⟩ := h f p hf hp' hpi hpatched
      refine ⟨w, bs, hl.value?_step hr hw, he, ?_⟩
      have hinside := (hl.fields f p hp').2.2
      rw [hpi] at hinside
      rw [hr.slice_eq hinside ho, hbytes]
      -- A patch of another field of the image stands apart.
      intro c g v q hpatch hq hqi
      have hfg : f ≠ g := fun hfg => htask ⟨c, v, hfg ▸ hpatch⟩
      obtain hfg | hgf := Nat.lt_or_gt_of_ne hfg
      · exact .inl (hl.apart f g p q hfg hp' hq (hpi.trans hqi.symm))
      · exact .inr (hl.apart g f q p hgf hq hp' (hqi.trans hpi.symm))
    · exact absurd ⟨c, v, hpatch⟩ htask

end

end Backpatch
