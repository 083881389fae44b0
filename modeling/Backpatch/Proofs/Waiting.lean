import Mathlib
import Backpatch.Proofs.Fields

/-!
# Waiting patches

Every subscriber that comes into a queue gets the next number of its cell, and a placeholder keeps
the number of its patch (`Numbered`). So taking patches back by their numbers removes them, and
nothing else (`Numbered.mem_released`). The patch of a field waits or is about to
run at most once, and not at all once the field is patched (`Once`). All this holds whatever
callbacks do, values taken back included.
-/

namespace Backpatch

open Store Failable

section Queues

variable {s t u : Store} {c d : CellId}

/-- Nothing came into the queue of `c`. -/
def Store.Thins (s t : Store) (c : CellId) : Prop :=
  (t.cell c).queue ⊆ (s.cell c).queue ∧ (t.cell c).next = (s.cell c).next

/-- The subscriber came into the queue of `c`, behind all others. -/
def Store.Pushes (s t : Store) (c : CellId) (sub : Subscriber) : Prop :=
  (t.cell c).queue = (s.cell c).queue ++ [((s.cell c).next, sub)] ∧
    (t.cell c).next = (s.cell c).next + 1

/-- The task may put the subscriber into the queue of `c`. -/
def Task.Queues (s : Store) (c : CellId) (sub : Subscriber) : Task → Prop
  | .move (.attach _ source make) => c = source ∧ sub = make s.cells.size
  | .move (.watch d a) => c = d ∧ sub = .act a
  | .move (.place _ _ d _) => c = d ∧ sub = .patch s.placeholders.size
  | .notify _ (.follow target choose) v => choose v = .ok c ∧ sub = .derive target .ok
  | .notify _ (.minus target kind subtrahend) v =>
    c = subtrahend ∧ sub = .derive s.cells.size (Datum.difference kind v) ∨
      c = s.cells.size ∧ sub = .derive target .ok
  | .act (.watch t a) _ => s.find? t = some c ∧ sub = .act a
  | _ => False

namespace Store.Thins

theorem refl (s : Store) (c : CellId) : s.Thins s c := ⟨fun _ h => h, rfl⟩

theorem of_cell_eq (h : t.cell c = s.cell c) : s.Thins t c := by
  unfold Thins
  rw [h]
  exact refl s c

theorem trans (h : s.Thins t c) (g : t.Thins u c) : s.Thins u c :=
  ⟨fun _ hq => h.1 (g.1 hq), g.2.trans h.2⟩

theorem delivered (s : Store) (d : CellId) (v : Datum) (c : CellId) :
    s.Thins (s.delivered d v) c := by
  unfold Thins
  rw [cell_delivered]
  split_ifs with h
  · obtain ⟨rfl, -⟩ := h
    simp
  · exact refl s c

theorem withdrawn (s : Store) (d : CellId) (id : Nat) (c : CellId) :
    s.Thins (s.withdrawn d id) c := by
  unfold Thins
  rw [cell_withdrawn]
  split_ifs with h
  · obtain ⟨rfl, -⟩ := h
    exact ⟨fun _ hq => List.mem_of_mem_filter hq, rfl⟩
  · exact refl s c

theorem cleared (s : Store) (d : CellId) (c : CellId) : s.Thins (s.cleared d) c := by
  unfold Thins
  rw [cell_cleared]
  split_ifs with h
  · obtain ⟨rfl, -⟩ := h
    exact ⟨fun _ hq => hq, rfl⟩
  · exact refl s c

theorem addCell (s : Store) (kind : Kind) (value : Option Datum) (derived : Bool) (c : CellId) :
    s.Thins (s.addCell { kind, value, derived }) c := by
  unfold Thins
  rw [cell_addCell]
  split_ifs with h
  · subst h
    rw [cell_of_size_le s _ le_rfl]
    exact ⟨by simp, rfl⟩
  · exact refl s c

theorem newDerived (s : Store) (kind : Kind) (value : Option Datum) (c : CellId) :
    s.Thins (s.newDerived kind value) c :=
  addCell ..

theorem fire (s : Store) (d : CellId) (v : Datum) (c : CellId) : s.Thins (s.fire d v).1 c := by
  obtain ⟨w, -, h⟩ | ⟨-, h⟩ := fire_cases s d v
  · rw [h]
    exact refl s c
  · rw [h]
    exact delivered s d v c

/-- What is queued behind others comes into one queue only. -/
theorem enqueue (s : Store) (sub : Subscriber) (h : c ≠ d) : s.Thins (s.enqueue d sub) c :=
  of_cell_eq (by rw [cell_enqueue, if_neg fun hc => h hc.1])

end Store.Thins

theorem Store.Pushes.enqueue (s : Store) (sub : Subscriber) (h : c < s.cells.size) :
    s.Pushes (s.enqueue c sub) c sub := by
  unfold Pushes
  rw [cell_enqueue, if_pos ⟨rfl, h⟩]
  exact ⟨rfl, rfl⟩

theorem Store.Pushes.of_eq {sub : Subscriber} (h : s.cell c = t.cell c) (g : t.Pushes u c sub) :
    s.Pushes u c sub := by
  unfold Pushes
  rw [h]
  exact g

variable {task : Task} {ts k : List Task}

theorem Move.queue_cases {m : Move} (hm : m.Fits s) (c : CellId) :
    s.Thins (m.apply s).1 c ∨ ∃ sub, (Task.move m).Queues s c sub ∧ s.value? c = none ∧
      s.Pushes (m.apply s).1 c sub := by
  cases m with
  | journal | define | run | newImage | append | overwrite => exact .inl (.refl s c)
  | create kind value derived => exact .inl (.addCell s kind value derived c)
  | attach kind source sub =>
    by_cases hc : c = source
    · subst hc
      refine .inr ⟨sub s.cells.size, ⟨rfl, rfl⟩, hm.2.1, .of_eq ?_ (.enqueue _ _ ?_)⟩
      · rw [newDerived, cell_addCell, if_neg (Nat.ne_of_lt hm.1)]
      · simpa using hm.1.trans (Nat.lt_succ_self _)
    · exact .inl ((Thins.newDerived s kind none c).trans (.enqueue _ _ hc))
  | watch d a =>
    by_cases hc : c = d
    · subst hc
      exact .inr ⟨.act a, ⟨rfl, rfl⟩, hm.2.1, .enqueue s _ hm.1⟩
    · exact .inl (.enqueue s _ hc)
  | resolve d v | settle d v => exact .inl (.fire s d v c)
  | unresolve d => exact .inl (.cleared s d c)
  | unsubscribe d id => exact .inl (.withdrawn s d id c)
  | place i format d label =>
    by_cases hc : c = d
    · subst hc
      exact .inr ⟨.patch s.placeholders.size, ⟨rfl, rfl⟩, hm.2.2,
        .enqueue (s.modifyImage i _) _ hm.2.1⟩
    · exact .inl (.enqueue (s.modifyImage i _) _ hc)

/-- What a reaction does to the queue of a cell: it takes subscribers out of it, or puts one at its
end. -/
theorem Reacts.queue_cases (hv : Valid s (task :: k)) (hr : Reacts s task t ts) (c : CellId) :
    s.Thins t c ∨ ∃ sub, task.Queues s c sub ∧ s.value? c = none ∧ s.Pushes t c sub := by
  cases hr with
  | move hm => exact Move.queue_cases hm c
  | refuse | patch | start | log | watch | andThen => exact .inl (.refl s c)
  | derive | follow | assign => exact .inl (.fire s _ _ c)
  | minus => exact .inl ((Thins.newDerived s _ _ c).trans (.fire _ _ _ c))
  | unresolve => exact .inl (.cleared s _ c)
  | unsubscribe => exact .inl (.withdrawn s _ _ c)
  | @followLater _ target choose v inner h hw =>
    by_cases hc : c = inner
    · subst hc
      have hinner := (hv.running _ _ _ (.head k)).2.2 v c h
      exact .inr ⟨_, ⟨h, rfl⟩, hw, .enqueue s _ hinner⟩
    · exact .inl (.enqueue s _ hc)
  | @minusLater _ target kind subtrahend v hy =>
    have hsub : subtrahend < s.cells.size := (hv.running _ _ _ (.head k)).2.2
    by_cases hc : c = subtrahend
    · subst hc
      have hne : c ≠ s.cells.size := Nat.ne_of_lt hsub
      refine .inr ⟨_, .inl ⟨rfl, rfl⟩, hy, ?_⟩
      unfold Pushes
      rw [cell_enqueue, if_neg fun h => hne h.1, cell_enqueue,
        if_pos ⟨rfl, hsub.trans_le (by simp)⟩, newDerived, cell_addCell, if_neg hne]
      exact ⟨rfl, rfl⟩
    · by_cases hsize : c = s.cells.size
      · subst hsize
        refine .inr ⟨_, .inr ⟨rfl, rfl⟩, ?_, ?_⟩
        · rw [value?, cell_of_size_le s _ le_rfl]
        · unfold Pushes
          rw [cell_enqueue, if_pos ⟨rfl, by simp⟩, cell_enqueue, if_neg fun h => hc h.1,
            newDerived, cell_addCell, if_pos rfl, cell_of_size_le s _ le_rfl]
          exact ⟨rfl, rfl⟩
      · exact .inl (((Thins.newDerived s _ none c).trans (.enqueue _ _ hc)).trans
          (.enqueue _ _ hsize))
  | @watchLater t' d a v h hw =>
    by_cases hc : c = d
    · subst hc
      by_cases hsize : c < s.cells.size
      · exact .inr ⟨_, ⟨h, rfl⟩, hw, .enqueue s _ hsize⟩
      · refine .inl (.of_cell_eq ?_)
        rw [cell_enqueue, if_neg fun h => hsize h.2]
    · exact .inl (.enqueue s _ hc)

/-- Only the move that places a field queues a patch, the one of the new field. -/
theorem Reacts.queues_patch (hr : Reacts s task t ts) {f : FieldId}
    (h : task.Queues s c (.patch f)) :
    ∃ i format label, task = .move (.place i format c label) ∧ f = s.placeholders.size := by
  cases task with
  | move m =>
    cases hr with
    | refuse h => exact h.elim
    | move hm =>
      cases m with
      | attach kind source make =>
        have htarget := hm.2.2.1
        rw [← h.2] at htarget
        cases htarget
      | watch => cases h.2
      | place i format d label =>
        obtain ⟨rfl, hf⟩ := h
        exact ⟨i, format, label, rfl, Subscriber.patch.inj hf⟩
      | _ => exact h.elim
  | notify d sub v =>
    cases sub with
    | follow => cases h.2
    | minus => obtain ⟨-, h⟩ | ⟨-, h⟩ := h <;> cases h
    | derive | patch | act => exact h.elim
  | act a v =>
    cases a with
    | watch => cases h.2
    | _ => exact h.elim

end Queues

/-! ## Numbers -/

/-- The numbers in a queue were given out, and that of a placeholder belongs to its patch. -/
structure Numbered (s : Store) : Prop where
  fresh : ∀ c, ∀ q ∈ (s.cell c).queue, q.1 < (s.cell c).next
  issued : ∀ (f : FieldId) (p : Placeholder), s.placeholders[f]? = some p →
    p.subscription < (s.cell p.cell).next
  patches : ∀ c id f, (id, .patch f) ∈ (s.cell c).queue →
    ∃ p, s.placeholders[f]? = some p ∧ p.cell = c ∧ p.subscription = id
  owned : ∀ (f : FieldId) (p : Placeholder) (sub : Subscriber), s.placeholders[f]? = some p →
    (p.subscription, sub) ∈ (s.cell p.cell).queue → sub = .patch f

namespace Numbered

variable {s t : Store} {task : Task} {ts k : List Task}

theorem empty : Numbered {} where
  fresh c q hq := by simp [Store.cell] at hq
  issued := by simp
  patches c id f hq := by simp [Store.cell] at hq
  owned := by simp

theorem step (hv : Valid s (task :: k)) (hr : Reacts s task t ts) (h : Numbered s) :
    Numbered t where
  fresh c q hq := by
    obtain hthin | ⟨sub, -, -, hpush⟩ := hr.queue_cases hv c
    · exact hthin.2 ▸ h.fresh c q (hthin.1 hq)
    · rw [hpush.1] at hq
      rw [hpush.2]
      obtain hq | hq := List.mem_append.1 hq
      · exact (h.fresh c q hq).trans (Nat.lt_succ_self _)
      · obtain rfl := List.mem_singleton.1 hq
        exact Nat.lt_succ_self _
  issued f p hp := by
    have hnext : ∀ c, (s.cell c).next ≤ (t.cell c).next := by
      intro c
      obtain hthin | ⟨sub, -, -, hpush⟩ := hr.queue_cases hv c
      · exact hthin.2.ge
      · exact (Nat.le_succ _).trans hpush.2.ge
    obtain ⟨q, b, hq, rfl⟩ | ⟨i, format, c, label, -, hm, rfl, -, rfl⟩ := hr.placeholder_cases hp
    · exact (h.issued f q hq).trans_le (hnext q.cell)
    · have hpush := Pushes.enqueue (s.modifyImage i (·.append format.placeholder
        ((Format.fixed format).describe none label))) (.patch s.placeholders.size) hm.2.1
      exact Nat.lt_of_lt_of_eq (Nat.lt_succ_self _) hpush.2.symm
  patches c id f hq := by
    have old : (id, .patch f) ∈ (s.cell c).queue →
        ∃ p, t.placeholders[f]? = some p ∧ p.cell = c ∧ p.subscription = id := by
      intro hq
      obtain ⟨p, hp, hc, hid⟩ := h.patches c id f hq
      obtain ⟨b, hb⟩ := hr.grows.fields f p hp
      exact ⟨_, hb, hc, hid⟩
    obtain hthin | ⟨sub, hsub, -, hpush⟩ := hr.queue_cases hv c
    · exact old (hthin.1 hq)
    · rw [hpush.1] at hq
      obtain hq | hq := List.mem_append.1 hq
      · exact old hq
      · cases List.mem_singleton.1 hq
        obtain ⟨i, format, label, rfl, rfl⟩ := hr.queues_patch hsub
        cases hr with
        | refuse h => exact h.elim
        | move => exact ⟨s.nextPlaceholder c i format label, by simp [Move.apply, placed], rfl, rfl⟩
  owned f p sub hp hq := by
    obtain ⟨q, b, hf, rfl⟩ | ⟨i, format, c, label, rfl, hm, rfl, rfl, rfl⟩ :=
      hr.placeholder_cases hp
    · obtain hthin | ⟨sub', -, -, hpush⟩ := hr.queue_cases hv q.cell
      · exact h.owned f q sub hf (hthin.1 hq)
      · change (q.subscription, sub) ∈ (t.cell q.cell).queue at hq
        rw [hpush.1] at hq
        obtain hq | hq := List.mem_append.1 hq
        · exact h.owned f q sub hf hq
        · have hid := (Prod.mk.inj (List.mem_singleton.1 hq)).1
          exact absurd (h.issued f q hf) hid.not_lt
    · change ((s.cell c).next, sub) ∈ ((s.placed c i format label).cell c).queue at hq
      have hold : ((s.cell c).next, sub) ∉ (s.cell c).queue :=
        fun hq => lt_irrefl _ (h.fresh c _ hq)
      obtain hthin | ⟨sub', hsub, -, hpush⟩ := hr.queue_cases hv c
      · exact absurd (hthin.1 hq) hold
      · rw [hpush.1] at hq
        obtain hq | hq := List.mem_append.1 hq
        · exact absurd hq hold
        · cases List.mem_singleton.1 hq
          exact hsub.2

end Numbered

theorem Steps.numbered {P : Move → Prop} {s t : Store} (h : Steps P s t) (hv : Valid s [])
    (hn : Numbered s) : Numbered t :=
  (h.invariant (I := fun s tasks => Valid s tasks ∧ Numbered s)
    (fun _ hi => ⟨hi.1.start _, hi.2⟩)
    (fun hr hi => ⟨Valid.step hr hi.1, Numbered.step hi.1 hr hi.2⟩) ⟨hv, hn⟩).2

/-! ## Taking patches back -/

section Release

variable {s : Store} {ps : List Placeholder}

@[simp] theorem Store.images_released (s : Store) (ps : List Placeholder) :
    (s.released ps).images = s.images := by
  induction ps generalizing s with
  | nil => rfl
  | cons p ps ih => exact ih (s.withdrawn p.cell p.subscription)

@[simp] theorem Store.placeholders_released (s : Store) (ps : List Placeholder) :
    (s.released ps).placeholders = s.placeholders := by
  induction ps generalizing s with
  | nil => rfl
  | cons p ps ih => exact ih (s.withdrawn p.cell p.subscription)

/-- A cell loses the subscribers that have the number of a placeholder of its own. -/
theorem Store.cell_released (s : Store) (ps : List Placeholder) (c : CellId) :
    (s.released ps).cell c = { s.cell c with
      queue := (s.cell c).queue.filter fun q =>
        ps.all fun p => !(p.cell == c && p.subscription == q.1) } := by
  induction ps generalizing s with
  | nil => simp [released]
  | cons p ps ih =>
    refine (ih (s.withdrawn p.cell p.subscription)).trans ?_
    rw [cell_withdrawn]
    split_ifs with hc
    · obtain ⟨rfl, -⟩ := hc
      simp only [Cell.remove, List.filter_filter, List.all_cons, beq_self_eq_true, Bool.true_and]
      congr 2
      funext q
      rw [Bool.and_comm, bne, Bool.beq_comm]
    · by_cases hp : p.cell = c
      · have hsize : s.cells.size ≤ c := by
          rw [← hp]
          exact Nat.le_of_not_lt fun h => hc ⟨hp.symm, h⟩
        simp [cell_of_size_le s c hsize]
      · have hne : (p.cell == c) = false := by simpa using hp
        simp [hne]

@[simp] theorem Store.value?_released (s : Store) (ps : List Placeholder) (c : CellId) :
    (s.released ps).value? c = s.value? c := by
  rw [value?, cell_released]
  rfl

/-- Taking the patches of fields back removes these patches and nothing else. -/
theorem Numbered.mem_released (h : Numbered s) (first last : Nat) {c : CellId}
    {q : Nat × Subscriber} :
    q ∈ ((s.released (s.placeholders.extract first last).toList).cell c).queue ↔
      q ∈ (s.cell c).queue ∧ ∀ f : Nat, first ≤ f → f < last → q.2 ≠ .patch f := by
  rw [cell_released]
  simp only [List.mem_filter, and_congr_right_iff, List.all_eq_true, Bool.not_eq_true',
    Bool.and_eq_false_iff, beq_eq_false_iff_ne]
  intro hq
  constructor
  · intro hall f hfirst hlast hf
    obtain ⟨p, hp, hc, hid⟩ := h.patches c q.1 f (by rw [← hf]; exact hq)
    have hmem : p ∈ (s.placeholders.extract first last).toList := by
      refine List.mem_of_getElem? (i := f - first) ?_
      rw [Array.getElem?_toList, Array.getElem?_extract, if_pos, Nat.add_sub_cancel' hfirst, hp]
      have := (Array.getElem?_eq_some_iff.1 hp).1
      omega
    obtain hne | hne := hall p hmem
    · exact hne hc
    · exact hne hid
  · intro hnone p hp
    obtain ⟨f, hf⟩ := List.getElem?_of_mem hp
    rw [Array.getElem?_toList, Array.getElem?_extract] at hf
    split_ifs at hf with hlt
    rw [← not_and_or]
    rintro ⟨rfl, hid⟩
    refine hnone (first + f) (by omega) (by omega) (h.owned (first + f) p q.2 hf ?_)
    rw [hid]
    exact hq

end Release

/-! ## One patch for each field -/

/-- One if the subscriber is the patch of `f`. -/
def Subscriber.patches (f : FieldId) : Subscriber → Nat
  | .patch g => if g = f then 1 else 0
  | .derive .. | .follow .. | .minus .. | .act _ => 0

/-- The patch of a field waits or is about to run at most once, and only until it is done. -/
structure Once (s : Store) (tasks : List Task) : Prop where
  single : ∀ f, s.count (Subscriber.patches f) tasks ≤ 1
  unpatched : ∀ (f : FieldId) (p : Placeholder), s.placeholders[f]? = some p →
    p.patched = true → s.count (Subscriber.patches f) tasks = 0

section Once

variable {s t : Store} {task : Task} {ts k : List Task} {f : FieldId}

theorem Subscriber.Sound.patches_eq {sub : Subscriber} {c : CellId} (h : sub.Sound s c)
    (hf : s.placeholders.size ≤ f) : sub.patches f = 0 := by
  cases sub with
  | patch g =>
    obtain ⟨p, hp, -⟩ := h
    have hg := (Array.getElem?_eq_some_iff.1 hp).1
    exact if_neg (Nat.ne_of_lt (hg.trans_le hf))
  | derive | follow | minus | act => rfl

/-- A field that does not exist has no patch. -/
theorem Valid.patches_of_size_le (h : Valid s k) (hf : s.placeholders.size ≤ f) :
    s.count (Subscriber.patches f) k = 0 := by
  rw [count, total_eq_zero s _ fun c q hq => (h.queues c q hq).patches_eq hf, Nat.zero_add,
    List.sum_eq_zero_iff]
  intro n hn
  obtain ⟨task, htask, rfl⟩ := List.mem_map.1 hn
  cases task with
  | move | act => rfl
  | notify c sub v => exact (h.running c sub v htask).patches_eq hf

theorem Reacts.gain_patches (hr : Reacts s task t ts) (f : FieldId) :
    task.gain s (Subscriber.patches f) ≤ if s.placeholders.size = f then 1 else 0 := by
  cases task with
  | move m =>
    cases hr with
    | refuse h => exact h.elim
    | move hm =>
      cases m with
      | attach kind source make =>
        have htarget := hm.2.2.1
        cases hsub : make s.cells.size with
        | patch => simp [hsub, Subscriber.target?] at htarget
        | derive | follow | minus | act => simp [Task.gain, hsub, Subscriber.patches]
      | _ => simp [Task.gain, Subscriber.patches]
  | notify d sub v => cases sub <;> simp [Task.gain, Subscriber.patches]
  | act a v => cases a <;> simp [Task.gain, Subscriber.patches]

theorem Reacts.patches_le (hr : Reacts s task t ts) (hf : f ≠ s.placeholders.size) :
    t.count (Subscriber.patches f) (ts ++ k) ≤ s.count (Subscriber.patches f) k := by
  have hcount := hr.count_le (Subscriber.patches f) k
  have hgain := hr.gain_patches f
  rw [if_neg hf.symm] at hgain
  omega

theorem Once.empty : Once {} [] where
  single f := by simp [count, total]
  unpatched := by simp

theorem Once.start (h : Once s []) (m : Move) : Once s [.move m] := ⟨h.single, h.unpatched⟩

/-- The field whose patch is about to run is not patched, and has no other patch. -/
theorem Once.patch {c : CellId} {v : Datum} (h : Once s (.notify c (.patch f) v :: k)) :
    s.count (Subscriber.patches f) k = 0 ∧
      ∀ p, s.placeholders[f]? = some p → p.patched = false := by
  have hone : Task.measure (Subscriber.patches f) (.notify c (.patch f) v) = 1 := if_pos rfl
  constructor
  · have hsingle := h.single f
    rw [count_cons, hone] at hsingle
    omega
  · intro p hp
    by_contra hpatched
    have hzero := h.unpatched f p hp (by simpa using hpatched)
    rw [count_cons, hone] at hzero
    omega

theorem Once.step (hv : Valid s (task :: k)) (hr : Reacts s task t ts) (h : Once s (task :: k)) :
    Once t (ts ++ k) where
  single f := by
    by_cases hf : f = s.placeholders.size
    · have hcount := hr.count_le (Subscriber.patches f) k
      have hgain := hr.gain_patches f
      have hzero := hv.patches_of_size_le hf.ge
      rw [count_cons] at hzero
      split_ifs at hgain <;> omega
    · have hle := hr.patches_le (k := k) hf
      have hsingle := h.single f
      rw [count_cons] at hsingle
      omega
  unpatched f p hp hpatched := by
    obtain hp | ⟨c, v, q, rfl, hq, -⟩ := hr.patched hp hpatched
    · have hlt := (Array.getElem?_eq_some_iff.1 hp).1
      have hle := hr.patches_le (k := k) (Nat.ne_of_lt hlt)
      have hzero := h.unpatched f p hp hpatched
      rw [count_cons] at hzero
      omega
    · have hlt := (Array.getElem?_eq_some_iff.1 hq).1
      have hle := hr.patches_le (k := k) (Nat.ne_of_lt hlt)
      rw [h.patch.1] at hle
      omega

end Once

theorem Steps.once {P : Move → Prop} {s t : Store} (h : Steps P s t) (hv : Valid s [])
    (ho : Once s []) : Once t [] :=
  (h.invariant (I := fun s tasks => Valid s tasks ∧ Once s tasks)
    (fun _ hi => ⟨hi.1.start _, hi.2.start _⟩)
    (fun hr hi => ⟨Valid.step hr hi.1, Once.step hi.1 hr hi.2⟩) ⟨hv, ho⟩).2

end Backpatch
