import Mathlib
import Backpatch.Proofs.Growth

/-!
# Valid stores

A store is `Valid`, together with the tasks that are still to run in it, when everything that waits
refers to things that exist, no derived cell is driven by two subscribers, and the fields of an
image stand inside of it and apart from each other. Every reaction keeps a store valid.
-/

namespace Backpatch

open Store

/-- One if the subscriber is going to settle `t`. -/
def Subscriber.drives (t : CellId) (sub : Subscriber) : Nat :=
  if sub.target? = some t then 1 else 0

def Task.drives (t : CellId) : Task → Nat
  | .notify _ sub _ => sub.drives t
  | .move _ | .act .. => 0

/-- The number of subscribers, waiting or about to run, that are going to settle `t`. -/
def Store.drivers (s : Store) (tasks : List Task) (t : CellId) : Nat :=
  s.total (Subscriber.drives t) + (tasks.map (Task.drives t)).sum

/-- The measure of the subscriber that a task runs. -/
def Task.measure (w : Subscriber → Nat) : Task → Nat
  | .notify _ sub _ => w sub
  | .move _ | .act .. => 0

/-- The sum of a measure over the subscribers that wait or are about to run. -/
def Store.count (s : Store) (w : Subscriber → Nat) (tasks : List Task) : Nat :=
  s.total w + (tasks.map (Task.measure w)).sum

/-- The measure of what a task may put into queues. -/
def Task.gain (s : Store) (w : Subscriber → Nat) : Task → Nat
  | .move (.attach _ _ sub) => w (sub s.cells.size)
  | .move (.watch _ a) | .act (.watch _ a) _ => w (.act a)
  | .move (.place ..) => w (.patch s.placeholders.size)
  | .notify _ (.follow target _) _ => w (.derive target .ok)
  | .notify _ (.minus target kind _) v =>
    w (.derive s.cells.size (Datum.difference kind v)) + w (.derive target .ok)
  | _ => 0

/-- A store and the tasks that are still to run fit together. -/
structure Valid (s : Store) (tasks : List Task) : Prop where
  load : s.load ≤ s.issued
  names : ∀ p ∈ s.names, p.2 < s.cells.size
  subscriptions : ∀ p ∈ s.subscriptions, p.2.cell < s.cells.size
  queues : ∀ c, ∀ q ∈ (s.cell c).queue, q.2.Sound s c
  running : ∀ c sub v, .notify c sub v ∈ tasks → sub.Sound s c
  acting : ∀ a v, .act a v ∈ tasks → a.Within s.cells.size
  driven : ∀ t, s.drivers tasks t ≤ 1
  fields : ∀ (f : FieldId) (p : Placeholder), s.placeholders[f]? = some p →
    p.image < s.images.size ∧ p.cell < s.cells.size ∧
      p.offset + p.width ≤ (s.image p.image).size
  apart : ∀ (f g : FieldId) (p q : Placeholder), f < g → s.placeholders[f]? = some p →
    s.placeholders[g]? = some q → p.image = q.image → p.offset + p.width ≤ q.offset

theorem Valid.empty : Valid {} [] where
  load := le_rfl
  names := by simp
  subscriptions := by simp
  queues c q hq := by simp [Store.cell] at hq
  running := by simp
  acting := by simp
  driven t := by simp [Store.drivers, Store.total]
  fields := by simp
  apart := by simp

section Steps

variable {s t : Store} {task : Task} {ts k : List Task}

/-! ## Counting subscribers -/

theorem Store.count_cons (s : Store) (w : Subscriber → Nat) (task : Task) (k : List Task) :
    s.count w (task :: k) = task.measure w + s.count w k := by
  simp only [count, List.map_cons, List.sum_cons]
  omega

theorem Store.count_fire (s : Store) (w : Subscriber → Nat) (d : CellId) (v : Datum)
    (k : List Task) : (s.fire d v).1.count w ((s.fire d v).2 ++ k) = s.count w k := by
  obtain ⟨x, -, h⟩ | ⟨-, h⟩ := fire_cases s d v
  · simp [h]
  · have htotal := total_delivered s d v w
    have hqueue : ((s.cell d).queue.map fun q => Task.measure w (.notify d q.2 v)).sum =
        (s.cell d).total w := rfl
    simp only [h, count, List.map_append, List.sum_append, List.map_map, Function.comp_def]
    omega

theorem Store.count_enqueue_le (s : Store) (w : Subscriber → Nat) (d : CellId) (sub : Subscriber)
    (k : List Task) : (s.enqueue d sub).count w k ≤ s.count w k + w sub := by
  have := total_enqueue_le s d sub w
  simp only [count]
  omega

theorem Store.count_newDerived (s : Store) (w : Subscriber → Nat) (kind : Kind)
    (value : Option Datum) (k : List Task) :
    (s.newDerived kind value).count w k = s.count w k := by
  simp [count]

theorem Store.count_withdrawn_le (s : Store) (w : Subscriber → Nat) (d : CellId) (id : Nat)
    (k : List Task) : (s.withdrawn d id).count w k ≤ s.count w k :=
  Nat.add_le_add_right (total_withdrawn_le s d w id) _

theorem Store.count_cleared (s : Store) (w : Subscriber → Nat) (d : CellId) (k : List Task) :
    (s.cleared d).count w k = s.count w k := by
  simp [count]

theorem Move.count_le {m : Move} (w : Subscriber → Nat) (k : List Task) :
    (m.apply s).1.count w ((m.apply s).2 ++ k) ≤ s.count w k + (Task.move m).gain s w := by
  cases m with
  | journal | define | newImage | append | overwrite => exact Nat.le_add_right (s.count w k) _
  | run i a v => exact (count_cons s w (.act a v) k).le.trans (by simp [Task.measure])
  | create kind value derived => simp [Move.apply, count, total_addCell, Cell.total]
  | attach kind source sub =>
    have := count_enqueue_le (s.newDerived kind none) w source (sub s.cells.size) k
    rwa [count_newDerived] at this
  | watch d a => exact count_enqueue_le s w d (.act a) k
  | resolve d v | settle d v => exact (count_fire s w d v k).le.trans (Nat.le_add_right ..)
  | unresolve d => exact (count_cleared s w d k).le.trans (Nat.le_add_right ..)
  | unsubscribe d id => exact (count_withdrawn_le s w d id k).trans (Nat.le_add_right ..)
  | place i format d label =>
    exact count_enqueue_le (s.modifyImage i (·.append format.placeholder
      ((Format.fixed format).describe none label))) w d (.patch s.placeholders.size) k

/-- Nothing comes to wait or to run but what the task queues. -/
theorem Reacts.count_le (hr : Reacts s task t ts) (w : Subscriber → Nat) (k : List Task) :
    t.count w (ts ++ k) ≤ s.count w k + task.gain s w := by
  cases hr with
  | move => exact Move.count_le w k
  | refuse | patch | log => exact Nat.le_add_right (s.count w k) _
  | derive | follow | assign => exact (count_fire s w _ _ k).le.trans (Nat.le_add_right ..)
  | followLater => exact count_enqueue_le s w _ _ k
  | minus =>
    rw [count_fire, count_newDerived]
    exact Nat.le_add_right ..
  | @minusLater _ target kind subtrahend v _ =>
    have h₁ := count_enqueue_le (s.newDerived (.int kind) none) w subtrahend
      (.derive s.cells.size (Datum.difference kind v)) k
    have h₂ := count_enqueue_le ((s.newDerived (.int kind) none).enqueue subtrahend
      (.derive s.cells.size (Datum.difference kind v))) w s.cells.size (.derive target .ok) k
    rw [count_newDerived] at h₁
    simp only [List.nil_append, Task.gain]
    omega
  | start | watch | andThen =>
    simp only [count_cons, Task.measure, List.cons_append, List.nil_append]
    omega
  | unresolve => exact (count_cleared s w _ k).le.trans (Nat.le_add_right ..)
  | watchLater => exact count_enqueue_le s w _ _ k
  | unsubscribe => exact (count_withdrawn_le s w _ _ k).trans (Nat.le_add_right ..)

/-! ## Drivers -/

theorem Subscriber.drives_of_some {sub : Subscriber} {target : CellId} (c : CellId)
    (h : sub.target? = some target) : sub.drives c = if target = c then 1 else 0 := by
  simp [Subscriber.drives, h]

theorem Store.drivers_eq_count (s : Store) (tasks : List Task) (c : CellId) :
    s.drivers tasks c = s.count (Subscriber.drives c) tasks := by
  have hdrives : Task.drives c = Task.measure (Subscriber.drives c) := by
    funext task
    cases task <;> rfl
  rw [drivers, count, hdrives]

theorem Store.drivers_cons (s : Store) (task : Task) (k : List Task) (c : CellId) :
    s.drivers (task :: k) c = task.drives c + s.drivers k c := by
  simp only [drivers, List.map_cons, List.sum_cons]
  omega

/-- What a task queues settles the cell that the task was to settle, or one that is new. -/
theorem Reacts.gain_drives (hr : Reacts s task t ts) (c : CellId) :
    task.gain s (Subscriber.drives c) ≤ task.drives c + if s.cells.size = c then 1 else 0 := by
  cases task with
  | move m =>
    cases hr with
    | refuse h => exact h.elim
    | move hm =>
      cases m with
      | attach kind source sub =>
        simp only [Task.gain, Task.drives, Subscriber.drives_of_some c hm.2.2.1]
        omega
      | _ => simp [Task.gain, Subscriber.drives, Subscriber.target?]
  | notify d sub v =>
    cases sub with
    | follow | minus =>
      simp only [Task.gain, Task.drives, Subscriber.drives, Subscriber.target?, Option.some.injEq]
      omega
    | derive | patch | act => exact Nat.zero_le _
  | act a v => cases a <;> simp [Task.gain, Subscriber.drives, Subscriber.target?]

/-- A cell that a task makes may get a driver along with it; no other cell gets one more. -/
theorem Reacts.drivers_le (h : Reacts s task t ts) (k : List Task) (c : CellId) :
    t.drivers (ts ++ k) c ≤ s.drivers (task :: k) c + if s.cells.size = c then 1 else 0 := by
  have hcount := h.count_le (Subscriber.drives c) k
  have hgain := h.gain_drives c
  rw [drivers_cons]
  simp only [drivers_eq_count] at *
  omega

theorem Store.total_eq_zero (s : Store) (w : Subscriber → Nat)
    (h : ∀ c, ∀ q ∈ (s.cell c).queue, w q.2 = 0) : s.total w = 0 := by
  rw [total, List.sum_eq_zero_iff]
  intro n hn
  obtain ⟨e, he, rfl⟩ := List.mem_map.1 hn
  obtain ⟨c, hc⟩ := List.getElem?_of_mem he
  rw [Cell.total, List.sum_eq_zero_iff]
  intro n hn
  obtain ⟨q, hq, rfl⟩ := List.mem_map.1 hn
  exact h c q (by simpa [cell, ← Array.getElem?_toList, hc] using hq)

theorem Subscriber.Sound.target_lt {sub : Subscriber} {c target : CellId} (h : sub.Sound s c)
    (ht : sub.target? = some target) : target < s.cells.size := by
  cases sub with
  | derive | follow | minus =>
    obtain rfl := Option.some.inj ht
    exact h.1
  | patch | act => simp [Subscriber.target?] at ht

/-- Nothing drives a cell that is not the target of any sound subscriber. -/
theorem Valid.drivers_eq_zero (h : Valid s k) {c : CellId}
    (hc : ∀ d (sub : Subscriber), sub.Sound s d → sub.target? ≠ some c) : s.drivers k c = 0 := by
  have hdrives : ∀ d (sub : Subscriber), sub.Sound s d → sub.drives c = 0 :=
    fun d sub hsound => if_neg (hc d sub hsound)
  rw [drivers, total_eq_zero s _ fun d q hq => hdrives d q.2 (h.queues d q hq), Nat.zero_add,
    List.sum_eq_zero_iff]
  intro n hn
  obtain ⟨task, htask, rfl⟩ := List.mem_map.1 hn
  cases task with
  | move | act => rfl
  | notify d sub v => exact hdrives d sub (h.running d sub v htask)

/-- Nothing drives a cell that does not exist. -/
theorem Valid.drivers_of_size_le (h : Valid s k) {c : CellId} (hc : s.cells.size ≤ c) :
    s.drivers k c = 0 :=
  h.drivers_eq_zero fun _ _ hsound ht => Nat.not_lt.2 hc (hsound.target_lt ht)

theorem Valid.driven_step (h : Valid s (task :: k)) (hr : Reacts s task t ts) (c : CellId) :
    t.drivers (ts ++ k) c ≤ 1 := by
  have hle := hr.drivers_le k c
  have hdriven := h.driven c
  by_cases hc : s.cells.size = c
  · have := h.drivers_of_size_le (c := c) hc.le
    rw [if_pos hc] at hle
    omega
  · rw [if_neg hc] at hle
    omega

/-! ## Handles -/

theorem Move.Queues.sound {m : Move} {c : CellId} {sub : Subscriber} (h : m.Queues s c sub)
    (hm : m.Fits s) : sub.Sound (m.apply s).1 c := by
  cases m with
  | attach =>
    obtain ⟨rfl, rfl⟩ := h
    exact hm.2.2.2.mono (.enqueue ..)
  | watch =>
    obtain ⟨rfl, rfl⟩ := h
    exact Action.Within.mono hm.2.2 (size_enqueue ..).ge
  | place i format d label =>
    obtain ⟨rfl, rfl⟩ := h
    exact ⟨s.nextPlaceholder c i format label, by simp [Move.apply, placed], rfl⟩
  | _ => exact h.elim

theorem Valid.queues_step (h : Valid s (task :: k)) (hr : Reacts s task t ts) (c : CellId)
    (q : Nat × Subscriber) (hq : q ∈ (t.cell c).queue) : q.2.Sound t c := by
  have g := hr.grows
  have old : q ∈ (s.cell c).queue → q.2.Sound t c := fun hq => (h.queues c q hq).mono g
  cases hr with
  | move hm =>
    obtain hq | hqueues := Move.mem_queue hq
    · exact old hq
    · exact hqueues.sound hm
  | refuse | patch | start | log | watch | andThen => exact old hq
  | derive | follow | assign => exact old (mem_queue_fire _ _ _ _ hq)
  | minus => exact old (mem_queue_addCell _ _ (mem_queue_fire _ _ _ _ hq))
  | unresolve => exact old (mem_queue_cleared _ _ _ hq)
  | unsubscribe => exact old (mem_queue_withdrawn _ _ _ hq)
  | followLater =>
    obtain hq | ⟨rfl, hsub⟩ := mem_queue_enqueue _ _ _ _ hq
    · exact old hq
    · have hs := (h.running _ _ _ (.head k)).mono g
      rw [hsub]
      exact ⟨hs.1, hs.2.1⟩
  | minusLater =>
    obtain hq | ⟨rfl, hsub⟩ := mem_queue_enqueue _ _ _ _ hq
    · obtain hq | ⟨rfl, hsub⟩ := mem_queue_enqueue _ _ _ _ hq
      · exact old (mem_queue_addCell _ _ hq)
      · rw [hsub]
        exact ⟨by simp, by simp [newDerived, cell_addCell]⟩
    · have hs := (h.running _ _ _ (.head k)).mono g
      rw [hsub]
      exact ⟨hs.1, hs.2.1⟩
  | watchLater =>
    obtain hq | ⟨rfl, hsub⟩ := mem_queue_enqueue _ _ _ _ hq
    · exact old hq
    · rw [hsub]
      exact Action.Within.mono (h.acting _ _ (.head k)).2 g.cells

theorem Action.hereditary_within (n : Nat) : Hereditary (Action.Within n) :=
  ⟨fun _ _ h => h.2, fun _ _ h => h⟩

theorem Valid.acting_step (h : Valid s (task :: k)) (hr : Reacts s task t ts) {a : Action}
    {v : Datum} (ha : .act a v ∈ ts) : a.Within s.cells.size := by
  have acts : ∀ c (sub : Subscriber), sub.Sound s c → sub.Acts (Action.Within s.cells.size) := by
    intro c sub hsound
    cases sub with
    | derive | follow | minus | patch => trivial
    | act => exact hsound
  have htask : task.Acts (Action.Within s.cells.size) := by
    cases task with
    | act a v => exact h.acting a v (.head k)
    | notify c sub v => exact acts c sub (h.running c sub v (.head k))
    | move m =>
      cases hr with
      | refuse hr => exact hr.elim
      | move hm =>
        cases m with
        | watch => exact hm.2.2
        | run => exact hm.2
        | _ => trivial
  exact hr.acts (Action.hereditary_within _) htask (fun c q hq => acts c q.2 (h.queues c q hq)) _ ha

theorem Valid.names_step (h : Valid s (task :: k)) (hr : Reacts s task t ts) :
    (∀ p ∈ t.names, p.2 < t.cells.size) ∧ ∀ p ∈ t.subscriptions, p.2.cell < t.cells.size := by
  have g := hr.grows
  have old : t.names = s.names → t.subscriptions = s.subscriptions →
      (∀ p ∈ t.names, p.2 < t.cells.size) ∧ ∀ p ∈ t.subscriptions, p.2.cell < t.cells.size := by
    intro hn hs
    rw [hn, hs]
    exact ⟨fun p hp => (h.names p hp).trans_le g.cells,
      fun p hp => (h.subscriptions p hp).trans_le g.cells⟩
  cases hr with
  | @move m hm =>
    cases m with
    | define => exact hm
    | resolve | settle => exact old (fire_names ..) (fire_subscriptions ..)
    | journal | create | attach | watch | run | unresolve | unsubscribe | newImage | append
    | place | overwrite => exact old rfl rfl
  | derive | follow | assign => exact old (fire_names ..) (fire_subscriptions ..)
  | minus => exact old (fire_names (s.newDerived ..) ..) (fire_subscriptions (s.newDerived ..) ..)
  | refuse | followLater | minusLater | patch | start | log | unresolve | watch | watchLater
  | unsubscribe | andThen => exact old rfl rfl

/-! ## Fields -/

/-- The only task that makes a placeholder is the move that places a field. -/
theorem Reacts.new_placeholder (hr : Reacts s task t ts) {f : FieldId} {p : Placeholder}
    (hp : t.placeholders[f]? = some p) (hf : s.placeholders.size ≤ f) :
    ∃ i format c label, task = .move (.place i format c label) ∧
      Move.Fits s (.place i format c label) ∧ t = s.placed c i format label ∧
      f = s.placeholders.size ∧ p = s.nextPlaceholder c i format label := by
  have same : t.placeholders.size ≤ s.placeholders.size → False := by
    intro h
    exact Nat.not_lt.2 (h.trans hf) (Array.getElem?_eq_some_iff.1 hp).1
  cases hr with
  | @move m hm =>
    cases m with
    | place i format c label =>
      simp only [Move.apply, placed, Array.getElem?_push] at hp
      split_ifs at hp with h
      · exact ⟨i, format, c, label, rfl, hm, rfl, h, (Option.some.inj hp).symm⟩
      · exact absurd (Array.getElem?_eq_some_iff.1 hp).1 (Nat.not_lt.2 hf)
    | resolve | settle => exact (same (by simp [Move.apply])).elim
    | journal | define | create | attach | watch | run | unresolve | unsubscribe | newImage
    | append | overwrite => exact (same le_rfl).elim
  | derive | follow | assign => exact (same (by simp)).elim
  | minus => exact (same (congrArg Array.size (fire_placeholders (s.newDerived ..) ..)).le).elim
  | patch => exact (same (by simp [patched])).elim
  | refuse | followLater | minusLater | start | log | unresolve | watch | watchLater
  | unsubscribe | andThen => exact (same le_rfl).elim

/-- A placeholder was there before, or it is new. -/
theorem Reacts.placeholder_cases (hr : Reacts s task t ts) {f : FieldId} {p : Placeholder}
    (hp : t.placeholders[f]? = some p) :
    (∃ (q : Placeholder) (b : Bool), s.placeholders[f]? = some q ∧
      p = { q with patched := q.patched || b }) ∨
    ∃ i format c label, task = .move (.place i format c label) ∧
      Move.Fits s (.place i format c label) ∧ t = s.placed c i format label ∧
      f = s.placeholders.size ∧ p = s.nextPlaceholder c i format label := by
  rcases Nat.lt_or_ge f s.placeholders.size with hf | hf
  · obtain ⟨b, hb⟩ := hr.grows.fields f _ (Array.getElem?_eq_getElem hf)
    exact .inl ⟨_, b, Array.getElem?_eq_getElem hf, Option.some.inj (hp.symm.trans hb)⟩
  · exact .inr (hr.new_placeholder hp hf)

theorem Store.size_image_placed (s : Store) (c : CellId) (i : ImageId) (format : FixedFormat)
    (label : Option String) (hi : i < s.images.size) :
    ((s.placed c i format label).image i).size = (s.image i).size + format.width := by
  change ((s.modifyImage i _).image i).size = _
  rw [image_modifyImage, if_pos ⟨rfl, hi⟩]
  simp

theorem Valid.fields_step (h : Valid s (task :: k)) (hr : Reacts s task t ts) (f : FieldId)
    (p : Placeholder) (hp : t.placeholders[f]? = some p) :
    p.image < t.images.size ∧ p.cell < t.cells.size ∧
      p.offset + p.width ≤ (t.image p.image).size := by
  have g := hr.grows
  obtain ⟨q, b, hq, rfl⟩ | ⟨i, format, c, label, -, hm, rfl, -, rfl⟩ := hr.placeholder_cases hp
  · obtain ⟨hi, hc, ho⟩ := h.fields f q hq
    exact ⟨hi.trans_le g.images, hc.trans_le g.cells, ho.trans (g.sizes q.image)⟩
  · exact ⟨hm.1.trans_le g.images, hm.2.1.trans_le g.cells,
      (size_image_placed s c i format label hm.1).ge⟩

theorem Valid.apart_step (h : Valid s (task :: k)) (hr : Reacts s task t ts) (f g : FieldId)
    (p q : Placeholder) (hfg : f < g) (hp : t.placeholders[f]? = some p)
    (hq : t.placeholders[g]? = some q) (hi : p.image = q.image) :
    p.offset + p.width ≤ q.offset := by
  obtain ⟨q', b', hq', rfl⟩ | ⟨i, format, c, label, -, hm, rfl, hg, rfl⟩ := hr.placeholder_cases hq
  · obtain ⟨p', b, hp', rfl⟩ | ⟨i, format, c, label, -, -, -, hf, -⟩ := hr.placeholder_cases hp
    · exact h.apart f g p' q' hfg hp' hq' hi
    · rw [hf] at hfg
      exact absurd (Array.getElem?_eq_some_iff.1 hq').1 (Nat.not_lt.2 hfg.le)
  · -- The new field stands behind everything in its image.
    obtain ⟨p', b, hp', rfl⟩ | ⟨i', format', c', label', -, -, -, hf, -⟩ := hr.placeholder_cases hp
    · have := (h.fields f p' hp').2.2
      rw [show p'.image = i from hi] at this
      exact this
    · exact absurd hfg (by rw [hf, hg]; exact lt_irrefl _)

/-- Every reaction keeps a store valid. -/
theorem Valid.step (hr : Reacts s task t ts) (h : Valid s (task :: k)) : Valid t (ts ++ k) where
  load := hr.load_le h.load
  names := (h.names_step hr).1
  subscriptions := (h.names_step hr).2
  queues := h.queues_step hr
  running c sub v hm := by
    obtain hm | hm := List.mem_append.1 hm
    · obtain ⟨⟨q, hq, rfl⟩, -⟩ := hr.notified hm
      exact (h.queues c q hq).mono hr.grows
    · exact (h.running c sub v (.tail _ hm)).mono hr.grows
  acting a v hm := by
    obtain hm | hm := List.mem_append.1 hm
    · exact (h.acting_step hr hm).mono hr.grows.cells
    · exact (h.acting a v (.tail _ hm)).mono hr.grows.cells
  driven := h.driven_step hr
  fields := h.fields_step hr
  apart := h.apart_step hr

end Steps

end Backpatch
