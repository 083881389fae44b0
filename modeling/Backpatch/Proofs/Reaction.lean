import Mathlib
import Backpatch.Proofs.Handles
import Backpatch.Proofs.Store

/-!
# Moves, tasks and reactions

Operations change a store by moves. A move may give a cell its value, which sets the queue of the
cell off, and the subscribers in it may settle further cells. A `Task` is a move, a subscriber or
an action that is to be carried out. `Reacts` says once what a task can do: how the store changes,
and which tasks take its place. A `Cascade` works through a list of tasks until none is left.
-/

namespace Backpatch

/-- The changes that operations make from outside. -/
inductive Move where
  | journal (log : Array LogEntry) (trace : Array Event) (reports : Array Report)
  | define (names : List (String × CellId)) (subscriptions : List (String × Subscription))
  | create (kind : Kind) (value : Option Datum) (derived : Bool)
  /-- Makes a derived cell that waits for `source`; the subscriber depends on the new cell. -/
  | attach (kind : Kind) (source : CellId) (sub : CellId → Subscriber)
  | watch (c : CellId) (a : Action)
  | run (c : CellId) (a : Action) (v : Datum)
  /-- Gives a cell that is not derived its value. -/
  | resolve (c : CellId) (v : Datum)
  /-- Gives a cell the offset of its mark or the digest of its range. -/
  | settle (c : CellId) (v : Datum)
  | unresolve (c : CellId)
  | unsubscribe (c : CellId) (id : Nat)
  | newImage
  | append (i : ImageId) (bs : Bytes) (note : Note)
  /-- Writes a placeholder and queues its patch. -/
  | place (i : ImageId) (format : FixedFormat) (c : CellId) (label : Option String)
  | overwrite (i : ImageId) (offset : Nat) (bs : Bytes) (note : Note)

/-- What is to be done. -/
inductive Task where
  | move (m : Move)
  /-- A subscriber that waited for `source` runs with its value. -/
  | notify (source : CellId) (sub : Subscriber) (v : Datum)
  | act (a : Action) (v : Datum)

/-- The cell that an action gives a value from outside, and the value. -/
def Action.assigns? (s : Store) (v : Datum) : Action → Option (CellId × Datum)
  | .forward t => (s.find? t).map (·, v)
  | .resolve t w | .confirm t w =>
    (s.find? t).bind fun c => (w.read (s.kind c)).map (c, ·)
  | _ => none

namespace Store

/-- Settles a cell, unless it has a value: the value is stored and the queue becomes tasks. -/
def fire (s : Store) (c : CellId) (v : Datum) : Store × List Task :=
  match s.value? c with
  | some _ => (s, [])
  | none => (s.delivered c v, (s.cell c).queue.map fun q => .notify c q.2 v)

variable (s : Store) (c d : CellId) (v : Datum)

theorem fire_cases : (∃ w, s.value? c = some w ∧ s.fire c v = (s, [])) ∨
    s.value? c = none ∧
      s.fire c v = (s.delivered c v, (s.cell c).queue.map fun q => .notify c q.2 v) := by
  unfold fire
  cases s.value? c with
  | some w => exact .inl ⟨w, rfl, rfl⟩
  | none => exact .inr ⟨rfl, rfl⟩

@[simp] theorem fire_images : (s.fire c v).1.images = s.images := by
  unfold fire
  split <;> rfl

@[simp] theorem fire_placeholders : (s.fire c v).1.placeholders = s.placeholders := by
  unfold fire
  split <;> rfl

@[simp] theorem fire_names : (s.fire c v).1.names = s.names := by
  unfold fire
  split <;> rfl

@[simp] theorem fire_subscriptions : (s.fire c v).1.subscriptions = s.subscriptions := by
  unfold fire
  split <;> rfl

@[simp] theorem fire_issued : (s.fire c v).1.issued = s.issued := by
  unfold fire
  split <;> rfl

@[simp] theorem size_fire : (s.fire c v).1.cells.size = s.cells.size := by
  unfold fire
  split <;> simp

@[simp] theorem derived_fire : ((s.fire c v).1.cell d).derived = (s.cell d).derived := by
  unfold fire
  split <;> simp

theorem mem_queue_fire {q : Nat × Subscriber} (h : q ∈ ((s.fire c v).1.cell d).queue) :
    q ∈ (s.cell d).queue := by
  unfold fire at h
  split at h
  · exact h
  · exact mem_queue_delivered s c d v h

/-- What settling a cell sets off was waiting for it, and runs with the value that it now has. -/
theorem mem_fire {task : Task} (h : task ∈ (s.fire c v).2) :
    ∃ q ∈ (s.cell c).queue, task = .notify c q.2 v ∧ (s.fire c v).1.value? c = some v := by
  obtain ⟨w, -, hf⟩ | ⟨-, hf⟩ := fire_cases s c v
  · simp [hf] at h
  · rw [hf] at h ⊢
    obtain ⟨q, hq, rfl⟩ := List.mem_map.1 h
    refine ⟨q, hq, rfl, ?_⟩
    rw [value?_delivered s c c v (lt_size_of_queue s c hq), if_pos rfl]

/-- The store after the field `f`, which is `p`, was overwritten with the bytes of `v`. -/
def patched (f : FieldId) (p : Placeholder) (bs : Bytes) : Store :=
  { s.modifyImage p.image
      (·.replace p.offset bs ((Format.fixed p.format).describe (some v) p.label)) with
    placeholders := s.placeholders.modify f fun p => { p with patched := true } }

/-- The placeholder that is written next for a field of the cell `c`. -/
def nextPlaceholder (i : ImageId) (format : FixedFormat) (label : Option String) : Placeholder :=
  { image := i, offset := (s.image i).size, format, label, cell := c,
    subscription := (s.cell c).next }

/-- The store after a placeholder was appended to an image and its patch queued. -/
def placed (i : ImageId) (format : FixedFormat) (label : Option String) : Store :=
  { (s.modifyImage i (·.append format.placeholder
      ((Format.fixed format).describe none label))).enqueue c (.patch s.placeholders.size) with
    placeholders := s.placeholders.push (s.nextPlaceholder c i format label) }

end Store

/-- The store that a move leaves, and the tasks that it sets off. -/
def Move.apply (s : Store) : Move → Store × List Task
  | journal log trace reports => ({ s with log, trace, reports }, [])
  | define names subscriptions => ({ s with names, subscriptions }, [])
  | create kind value derived => (s.addCell { kind, value, derived }, [])
  | attach kind source sub => ((s.newDerived kind none).enqueue source (sub s.cells.size), [])
  | watch c a => (s.enqueue c (.act a), [])
  | run _ a v => (s, [.act a v])
  | resolve c v => s.fire c v
  | settle c v => s.fire c v
  | unresolve c => (s.cleared c, [])
  | unsubscribe c id => (s.withdrawn c id, [])
  | newImage => ({ s with images := s.images.push {} }, [])
  | append i bs note => (s.modifyImage i (·.append bs note), [])
  | place i format c label => (s.placed c i format label, [])
  | overwrite i offset bs note => (s.modifyImage i (·.replace offset bs note), [])

/-- The handles of a move exist, and what it takes for granted about them holds. -/
def Move.Fits (s : Store) : Move → Prop
  | journal .. | create .. | newImage => True
  | define names subscriptions =>
    (∀ p ∈ names, p.2 < s.cells.size) ∧ ∀ p ∈ subscriptions, p.2.cell < s.cells.size
  | attach kind source sub => source < s.cells.size ∧ s.value? source = none ∧
    (sub s.cells.size).target? = some s.cells.size ∧
    (sub s.cells.size).Sound (s.newDerived kind none) source
  | watch c a => c < s.cells.size ∧ s.value? c = none ∧ a.Within s.cells.size
  | run c a v => s.value? c = some v ∧ a.Within s.cells.size
  | resolve c _ => c < s.cells.size ∧ (s.cell c).derived = false
  | settle c _ | unresolve c | unsubscribe c _ => c < s.cells.size
  | append i _ _ => i < s.images.size
  | place i _ c _ => i < s.images.size ∧ c < s.cells.size ∧ s.value? c = none
  | overwrite i offset bs _ => i < s.images.size ∧ offset + bs.length ≤ (s.image i).size

open Store

/-- Tasks that end without any effect. An action may be given up at any time, since it may fail or
stand behind one that failed. -/
def Task.Refused (s : Store) : Task → Prop
  | .move _ | .notify _ (.act _) _ => False
  | .notify _ (.derive _ f) v => ∃ e, f v = .error e
  | .notify _ (.follow _ choose) v => ∃ e, choose v = .error e
  | .notify _ (.minus _ kind subtrahend) v =>
    ∃ w e, s.value? subtrahend = some w ∧ Datum.difference kind v w = .error e
  | .notify _ (.patch field) v => ∀ p bs, s.placeholders[field]? = some p →
      p.format.encode v = .ok bs → (s.image p.image).size < p.offset + bs.length
  | .act _ _ => True

/-- What a task does: it leaves a store, and tasks that run next. -/
inductive Reacts (s : Store) : Task → Store → List Task → Prop where
  | move {m : Move} (h : m.Fits s) : Reacts s (.move m) (m.apply s).1 (m.apply s).2
  | refuse {task} (h : task.Refused s) : Reacts s task s []
  | derive {source target f v w} (h : f v = .ok w) :
      Reacts s (.notify source (.derive target f) v) (s.fire target w).1 (s.fire target w).2
  | follow {source target choose v inner w} (h : choose v = .ok inner)
      (hw : s.value? inner = some w) :
      Reacts s (.notify source (.follow target choose) v) (s.fire target w).1 (s.fire target w).2
  | followLater {source target choose v inner} (h : choose v = .ok inner)
      (hw : s.value? inner = none) :
      Reacts s (.notify source (.follow target choose) v)
        (s.enqueue inner (.derive target .ok)) []
  | minus {source target kind subtrahend v y w} (hy : s.value? subtrahend = some y)
      (h : Datum.difference kind v y = .ok w) :
      Reacts s (.notify source (.minus target kind subtrahend) v)
        ((s.newDerived (.int kind) (some w)).fire target w).1
        ((s.newDerived (.int kind) (some w)).fire target w).2
  | minusLater {source target kind subtrahend v} (hy : s.value? subtrahend = none) :
      Reacts s (.notify source (.minus target kind subtrahend) v)
        (((s.newDerived (.int kind) none).enqueue subtrahend
          (.derive s.cells.size (Datum.difference kind v))).enqueue s.cells.size
            (.derive target .ok)) []
  | patch {source field v p bs} (hp : s.placeholders[field]? = some p)
      (h : p.format.encode v = .ok bs) (hr : p.offset + bs.length ≤ (s.image p.image).size) :
      Reacts s (.notify source (.patch field) v) (s.patched v field p bs) []
  | start {source a v} : Reacts s (.notify source (.act a) v) s [.act a v]
  | log {a v} (entry : LogEntry) : Reacts s (.act a v) (s.logged entry) []
  | assign {a v c w} (h : a.assigns? s v = some (c, w)) (hd : (s.cell c).derived = false) :
      Reacts s (.act a v) (s.fire c w).1 (s.fire c w).2
  | unresolve {t c v} (h : s.find? t = some c) : Reacts s (.act (.unresolve t) v) (s.cleared c) []
  | watch {t c a v w} (h : s.find? t = some c) (hw : s.value? c = some w) :
      Reacts s (.act (.watch t a) v) s [.act a w]
  | watchLater {t c a v} (h : s.find? t = some c) (hw : s.value? c = none) :
      Reacts s (.act (.watch t a) v) (s.enqueue c (.act a)) []
  | unsubscribe {name sub v} (h : s.subscriptions.lookup name = some sub) (entry : LogEntry) :
      Reacts s (.act (.unsubscribe name) v) ((s.withdrawn sub.cell sub.id).logged entry) []
  | andThen {a b v} : Reacts s (.act (.andThen a b) v) s [.act a v, .act b v]

/-- Runs all tasks, and the tasks that come of them, in order. -/
inductive Cascade : Store → List Task → Store → Prop where
  | nil (s : Store) : Cascade s [] s
  | cons {s task t ts k u} (h : Reacts s task t ts) (rest : Cascade t (ts ++ k) u) :
      Cascade s (task :: k) u

namespace Cascade

variable {s t u : Store} {task : Task} {ts k : List Task}

theorem append (h : Cascade s ts t) (g : Cascade t k u) : Cascade s (ts ++ k) u := by
  induction h with
  | nil => exact g
  | cons h _ ih => exact .cons h (by simpa using ih g)

theorem single (h : Reacts s task t ts) (g : Cascade t ts u) : Cascade s [task] u :=
  .cons h (by simpa using g)

theorem done (h : Reacts s task t []) : Cascade s [task] t := single h (.nil t)

/-- What every reaction keeps, whatever else is on the list, holds after a cascade. -/
theorem invariant {I : Store → List Task → Prop}
    (step : ∀ {s task t ts k}, Reacts s task t ts → I s (task :: k) → I t (ts ++ k))
    (h : Cascade s ts t) (hi : I s ts) : I t [] := by
  induction h with
  | nil => exact hi
  | cons h _ ih => exact ih (step h hi)

end Cascade

/-! ## What is set off -/

section SetOff

variable {s t : Store} {task : Task} {ts : List Task}

/-- A subscriber that is to run next was waiting, and the cell that it waited for has its value. -/
theorem Reacts.notified (hr : Reacts s task t ts) {c : CellId} {sub : Subscriber} {v : Datum}
    (h : .notify c sub v ∈ ts) : (∃ q ∈ (s.cell c).queue, q.2 = sub) ∧ t.value? c = some v := by
  have fired : ∀ {s : Store} {d w}, .notify c sub v ∈ (s.fire d w).2 →
      (∃ q ∈ (s.cell c).queue, q.2 = sub) ∧ (s.fire d w).1.value? c = some v := by
    intro s d w h
    obtain ⟨q, hq, he, hv⟩ := mem_fire s d w h
    cases he
    exact ⟨⟨q, hq, rfl⟩, hv⟩
  cases hr with
  | @move m _ =>
    cases m with
    | resolve | settle => exact fired h
    | journal | define | create | attach | watch | run | unresolve | unsubscribe | newImage
    | append | place | overwrite => simp [Move.apply] at h
  | derive | follow | assign => exact fired h
  | minus =>
    obtain ⟨⟨q, hq, hsub⟩, hv⟩ := fired h
    exact ⟨⟨q, mem_queue_addCell _ _ hq, hsub⟩, hv⟩
  | refuse | followLater | minusLater | patch | start | log | unresolve | watch | watchLater
  | unsubscribe | andThen => simp at h

/-- The parts of an action have the property if the whole has it. -/
structure Hereditary (A : Action → Prop) : Prop where
  watch : ∀ t a, A (.watch t a) → A a
  andThen : ∀ a b, A (.andThen a b) → A a ∧ A b

def Subscriber.Acts (A : Action → Prop) : Subscriber → Prop
  | .act a => A a
  | .derive .. | .follow .. | .minus .. | .patch _ => True

/-- The actions that a task carries out or queues have the property. -/
def Task.Acts (A : Action → Prop) : Task → Prop
  | .act a _ | .move (.run _ a _) | .move (.watch _ a) => A a
  | .notify _ sub _ => sub.Acts A
  | .move _ => True

theorem Subscriber.acts_of_target {A : Action → Prop} {sub : Subscriber} {target : CellId}
    (h : sub.target? = some target) : sub.Acts A := by
  cases sub with
  | derive | follow | minus | patch => trivial
  | act => simp [Subscriber.target?] at h

variable {A : Action → Prop}

/-- The move puts the subscriber into the queue of the cell `c`. -/
def Move.Queues (s : Store) (c : CellId) (sub : Subscriber) : Move → Prop
  | .attach _ source make => c = source ∧ sub = make s.cells.size
  | .watch d a => c = d ∧ sub = .act a
  | .place _ _ d _ => c = d ∧ sub = .patch s.placeholders.size
  | _ => False

theorem Move.mem_queue {m : Move} {c : CellId} {q : Nat × Subscriber}
    (hq : q ∈ ((m.apply s).1.cell c).queue) : q ∈ (s.cell c).queue ∨ m.Queues s c q.2 := by
  cases m with
  | journal | define | run | newImage | append | overwrite => exact .inl hq
  | create => exact .inl (mem_queue_addCell s c hq)
  | attach kind source sub =>
    obtain hq | ⟨hc, hsub⟩ := mem_queue_enqueue _ source c _ hq
    · exact .inl (mem_queue_addCell s c hq)
    · exact .inr ⟨hc, hsub⟩
  | watch d a => exact mem_queue_enqueue _ d c _ hq
  | resolve d v | settle d v => exact .inl (mem_queue_fire s d c v hq)
  | unresolve d => exact .inl (mem_queue_cleared s d c hq)
  | unsubscribe d id => exact .inl (mem_queue_withdrawn s d c hq)
  | place i format d label =>
    exact mem_queue_enqueue (s.modifyImage i (·.append format.placeholder
      ((Format.fixed format).describe none label))) d c _ hq

theorem Move.Queues.acts {m : Move} {c : CellId} {sub : Subscriber} (h : m.Queues s c sub)
    (hm : m.Fits s) (ha : (Task.move m).Acts A) : sub.Acts A := by
  cases m with
  | attach =>
    rw [h.2]
    exact Subscriber.acts_of_target hm.2.2.1
  | watch =>
    rw [h.2]
    exact ha
  | place =>
    rw [h.2]
    trivial
  | _ => exact h.elim

/-- Actions that come into a queue are parts of what the task carries out. -/
theorem Reacts.acts_queue (hr : Reacts s task t ts) (hA : Hereditary A) (h : task.Acts A)
    {c : CellId} {q : Nat × Subscriber} (hq : q ∈ (t.cell c).queue) :
    q ∈ (s.cell c).queue ∨ q.2.Acts A := by
  cases hr with
  | move hm => exact (Move.mem_queue hq).imp_right fun hqueues => hqueues.acts hm h
  | refuse | patch | start | log | watch | andThen => exact .inl hq
  | derive | follow | assign => exact .inl (mem_queue_fire _ _ _ _ hq)
  | minus => exact .inl (mem_queue_addCell _ _ (mem_queue_fire _ _ _ _ hq))
  | unresolve => exact .inl (mem_queue_cleared _ _ _ hq)
  | unsubscribe => exact .inl (mem_queue_withdrawn _ _ _ hq)
  | followLater =>
    obtain hq | ⟨-, hsub⟩ := mem_queue_enqueue _ _ _ _ hq
    · exact .inl hq
    · rw [hsub]
      exact .inr trivial
  | minusLater =>
    obtain hq | ⟨-, hsub⟩ := mem_queue_enqueue _ _ _ _ hq
    · obtain hq | ⟨-, hsub⟩ := mem_queue_enqueue _ _ _ _ hq
      · exact .inl (mem_queue_addCell _ _ hq)
      · rw [hsub]
        exact .inr trivial
    · rw [hsub]
      exact .inr trivial
  | watchLater =>
    obtain hq | ⟨-, hsub⟩ := mem_queue_enqueue _ _ _ _ hq
    · exact .inl hq
    · rw [hsub]
      exact .inr (hA.watch _ _ h)

/-- The actions that are set off were waiting, or are parts of what the task carries out. -/
theorem Reacts.acts (hr : Reacts s task t ts) (hA : Hereditary A) (h : task.Acts A)
    (hs : ∀ c, ∀ q ∈ (s.cell c).queue, q.2.Acts A) : ∀ x ∈ ts, x.Acts A := by
  have fired : ∀ {d w}, ∀ x ∈ (s.fire d w).2, x.Acts A := by
    intro d w x hx
    obtain ⟨q, hq, rfl, -⟩ := mem_fire s d w hx
    exact hs d q hq
  cases hr with
  | @move m _ =>
    cases m with
    | resolve | settle => exact fired
    | run => exact List.forall_mem_singleton.2 h
    | journal | define | create | attach | watch | unresolve | unsubscribe | newImage | append
    | place | overwrite => simp [Move.apply]
  | derive | follow | assign => exact fired
  | minus =>
    intro x hx
    obtain ⟨q, hq, rfl, -⟩ := mem_fire _ _ _ hx
    exact hs _ q (mem_queue_addCell _ _ hq)
  | refuse | followLater | minusLater | patch | log | unresolve | watchLater | unsubscribe => simp
  | start => exact List.forall_mem_singleton.2 h
  | watch => exact List.forall_mem_singleton.2 (hA.watch _ _ h)
  | andThen => exact List.forall_mem_cons.2 ⟨(hA.andThen _ _ h).1,
      List.forall_mem_singleton.2 (hA.andThen _ _ h).2⟩

end SetOff

/-! ## Weight -/

section Weight

variable {s t : Store} {task : Task} {ts : List Task}

theorem Store.load_fire_le (s : Store) (c : CellId) (v : Datum) : (s.fire c v).1.load ≤ s.load := by
  unfold fire
  split
  · rfl
  · have := load_delivered s c v
    simp only
    omega

theorem Move.load_le (m : Move) (h : s.load ≤ s.issued) :
    (m.apply s).1.load ≤ (m.apply s).1.issued := by
  cases m with
  | journal | define | run | newImage | append | overwrite => exact h
  | create kind value derived => exact (total_addCell s Subscriber.weight _).le.trans h
  | attach kind source sub =>
    have := load_enqueue_le (s.newDerived kind none) source (sub s.cells.size)
    rw [load_newDerived] at this
    exact this.trans (Nat.add_le_add_right h _)
  | watch c a => exact (load_enqueue_le s c (.act a)).trans (Nat.add_le_add_right h _)
  | resolve c v | settle c v =>
    simp only [Move.apply, fire_issued]
    exact (load_fire_le s c v).trans h
  | unresolve c => exact (load_cleared s c).le.trans h
  | unsubscribe c id => exact (load_withdrawn_le s c id).trans h
  | place i format c label =>
    exact (load_enqueue_le (s.modifyImage i _) c _).trans (Nat.add_le_add_right h _)

theorem Reacts.load_le (h : Reacts s task t ts) (hl : s.load ≤ s.issued) : t.load ≤ t.issued := by
  cases h with
  | move => exact Move.load_le _ hl
  | refuse | start | log | watch | patch | andThen => exact hl
  | derive | follow | assign =>
    rw [fire_issued]
    exact (load_fire_le ..).trans hl
  | followLater | watchLater =>
    exact (load_enqueue_le ..).trans (Nat.add_le_add_right hl _)
  | minus =>
    rw [fire_issued]
    exact (load_fire_le ..).trans ((load_newDerived ..).le.trans hl)
  | @minusLater _ _ kind subtrahend v _ =>
    have h₁ := load_enqueue_le (s.newDerived (.int kind) none) subtrahend
      (.derive s.cells.size (Datum.difference kind v))
    rw [load_newDerived] at h₁
    exact (load_enqueue_le ..).trans (Nat.add_le_add_right
      (h₁.trans (Nat.add_le_add_right hl _)) _)
  | unresolve => exact (load_cleared ..).le.trans hl
  | unsubscribe => exact (load_withdrawn_le ..).trans hl

/-- What was issued bounds what is waiting, also after a cascade. -/
theorem Cascade.load_le (h : Cascade s ts t) (hl : s.load ≤ s.issued) : t.load ≤ t.issued :=
  h.invariant (I := fun s _ => s.load ≤ s.issued) (fun hr hl => hr.load_le hl) hl

end Weight

end Backpatch
