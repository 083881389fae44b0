import Mathlib
import Backpatch.Proofs.Lasting

/-!
# Links

A derived cell is linked to its sources. At first a subscriber that is to settle it waits in a queue
or is about to run (`Pends`); no other subscriber will settle it. When the subscriber has run, the
cell has its value, or is never going to have one (`Undriven`), or is linked to another cell in turn.
Every reaction keeps links, as long as cells are only made and resolved.
-/

namespace Backpatch

open Store

/-- The move makes a cell or resolves one from outside. -/
def Move.Orderly : Move → Prop
  | .create .. | .attach .. | .resolve .. => True
  | _ => False

/-- A lasting store without callbacks, in which cells are only made and resolved. -/
structure Orderly (s : Store) (tasks : List Task) : Prop extends Lasting s tasks where
  noneWaits : ∀ c, ∀ q ∈ (s.cell c).queue, q.2.Acts fun _ => False
  noneActs : ∀ x ∈ tasks, x.Acts fun _ => False
  orderly : ∀ m, .move m ∈ tasks → m.Orderly

section Steps

variable {s u : Store} {task : Task} {ts k : List Task}

theorem Orderly.empty : Orderly {} [] :=
  { Lasting.empty with
    noneWaits := fun c q hq => by simp [Store.cell] at hq
    noneActs := by simp
    orderly := by simp }

theorem Move.Orderly.lasting {m : Move} (h : m.Orderly) : m.Lasting := by
  cases m <;> trivial

theorem Orderly.start {m : Move} (hm : m.Orderly) (h : Orderly s []) : Orderly s [.move m] :=
  { h.toLasting.start hm.lasting with
    noneWaits := h.noneWaits
    noneActs := by
      intro x hx
      obtain rfl := List.mem_singleton.1 hx
      cases m <;> trivial
    orderly := by
      intro m' hx
      cases List.mem_singleton.1 hx
      exact hm }

theorem Orderly.step (hr : Reacts s task u ts) (h : Orderly s (task :: k)) : Orderly u (ts ++ k) :=
  have hA : Hereditary fun _ => False := ⟨fun _ _ => id, fun _ _ => False.elim⟩
  { Lasting.step hr h.toLasting with
    noneWaits := fun c q hq =>
      (hr.acts_queue hA (h.noneActs task (.head k)) hq).elim (h.noneWaits c q) id
    noneActs := fun x hx => by
      obtain hx | hx := List.mem_append.1 hx
      · exact hr.acts hA (h.noneActs task (.head k)) h.noneWaits x hx
      · exact h.noneActs x (.tail _ hx)
    orderly := fun m hm => h.orderly m (hr.move_mem hm) }

/-! ## Cells that wait -/

theorem Store.cell_fire_of_ne (s : Store) (w : Datum) {c d : CellId} (h : c ≠ d) :
    (s.fire d w).1.cell c = s.cell c := by
  obtain ⟨x, -, hf⟩ | ⟨-, hf⟩ := fire_cases s d w
  · rw [hf]
  · rw [hf, cell_delivered, if_neg fun hc => h hc.1]

theorem Store.cell_newDerived_of_lt (s : Store) (kind : Kind) (value : Option Datum) {c : CellId}
    (h : c < s.cells.size) : (s.newDerived kind value).cell c = s.cell c := by
  rw [newDerived, cell_addCell, if_neg (Nat.ne_of_lt h)]

theorem Store.mem_queue_enqueue_of_mem (s : Store) (d : CellId) (sub : Subscriber) {c : CellId}
    {q : Nat × Subscriber} (h : q ∈ (s.cell c).queue) : q ∈ ((s.enqueue d sub).cell c).queue := by
  rw [cell_enqueue]
  split_ifs with hc
  · rw [← hc.1]
    exact List.mem_append_left _ h
  · exact h

theorem Store.mem_queue_enqueue_self (s : Store) (sub : Subscriber) {c : CellId}
    (h : c < s.cells.size) : ∃ id, (id, sub) ∈ ((s.enqueue c sub).cell c).queue := by
  rw [cell_enqueue, if_pos ⟨rfl, h⟩]
  exact ⟨(s.cell c).next, List.mem_append_right _ (.head _)⟩

theorem Store.value?_fire_self (s : Store) (w : Datum) {c : CellId} (hc : c < s.cells.size)
    (hv : s.value? c = none) : (s.fire c w).1.value? c = some w := by
  obtain ⟨x, hx, -⟩ | ⟨-, hf⟩ := fire_cases s c w
  · simp [hv] at hx
  · rw [hf, value?_delivered s c c w hc, if_pos rfl]

theorem Task.target_ne {c t target : CellId} {sub : Subscriber} {v : Datum}
    (hs : sub.target? = some target) (h : (Task.notify c sub v).drives t = 0) : t ≠ target := by
  rintro rfl
  simp [Task.drives, Subscriber.drives, hs] at h

/-- A derived cell stays pending as long as no subscriber that is to settle it runs. -/
theorem Orderly.pending_step (h : Orderly s (task :: k)) (hr : Reacts s task u ts) {t : CellId}
    (ht : t < s.cells.size) (hd : (s.cell t).derived = true) (hv : s.value? t = none)
    (hdrives : task.drives t = 0) : u.value? t = none := by
  have new : ∀ kind value, (s.newDerived kind value).value? t = none := by
    intro kind value
    rwa [value?, cell_newDerived_of_lt s kind value ht]
  cases hr with
  | @move m hm =>
    cases m with
    | create kind value derived =>
      change (s.addCell _).value? t = none
      rwa [value?_addCell, if_neg (Nat.ne_of_lt ht)]
    | attach kind source sub =>
      change ((s.newDerived kind none).enqueue source _).value? t = none
      rw [value?_enqueue]
      exact new kind none
    | resolve d w =>
      have hne : t ≠ d := by
        rintro rfl
        simp [hm.2] at hd
      change (s.fire d w).1.value? t = none
      rwa [value?, cell_fire_of_ne s w hne]
    | _ => exact (h.orderly _ (.head k)).elim
  | refuse | patch => exact hv
  | derive | follow =>
    rwa [value?, cell_fire_of_ne s _ (Task.target_ne rfl hdrives)]
  | followLater => rwa [value?_enqueue]
  | minus =>
    rw [value?, cell_fire_of_ne _ _ (Task.target_ne rfl hdrives)]
    exact new ..
  | minusLater =>
    rw [value?_enqueue, value?_enqueue]
    exact new ..
  | start => exact (h.noneActs _ (.head k)).elim
  | log | assign | unresolve | watch | watchLater | unsubscribe | andThen =>
    exact (h.noneActs _ (.head k)).elim

theorem Store.queue_fire (s : Store) {c : CellId} (d : CellId) (w : Datum) {q : Nat × Subscriber}
    (hq : q ∈ (s.cell c).queue) (hv : s.value? c = none) :
    (q ∈ ((s.fire d w).1.cell c).queue ∧ (s.fire d w).1.value? c = none) ∨
      ∃ v, .notify c q.2 v ∈ (s.fire d w).2 := by
  by_cases hd : c = d
  · subst hd
    obtain ⟨x, hx, -⟩ | ⟨-, hf⟩ := fire_cases s c w
    · simp [hv] at hx
    · rw [hf]
      exact .inr ⟨w, List.mem_map.2 ⟨q, hq, rfl⟩⟩
  · rw [value?, cell_fire_of_ne s w hd]
    exact .inl ⟨hq, hv⟩

/-- A subscriber waits until the cell that it waits for is settled, and then is about to run. -/
theorem Orderly.queue_step (h : Orderly s (task :: k)) (hr : Reacts s task u ts) {c : CellId}
    {q : Nat × Subscriber} (hq : q ∈ (s.cell c).queue) (hv : s.value? c = none) :
    (q ∈ (u.cell c).queue ∧ u.value? c = none) ∨ ∃ v, .notify c q.2 v ∈ ts := by
  have hc := lt_size_of_queue s c hq
  have new : ∀ kind value, q ∈ ((s.newDerived kind value).cell c).queue ∧
      (s.newDerived kind value).value? c = none := by
    intro kind value
    rw [value?, cell_newDerived_of_lt s kind value hc]
    exact ⟨hq, hv⟩
  cases hr with
  | @move m hm =>
    cases m with
    | create kind value derived =>
      change (q ∈ ((s.addCell _).cell c).queue ∧ (s.addCell _).value? c = none) ∨ _
      rw [value?, cell_addCell, if_neg (Nat.ne_of_lt hc)]
      exact .inl ⟨hq, hv⟩
    | attach kind source sub =>
      exact .inl ⟨mem_queue_enqueue_of_mem _ _ _ (new kind none).1,
        (value?_enqueue ..).trans (new kind none).2⟩
    | resolve d w => exact queue_fire s d w hq hv
    | _ => exact (h.orderly _ (.head k)).elim
  | refuse | patch => exact .inl ⟨hq, hv⟩
  | derive | follow => exact queue_fire s _ _ hq hv
  | followLater => exact .inl ⟨mem_queue_enqueue_of_mem _ _ _ hq, (value?_enqueue ..).trans hv⟩
  | minus => exact queue_fire _ _ _ (new ..).1 (new ..).2
  | minusLater =>
    refine .inl ⟨mem_queue_enqueue_of_mem _ _ _ (mem_queue_enqueue_of_mem _ _ _ (new ..).1), ?_⟩
    rw [value?_enqueue, value?_enqueue]
    exact (new ..).2
  | start => exact (h.noneActs _ (.head k)).elim
  | log | assign | unresolve | watch | watchLater | unsubscribe | andThen =>
    exact (h.noneActs _ (.head k)).elim

end Steps

/-! ## Links -/

/-- The subscriber waits for the value of `c`, or is about to run with it. -/
def Due (s : Store) (tasks : List Task) (c : CellId) (sub : Subscriber) : Prop :=
  (∃ id, (id, sub) ∈ (s.cell c).queue) ∨ ∃ v, .notify c sub v ∈ tasks

/-- The subscriber that is to settle `t` waits for `source`, or is about to run. -/
def Pends (s : Store) (tasks : List Task) (t source : CellId) (sub : Subscriber) : Prop :=
  s.value? t = none ∧
    ((s.value? source = none ∧ ∃ id, (id, sub) ∈ (s.cell source).queue) ∨
      ∃ v, .notify source sub v ∈ tasks)

/-- A derived cell that nothing is going to settle any more. -/
structure Undriven (s : Store) (tasks : List Task) (t : CellId) : Prop where
  exist : t < s.cells.size
  derived : (s.cell t).derived = true
  pending : s.value? t = none
  undriven : s.drivers tasks t = 0

/-- `t` is derived from `source` by `f`. -/
def Derives (s : Store) (tasks : List Task) (t source : CellId) (f : Datum → Except Error Datum) :
    Prop :=
  Pends s tasks t source (.derive t f) ∨
    ∃ v, s.value? source = some v ∧ (∀ w, f v = .ok w → s.value? t = some w) ∧
      ∀ e, f v = .error e → Undriven s tasks t

/-- `t` follows the cell that the value of `source` chooses. -/
def Follows (s : Store) (tasks : List Task) (t source : CellId)
    (choose : Datum → Except Error CellId) : Prop :=
  Pends s tasks t source (.follow t choose) ∨
    ∃ v, s.value? source = some v ∧ (∀ inner, choose v = .ok inner → Derives s tasks t inner .ok) ∧
      ∀ e, choose v = .error e → Undriven s tasks t

/-- `t` is the difference of two cells, by way of a cell that is derived from the subtrahend. -/
def Subtracts (s : Store) (tasks : List Task) (t : CellId) (kind : IntKind)
    (minuend subtrahend : CellId) : Prop :=
  Pends s tasks t minuend (.minus t kind subtrahend) ∨
    ∃ v, s.value? minuend = some v ∧
      ((∃ m, Derives s tasks m subtrahend (Datum.difference kind v) ∧ Derives s tasks t m .ok) ∨
        ∃ y e, s.value? subtrahend = some y ∧ Datum.difference kind v y = .error e ∧
          Undriven s tasks t)

section Keep

variable {s u : Store} {task : Task} {ts k : List Task} {t source : CellId}

theorem Subscriber.Sound.target_derived {sub : Subscriber} {c target : CellId}
    (h : sub.Sound s c) (ht : sub.target? = some target) : (s.cell target).derived = true := by
  cases sub with
  | derive =>
    obtain rfl := Option.some.inj ht
    exact h.2
  | follow | minus =>
    obtain rfl := Option.some.inj ht
    exact h.2.1
  | patch | act => simp [Subscriber.target?] at ht

theorem Orderly.drives_le (h : Orderly s (task :: k)) (t : CellId) :
    s.total (Subscriber.drives t) + task.drives t + (k.map (Task.drives t)).sum ≤ 1 := by
  have := h.driven t
  simp only [drivers, List.map_cons, List.sum_cons] at this
  omega

theorem Pends.step {sub : Subscriber} (h : Orderly s (task :: k)) (hr : Reacts s task u ts)
    (ht : sub.target? = some t) (hp : Pends s (task :: k) t source sub) :
    Pends u (ts ++ k) t source sub ∨ ∃ v, task = .notify source sub v := by
  have hdrives := h.drives_le t
  have hone : sub.drives t = 1 := by simp [Subscriber.drives, ht]
  -- There is one subscriber that is to settle `t`, so the task is it or does not touch `t`.
  have untouched : sub.Sound s source → task.drives t = 0 → u.value? t = none :=
    fun hs => h.pending_step hr (hs.target_lt ht) (hs.target_derived ht) hp.1
  obtain ⟨-, ⟨hv, id, hq⟩ | ⟨v, hx⟩⟩ := hp
  · have hle := le_total s source sub (Subscriber.drives t) hq
    refine .inl ⟨untouched (h.queues source _ hq) (by omega), ?_⟩
    obtain ⟨hq, hv⟩ | ⟨v, hx⟩ := h.queue_step hr hq hv
    · exact .inl ⟨hv, id, hq⟩
    · exact .inr ⟨v, List.mem_append_left _ hx⟩
  · obtain rfl | hx := List.mem_cons.1 hx
    · exact .inr ⟨v, rfl⟩
    · have hle : 1 ≤ (k.map (Task.drives t)).sum :=
        hone ▸ List.single_le_sum (by simp) _ (List.mem_map.2 ⟨_, hx, rfl⟩)
      refine .inl ⟨untouched (h.running source sub v (.tail _ hx)) (by omega), .inr ⟨v, ?_⟩⟩
      exact List.mem_append_right _ hx

theorem Undriven.step (h : Orderly s (task :: k)) (hr : Reacts s task u ts)
    (hu : Undriven s (task :: k) t) : Undriven u (ts ++ k) t := by
  have hzero := hu.undriven
  rw [drivers_cons] at hzero
  have hle := hr.drivers_le k t
  rw [if_neg (Nat.ne_of_gt hu.exist), drivers_cons] at hle
  exact {
    exist := hu.exist.trans_le hr.grows.cells
    derived := (hr.grows.derived t hu.exist).trans hu.derived
    pending := h.pending_step hr hu.exist hu.derived hu.pending (by omega)
    undriven := by omega }

/-- When the one subscriber that could settle a cell has given up, nothing will. -/
theorem Orderly.undriven {sub : Subscriber} {v : Datum} (h : Orderly s (.notify source sub v :: k))
    (ht : sub.target? = some t) (hv : s.value? t = none) : Undriven s k t := by
  have hs := h.running source sub v (.head k)
  have hdrives := h.driven t
  rw [drivers_cons] at hdrives
  have hone : Task.drives t (.notify source sub v) = 1 := by
    simp [Task.drives, Subscriber.drives, ht]
  exact ⟨hs.target_lt ht, hs.target_derived ht, hv, by omega⟩

theorem Derives.step {f : Datum → Except Error Datum} (h : Orderly s (task :: k))
    (hr : Reacts s task u ts) (hd : Derives s (task :: k) t source f) :
    Derives u (ts ++ k) t source f := by
  obtain hp | ⟨v, hv, hok, herror⟩ := hd
  · have hpending := hp.1
    obtain hp | ⟨v, rfl⟩ := hp.step h hr rfl
    · exact .inl hp
    · have hv := h.values source _ v (.head k)
      have ht := (h.running source _ v (.head k)).target_lt rfl
      refine .inr ⟨v, h.value?_step hr hv, ?_⟩
      cases hr with
      | refuse hr =>
        obtain ⟨e, he⟩ := hr
        exact ⟨by simp [he], fun _ _ => h.undriven rfl hpending⟩
      | derive hf =>
        refine ⟨fun w hw => ?_, by simp [hf]⟩
        obtain rfl := Except.ok.inj (hf.symm.trans hw)
        exact value?_fire_self s _ ht hpending
  · exact .inr ⟨v, h.value?_step hr hv, fun w hw => h.value?_step hr (hok w hw),
      fun e he => (herror e he).step h hr⟩

theorem Follows.step {choose : Datum → Except Error CellId} (h : Orderly s (task :: k))
    (hr : Reacts s task u ts) (hf : Follows s (task :: k) t source choose) :
    Follows u (ts ++ k) t source choose := by
  obtain hp | ⟨v, hv, hok, herror⟩ := hf
  · have hpending := hp.1
    obtain hp | ⟨v, rfl⟩ := hp.step h hr rfl
    · exact .inl hp
    · have hv := h.values source _ v (.head k)
      have hs := h.running source _ v (.head k)
      refine .inr ⟨v, h.value?_step hr hv, ?_⟩
      cases hr with
      | refuse hr =>
        obtain ⟨e, he⟩ := hr
        exact ⟨by simp [he], fun _ _ => h.undriven rfl hpending⟩
      | @follow _ _ _ _ inner w hc hw =>
        refine ⟨fun inner' hc' => ?_, by simp [hc]⟩
        obtain rfl := Except.ok.inj (hc.symm.trans hc')
        refine .inr ⟨w, value?_fire s t w hw, fun x hx => ?_, by simp⟩
        obtain rfl := Except.ok.inj hx
        exact value?_fire_self s w hs.1 hpending
      | @followLater _ _ _ _ inner hc hw =>
        refine ⟨fun inner' hc' => ?_, by simp [hc]⟩
        obtain rfl := Except.ok.inj (hc.symm.trans hc')
        exact .inl ⟨(value?_enqueue ..).trans hpending, .inl ⟨(value?_enqueue ..).trans hw,
          mem_queue_enqueue_self s _ (hs.2.2 v inner hc)⟩⟩
  · exact .inr ⟨v, h.value?_step hr hv, fun inner hi => (hok inner hi).step h hr,
      fun e he => (herror e he).step h hr⟩

theorem Subtracts.step {kind : IntKind} {subtrahend : CellId} (h : Orderly s (task :: k))
    (hr : Reacts s task u ts) (hs : Subtracts s (task :: k) t kind source subtrahend) :
    Subtracts u (ts ++ k) t kind source subtrahend := by
  obtain hp | ⟨v, hv, ⟨m, hm, ht⟩ | ⟨y, e, hy, hd, hu⟩⟩ := hs
  · have hpending := hp.1
    obtain hp | ⟨v, rfl⟩ := hp.step h hr rfl
    · exact .inl hp
    · have hv := h.values source _ v (.head k)
      have hs := h.running source _ v (.head k)
      refine .inr ⟨v, h.value?_step hr hv, ?_⟩
      cases hr with
      | refuse hr =>
        obtain ⟨y, e, hy, he⟩ := hr
        exact .inr ⟨y, e, hy, he, h.undriven rfl hpending⟩
      | @minus _ _ _ _ _ y w hy hd =>
        have hm : (s.newDerived (.int kind) (some w)).value? s.cells.size = some w := by
          simp [value?_newDerived]
        have ht : (s.newDerived (.int kind) (some w)).value? t = none := by
          rwa [value?_newDerived, if_neg (Nat.ne_of_lt hs.1)]
        have hy' := value?_newDerived_of_some s (.int kind) (some w) hy
        refine .inl ⟨s.cells.size, .inr ⟨y, value?_fire _ t w hy', fun x hx => ?_, by simp [hd]⟩,
          .inr ⟨w, value?_fire _ t w hm, fun x hx => ?_, by simp⟩⟩
        · obtain rfl := Except.ok.inj (hd.symm.trans hx)
          exact value?_fire _ t w hm
        · obtain rfl := Except.ok.inj hx
          exact value?_fire_self _ w (hs.1.trans (by simp)) ht
      | minusLater hy =>
        have pending : ∀ c, s.value? c = none →
            (s.newDerived (.int kind) none).value? c = none := by
          intro c hc
          rw [value?_newDerived]
          split_ifs
          · rfl
          · exact hc
        have hm : (s.newDerived (.int kind) none).value? s.cells.size = none := by
          simp [value?_newDerived]
        have hsub : subtrahend < (s.newDerived (.int kind) none).cells.size :=
          hs.2.2.trans (by simp)
        obtain ⟨id, hid⟩ := mem_queue_enqueue_self (s.newDerived (.int kind) none)
          (.derive s.cells.size (Datum.difference kind v)) hsub
        refine .inl ⟨s.cells.size, .inl ⟨?_, .inl ⟨?_, id, ?_⟩⟩, .inl ⟨?_, .inl ⟨?_, ?_⟩⟩⟩
        · simpa using hm
        · simpa using pending subtrahend hy
        · exact mem_queue_enqueue_of_mem _ _ _ hid
        · simpa using pending t hpending
        · simpa using hm
        · exact mem_queue_enqueue_self _ _ (by simp)
  · exact .inr ⟨v, h.value?_step hr hv, .inl ⟨m, hm.step h hr, ht.step h hr⟩⟩
  · exact .inr ⟨v, h.value?_step hr hv, .inr ⟨y, e, h.value?_step hr hy, hd, hu.step h hr⟩⟩

/-! ## All links alike -/

/-- How a derived cell depends on others. -/
inductive Link where
  | derive (source : CellId) (f : Datum → Except Error Datum)
  | follow (source : CellId) (choose : Datum → Except Error CellId)
  | minus (kind : IntKind) (minuend subtrahend : CellId)

namespace Link

def Holds (s : Store) (tasks : List Task) (t : CellId) : Link → Prop
  | derive source f => Derives s tasks t source f
  | follow source choose => Follows s tasks t source choose
  | minus kind minuend subtrahend => Subtracts s tasks t kind minuend subtrahend

/-- The value that a link gives, from the values of the cells. -/
def value (s : Store) : Link → Option Datum
  | derive source f => (s.value? source).bind fun v => (f v).toOption
  | follow source choose =>
    (s.value? source).bind fun v => (choose v).toOption.bind fun inner => s.value? inner
  | minus kind minuend subtrahend =>
    (s.value? minuend).bind fun x => (s.value? subtrahend).bind fun y =>
      (Datum.difference kind x y).toOption

theorem Holds.step {l : Link} (h : Orderly s (task :: k)) (hr : Reacts s task u ts)
    (hl : l.Holds s (task :: k) t) : l.Holds u (ts ++ k) t := by
  cases l with
  | derive => exact Derives.step h hr hl
  | follow => exact Follows.step h hr hl
  | minus => exact Subtracts.step h hr hl

end Link

/-! ## Before and after a run -/

theorem Pends.start {sub : Subscriber} (h : Pends s [] t source sub) (m : Move) :
    Pends s [.move m] t source sub := by
  obtain ⟨hv, hq | ⟨v, hx⟩⟩ := h
  · exact ⟨hv, .inl hq⟩
  · simp at hx

theorem Undriven.start (h : Undriven s [] t) (m : Move) : Undriven s [.move m] t :=
  ⟨h.exist, h.derived, h.pending, h.undriven⟩

theorem Derives.start {f : Datum → Except Error Datum} (h : Derives s [] t source f) (m : Move) :
    Derives s [.move m] t source f :=
  h.imp (·.start m) fun ⟨v, hv, hok, herror⟩ => ⟨v, hv, hok, fun e he => (herror e he).start m⟩

theorem Link.Holds.start {l : Link} (h : l.Holds s [] t) (m : Move) : l.Holds s [.move m] t := by
  cases l with
  | derive => exact Derives.start h m
  | follow source choose =>
    exact h.imp (·.start m) fun ⟨v, hv, hok, herror⟩ =>
      ⟨v, hv, fun inner hi => (hok inner hi).start m, fun e he => (herror e he).start m⟩
  | minus kind minuend subtrahend =>
    refine h.imp (·.start m) fun ⟨v, hv, hrest⟩ => ⟨v, hv, ?_⟩
    exact hrest.imp (fun ⟨c, hc, ht⟩ => ⟨c, hc.start m, ht.start m⟩)
      fun ⟨y, e, hy, hd, hu⟩ => ⟨y, e, hy, hd, hu.start m⟩

theorem Steps.orderly {P : Move → Prop} (h : Steps P s u) (hP : ∀ m, P m → m.Orderly)
    (hs : Orderly s []) : Orderly u [] :=
  h.invariant (I := Orderly) (fun hm hs => hs.start (hP _ hm)) Orderly.step hs

theorem Steps.link {P : Move → Prop} {l : Link} (h : Steps P s u) (hP : ∀ m, P m → m.Orderly)
    (hs : Orderly s []) (hl : l.Holds s [] t) : l.Holds u [] t :=
  (h.invariant (I := fun s tasks => Orderly s tasks ∧ l.Holds s tasks t)
    (fun hm hi => ⟨hi.1.start (hP _ hm), hi.2.start _⟩)
    (fun hr hi => ⟨Orderly.step hr hi.1, hi.2.step hi.1 hr⟩) ⟨hs, hl⟩).2

theorem Pends.value {sub : Subscriber} (h : Pends s [] t source sub) :
    s.value? t = none ∧ s.value? source = none := by
  obtain ⟨hv, ⟨hs, -⟩ | ⟨v, hx⟩⟩ := h
  · exact ⟨hv, hs⟩
  · simp at hx

theorem Derives.value {f : Datum → Except Error Datum} (h : Derives s [] t source f) :
    s.value? t = (s.value? source).bind fun v => (f v).toOption := by
  obtain hp | ⟨v, hv, hok, herror⟩ := h
  · simp [hp.value]
  · cases hf : f v with
    | ok w => simp [hv, hf, hok w hf, Except.toOption]
    | error e => simp [hv, hf, (herror e hf).pending, Except.toOption]

/-- When nothing is left to run, a linked cell has the value that its link gives. -/
theorem Link.Holds.value {l : Link} (h : l.Holds s [] t) : s.value? t = l.value s := by
  cases l with
  | derive => exact Derives.value h
  | follow source choose =>
    obtain hp | ⟨v, hv, hok, herror⟩ := h
    · simp [Link.value, hp.value]
    · cases hc : choose v with
      | ok inner =>
        have hinner := (hok inner hc).value
        simp only [Link.value, hv, hc, hinner, Except.toOption, Option.bind_some]
        cases s.value? inner <;> rfl
      | error e => simp [Link.value, hv, hc, (herror e hc).pending, Except.toOption]
  | minus kind minuend subtrahend =>
    obtain hp | ⟨v, hv, ⟨m, hm, ht⟩ | ⟨y, e, hy, hd, hu⟩⟩ := h
    · simp [Link.value, hp.value]
    · rw [ht.value, hm.value, Link.value, hv]
      simp [Except.toOption]
    · simp [Link.value, hv, hy, hd, hu.pending, Except.toOption]

/-! ## Linked cells exist -/

theorem Pends.lt_size {sub : Subscriber} (h : Pends s [] t source sub) (ho : Orderly s [])
    (ht : sub.target? = some t) : t < s.cells.size := by
  obtain ⟨-, ⟨-, id, hq⟩ | ⟨v, hx⟩⟩ := h
  · exact (ho.queues source _ hq).target_lt ht
  · simp at hx

theorem Derives.lt_size {f : Datum → Except Error Datum} (h : Derives s [] t source f)
    (ho : Orderly s []) : t < s.cells.size := by
  obtain hp | ⟨v, -, hok, herror⟩ := h
  · exact hp.lt_size ho rfl
  · cases hf : f v with
    | ok w => exact lt_size_of_value? s t (hok w hf)
    | error e => exact (herror e hf).exist

theorem Link.Holds.lt_size {l : Link} (h : l.Holds s [] t) (ho : Orderly s []) :
    t < s.cells.size := by
  cases l with
  | derive => exact Derives.lt_size h ho
  | follow source choose =>
    obtain hp | ⟨v, -, hok, herror⟩ := h
    · exact hp.lt_size ho rfl
    · cases hc : choose v with
      | ok inner => exact (hok inner hc).lt_size ho
      | error e => exact (herror e hc).exist
  | minus kind minuend subtrahend =>
    obtain hp | ⟨v, -, ⟨m, -, ht⟩ | ⟨y, e, -, -, hu⟩⟩ := h
    · exact hp.lt_size ho rfl
    · exact ht.lt_size ho
    · exact hu.exist

end Keep

end Backpatch
