import Mathlib
import Backpatch.Proofs.Links
import Backpatch.Proofs.Placeholders

/-!
# Derived cells and their sources

A derived cell gets its value from the subscribers that were made to settle it, unless a mark or an
entry settles it directly. `Link.Guarded M` says of a cell that no one marks (`M` are the cells that
may be marked) that every subscriber that is going to settle it belongs to its link, and that a
value it has is the one that its link gives. Every reaction keeps this where values last, whatever
callbacks do, as long as only cells in `M` are settled directly. A difference goes through a cell
that no caller ever sees; that one is guarded as well.
-/

namespace Backpatch

open Store Failable

/-- What a subscriber settles its target with, if `v` is delivered to it. -/
def Subscriber.Delivers (s : Store) (v w : Datum) : Subscriber → Prop
  | .derive _ f => f v = .ok w
  | .follow _ choose => ∃ inner, choose v = .ok inner ∧ s.value? inner = some w
  | .minus _ kind subtrahend =>
    ∃ y, s.value? subtrahend = some y ∧ Datum.difference kind v y = .ok w
  | .patch _ | .act _ => False

section Reactions

variable {s u : Store} {task : Task} {ts k tasks : List Task} {c t : CellId} {sub : Subscriber}

theorem Valid.target_lt (h : Valid s tasks) (hh : Due s tasks c sub)
    (ht : sub.target? = some t) : t < s.cells.size := by
  obtain ⟨id, hq⟩ | ⟨v, hx⟩ := hh
  · exact (h.queues c _ hq).target_lt ht
  · exact (h.running c sub v hx).target_lt ht

/-- Who waits or is about to run did so before, or the task has just queued it. -/
theorem Reacts.due (hv : Valid s (task :: k)) (hr : Reacts s task u ts)
    (h : Due u (ts ++ k) c sub) :
    Due s (task :: k) c sub ∨
      task.Queues s c sub ∧ ∃ id, (id, sub) ∈ (u.cell c).queue := by
  obtain ⟨id, hq⟩ | ⟨v, hx⟩ := h
  · obtain hthin | ⟨sub', hsub, -, hpush⟩ := hr.queue_cases hv c
    · exact .inl (.inl ⟨id, hthin.1 hq⟩)
    · have hmem := hq
      rw [hpush.1] at hmem
      obtain hold | hnew := List.mem_append.1 hmem
      · exact .inl (.inl ⟨id, hold⟩)
      · cases List.mem_singleton.1 hnew
        exact .inr ⟨hsub, _, hq⟩
  · obtain hx | hx := List.mem_append.1 hx
    · obtain ⟨⟨q, hq, rfl⟩, -⟩ := hr.notified hx
      exact .inl (.inl ⟨q.1, hq⟩)
    · exact .inl (.inr ⟨v, .tail _ hx⟩)

/-- A subscriber that comes into a queue settles a new cell, or takes over from one that followed or
subtracted. -/
theorem Reacts.queues_target (hr : Reacts s task u ts) (h : task.Queues s c sub)
    (ht : sub.target? = some t) (hlt : t < s.cells.size) :
    sub = .derive t .ok ∧ ∃ c' v,
      (∃ choose, task = .notify c' (.follow t choose) v ∧ choose v = .ok c) ∨
        ∃ kind subtrahend, task = .notify c' (.minus t kind subtrahend) v ∧
          c = s.cells.size := by
  cases task with
  | move m =>
    cases hr with
    | refuse h => exact h.elim
    | move hm =>
      cases m with
      | attach kind source make =>
        obtain ⟨-, rfl⟩ := h
        obtain rfl := Option.some.inj (hm.2.2.1.symm.trans ht)
        exact absurd hlt (lt_irrefl _)
      | watch | place =>
        obtain ⟨-, rfl⟩ := h
        cases ht
      | _ => exact h.elim
  | notify c' sub' v =>
    cases sub' with
    | follow target choose =>
      obtain ⟨hc, rfl⟩ := h
      obtain rfl := Option.some.inj ht
      exact ⟨rfl, c', v, .inl ⟨choose, rfl, hc⟩⟩
    | minus target kind subtrahend =>
      obtain ⟨-, rfl⟩ | ⟨hc, rfl⟩ := h
      · obtain rfl := Option.some.inj ht
        exact absurd hlt (lt_irrefl _)
      · obtain rfl := Option.some.inj ht
        exact ⟨rfl, c', v, .inr ⟨kind, subtrahend, rfl, hc⟩⟩
    | derive | patch | act => exact h.elim
  | act a v =>
    cases a with
    | watch =>
      obtain ⟨-, rfl⟩ := h
      cases ht
    | _ => exact h.elim

theorem Store.value?_fire_cases (s : Store) (d t : CellId) (w : Datum) :
    (s.fire d w).1.value? t = s.value? t ∨ d = t ∧ (s.fire d w).1.value? t = some w := by
  by_cases hd : t = d
  · subst hd
    obtain ⟨x, -, hf⟩ | ⟨-, hf⟩ := fire_cases s t w
    · rw [hf]
      exact .inl rfl
    · rw [hf]
      by_cases hlt : t < s.cells.size
      · exact .inr ⟨rfl, by rw [value?_delivered s t t w hlt, if_pos rfl]⟩
      · left
        rw [value?, cell_delivered, if_neg fun h => hlt h.2, value?]
  · left
    rw [value?, cell_fire_of_ne s w hd, value?]

/-- A derived cell that is not settled directly gets its value from a subscriber of it. -/
theorem Reacts.value?_changes (hr : Reacts s task u ts) (ht : t < s.cells.size)
    (hd : (s.cell t).derived = true) (hm : ∀ v, task ≠ .move (.settle t v)) :
    u.value? t = s.value? t ∨ u.value? t = none ∨ ∃ c sub v w, task = .notify c sub v ∧
      sub.target? = some t ∧ sub.Delivers s v w ∧ u.value? t = some w := by
  have new : ∀ kind value, (s.newDerived kind value).value? t = s.value? t := by
    intro kind value
    rw [value?, cell_newDerived_of_lt s kind value ht, value?]
  have cleared : ∀ d, (s.cleared d).value? t = s.value? t ∨ (s.cleared d).value? t = none := by
    intro d
    rw [value?, cell_cleared]
    split_ifs
    · exact .inr rfl
    · exact .inl rfl
  have resolved : ∀ {d : CellId} {w : Datum}, (s.cell d).derived = false →
      (s.fire d w).1.value? t = s.value? t := by
    intro d w hnot
    obtain h | ⟨rfl, -⟩ := value?_fire_cases s d t w
    · exact h
    · simp [hd] at hnot
  cases hr with
  | @move m hfits =>
    cases m with
    | journal | define | run | newImage | append | overwrite => exact .inl rfl
    | create kind value derived =>
      left
      change (s.addCell _).value? t = _
      rw [value?_addCell, if_neg (Nat.ne_of_lt ht)]
    | attach kind source sub => exact .inl ((value?_enqueue ..).trans (new kind none))
    | watch d a => exact .inl (value?_enqueue ..)
    | resolve d w => exact .inl (resolved hfits.2)
    | settle d w =>
      obtain h | ⟨rfl, -⟩ := value?_fire_cases s d t w
      · exact .inl h
      · exact absurd rfl (hm w)
    | unresolve d => exact (cleared d).imp_right .inl
    | unsubscribe d id => exact .inl (value?_withdrawn ..)
    | place i format d label => exact .inl (value?_enqueue ..)
  | refuse | patch | start | log | watch | andThen => exact .inl rfl
  | @derive source target f v w hf =>
    obtain h | ⟨rfl, h⟩ := value?_fire_cases s target t w
    · exact .inl h
    · exact .inr (.inr ⟨source, .derive target f, v, w, rfl, rfl, hf, h⟩)
  | @follow source target choose v inner w hc hw =>
    obtain h | ⟨rfl, h⟩ := value?_fire_cases s target t w
    · exact .inl h
    · exact .inr (.inr ⟨source, .follow target choose, v, w, rfl, rfl, ⟨inner, hc, hw⟩, h⟩)
  | @minus source target kind subtrahend v y w hy hw =>
    obtain h | ⟨rfl, h⟩ := value?_fire_cases (s.newDerived (.int kind) (some w)) target t w
    · exact .inl (h.trans (new ..))
    · exact .inr (.inr ⟨source, .minus target kind subtrahend, v, w, rfl, rfl, ⟨y, hy, hw⟩, h⟩)
  | followLater | watchLater => exact .inl (value?_enqueue ..)
  | minusLater =>
    left
    rw [value?_enqueue, value?_enqueue]
    exact new ..
  | assign _ hnot => exact .inl (resolved hnot)
  | unresolve => exact (cleared _).imp_right .inl
  | unsubscribe => exact .inl (value?_withdrawn ..)

/-- Where values last, none is taken back. -/
theorem Reacts.value?_cases (hl : Lasting s (task :: k)) (hr : Reacts s task u ts)
    (ht : t < s.cells.size) (hd : (s.cell t).derived = true)
    (hm : ∀ v, task ≠ .move (.settle t v)) :
    u.value? t = s.value? t ∨ ∃ c sub v w, task = .notify c sub v ∧ sub.target? = some t ∧
      sub.Delivers s v w ∧ u.value? t = some w := by
  obtain hsame | hnone | hdelivers := hr.value?_changes ht hd hm
  · exact .inl hsame
  · cases hv : s.value? t with
    | none => exact .inl hnone
    | some v => simp [hl.value?_step hr hv] at hnone
  · exact .inr hdelivers

end Reactions

/-! ## Guarded cells -/

/-- The derived cell `t` is not among `M`, the subscribers that are going to settle it are among
`D`, and its value satisfies `V`. -/
structure Driven (M : CellId → Prop) (s : Store) (tasks : List Task) (t : CellId)
    (D : CellId → Subscriber → Prop) (V : Datum → Prop) : Prop where
  exist : t < s.cells.size
  derived : (s.cell t).derived = true
  closed : ¬ M t
  drivers : ∀ c sub, Due s tasks c sub → sub.target? = some t → D c sub
  value : ∀ w, s.value? t = some w → V w

/-- The task settles only cells in `M` directly, and does not run a subscriber while the number of
the next cell is in `M`. -/
structure Task.SettlesOnly (M : CellId → Prop) (s : Store) (task : Task) : Prop where
  settle : ∀ c v, task = .move (.settle c v) → M c
  fresh : ∀ c sub v, task = .notify c sub v → ¬ M s.cells.size

section Guards

variable {M M' : CellId → Prop} {s u : Store} {task : Task} {ts k tasks : List Task} {t : CellId}

theorem Driven.step {D D' : CellId → Subscriber → Prop} {V V' : Datum → Prop}
    (hl : Lasting s (task :: k)) (hr : Reacts s task u ts) (hm : task.SettlesOnly M s)
    (h : Driven M s (task :: k) t D V) (keep : ∀ c sub, D c sub → D' c sub)
    (new : ∀ c sub, task.Queues s c sub → (∃ id, (id, sub) ∈ (u.cell c).queue) →
      sub.target? = some t → D' c sub)
    (last : ∀ w, V w → V' w)
    (deliver : ∀ c sub v w, task = .notify c sub v → D c sub → sub.Delivers s v w → V' w) :
    Driven M u (ts ++ k) t D' V' where
  exist := h.exist.trans_le hr.grows.cells
  derived := (hr.grows.derived t h.exist).trans h.derived
  closed := h.closed
  drivers c sub hh ht := by
    obtain hh | ⟨hq, hid⟩ := hr.due hl.toValid hh
    · exact keep c sub (h.drivers c sub hh ht)
    · exact new c sub hq hid ht
  value w hw := by
    obtain hsame | ⟨c, sub, v, w', htask, ht, hdelivers, hw'⟩ := hr.value?_cases hl h.exist
      h.derived fun v htask => h.closed (hm.settle t v htask)
    · exact last w (h.value w (hsame ▸ hw))
    · obtain rfl := Option.some.inj (hw.symm.trans hw')
      have hdue : Due s (task :: k) c sub := .inr ⟨v, htask ▸ .head k⟩
      exact deliver c sub v w htask (h.drivers c sub hdue ht) hdelivers

/-- `t` is derived from `source` by `f`, and by nothing else. -/
def Sourced (M : CellId → Prop) (s : Store) (tasks : List Task) (t source : CellId)
    (f : Datum → Except Error Datum) : Prop :=
  Driven M s tasks t (fun c sub => c = source ∧ sub = .derive t f)
    fun w => ∃ v, s.value? source = some v ∧ f v = .ok w

theorem Sourced.step {source : CellId} {f : Datum → Except Error Datum}
    (hl : Lasting s (task :: k)) (hr : Reacts s task u ts) (hm : task.SettlesOnly M s)
    (h : Sourced M s (task :: k) t source f) : Sourced M u (ts ++ k) t source f := by
  refine Driven.step hl hr hm h (fun _ _ hd => hd) ?_ ?_ ?_
  · intro c sub hq _ ht
    obtain ⟨-, c', v, ⟨choose, rfl, -⟩ | ⟨kind, b, rfl, -⟩⟩ := hr.queues_target hq ht h.exist
    · obtain ⟨-, hsub⟩ := h.drivers c' _ (.inr ⟨v, .head k⟩) rfl
      cases hsub
    · obtain ⟨-, hsub⟩ := h.drivers c' _ (.inr ⟨v, .head k⟩) rfl
      cases hsub
  · rintro w ⟨v, hv, hf⟩
    exact ⟨v, hl.value?_step hr hv, hf⟩
  · rintro c sub v w rfl ⟨rfl, rfl⟩ hf
    exact ⟨v, hl.value?_step hr (hl.values c _ v (.head k)), hf⟩

/-- The cell that a subtraction makes on its way is derived from the subtrahend. -/
theorem Sourced.inner {c subtrahend : CellId} {kind : IntKind} {v : Datum}
    (hl : Lasting s (.notify c (.minus t kind subtrahend) v :: k))
    (hr : Reacts s (.notify c (.minus t kind subtrahend) v) u ts)
    (hexist : s.cells.size < u.cells.size) (hM : ¬ M s.cells.size) :
    Sourced M u (ts ++ k) s.cells.size subtrahend (Datum.difference kind v) := by
  have ht : t < s.cells.size := (hl.running c _ v (.head k)).target_lt rfl
  have hdrivers : ∀ c' sub, Due u (ts ++ k) c' sub → sub.target? = some s.cells.size →
      c' = subtrahend ∧ sub = .derive s.cells.size (Datum.difference kind v) := by
    intro c' sub hh htarget
    obtain hh | ⟨⟨rfl, rfl⟩ | ⟨-, rfl⟩, -⟩ := hr.due hl.toValid hh
    · exact absurd (hl.toValid.target_lt hh htarget) (lt_irrefl _)
    · exact ⟨rfl, rfl⟩
    · exact absurd (Option.some.inj htarget) (Nat.ne_of_lt ht)
  cases hr with
  | refuse => exact absurd hexist (lt_irrefl _)
  | @minus _ _ _ _ _ y w hy hd =>
    have hvalue : ((s.newDerived (.int kind) (some w)).fire t w).1.value? s.cells.size = some w :=
      value?_fire _ t w (by simp [value?_newDerived])
    refine ⟨hexist, ?_, hM, hdrivers, fun x hx => ?_⟩
    · rw [derived_fire, newDerived, cell_addCell, if_pos rfl]
    · obtain rfl := Option.some.inj (hvalue.symm.trans hx)
      exact ⟨y, value?_fire _ t w (value?_newDerived_of_some s _ _ hy), hd⟩
  | minusLater hy =>
    refine ⟨hexist, ?_, hM, hdrivers, fun x hx => ?_⟩
    · rw [derived_enqueue, derived_enqueue, newDerived, cell_addCell, if_pos rfl]
    · rw [value?_enqueue, value?_enqueue, value?_newDerived, if_pos rfl] at hx
      cases hx

namespace Link

/-- The subscriber in the queue of `c` settles `t` on behalf of the link. -/
def Drives (M : CellId → Prop) (s : Store) (tasks : List Task) (t : CellId) :
    Link → CellId → Subscriber → Prop
  | derive source f, c, sub => c = source ∧ sub = .derive t f
  | follow source choose, c, sub => (c = source ∧ sub = .follow t choose) ∨
    (sub = .derive t .ok ∧ ∃ v, s.value? source = some v ∧ choose v = .ok c)
  | minus kind minuend subtrahend, c, sub => (c = minuend ∧ sub = .minus t kind subtrahend) ∨
    (sub = .derive t .ok ∧ ∃ x, s.value? minuend = some x ∧
      Sourced M s tasks c subtrahend (Datum.difference kind x))

/-- The link alone settles `t`, with the value that it gives. -/
def Guarded (M : CellId → Prop) (s : Store) (tasks : List Task) (t : CellId) (l : Link) : Prop :=
  Driven M s tasks t (l.Drives M s tasks t) fun w => l.value s = some w

theorem toOption_eq_some {α : Type} {x : Except Error α} {a : α} :
    x.toOption = some a ↔ x = .ok a := by
  cases x <;> simp [Except.toOption]

theorem value_derive {source : CellId} {f : Datum → Except Error Datum} {w : Datum} :
    (derive source f).value s = some w ↔ ∃ v, s.value? source = some v ∧ f v = .ok w := by
  simp [value, Option.bind_eq_some_iff, toOption_eq_some]

theorem value_follow {source : CellId} {choose : Datum → Except Error CellId} {w : Datum} :
    (follow source choose).value s = some w ↔ ∃ v, s.value? source = some v ∧
      ∃ inner, choose v = .ok inner ∧ s.value? inner = some w := by
  simp [value, Option.bind_eq_some_iff, toOption_eq_some]

theorem value_minus {kind : IntKind} {minuend subtrahend : CellId} {w : Datum} :
    (minus kind minuend subtrahend).value s = some w ↔ ∃ x, s.value? minuend = some x ∧
      ∃ y, s.value? subtrahend = some y ∧ Datum.difference kind x y = .ok w := by
  simp [value, Option.bind_eq_some_iff, toOption_eq_some]

/-- The value that a link gives lasts as long as the values of its sources. -/
theorem value_mono {l : Link} {w : Datum} (h : ∀ c v, s.value? c = some v → u.value? c = some v)
    (hw : l.value s = some w) : l.value u = some w := by
  cases l with
  | derive =>
    obtain ⟨v, hv, hf⟩ := value_derive.1 hw
    exact value_derive.2 ⟨v, h _ v hv, hf⟩
  | follow =>
    obtain ⟨v, hv, inner, hc, hi⟩ := value_follow.1 hw
    exact value_follow.2 ⟨v, h _ v hv, inner, hc, h _ w hi⟩
  | minus =>
    obtain ⟨x, hx, y, hy, hd⟩ := value_minus.1 hw
    exact value_minus.2 ⟨x, h _ x hx, y, h _ y hy, hd⟩

theorem Guarded.sourced {source : CellId} {f : Datum → Except Error Datum}
    (h : (derive source f).Guarded M s tasks t) : Sourced M s tasks t source f :=
  ⟨h.exist, h.derived, h.closed, h.drivers, fun w hw => value_derive.1 (h.value w hw)⟩

end Link

theorem Sourced.guarded {source : CellId} {f : Datum → Except Error Datum}
    (h : Sourced M s tasks t source f) : (Link.derive source f).Guarded M s tasks t :=
  ⟨h.exist, h.derived, h.closed, h.drivers, fun w hw => Link.value_derive.2 (h.value w hw)⟩

namespace Link.Guarded

variable {l : Link}

/-- Every reaction keeps a guarded cell guarded, as long as values last and only cells in `M` are
settled directly. -/
theorem step (hl : Lasting s (task :: k)) (hr : Reacts s task u ts) (hm : task.SettlesOnly M s)
    (h : l.Guarded M s (task :: k) t) : l.Guarded M u (ts ++ k) t := by
  have last : ∀ {c v}, s.value? c = some v → u.value? c = some v := hl.value?_step hr
  -- The value of the cell that a subscriber of this task waited for is the one delivered to it.
  have delivered : ∀ {c sub v}, task = .notify c sub v → s.value? c = some v := by
    rintro c sub v rfl
    exact hl.values c sub v (.head k)
  have driver : ∀ {c sub v}, task = .notify c sub v → sub.target? = some t →
      l.Drives M s (task :: k) t c sub := by
    rintro c sub v rfl ht
    exact h.drivers c sub (.inr ⟨v, .head k⟩) ht
  cases l with
  | derive => exact (h.sourced.step hl hr hm).guarded
  | follow source choose =>
    refine Driven.step hl hr hm h ?_ ?_ (fun w => value_mono fun _ _ => last) ?_
    · rintro c sub (hd | ⟨rfl, v, hv, hc⟩)
      · exact .inl hd
      · exact .inr ⟨rfl, v, last hv, hc⟩
    · intro c sub hq _ ht
      obtain ⟨rfl, c', v, ⟨choose', rfl, hc⟩ | ⟨kind, b, rfl, -⟩⟩ := hr.queues_target hq ht h.exist
      · obtain ⟨rfl, hsub⟩ | ⟨hsub, -⟩ := driver rfl rfl
        · cases hsub
          exact .inr ⟨rfl, v, last (delivered rfl), hc⟩
        · cases hsub
      · obtain ⟨-, hsub⟩ | ⟨hsub, -⟩ := driver rfl rfl <;> cases hsub
    · rintro c sub v w htask (⟨rfl, rfl⟩ | ⟨rfl, x, hx, hc⟩) hdelivers
      · obtain ⟨inner, hc, hw⟩ := hdelivers
        exact value_follow.2 ⟨v, last (delivered htask), inner, hc, last hw⟩
      · cases hdelivers
        exact value_follow.2 ⟨x, last hx, c, hc, last (delivered htask)⟩
  | minus kind minuend subtrahend =>
    refine Driven.step hl hr hm h ?_ ?_ (fun w => value_mono fun _ _ => last) ?_
    · rintro c sub (hd | ⟨rfl, x, hx, hc⟩)
      · exact .inl hd
      · exact .inr ⟨rfl, x, last hx, hc.step hl hr hm⟩
    · rintro c sub hq ⟨id, hid⟩ ht
      obtain ⟨rfl, c', v, ⟨choose, rfl, -⟩ | ⟨kind', b, rfl, rfl⟩⟩ :=
        hr.queues_target hq ht h.exist
      · obtain ⟨-, hsub⟩ | ⟨hsub, -⟩ := driver rfl rfl <;> cases hsub
      · obtain ⟨rfl, hsub⟩ | ⟨hsub, -⟩ := driver rfl rfl
        · cases hsub
          refine .inr ⟨rfl, v, last (delivered rfl), ?_⟩
          exact .inner hl hr (lt_size_of_queue u _ hid) (hm.fresh _ _ _ rfl)
        · cases hsub
    · rintro c sub v w htask (⟨rfl, rfl⟩ | ⟨rfl, x, hx, hc⟩) hdelivers
      · obtain ⟨y, hy, hd⟩ := hdelivers
        exact value_minus.2 ⟨v, last (delivered htask), y, last hy, hd⟩
      · cases hdelivers
        obtain ⟨y, hy, hd⟩ := hc.value v (delivered htask)
        exact value_minus.2 ⟨x, last hx, y, last hy, hd⟩

theorem start (h : l.Guarded M s [] t) (m : Move) : l.Guarded M s [.move m] t := by
  have due : ∀ {c sub}, Due s [.move m] c sub → Due s [] c sub := by
    rintro c sub (hq | ⟨v, hx⟩)
    · exact .inl hq
    · cases List.mem_singleton.1 hx
  have sourced : ∀ {c source f}, Sourced M s [] c source f → Sourced M s [.move m] c source f :=
    fun h => ⟨h.exist, h.derived, h.closed, fun c sub hh => h.drivers c sub (due hh), h.value⟩
  refine ⟨h.exist, h.derived, h.closed, fun c sub hh ht => ?_, h.value⟩
  have hd := h.drivers c sub (due hh) ht
  cases l with
  | derive | follow => exact hd
  | minus => exact hd.imp_right fun ⟨hsub, x, hx, hc⟩ => ⟨hsub, x, hx, sourced hc⟩

/-- New cells may be marked: they are neither guarded nor on the way of a guarded one. -/
theorem extend (h : l.Guarded M s tasks t) (hM : ∀ c, M' c → M c ∨ s.cells.size ≤ c) :
    l.Guarded M' s tasks t := by
  have closed : ∀ {c}, c < s.cells.size → ¬ M c → ¬ M' c := by
    intro c hc hnot hM'
    obtain h | h := hM c hM'
    · exact hnot h
    · exact absurd hc (Nat.not_lt.2 h)
  refine ⟨h.exist, h.derived, closed h.exist h.closed, fun c sub hh ht => ?_, h.value⟩
  have hd := h.drivers c sub hh ht
  cases l with
  | derive | follow => exact hd
  | minus =>
    exact hd.imp_right fun ⟨hsub, x, hx, hc⟩ => ⟨hsub, x, hx, hc.exist, hc.derived,
      closed hc.exist hc.closed, hc.drivers, hc.value⟩

end Link.Guarded

end Guards

/-! ## Along a run -/

section Runs

variable {M : CellId → Prop} {P : Move → Prop} {s u : Store} {tasks : List Task} {t : CellId}
  {l : Link}

/-- The move lets values last and settles only cells in `M` directly. -/
def Move.SettlesOnly (M : CellId → Prop) : Move → Prop
  | .settle c _ => M c
  | m => m.Lasting

theorem Move.SettlesOnly.lasting {m : Move} (h : m.SettlesOnly M) : m.Lasting := by
  cases m with
  | settle => trivial
  | _ => exact h

/-- In every store on the way a guarded cell is guarded, if all cells that may be marked exist. -/
theorem Visits.guarded (h : Visits (Move.SettlesOnly M) s u tasks)
    (hM : ∀ c, M c → c < s.cells.size) (hs : Lasting s []) (hg : l.Guarded M s [] t) :
    Lasting u tasks ∧ l.Guarded M u tasks t := by
  have hi := h.invariant (I := fun u tasks => Lasting u tasks ∧ l.Guarded M u tasks t ∧
      s.cells.size ≤ u.cells.size ∧ ∀ m, .move m ∈ tasks → m.SettlesOnly M)
    ⟨hs, hg, le_rfl, by simp⟩
    (fun hm hi => ⟨hi.1.start hm.lasting, hi.2.1.start _, hi.2.2.1, by simpa using hm⟩)
    (fun {u task v ts k} hr hi => by
      obtain ⟨hl, hg, hsize, hmoves⟩ := hi
      have hsettles : task.SettlesOnly M u := by
        refine ⟨?_, fun _ _ _ _ hfresh => absurd (hM _ hfresh) (Nat.not_lt.2 hsize)⟩
        rintro c v rfl
        exact hmoves _ (.head k)
      exact ⟨Lasting.step hr hl, hg.step hl hr hsettles, hsize.trans hr.grows.cells,
        fun m hm => hmoves m (hr.move_mem hm)⟩)
  exact ⟨hi.1, hi.2.1⟩

/-- The move sets nothing off, and settles no cell. -/
theorem Move.Prepares.quiet {m : Move} (h : m.Prepares) : (m.apply s).2 = [] := by
  cases m with
  | journal | create | attach | watch | newImage => rfl
  | _ => exact h.elim

/-- Where nothing is set off, cells that are yet to be made may be among those to be marked. -/
theorem Visits.guarded_quiet (h : Visits Move.Prepares s u tasks) (hs : Lasting s [])
    (hg : l.Guarded M s [] t) : Lasting u tasks ∧ l.Guarded M u tasks t := by
  have hi := h.invariant (I := fun u tasks => Lasting u tasks ∧ l.Guarded M u tasks t ∧
      ∀ task ∈ tasks, ∃ m : Move, task = .move m ∧ m.Prepares)
    ⟨hs, hg, by simp⟩
    (fun hm hi => ⟨hi.1.start hm.plain.lasting, hi.2.1.start _, by simpa using hm⟩)
    (fun {u task v ts k} hr hi => by
      obtain ⟨hl, hg, hmoves⟩ := hi
      obtain ⟨m, rfl, hm⟩ := hmoves task (.head k)
      have hsettles : (Task.move m).SettlesOnly M u := by
        refine ⟨?_, by simp⟩
        rintro c v htask
        cases htask
        exact hm.elim
      refine ⟨Lasting.step hr hl, hg.step hl hr hsettles, fun task htask => ?_⟩
      cases hr with
      | refuse h => exact h.elim
      | move =>
        rw [hm.quiet] at htask
        exact hmoves task (.tail _ htask))
  exact ⟨hi.1, hi.2.1⟩

theorem Steps.guarded_quiet (h : Steps Move.Prepares s u) (hs : Lasting s [])
    (hg : l.Guarded M s [] t) : l.Guarded M u [] t :=
  (h.visits.guarded_quiet hs hg).2

end Runs

/-! ## How guarded cells are made -/

section Making

variable {M : CellId → Prop} {s u : Store} {t source : CellId}

/-- A new cell that no one but the subscriber of its own move is going to settle. -/
theorem Store.attach_driven {kind : Kind} {make : CellId → Subscriber} (hl : Lasting s [])
    (hm : (Move.attach kind source make).Fits s) (hM : ¬ M s.cells.size) {V : Datum → Prop} :
    Driven M ((s.newDerived kind none).enqueue source (make s.cells.size)) [] s.cells.size
      (fun c sub => c = source ∧ sub = make s.cells.size) V := by
  refine ⟨by simp, ?_, hM, fun c sub hh ht => ?_, fun w hw => ?_⟩
  · rw [derived_enqueue, newDerived, cell_addCell, if_pos rfl]
  · obtain hh | ⟨hq, -⟩ := (Reacts.move hm).due (k := []) (hl.toValid.start _) hh
    · exact absurd ((hl.toValid.start _).target_lt hh ht) (lt_irrefl _)
    · exact hq
  · rw [value?_enqueue, value?_newDerived, if_pos rfl] at hw
    cases hw

theorem Store.tryMap_sourced {kind : Kind} {f : Datum → Except Error Datum} (hl : Lasting s [])
    (hc : source < s.cells.size) (hM : ¬ M s.cells.size)
    (h : Store.tryMap source kind f s = .ok t u) : Sourced M u [] t source f := by
  rw [tryMap_run] at h
  cases hv : s.value? source with
  | none =>
    have hfits : (Move.attach kind source (.derive · f)).Fits s :=
      ⟨hc, hv, rfl, by simp, by simp [newDerived, cell_addCell]⟩
    simp only [hv] at h
    cases h
    exact attach_driven hl hfits hM
  | some v =>
    cases hf : f v with
    | error e => simp [hv, hf] at h
    | ok w =>
      have hfits : (Move.create kind (some w) true).Fits s := trivial
      simp only [hv, hf] at h
      cases h
      refine ⟨by simp, ?_, hM, fun c sub hh ht => ?_, fun x hx => ?_⟩
      · rw [newDerived, cell_addCell, if_pos rfl]
      · obtain hh | ⟨hq, -⟩ := (Reacts.move hfits).due (k := []) (hl.toValid.start _) hh
        · exact absurd ((hl.toValid.start _).target_lt hh ht) (lt_irrefl _)
        · exact hq.elim
      · rw [value?_newDerived, if_pos rfl] at hx
        cases hx
        exact ⟨v, value?_newDerived_of_some s kind (some w) hv, hf⟩

theorem Store.follow_sourced (hl : Lasting s []) (hc : source < s.cells.size)
    (hM : ¬ M s.cells.size) (h : Store.follow source s = .ok t u) :
    Sourced M u [] t source .ok := by
  simp only [Store.follow, bind_run, kindOf_run] at h
  exact tryMap_sourced hl hc hM h

theorem Store.tryBind_guarded {kind : Kind} {choose : Datum → Except Error CellId}
    (hl : Lasting s []) (hc : source < s.cells.size)
    (hchoose : ∀ v inner, choose v = .ok inner → inner < s.cells.size) (hM : ¬ M s.cells.size)
    (h : Store.tryBind source kind choose s = .ok t u) :
    (Link.follow source choose).Guarded M u [] t := by
  simp only [tryBind, bind_run, valueOf_run] at h
  cases hv : s.value? source with
  | none =>
    have hfits : (Move.attach kind source (.follow · choose)).Fits s :=
      ⟨hc, hv, rfl, by simp, by simp [newDerived, cell_addCell],
        fun v inner hi => (hchoose v inner hi).trans (by simp)⟩
    have hd := attach_driven (V := fun _ => False) hl hfits hM
    simp only [hv] at h
    cases h
    exact ⟨hd.exist, hd.derived, hd.closed, fun c sub hh ht => .inl (hd.drivers c sub hh ht),
      fun w hw => (hd.value w hw).elim⟩
  | some v =>
    simp only [hv] at h
    obtain ⟨inner, s', hi, h⟩ := bind_eq_ok.1 h
    obtain ⟨hinner, rfl⟩ := ofExcept_eq_ok.1 hi
    have hd := follow_sourced hl (hchoose v inner hinner) hM h
    have hsteps := after_of_ok h ▸ steps_follow (hchoose v inner hinner)
    have hv' := hsteps.value?_eq (fun m hm => hm.plain.lasting) hl hv
    refine ⟨hd.exist, hd.derived, hd.closed, fun c sub hh ht => ?_, fun w hw => ?_⟩
    · obtain ⟨rfl, rfl⟩ := hd.drivers c sub hh ht
      exact .inr ⟨rfl, v, hv', hinner⟩
    · obtain ⟨x, hx, hxw⟩ := hd.value w hw
      cases hxw
      exact Link.value_follow.2 ⟨v, hv', inner, hinner, hx⟩

theorem Store.subtract_guarded {kind : IntKind} {minuend subtrahend : CellId} (hl : Lasting s [])
    (hm : minuend < s.cells.size) (hs : subtrahend < s.cells.size)
    (hM : ∀ c, M c → c < s.cells.size) (h : Store.subtract kind minuend subtrahend s = .ok t u) :
    (Link.minus kind minuend subtrahend).Guarded M u [] t := by
  have fresh : ∀ {c}, s.cells.size ≤ c → ¬ M c := fun hc h => absurd (hM _ h) (Nat.not_lt.2 hc)
  simp only [subtract, bind_run, valueOf_run] at h
  cases hv : s.value? minuend with
  | none =>
    have hfits : (Move.attach (.int kind) minuend (.minus · kind subtrahend)).Fits s :=
      ⟨hm, hv, rfl, by simp, by simp [newDerived, cell_addCell], hs.trans (by simp)⟩
    have hd := attach_driven (V := fun _ => False) hl hfits (fresh le_rfl)
    simp only [hv] at h
    cases h
    exact ⟨hd.exist, hd.derived, hd.closed, fun c sub hh ht => .inl (hd.drivers c sub hh ht),
      fun w hw => (hd.value w hw).elim⟩
  | some v =>
    simp only [hv] at h
    obtain ⟨inner, s', hi, h⟩ := bind_eq_ok.1 h
    have hsteps : Steps Move.Creates s s' := after_of_ok hi ▸ steps_tryMap hs ..
    have hl' := hsteps.lasting (fun m hm => hm.plain.lasting) hl
    obtain ⟨rfl, hsize⟩ := tryMap_eq_ok hi
    have hlt : s.cells.size < s'.cells.size := by omega
    have hsteps' : Steps Move.Creates s' u := after_of_ok h ▸ steps_follow hlt
    have hinner : Sourced M u [] s.cells.size subtrahend (Datum.difference kind v) :=
      ((hsteps'.mono fun _ => Move.Creates.prepares).guarded_quiet hl'
        (tryMap_sourced hl hs (fresh le_rfl) hi).guarded).sourced
    have hd := follow_sourced (M := M) hl' hlt (fresh hlt.le) h
    have hv' := (hsteps.trans hsteps').value?_eq (fun m hm => hm.plain.lasting) hl hv
    refine ⟨hd.exist, hd.derived, hd.closed, fun c sub hh ht => ?_, fun w hw => ?_⟩
    · obtain ⟨rfl, rfl⟩ := hd.drivers c sub hh ht
      exact .inr ⟨rfl, v, hv', hinner⟩
    · obtain ⟨x, hx, hxw⟩ := hd.value w hw
      cases hxw
      obtain ⟨y, hy, hd⟩ := hinner.value w hx
      exact Link.value_minus.2 ⟨v, hv', y, hy, hd⟩

end Making

end Backpatch
