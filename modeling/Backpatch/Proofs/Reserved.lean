import Mathlib
import Backpatch.Proofs.Flattening

/-!
# Reserved cells

The cells from `lo` up to `hi` are reserved when nothing outside refers to them: no name, no
subscription, and no subscriber that waits for another cell. Whatever is set off outside then leaves
them, and the fields that belong to them, as they are (`Steps.frame`).
-/

namespace Backpatch

open Store

/-- The cell is none of those from `lo` up to `hi`. -/
def Outside (lo hi c : Nat) : Prop := c < lo ∨ hi ≤ c

def Target.Spares (lo hi : Nat) : Target → Prop
  | .cell c => Outside lo hi c
  | .named _ => True

/-- The action refers to no reserved cell. -/
def Action.Spares (lo hi : Nat) : Action → Prop
  | .done | .log _ | .fail _ | .unsubscribe _ => True
  | .forward t | .resolve t _ | .confirm t _ | .unresolve t => t.Spares lo hi
  | .watch t a => t.Spares lo hi ∧ a.Spares lo hi
  | .andThen a b => a.Spares lo hi ∧ b.Spares lo hi

def Subscriber.Spares (lo hi : Nat) : Subscriber → Prop
  | .derive target _ => Outside lo hi target
  | .follow target choose =>
    Outside lo hi target ∧ ∀ v inner, choose v = .ok inner → Outside lo hi inner
  | .minus target _ subtrahend => Outside lo hi target ∧ Outside lo hi subtrahend
  | .patch _ => True
  | .act a => a.Spares lo hi

/-- The move notes something, appends bytes, or settles or places a cell that is not reserved. -/
def Move.Spares (lo hi : Nat) : Move → Prop
  | .journal .. | .append .. => True
  | .settle c _ | .place _ _ c _ => Outside lo hi c
  | _ => False

def Task.Spares (lo hi : Nat) : Task → Prop
  | .move m => m.Spares lo hi
  | .notify c sub _ => Outside lo hi c ∧ sub.Spares lo hi
  | .act a _ => a.Spares lo hi

/-- Neither a name nor a subscription stands for one of the cells from `lo` up to `hi`, which
exist. -/
structure Unnamed (lo hi : Nat) (s : Store) : Prop where
  size : hi ≤ s.cells.size
  names : ∀ p ∈ s.names, Outside lo hi p.2
  subscriptions : ∀ p ∈ s.subscriptions, Outside lo hi p.2.cell

/-- Nothing outside refers to the cells from `lo` up to `hi`, which exist. -/
structure Reserved (lo hi : Nat) (s : Store) : Prop where
  size : hi ≤ s.cells.size
  names : ∀ p ∈ s.names, Outside lo hi p.2
  subscriptions : ∀ p ∈ s.subscriptions, Outside lo hi p.2.cell
  queues : ∀ c, Outside lo hi c → ∀ q ∈ (s.cell c).queue, q.2.Spares lo hi

variable {lo hi : Nat} {s t u : Store} {task : Task} {ts k : List Task}

theorem Reserved.unnamed (h : Reserved lo hi s) : Unnamed lo hi s :=
  ⟨h.size, h.names, h.subscriptions⟩

/-! ## Cells -/

/-- Reserved cells stay, and new subscribers refer to none of them. -/
structure Spared (lo hi : Nat) (s t : Store) : Prop where
  cells : ∀ c : Nat, lo ≤ c → c < hi → t.cell c = s.cell c
  queues : ∀ c, ∀ q ∈ (t.cell c).queue, q ∈ (s.cell c).queue ∨ q.2.Spares lo hi

namespace Spared

theorem refl (s : Store) : Spared lo hi s s := ⟨fun _ _ _ => rfl, fun _ _ => .inl⟩

/-- Only the cells matter. -/
theorem congr (h : Spared lo hi s t) (ht : u.cells = t.cells) : Spared lo hi s u := by
  have hcell : ∀ c, u.cell c = t.cell c := fun c => by rw [cell, cell, ht]
  exact ⟨fun c hlo hhi => (hcell c).trans (h.cells c hlo hhi),
    fun c q hq => h.queues c q (hcell c ▸ hq)⟩

theorem trans (h : Spared lo hi s t) (g : Spared lo hi t u) : Spared lo hi s u where
  cells c hlo hhi := (g.cells c hlo hhi).trans (h.cells c hlo hhi)
  queues c q hq := (g.queues c q hq).elim (h.queues c q) .inr

theorem modifyCell {c : Nat} (hc : Outside lo hi c) {f : Cell → Cell}
    (hf : ∀ q ∈ (f (s.cell c)).queue, q ∈ (s.cell c).queue ∨ q.2.Spares lo hi) :
    Spared lo hi s (s.modifyCell c f) where
  cells d hlo hhi := by
    rw [cell_modifyCell, if_neg]
    rintro ⟨rfl, -⟩
    exact hc.elim (Nat.not_lt.2 hlo) (Nat.not_le.2 hhi)
  queues d q hq := by
    rw [cell_modifyCell] at hq
    split_ifs at hq with hd
    · rw [hd.1]
      exact hf q hq
    · exact .inl hq

theorem enqueue {c : CellId} (hc : Outside lo hi c) {sub : Subscriber} (hs : sub.Spares lo hi) :
    Spared lo hi s (s.enqueue c sub) := by
  refine congr (modifyCell hc (f := (·.push sub)) fun q hq => ?_) rfl
  obtain hq | hq := List.mem_append.1 hq
  · exact .inl hq
  · obtain rfl := List.mem_singleton.1 hq
    exact .inr hs

theorem fire {c : CellId} (hc : Outside lo hi c) (v : Datum) : Spared lo hi s (s.fire c v).1 := by
  obtain ⟨_, -, hf⟩ | ⟨-, hf⟩ := fire_cases s c v
  · rw [hf]
    exact refl s
  · rw [hf]
    exact modifyCell hc fun q hq => by simp at hq

theorem newDerived (hsize : hi ≤ s.cells.size) (kind : Kind) (value : Option Datum) :
    Spared lo hi s (s.newDerived kind value) where
  cells c _ hhi := by
    rw [Store.newDerived, cell_addCell, if_neg (Nat.ne_of_lt (hhi.trans_le hsize))]
  queues c q hq := .inl (mem_queue_addCell s c hq)

end Spared

theorem Unnamed.find? (h : Unnamed lo hi s) {t : Target} (ht : t.Spares lo hi) {c : CellId}
    (hc : s.find? t = some c) : Outside lo hi c := by
  cases t with
  | cell d =>
    obtain rfl := Option.some.inj hc
    exact ht
  | named name =>
    obtain ⟨l₁, l₂, hl, -⟩ := List.lookup_eq_some_iff.1 hc
    exact h.names (name, c) (hl ▸ List.mem_append_right _ (.head _))

theorem Unnamed.assigns? (h : Unnamed lo hi s) {a : Action} (ha : a.Spares lo hi) {v w : Datum}
    {c : CellId} (hc : a.assigns? s v = some (c, w)) : Outside lo hi c := by
  cases a with
  | forward t =>
    obtain ⟨d, hd, he⟩ := Option.map_eq_some_iff.1 hc
    cases he
    exact h.find? ha hd
  | resolve t w' | confirm t w' =>
    obtain ⟨d, hd, hw⟩ := Option.bind_eq_some_iff.1 hc
    obtain ⟨x, -, he⟩ := Option.map_eq_some_iff.1 hw
    cases he
    exact h.find? ha hd
  | done | log | fail | unresolve | watch | unsubscribe | andThen => simp [Action.assigns?] at hc

/-- What happens outside spares the reserved cells. -/
theorem Reacts.spared (hr : Reacts s task t ts) (h : Unnamed lo hi s) (htask : task.Spares lo hi) :
    Spared lo hi s t := by
  cases hr with
  | @move m hm =>
    cases m with
    | journal | append => exact (Spared.refl s).congr rfl
    | settle c v => exact .fire htask v
    | place i format c label =>
      have hpatch : (Subscriber.patch s.placeholders.size).Spares lo hi := trivial
      exact (Spared.enqueue htask hpatch).congr rfl
    | _ => exact htask.elim
  | refuse | start | watch | andThen => exact .refl s
  | patch | log => exact (Spared.refl s).congr rfl
  | derive => exact .fire htask.2 _
  | follow => exact .fire htask.2.1 _
  | followLater hc => exact .enqueue (htask.2.2 _ _ hc) htask.2.1
  | minus => exact (Spared.newDerived h.size ..).trans (.fire htask.2.1 _)
  | minusLater =>
    refine ((Spared.newDerived h.size ..).trans (.enqueue htask.2.2 ?_)).trans
      (.enqueue ?_ htask.2.1)
    · exact .inr h.size
    · exact .inr h.size
  | assign ha => exact .fire (h.assigns? htask ha) _
  | unresolve hc => exact .modifyCell (h.find? htask hc) fun q hq => .inl hq
  | watchLater hc => exact .enqueue (h.find? htask.1 hc) htask.2
  | unsubscribe hsub =>
    obtain ⟨l₁, l₂, hl, -⟩ := List.lookup_eq_some_iff.1 hsub
    have hcell := h.subscriptions _ (hl ▸ List.mem_append_right _ (.head _))
    refine (Spared.modifyCell hcell (f := (·.remove _)) fun q hq => ?_).congr rfl
    exact .inl (List.mem_of_mem_filter hq)

/-- What happens outside sets off nothing that refers to unnamed cells, unless a subscriber does. -/
theorem Reacts.spares (hr : Reacts s task t ts) (h : Unnamed lo hi s) (htask : task.Spares lo hi)
    (hqueues : ∀ c v, Outside lo hi c → ∀ q ∈ (s.cell c).queue, .notify c q.2 v ∈ ts →
      q.2.Spares lo hi) : ∀ x ∈ ts, x.Spares lo hi := by
  have fired : ∀ {c v}, Outside lo hi c → ts = (s.fire c v).2 → ∀ x ∈ ts, x.Spares lo hi := by
    rintro c v hc rfl x hx
    obtain ⟨q, hq, rfl, -⟩ := mem_fire s c v hx
    exact ⟨hc, hqueues c v hc q hq hx⟩
  cases hr with
  | @move m hm =>
    cases m with
    | journal | append | place => simp [Move.apply]
    | settle => exact fired htask rfl
    | _ => exact htask.elim
  | refuse | followLater | minusLater | patch | log | unresolve | watchLater | unsubscribe => simp
  | derive => exact fired htask.2 rfl
  | follow => exact fired htask.2.1 rfl
  | minus =>
    intro x hx
    obtain ⟨q, hq, rfl, -⟩ := mem_fire _ _ _ hx
    exact ⟨htask.2.1, hqueues _ _ htask.2.1 q (mem_queue_addCell _ _ hq) hx⟩
  | assign ha => exact fired (h.assigns? htask ha) rfl
  | start => exact List.forall_mem_singleton.2 htask.2
  | watch => exact List.forall_mem_singleton.2 htask.2
  | andThen => exact List.forall_mem_cons.2 ⟨htask.1, List.forall_mem_singleton.2 htask.2⟩

theorem Reacts.names_eq (hr : Reacts s task t ts) (htask : task.Spares lo hi) :
    t.names = s.names ∧ t.subscriptions = s.subscriptions := by
  cases hr with
  | @move m hm =>
    cases m with
    | journal | append | place => exact ⟨rfl, rfl⟩
    | settle => exact ⟨fire_names .., fire_subscriptions ..⟩
    | _ => exact htask.elim
  | derive | follow | assign => exact ⟨fire_names .., fire_subscriptions ..⟩
  | minus => exact ⟨fire_names (s.newDerived ..) .., fire_subscriptions (s.newDerived ..) ..⟩
  | refuse | followLater | minusLater | patch | start | log | unresolve | watch | watchLater
  | unsubscribe | andThen => exact ⟨rfl, rfl⟩

theorem Unnamed.step (hr : Reacts s task t ts) (h : Unnamed lo hi s)
    (htask : task.Spares lo hi) : Unnamed lo hi t where
  size := h.size.trans hr.grows.cells
  names := (hr.names_eq htask).1 ▸ h.names
  subscriptions := (hr.names_eq htask).2 ▸ h.subscriptions

theorem Reserved.step (hr : Reacts s task t ts) (h : Reserved lo hi s)
    (htask : task.Spares lo hi) : Reserved lo hi t :=
  { h.unnamed.step hr htask with
    queues := fun c hc q hq =>
      ((hr.spared h.unnamed htask).queues c q hq).elim (h.queues c hc q) fun hq => hq }

/-! ## Cells and their fields -/

/-- The cells in `C` are the same in both stores, and so are the fields that belong to them. -/
structure Same (C : Nat → Prop) (s t : Store) : Prop where
  cells : ∀ c, C c → t.cell c = s.cell c
  fields : ∀ (f : FieldId) (p : Placeholder), s.placeholders[f]? = some p → C p.cell →
    t.placeholders[f]? = some p ∧
      (t.image p.image).slice p.offset p.width = (s.image p.image).slice p.offset p.width

namespace Same

variable {C D : Nat → Prop}

theorem refl (s : Store) : Same C s s := ⟨fun _ _ => rfl, fun _ _ hp _ => ⟨hp, rfl⟩⟩

theorem trans (h : Same C s t) (g : Same C t u) : Same C s u where
  cells c hc := (g.cells c hc).trans (h.cells c hc)
  fields f p hp hc := by
    obtain ⟨hp', hs⟩ := h.fields f p hp hc
    obtain ⟨hp'', hs'⟩ := g.fields f p hp' hc
    exact ⟨hp'', hs'.trans hs⟩

theorem mono (h : Same C s t) (hD : ∀ c, D c → C c) : Same D s t :=
  ⟨fun c hc => h.cells c (hD c hc), fun f p hp hc => h.fields f p hp (hD _ hc)⟩

end Same

/-- A reaction outside leaves the fields of reserved cells as they are. -/
theorem Reacts.same (hr : Reacts s task t ts) (hv : Valid s (task :: k)) (h : Reserved lo hi s)
    (htask : task.Spares lo hi) : Same (fun c => lo ≤ c ∧ c < hi) s t where
  cells c hc := (hr.spared h.unnamed htask).cells c hc.1 hc.2
  fields f p hp hc := by
    -- A patch that runs outside belongs to a cell outside, so it is for another field.
    have other : ∀ c g v, task = .notify c (.patch g) v → g ≠ f := by
      rintro c g v rfl rfl
      obtain ⟨q, hq, rfl⟩ := hv.running c (.patch g) v (.head k)
      obtain rfl := Option.some.inj (hp.symm.trans hq)
      exact htask.1.elim (Nat.not_lt.2 hc.1) (Nat.not_le.2 hc.2)
    constructor
    · obtain ⟨-, heq⟩ | ⟨c, g, v, q, bs, hpatch, -, -, -, rfl⟩ | ⟨m, rfl, -, -, rfl⟩ := hr.draws
      · rw [heq, hp]
      · change (s.placeholders.modify g _)[f]? = some p
        rw [Array.getElem?_modify, if_neg (other c g v hpatch), hp]
      · cases m with
        | append => exact hp
        | place i format c label =>
          change (s.placeholders.push _)[f]? = some p
          rw [Array.getElem?_push, if_neg (Nat.ne_of_lt (Array.getElem?_eq_some_iff.1 hp).1), hp]
        | journal => exact hp
        | settle => exact (congrArg (·[f]?) (fire_placeholders ..)).trans hp
        | _ => exact htask.elim
    · refine hr.slice_eq (hv.fields f p hp).2.2 ?_ fun c g v q hpatch hq hi => ?_
      · rintro o bs note rfl
        exact htask
      · obtain hfg | hgf := Nat.lt_or_gt_of_ne (other c g v hpatch)
        · exact .inr (hv.apart g f q p hfg hq hp hi)
        · exact .inl (hv.apart f g p q hgf hp hq hi.symm)

/-- Moves outside leave the reserved cells and their fields as they are. -/
theorem Steps.frame {P : Move → Prop} (hst : Steps P s t) (hP : ∀ m, P m → m.Spares lo hi)
    (hv : Valid s []) (h : Reserved lo hi s) :
    Reserved lo hi t ∧ Same (fun c => lo ≤ c ∧ c < hi) s t := by
  refine (hst.invariant (I := fun u tasks => (Valid u tasks ∧ ∀ x ∈ tasks, x.Spares lo hi) ∧
    Reserved lo hi u ∧ Same (fun c => lo ≤ c ∧ c < hi) s u) (fun hm hi => ?_) (fun hr hi => ?_)
    ⟨⟨hv, by simp⟩, h, .refl s⟩).2
  · exact ⟨⟨hi.1.1.start _, List.forall_mem_singleton.2 (hP _ hm)⟩, hi.2⟩
  · obtain ⟨⟨hv, hspares⟩, hr', hsame⟩ := hi
    have htask := hspares _ (.head _)
    refine ⟨⟨Valid.step hr hv, fun x hx => ?_⟩, hr'.step hr htask,
      hsame.trans (hr.same hv hr' htask)⟩
    obtain hx | hx := List.mem_append.1 hx
    · exact hr.spares hr'.unnamed htask (fun c _ hc q hq _ => hr'.queues c hc q hq) x hx
    · exact hspares x (.tail _ hx)

end Backpatch
