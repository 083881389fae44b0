import Mathlib
import Backpatch.Proofs.Outcomes
import Backpatch.Proofs.Links

/-!
# Smooth runs

A run is smooth if all its moves, and all reactions to them, are smooth (`SmoothSteps`). On the way
the subscribers of the store in which the run began are kept until they run (`SmoothFrom`, `Due`).
At rest each of them still waits for a pending cell, or has run smoothly; then the cells have the
values that the subscriber asks for (`SmoothSteps.agrees`).
-/

namespace Backpatch

open Store Failable

/-! ## Whoever waits, waits for a pending cell -/

/-- Where someone waits, the value is not known. -/
def Drained (s : Store) : Prop := ∀ c, ∀ q ∈ (s.cell c).queue, s.value? c = none

namespace Drained

variable {s t : Store} {task : Task} {ts k : List Task} {c : CellId}

theorem empty : Drained {} := fun c q hq => by simp [Store.cell] at hq

theorem of_cells (h : Drained s) (hc : t.cells = s.cells) : Drained t := by
  intro c q hq
  simp only [value?, cell, hc] at hq ⊢
  exact h c q hq

theorem fire (h : Drained s) (d : CellId) (v : Datum) : Drained (s.fire d v).1 := by
  obtain ⟨x, -, hf⟩ | ⟨-, hf⟩ := fire_cases s d v
  · rwa [hf]
  · rw [hf]
    intro c q hq
    rw [value?, cell_delivered] at *
    split_ifs at hq ⊢
    · simp at hq
    · exact h c q hq

theorem enqueue (h : Drained s) (sub : Subscriber) (hc : s.value? c = none) :
    Drained (s.enqueue c sub) := by
  intro d q hq
  rw [value?_enqueue]
  obtain hq | ⟨rfl, -⟩ := mem_queue_enqueue s c d sub hq
  · exact h d q hq
  · exact hc

theorem withdrawn (h : Drained s) (d : CellId) (id : Nat) : Drained (s.withdrawn d id) := by
  intro c q hq
  rw [value?_withdrawn]
  exact h c q (mem_queue_withdrawn s d c hq)

theorem addCell (h : Drained s) (kind : Kind) (value : Option Datum) (derived : Bool) :
    Drained (s.addCell { kind, value, derived }) := by
  intro c q hq
  have hq := mem_queue_addCell s c hq
  rw [value?_addCell, if_neg (Nat.ne_of_lt (lt_size_of_queue s c hq))]
  exact h c q hq

theorem newDerived (h : Drained s) (kind : Kind) (value : Option Datum) :
    Drained (s.newDerived kind value) :=
  h.addCell _ _ _

theorem move {m : Move} (h : Drained s) (hm : m.Lasting) (hf : m.Fits s) :
    Drained (m.apply s).1 := by
  cases m with
  | journal | define | run | newImage | append | overwrite => exact h.of_cells rfl
  | create => exact h.addCell _ _ _
  | attach kind source sub =>
    refine (h.newDerived kind none).enqueue _ ?_
    rw [value?_newDerived, if_neg (Nat.ne_of_lt hf.1)]
    exact hf.2.1
  | watch => exact h.enqueue _ hf.2.1
  | resolve | settle => exact h.fire _ _
  | unresolve => exact hm.elim
  | unsubscribe => exact h.withdrawn _ _
  | place i format c label =>
    have himage : Drained (s.modifyImage i (·.append format.placeholder
      ((Format.fixed format).describe none label))) := h.of_cells rfl
    exact (himage.enqueue (.patch s.placeholders.size) hf.2.2).of_cells rfl

theorem step (hl : Lasting s (task :: k)) (hr : Reacts s task t ts) (h : Drained s) :
    Drained t := by
  cases hr with
  | move hf => exact h.move (hl.moves _ (.head k)) hf
  | refuse | start | watch | andThen => exact h
  | patch | log => exact h.of_cells rfl
  | derive | follow | assign => exact h.fire _ _
  | followLater _ hw => exact h.enqueue _ hw
  | watchLater _ hw => exact h.enqueue _ hw
  | minus => exact (h.newDerived _ _).fire _ _
  | @minusLater _ target kind subtrahend v hy =>
    have hsub : subtrahend < s.cells.size := (hl.running _ _ _ (.head k)).2.2
    refine ((h.newDerived _ _).enqueue _ ?_).enqueue _ ?_
    · rwa [value?_newDerived, if_neg (Nat.ne_of_lt hsub)]
    · simp [value?_newDerived]
  | unresolve => exact (hl.planned _ (.head k)).elim
  | unsubscribe => exact (h.withdrawn _ _).of_cells rfl

end Drained

theorem Run.drained {calls : List Call} {s : Store} (h : Run {} calls s)
    (hc : ∀ call ∈ calls, call.Lasting) : Drained s :=
  (h.steps (P := Move.Lasting) Valid.empty fun call hm _ => (hc call hm).makes).keep
    (F := Drained) (fun _ hm => hm) Lasting.empty (fun hl _ hr hi => hi.step hl hr) Drained.empty

/-! ## Stores on a smooth way -/

/-- A store on a smooth way from the store `o`, with the tasks that are left. -/
structure SmoothFrom (o s : Store) (tasks : List Task) : Prop extends Lasting s tasks where
  origin : Valid o []
  numbered : Numbered s
  drained : Drained s
  derivations : ∀ c, ∀ q ∈ (s.cell c).queue, q.2.SolidDerivation
  ready : ∀ c sub v, .notify c sub v ∈ tasks → sub.SolidDerivation
  grows : Grows o s
  lasts : ∀ c v, o.value? c = some v → s.value? c = some v
  undriven : ∀ c, c < o.cells.size → o.drivers [] c = 0 → s.drivers tasks c = 0

theorem Move.Smooth.lasting {o s : Store} {m : Move} (h : m.Smooth o s) : m.Lasting := by
  cases m with
  | unresolve | watch | run => exact h.elim
  | _ => trivial

section SmoothFrom

variable {o s t : Store} {task : Task} {ts k : List Task}

theorem SmoothFrom.refl (hl : Lasting o []) (hn : Numbered o) (hi : Drained o)
    (hf : ∀ c, ∀ q ∈ (o.cell c).queue, q.2.SolidDerivation) : SmoothFrom o o [] :=
  { hl with
    origin := hl.toValid
    numbered := hn
    drained := hi
    derivations := hf
    ready := by simp
    grows := .refl o
    lasts := fun _ _ h => h
    undriven := fun _ _ h => h }

theorem SmoothFrom.start {m : Move} (hm : m.Lasting) (h : SmoothFrom o s []) :
    SmoothFrom o s [.move m] :=
  { h with
    toLasting := h.toLasting.start hm
    ready := by simp
    undriven := h.undriven }

theorem SmoothFrom.step (hs : task.Smooth o s) (hr : Reacts s task t ts)
    (h : SmoothFrom o s (task :: k)) :
    SmoothFrom o t (ts ++ k) where
  toLasting := Lasting.step hr h.toLasting
  origin := h.origin
  numbered := h.numbered.step h.toValid hr
  drained := h.drained.step h.toLasting hr
  derivations c q hq := by
    obtain hthin | ⟨sub, hsub, -, hpush⟩ := hr.queue_cases h.toValid c
    · exact h.derivations c q (hthin.1 hq)
    · rw [hpush.1] at hq
      obtain hq | hq := List.mem_append.1 hq
      · exact h.derivations c q hq
      · rw [List.mem_singleton.1 hq]
        cases task with
        | move m =>
          cases m with
          | place =>
            rw [hsub.2]
            exact ⟨rfl, trivial⟩
          | attach | watch => exact hs.elim
          | _ => exact hsub.elim
        | notify => exact hsub.solidDerivation
        | act => exact hs.elim
  ready c sub v hx := by
    obtain hx | hx := List.mem_append.1 hx
    · obtain ⟨⟨q, hq, rfl⟩, -⟩ := hr.notified hx
      exact h.derivations c q hq
    · exact h.ready c sub v (.tail _ hx)
  grows := h.grows.trans hr.grows
  lasts c v hv := h.value?_step hr (h.lasts c v hv)
  undriven c hc hd := by
    have hzero := h.undriven c hc hd
    have hle := hr.drivers_le k c
    rw [if_neg (Nat.ne_of_gt (hc.trans_le h.grows.cells))] at hle
    omega

/-- What a move sets off that settles a cell. -/
theorem SmoothFrom.derivations_fire {c : CellId} {v : Datum} (h : SmoothFrom o s [])
    (hc : c < s.cells.size) :
    SolidDerivations (s.fire c v).1 (s.fire c v).2 where
  toValid := by
    have hstep := Valid.step (Reacts.move (m := .settle c v) hc) (h.toValid.start _)
    rwa [List.append_nil] at hstep
  waiting d q hq := h.derivations d q (mem_queue_fire s c d v hq)
  ready x hx := by
    obtain ⟨q, hq, rfl, -⟩ := mem_fire s c v hx
    exact ⟨c, q.2, v, rfl, h.derivations c q hq⟩

end SmoothFrom

/-! ## Smooth runs -/

/-- Smooth moves that satisfy `P`, each carried out smoothly to the end, lead from the first store
to the second. -/
def SmoothSteps (o : Store) (P : Move → Prop) : Store → Store → Prop :=
  Relation.ReflTransGen fun s t => ∃ m, P m ∧ SmoothCascade o s [.move m] t []

theorem SmoothCascade.smooth {o s t : Store} {m : Move} (h : SmoothCascade o s [.move m] t []) :
    m.Smooth o s := by
  cases h with
  | step hs => exact hs

namespace SmoothSteps

variable {o s t u : Store} {P Q : Move → Prop}

theorem refl (s : Store) : SmoothSteps o P s s := Relation.ReflTransGen.refl

theorem trans (h : SmoothSteps o P s t) (g : SmoothSteps o P t u) : SmoothSteps o P s u :=
  Relation.ReflTransGen.trans h g

theorem single {m : Move} (hm : P m) (h : SmoothCascade o s [.move m] t []) : SmoothSteps o P s t :=
  Relation.ReflTransGen.single ⟨m, hm, h⟩

theorem mono (h : SmoothSteps o P s t) (hPQ : ∀ m, P m → Q m) : SmoothSteps o Q s t :=
  Relation.ReflTransGen.mono (fun _ _ ⟨m, hm, hc⟩ => ⟨m, hPQ m hm, hc⟩) _ _ h

/-- A smooth move that sets nothing off. -/
theorem quiet {m : Move} (hm : P m) (hs : m.Smooth o s) (hf : m.Fits s)
    (hq : (m.apply s).2 = []) : SmoothSteps o P s (m.apply s).1 := by
  refine single hm (.step hs (.move hf) ?_)
  rw [hq]
  exact .refl _ _

theorem steps (h : SmoothSteps o P s t) : Steps P s t :=
  Relation.ReflTransGen.mono (fun _ _ ⟨m, hm, hc⟩ => ⟨m, hm, hc.cascade⟩) _ _ h

/-- What smooth moves bring about and every smooth reaction keeps holds after a smooth run. -/
theorem invariant {I : Store → List Task → Prop}
    (start : ∀ {s m}, P m → m.Smooth o s → I s [] → I s [.move m])
    (step : ∀ {s task t ts k}, task.Smooth o s → Reacts s task t ts → I s (task :: k) →
      I t (ts ++ k))
    (h : SmoothSteps o P s t) (hi : I s []) : I t [] := by
  induction h with
  | refl => exact hi
  | tail _ hstep ih =>
    obtain ⟨m, hm, hreactions⟩ := hstep
    exact hreactions.invariant step (start hm hreactions.smooth ih)

theorem smoothFrom (h : SmoothSteps o P s t) (hs : SmoothFrom o s []) : SmoothFrom o t [] :=
  h.invariant (I := SmoothFrom o) (fun _ hm hc => hc.start hm.lasting) SmoothFrom.step hs

/-- What a smooth run brings about by moves that satisfy `P`, where the moves are kept in mind. -/
theorem invariant_moves {I : Store → List Task → Prop}
    (start : ∀ {s m}, P m → m.Smooth o s → I s [] → I s [.move m])
    (step : ∀ {s task t ts k}, (∀ m, task = .move m → P m) → task.Smooth o s →
      Reacts s task t ts → I s (task :: k) → I t (ts ++ k))
    (h : SmoothSteps o P s t) (hi : I s []) : I t [] := by
  refine (h.invariant (I := fun s tasks => (∀ m, .move m ∈ tasks → P m) ∧ I s tasks)
    (fun hm hs hi => ⟨by simpa using hm, start hm hs hi.2⟩)
    (fun {s task t ts k} hs hr hi => ⟨fun m hm => hi.1 m (hr.move_mem hm), ?_⟩) ⟨by simp, hi⟩).2
  exact step (fun m hm => hi.1 m (hm ▸ .head k)) hs hr hi.2

end SmoothSteps

section Values

variable {o s t : Store} {task : Task} {ts : List Task} {c : CellId}

/-- A pending cell stays pending, unless a move settles it or a subscriber that is to settle it
runs. -/
theorem Reacts.pending (hr : Reacts s task t ts) (hs : task.Smooth o s)
    (hc : c < s.cells.size) (hv : s.value? c = none)
    (hmove : ∀ v, task ≠ .move (.resolve c v) ∧ task ≠ .move (.settle c v))
    (hdrives : task.drives c = 0) : t.value? c = none := by
  have new : ∀ kind value, (s.newDerived kind value).value? c = none := by
    intro kind value
    rwa [value?, cell_newDerived_of_lt s kind value hc]
  cases hr with
  | @move m hm =>
    cases m with
    | journal | newImage | append => exact hv
    | resolve d w =>
      have hne : c ≠ d := fun hcd => (hmove w).1 (hcd ▸ rfl)
      change (s.fire d w).1.value? c = none
      rwa [value?, cell_fire_of_ne s w hne]
    | settle d w =>
      have hne : c ≠ d := fun hcd => (hmove w).2 (hcd ▸ rfl)
      change (s.fire d w).1.value? c = none
      rwa [value?, cell_fire_of_ne s w hne]
    | unsubscribe d id => exact (value?_withdrawn s d c id).trans hv
    | place i format d label => exact (value?_enqueue (s.modifyImage i _) d c _).trans hv
    | _ => exact hs.elim
  | refuse | patch => exact hv
  | derive | follow => rwa [value?, cell_fire_of_ne s _ (Task.target_ne rfl hdrives)]
  | followLater => rwa [value?_enqueue]
  | minus =>
    rw [value?, cell_fire_of_ne _ _ (Task.target_ne rfl hdrives)]
    exact new ..
  | minusLater =>
    rw [value?_enqueue, value?_enqueue]
    exact new ..
  | start | log | assign | unresolve | watch | watchLater | unsubscribe | andThen => exact hs.elim

end Values

namespace SmoothSteps

variable {o s t : Store} {P : Move → Prop} {c : CellId}

/-- A cell that nothing drives stays pending until a move settles it. -/
theorem pending (h : SmoothSteps o P s t) (hs : SmoothFrom o s []) (hc : c < o.cells.size)
    (hd : o.drivers [] c = 0) (hP : ∀ m, P m → ∀ v, m ≠ .resolve c v ∧ m ≠ .settle c v)
    (hv : s.value? c = none) : t.value? c = none := by
  refine (h.invariant_moves (I := fun s tasks => SmoothFrom o s tasks ∧ s.value? c = none)
    (fun _ hm hi => ⟨hi.1.start hm.lasting, hi.2⟩)
    (fun {s task t ts k} hm hs hr hi => ⟨hi.1.step hs hr, ?_⟩) ⟨hs, hv⟩).2
  have hzero := hi.1.undriven c hc hd
  rw [drivers_cons] at hzero
  refine hr.pending hs (hc.trans_le hi.1.grows.cells) hi.2 (fun v => ?_) (by omega)
  exact ⟨fun htask => (hP _ (hm _ htask) v).1 rfl, fun htask => (hP _ (hm _ htask) v).2 rfl⟩

theorem value?_eq {v : Datum} (h : SmoothSteps o P s t) (hs : SmoothFrom o s [])
    (hv : s.value? c = some v) :
    t.value? c = some v :=
  (h.invariant (I := fun s tasks => SmoothFrom o s tasks ∧ s.value? c = some v)
    (fun _ hm hi => ⟨hi.1.start hm.lasting, hi.2⟩)
    (fun hs hr hi => ⟨hi.1.step hs hr, hi.1.value?_step hr hi.2⟩) ⟨hs, hv⟩).2

end SmoothSteps

/-! ## What subscribers ask for -/

/-- The values `W` are those that the subscriber, if it waits for `c`, asks for, and the cell that
it is to settle is pending. -/
def Subscriber.Agrees (s : Store) (W : CellId → Option Datum) (c : CellId) : Subscriber → Prop
  | .derive t f => ∀ x, W c = some x → ∃ w, f x = .ok w ∧ W t = some w ∧ s.value? t = none
  | .follow t choose => ∀ x, W c = some x → ∃ inner, choose x = .ok inner ∧
      ∀ w, W inner = some w → W t = some w ∧ s.value? t = none
  | .minus t kind d => ∀ x y, W c = some x → W d = some y →
      ∃ w, Datum.difference kind x y = .ok w ∧ W t = some w ∧ s.value? t = none
  | .patch f => ∀ x p, W c = some x → s.placeholders[f]? = some p →
      ∃ bs, p.format.encode x = .ok bs
  | .act _ => False

/-- A subscriber that derives `t` from `c` waits or is about to run, or it ran and settled `t`. -/
def Served (o s : Store) (tasks : List Task) (c t : CellId) (f : Datum → Except Error Datum) :
    Prop :=
  Due s tasks c (.derive t f) ∨
    ∃ v w, s.value? c = some v ∧ f v = .ok w ∧ s.value? t = some w ∧ o.value? t = none

/-- The subscriber, which waited for `c` in the store `o`, still does or is about to run, or it ran
and all went well. -/
def Subscriber.Tracked (o s : Store) (tasks : List Task) (c : CellId) : Subscriber → Prop
  | .derive t f => Served o s tasks c t f
  | .follow t choose => Due s tasks c (.follow t choose) ∨
      ∃ v inner, s.value? c = some v ∧ choose v = .ok inner ∧ Served o s tasks inner t .ok
  | .minus t kind d => Due s tasks c (.minus t kind d) ∨
      ∃ v m, s.value? c = some v ∧ Served o s tasks d m (Datum.difference kind v) ∧
        Served o s tasks m t .ok
  | .patch f => Due s tasks c (.patch f) ∨ ∃ v p bs, s.value? c = some v ∧
      o.placeholders[f]? = some p ∧ p.format.encode v = .ok bs
  | .act _ => False

section Due

variable {o s t : Store} {task : Task} {ts k : List Task} {c d : CellId} {sub : Subscriber}

/-- A subscriber that is not taken back waits until its cell is settled, then it is about to run. -/
theorem Reacts.queue_smooth (hr : Reacts s task t ts) (hs : task.Smooth o s) (hi : Drained s)
    {id : Nat} (hq : (id, sub) ∈ (s.cell c).queue)
    (hkept : task ≠ .move (.unsubscribe c id)) :
    (id, sub) ∈ (t.cell c).queue ∨ ∃ v, .notify c sub v ∈ ts := by
  have hv := hi c _ hq
  have new : ∀ kind value, (id, sub) ∈ ((s.newDerived kind value).cell c).queue := by
    intro kind value
    rwa [cell_newDerived_of_lt s kind value (lt_size_of_queue s c hq)]
  cases hr with
  | @move m hm =>
    cases m with
    | journal | newImage | append => exact .inl hq
    | resolve d w | settle d w => exact (queue_fire s d w hq hv).imp_left And.left
    | unsubscribe d id' =>
      refine .inl ?_
      change (id, sub) ∈ ((s.withdrawn d id').cell c).queue
      rw [cell_withdrawn]
      split_ifs with hc
      · obtain ⟨rfl, -⟩ := hc
        refine List.mem_filter.2 ⟨hq, ?_⟩
        rw [bne_iff_ne]
        rintro rfl
        exact hkept rfl
      · exact hq
    | place i format d label =>
      exact .inl (mem_queue_enqueue_of_mem (s.modifyImage i (·.append format.placeholder
        ((Format.fixed format).describe none label))) d _ hq)
    | _ => exact hs.elim
  | refuse | patch => exact .inl hq
  | derive | follow => exact (queue_fire s _ _ hq hv).imp_left And.left
  | followLater => exact .inl (mem_queue_enqueue_of_mem s _ _ hq)
  | minus =>
    refine (queue_fire _ _ _ (new ..) ?_).imp_left And.left
    rw [value?, cell_newDerived_of_lt s _ _ (lt_size_of_queue s c hq)]
    exact hv
  | minusLater =>
    exact .inl (mem_queue_enqueue_of_mem _ _ _ (mem_queue_enqueue_of_mem _ _ _ (new ..)))
  | start | log | assign | unresolve | watch | watchLater | unsubscribe | andThen => exact hs.elim

theorem Due.step (h : SmoothFrom o s (task :: k)) (hs : task.Smooth o s) (hr : Reacts s task t ts)
    (hkept : ∀ id, (id, sub) ∈ (s.cell c).queue → task ≠ .move (.unsubscribe c id))
    (ha : Due s (task :: k) c sub) :
    Due t (ts ++ k) c sub ∨ ∃ v, task = .notify c sub v := by
  obtain ⟨id, hq⟩ | ⟨v, hx⟩ := ha
  · obtain hq | ⟨v, hx⟩ := hr.queue_smooth hs h.drained hq (hkept id hq)
    · exact .inl (.inl ⟨id, hq⟩)
    · exact .inl (.inr ⟨v, List.mem_append_left _ hx⟩)
  · obtain rfl | hx := List.mem_cons.1 hx
    · exact .inr ⟨v, rfl⟩
    · exact .inl (.inr ⟨v, List.mem_append_right _ hx⟩)

/-- Smooth moves take only late patches back. -/
theorem Task.Smooth.kept (hs : task.Smooth o s)
    (hlate : ∀ f : FieldId, o.placeholders.size ≤ f → sub ≠ .patch f) (id : Nat)
    (hq : (id, sub) ∈ (s.cell c).queue) : task ≠ .move (.unsubscribe c id) := by
  rintro rfl
  obtain ⟨f, hf, hpatch⟩ := hs sub hq
  exact hlate f hf hpatch

/-- At rest a subscriber waits for a pending cell. -/
theorem Due.pending (hi : Drained s) (ha : Due s [] c sub) : s.value? c = none := by
  obtain ⟨id, hq⟩ | ⟨v, hx⟩ := ha
  · exact hi c _ hq
  · simp at hx

theorem Due.start (ha : Due s [] c sub) (m : Move) : Due s [.move m] c sub :=
  ha.imp_right fun ⟨_, hx⟩ => absurd hx List.not_mem_nil

/-- Cells that are pending were so from the start. -/
theorem SmoothFrom.origin_pending (h : SmoothFrom o s k) (hv : s.value? c = none) :
    o.value? c = none := by
  cases ho : o.value? c with
  | none => rfl
  | some v => simp [h.lasts c v ho] at hv

theorem Served.step {f : Datum → Except Error Datum} {target : CellId}
    (h : SmoothFrom o s (task :: k))
    (hs : task.Smooth o s) (hr : Reacts s task t ts) (hd : Served o s (task :: k) c target f) :
    Served o t (ts ++ k) c target f := by
  obtain ha | ⟨v, w, hv, hf, hw, ho⟩ := hd
  · obtain ha | ⟨v, rfl⟩ := ha.step h hs hr (hs.kept (by simp))
    · exact .inl ha
    · obtain ⟨⟨w, hw⟩, hpending⟩ := hs
      have hv := h.values c _ v (.head k)
      have htarget := (h.running c _ v (.head k)).target_lt rfl
      cases hr with
      | refuse hrefused =>
        obtain ⟨e, he⟩ := hrefused
        simp [hw] at he
      | derive hf =>
        exact .inr ⟨v, _, value?_fire s _ _ hv, hf, value?_fire_self s _ htarget hpending,
          h.origin_pending hpending⟩
  · exact .inr ⟨v, w, h.value?_step hr hv, hf, h.value?_step hr hw, ho⟩

theorem Served.start {f : Datum → Except Error Datum} {target : CellId}
    (hd : Served o s [] c target f) (m : Move) : Served o s [.move m] c target f :=
  hd.imp_left fun ha => ha.start m

/-- At rest the values are those that the subscriber asks for. -/
theorem Served.value {f : Datum → Except Error Datum} {target : CellId} {v : Datum} (hi : Drained s)
    (hd : Served o s [] c target f) (hv : s.value? c = some v) :
    ∃ w, f v = .ok w ∧ s.value? target = some w ∧ o.value? target = none := by
  obtain ha | ⟨v', w, hv', hf, hw, ho⟩ := hd
  · simp [ha.pending hi] at hv
  · obtain rfl := Option.some.inj (hv.symm.trans hv')
    exact ⟨w, hf, hw, ho⟩

namespace Subscriber

theorem tracked_of_due (hsub : sub.SolidDerivation) (ha : Due s k c sub) : sub.Tracked o s k c := by
  cases sub with
  | derive | follow | minus | patch => exact .inl ha
  | act => exact hsub.acts.elim

theorem Tracked.start (h : sub.Tracked o s [] c) (m : Move) : sub.Tracked o s [.move m] c := by
  cases sub with
  | derive => exact Served.start h m
  | follow =>
    obtain ha | ⟨v, inner, hv, hc, hserved⟩ := h
    · exact .inl (ha.start m)
    · exact .inr ⟨v, inner, hv, hc, hserved.start m⟩
  | minus =>
    obtain ha | ⟨v, d, hv, hmid, hserved⟩ := h
    · exact .inl (ha.start m)
    · exact .inr ⟨v, d, hv, hmid.start m, hserved.start m⟩
  | patch => exact h.imp_left fun ha => ha.start m
  | act => exact h.elim

theorem Tracked.step_follow {target : CellId} {choose : Datum → Except Error CellId}
    (h : SmoothFrom o s (task :: k)) (hs : task.Smooth o s) (hr : Reacts s task t ts)
    (hd : (follow target choose).Tracked o s (task :: k) c) :
    (follow target choose).Tracked o t (ts ++ k) c := by
  obtain ha | ⟨v, inner, hv, hchoose, hserved⟩ := hd
  · obtain ha | ⟨v, rfl⟩ := ha.step h hs hr (hs.kept (by simp))
    · exact .inl ha
    · have hv := h.values c _ v (.head k)
      have hsound := h.running c _ v (.head k)
      obtain ⟨inner, hinner, hpending⟩ := hs
      cases hr with
      | refuse hrefused =>
        obtain ⟨e, he⟩ := hrefused
        simp [hinner] at he
      | @follow _ _ _ _ inner' w hchoose hw =>
        obtain rfl := Except.ok.inj (hinner.symm.trans hchoose)
        have ht := hpending w hw
        exact .inr ⟨v, inner, value?_fire s _ _ hv, hchoose, .inr ⟨w, w, value?_fire s _ _ hw, rfl,
          value?_fire_self s _ (hsound.target_lt rfl) ht, h.origin_pending ht⟩⟩
      | @followLater _ _ _ _ inner' hchoose hw =>
        obtain rfl := Except.ok.inj (hinner.symm.trans hchoose)
        exact .inr ⟨v, inner, (value?_enqueue ..).trans hv, hchoose,
          .inl (.inl (mem_queue_enqueue_self s _ (hsound.2.2 v inner hchoose)))⟩
  · exact .inr ⟨v, inner, h.value?_step hr hv, hchoose, hserved.step h hs hr⟩

theorem Tracked.step_minus {target subtrahend : CellId} {kind : IntKind}
    (h : SmoothFrom o s (task :: k)) (hs : task.Smooth o s) (hr : Reacts s task t ts)
    (hd : (minus target kind subtrahend).Tracked o s (task :: k) c) :
    (minus target kind subtrahend).Tracked o t (ts ++ k) c := by
  obtain ha | ⟨v, m, hv, hmid, hserved⟩ := hd
  · obtain ha | ⟨v, rfl⟩ := ha.step h hs hr (hs.kept (by simp))
    · exact .inl ha
    · have hv := h.values c _ v (.head k)
      have hsound := h.running c _ v (.head k)
      cases hr with
      | refuse hrefused =>
        obtain ⟨y, e, hy, he⟩ := hrefused
        obtain ⟨⟨w, hw⟩, -⟩ := hs y hy
        simp [hw] at he
      | @minus _ _ _ _ _ y w hy hw =>
        have ht := (hs y hy).2
        have htarget : target < s.cells.size := hsound.1
        have hnew : o.value? s.cells.size = none := by
          rw [value?, cell_of_size_le o _ h.grows.cells]
        have hmid : (s.newDerived (.int kind) (some w)).value? s.cells.size = some w := by
          simp [value?_newDerived]
        have hold : ∀ {d x}, s.value? d = some x →
            ((s.newDerived (.int kind) (some w)).fire target w).1.value? d = some x :=
          fun hx => value?_fire _ _ _ (value?_newDerived_of_some s _ _ hx)
        refine .inr ⟨v, s.cells.size, hold hv, .inr ⟨y, w, hold hy, hw, value?_fire _ _ _ hmid,
          hnew⟩, .inr ⟨w, w, value?_fire _ _ _ hmid, rfl, ?_, h.origin_pending ht⟩⟩
        refine value?_fire_self _ _ (htarget.trans_le (by simp)) ?_
        rw [value?, cell_newDerived_of_lt s _ _ htarget]
        exact ht
      | minusLater hy =>
        refine .inr ⟨v, s.cells.size, ?_, .inl (.inl ?_), .inl (.inl ?_)⟩
        · rw [value?_enqueue, value?_enqueue]
          exact value?_newDerived_of_some s _ _ hv
        · have hsub : subtrahend < s.cells.size := hsound.2.2
          obtain ⟨id, hid⟩ := mem_queue_enqueue_self (s.newDerived (.int kind) none)
            (.derive s.cells.size (Datum.difference kind v)) (hsub.trans_le (by simp))
          exact ⟨id, mem_queue_enqueue_of_mem _ _ _ hid⟩
        · exact mem_queue_enqueue_self _ _ (by simp)
  · exact .inr ⟨v, m, h.value?_step hr hv, hmid.step h hs hr, hserved.step h hs hr⟩

theorem Tracked.step_patch {f : FieldId} (h : SmoothFrom o s (task :: k)) (hs : task.Smooth o s)
    (hr : Reacts s task t ts) (hf : f < o.placeholders.size)
    (hd : (patch f).Tracked o s (task :: k) c) : (patch f).Tracked o t (ts ++ k) c := by
  obtain ha | ⟨v, p, bs, hv, hp, he⟩ := hd
  · have hearly : ∀ g : FieldId, o.placeholders.size ≤ g → patch f ≠ patch g := by
      rintro g hg heq
      obtain rfl := Subscriber.patch.inj heq
      exact absurd hf (Nat.not_lt.2 hg)
    obtain ha | ⟨v, rfl⟩ := ha.step h hs hr (hs.kept hearly)
    · exact .inl ha
    · obtain ⟨p, bs, hp, he, -⟩ := hs
      obtain ⟨b, hb⟩ := h.grows.fields f _ (Array.getElem?_eq_getElem hf)
      obtain rfl := Option.some.inj (hp.symm.trans hb)
      exact .inr ⟨v, _, bs, h.value?_step hr (h.values c _ v (.head k)),
        Array.getElem?_eq_getElem hf, he⟩
  · exact .inr ⟨v, p, bs, h.value?_step hr hv, hp, he⟩

theorem Tracked.step (h : SmoothFrom o s (task :: k)) (hs : task.Smooth o s)
    (hr : Reacts s task t ts) (hsound : sub.Sound o c) (hd : sub.Tracked o s (task :: k) c) :
    sub.Tracked o t (ts ++ k) c := by
  cases sub with
  | derive => exact Served.step h hs hr hd
  | follow => exact hd.step_follow h hs hr
  | minus => exact hd.step_minus h hs hr
  | patch f =>
    obtain ⟨p, hp, -⟩ := hsound
    exact hd.step_patch h hs hr (Array.getElem?_eq_some_iff.1 hp).1
  | act => exact hd.elim

/-- At rest the values agree with all subscribers that waited at the start. -/
theorem Tracked.agrees (hi : Drained s) (h : sub.Tracked o s [] c) : sub.Agrees o s.value? c := by
  cases sub with
  | derive target f => exact fun x hx => Served.value hi h hx
  | follow target choose =>
    intro x hx
    obtain ha | ⟨v, inner, hv, hchoose, hserved⟩ := h
    · simp [ha.pending hi] at hx
    · obtain rfl := Option.some.inj (hx.symm.trans hv)
      refine ⟨inner, hchoose, fun w hw => ?_⟩
      obtain ⟨w', hw', ht, ho⟩ := hserved.value hi hw
      cases hw'
      exact ⟨ht, ho⟩
  | minus target kind subtrahend =>
    intro x y hx hy
    obtain ha | ⟨v, m, hv, hmid, hserved⟩ := h
    · simp [ha.pending hi] at hx
    · obtain rfl := Option.some.inj (hx.symm.trans hv)
      obtain ⟨w, hw, hm, -⟩ := hmid.value hi hy
      obtain ⟨w', hw', ht, ho⟩ := hserved.value hi hm
      cases hw'
      exact ⟨w, hw, ht, ho⟩
  | patch f =>
    intro x p hx hp
    obtain ha | ⟨v, q, bs, hv, hq, he⟩ := h
    · simp [ha.pending hi] at hx
    · obtain rfl := Option.some.inj (hx.symm.trans hv)
      obtain rfl := Option.some.inj (hp.symm.trans hq)
      exact ⟨bs, he⟩
  | act => exact h.elim

end Subscriber

end Due

/-- After a smooth run the values agree with all subscribers that waited at the start. -/
theorem SmoothSteps.agrees {o s : Store} {P : Move → Prop} (h : SmoothSteps o P o s)
    (ho : SmoothFrom o o []) :
    ∀ c, ∀ q ∈ (o.cell c).queue, q.2.Agrees o s.value? c := by
  intro c q hq
  have hend := h.invariant (I := fun s tasks => SmoothFrom o s tasks ∧ q.2.Tracked o s tasks c)
    (fun _ hm hi => ⟨hi.1.start hm.lasting, hi.2.start _⟩)
    (fun hs hr hi => ⟨hi.1.step hs hr, hi.2.step hi.1 hs hr (ho.queues c q hq)⟩)
    ⟨ho, Subscriber.tracked_of_due (ho.derivations c q hq) (.inl ⟨q.1, hq⟩)⟩
  exact hend.2.agrees hend.1.drained

end Backpatch
