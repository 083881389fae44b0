import Mathlib
import Backpatch.Proofs.Branches
import Backpatch.Proofs.Endings
import Backpatch.Proofs.Links

/-!
# Derivations that no one takes back

Whoever waits for a cell has a ticket, the cell and a number. With it a caller, or a callback that
knows it by a name, can take the subscriber out of the queue. A derivation whose ticket no one uses
waits until its source has a value, and then settles its cell: at rest the cell is pending only if
its source is (`DerivedByTicket`). Layouts take patches back when they end, so they leave other
tickets alone.
-/

namespace Backpatch

open Store Failable

/-- The move neither takes the subscriber with the ticket back nor gives the ticket a name. -/
def Move.Leaves (ticket : Subscription) : Move → Prop
  | .unsubscribe c id => ⟨c, id⟩ ≠ ticket
  | .define _ subscriptions => ∀ p ∈ subscriptions, p.2 ≠ ticket
  | _ => True

def Use.Leaves (ticket : Subscription) : Use → Prop
  | call (.unsubscribe c id) => ⟨c, id⟩ ≠ ticket
  | call (.define _ subscriptions) => ∀ p ∈ subscriptions, p.2 ≠ ticket
  | _ => True

/-! ## One reaction -/

/-- The cell is pending, and the subscriber waits for it under the number `id`. -/
def Store.Waits (s : Store) (c : CellId) (id : Nat) (sub : Subscriber) : Prop :=
  s.value? c = none ∧ (id, sub) ∈ (s.cell c).queue

namespace Store.Waits

variable {s : Store} {c : CellId} {id : Nat} {sub : Subscriber}

theorem addCell (h : s.Waits c id sub) (cell : Cell) : (s.addCell cell).Waits c id sub := by
  have hc := lt_size_of_queue s c h.2
  unfold Waits
  rwa [value?, cell_addCell, if_neg (Nat.ne_of_lt hc)]

theorem enqueue (h : s.Waits c id sub) (d : CellId) (other : Subscriber) :
    (s.enqueue d other).Waits c id sub :=
  ⟨(value?_enqueue ..).trans h.1, mem_queue_enqueue_of_mem s d other h.2⟩

theorem cleared (h : s.Waits c id sub) (d : CellId) : (s.cleared d).Waits c id sub := by
  refine ⟨?_, by rw [queue_cleared]; exact h.2⟩
  have hpending := h.1
  rw [value?, cell_cleared] at *
  split_ifs
  · rfl
  · exact hpending

/-- Other subscribers may be taken back. -/
theorem withdrawn {d : CellId} {other : Nat} (h : s.Waits c id sub)
    (hne : (⟨d, other⟩ : Subscription) ≠ ⟨c, id⟩) : (s.withdrawn d other).Waits c id sub := by
  refine ⟨(value?_withdrawn ..).trans h.1, ?_⟩
  rcases queue_withdrawn_cases s d c other with hsame | ⟨rfl, hless⟩
  · rw [hsame]
    exact h.2
  · rw [hless, List.mem_filter]
    refine ⟨h.2, ?_⟩
    rw [bne_iff_ne]
    rintro rfl
    exact hne rfl

theorem fire (h : s.Waits c id sub) (d : CellId) (w : Datum) :
    (s.fire d w).1.Waits c id sub ∨ ∃ v, .notify c sub v ∈ (s.fire d w).2 :=
  (queue_fire s d w h.2 h.1).imp_left And.symm

end Store.Waits

section Reaction

variable {s t : Store} {task : Task} {ts k : List Task} {c : CellId} {id : Nat} {sub : Subscriber}

/-- A subscriber waits until its cell has a value, and then is about to run, unless it is taken
back. -/
theorem Reacts.waits (hr : Reacts s task t ts) (h : s.Waits c id sub)
    (hkept : task ≠ .move (.unsubscribe c id)) (hfree : ∀ p ∈ s.subscriptions, p.2 ≠ ⟨c, id⟩) :
    t.Waits c id sub ∨ ∃ v, .notify c sub v ∈ ts := by
  cases hr with
  | @move m hm =>
    cases m with
    | journal | define | run | newImage | append | overwrite => exact .inl h
    | create => exact .inl (h.addCell _)
    | attach => exact .inl ((h.addCell _).enqueue ..)
    | watch => exact .inl (h.enqueue ..)
    | resolve d w | settle d w => exact h.fire d w
    | unresolve d => exact .inl (h.cleared d)
    | unsubscribe d other =>
      refine .inl (h.withdrawn fun he => hkept ?_)
      cases he
      rfl
    | place i format d label =>
      have hmodified : (s.modifyImage i (·.append format.placeholder
        ((Format.fixed format).describe none label))).Waits c id sub := h
      exact .inl (hmodified.enqueue ..)
  | refuse | patch | start | log | watch | andThen => exact .inl h
  | derive | follow | assign => exact h.fire _ _
  | followLater | watchLater => exact .inl (h.enqueue ..)
  | minus => exact (h.addCell _).fire _ _
  | minusLater => exact .inl (((h.addCell _).enqueue ..).enqueue ..)
  | unresolve => exact .inl (h.cleared _)
  | @unsubscribe name other v hname entry =>
    refine .inl (h.withdrawn fun he => ?_)
    obtain ⟨front, back, hnames, -⟩ := List.lookup_eq_some_iff.1 hname
    exact hfree (name, other) (hnames ▸ List.mem_append_right _ (.head _)) he

theorem Reacts.subscriptions_cases (hr : Reacts s task t ts) :
    t.subscriptions = s.subscriptions ∨
      ∃ names, task = .move (.define names t.subscriptions) := by
  cases hr with
  | @move m hm =>
    cases m with
    | define names subscriptions => exact .inr ⟨names, rfl⟩
    | resolve | settle => exact .inl (fire_subscriptions ..)
    | _ => exact .inl rfl
  | derive | follow | assign => exact .inl (fire_subscriptions ..)
  | minus => exact .inl (fire_subscriptions (s.newDerived ..) ..)
  | _ => exact .inl rfl

end Reaction

/-! ## Cells derived by a ticket -/

/-- The cell `t` is derived by `f` from the cell of the ticket: it has its value, or the subscriber
with the ticket waits for the source or is about to run. No one else has the ticket. -/
structure DerivedByTicket (ticket : Subscription) (t : CellId) (f : Datum → Except Error Datum)
    (s : Store) (tasks : List Task) : Prop where
  lasting : Lasting s tasks
  moves : ∀ m, .move m ∈ tasks → m.Leaves ticket
  secret : ∀ p ∈ s.subscriptions, p.2 ≠ ticket
  exist : t < s.cells.size
  due : (s.value? t).isSome ∨ s.Waits ticket.cell ticket.id (.derive t f) ∨
    ∃ v, .notify ticket.cell (.derive t f) v ∈ tasks

namespace DerivedByTicket

variable {ticket : Subscription} {t : CellId} {f : Datum → Except Error Datum} {s u : Store}
  {task : Task} {ts k : List Task} {P : Move → Prop}

theorem start {m : Move} (h : DerivedByTicket ticket t f s []) (hl : m.Lasting)
    (hm : m.Leaves ticket) :
    DerivedByTicket ticket t f s [.move m] where
  lasting := h.lasting.start hl
  moves := by simpa using hm
  secret := h.secret
  exist := h.exist
  due := by simpa using h.due

theorem isSome_step (h : Lasting s (task :: k)) (hr : Reacts s task u ts)
    (hv : (s.value? t).isSome) : (u.value? t).isSome := by
  obtain ⟨v, hv⟩ := Option.isSome_iff_exists.1 hv
  rw [h.value?_step hr hv]
  rfl

/-- When the subscriber of a derivation that refuses no value has run, the cell has its value. -/
theorem isSome_derive {v : Datum} (hf : ∀ v, ∃ w, f v = .ok w) (ht : t < s.cells.size)
    (hr : Reacts s (.notify ticket.cell (.derive t f) v) u ts) : (u.value? t).isSome := by
  cases hr with
  | refuse hrefused =>
    obtain ⟨e, he⟩ := hrefused
    obtain ⟨w, hw⟩ := hf v
    simp [hw] at he
  | derive =>
    cases hv : s.value? t with
    | none =>
      rw [value?_fire_self s _ ht hv]
      rfl
    | some x =>
      rw [value?_fire s _ _ hv]
      rfl

theorem step (hf : ∀ v, ∃ w, f v = .ok w) (hr : Reacts s task u ts)
    (h : DerivedByTicket ticket t f s (task :: k)) : DerivedByTicket ticket t f u (ts ++ k) where
  lasting := .step hr h.lasting
  moves m hm := h.moves m (hr.move_mem hm)
  secret := by
    rcases hr.subscriptions_cases with hsame | ⟨names, rfl⟩
    · rw [hsame]
      exact h.secret
    · exact h.moves _ (.head _)
  exist := h.exist.trans_le hr.grows.cells
  due := by
    rcases h.due with hv | hwaits | ⟨v, hrun⟩
    · exact .inl (isSome_step h.lasting hr hv)
    · have hkept : task ≠ .move (.unsubscribe ticket.cell ticket.id) := by
        rintro rfl
        exact h.moves _ (.head _) rfl
      rcases hr.waits hwaits hkept h.secret with hwaits | ⟨v, hrun⟩
      · exact .inr (.inl hwaits)
      · exact .inr (.inr ⟨v, List.mem_append_left _ hrun⟩)
    · rcases List.mem_cons.1 hrun with rfl | hrun
      · exact .inl (isSome_derive hf h.exist hr)
      · exact .inr (.inr ⟨v, List.mem_append_right _ hrun⟩)

theorem steps (hf : ∀ v, ∃ w, f v = .ok w) (hst : Steps P s u)
    (hP : ∀ m, P m → m.Lasting ∧ m.Leaves ticket) (h : DerivedByTicket ticket t f s []) :
    DerivedByTicket ticket t f u [] :=
  hst.invariant (I := DerivedByTicket ticket t f) (fun hm hi => hi.start (hP _ hm).1 (hP _ hm).2)
    (step hf)
    h

/-- At rest, the cell is pending only if its source is. -/
theorem value (h : DerivedByTicket ticket t f s []) {v : Datum}
    (hv : s.value? ticket.cell = some v) :
    ∃ w, s.value? t = some w := by
  rcases h.due with hw | hwaits | ⟨_, hrun⟩
  · exact Option.isSome_iff_exists.1 hw
  · cases hwaits.1.symm.trans hv
  · cases hrun

/-- A derivation promises its cell, under the next ticket of its source. -/
theorem of_tryMap {source : CellId} {kind : Kind} (hl : Lasting s []) (hc : source < s.cells.size)
    (hsecret : ∀ p ∈ s.subscriptions, p.2 ≠ ⟨source, (s.cell source).next⟩)
    (h : tryMap source kind f s = .ok t u) :
    DerivedByTicket ⟨source, (s.cell source).next⟩ t f u [] := by
  have hsteps : Steps Move.Creates s u := after_of_ok h ▸ steps_tryMap hc kind f
  have hlu := hsteps.lasting (fun m hm => hm.plain.lasting) hl
  rw [tryMap_run] at h
  cases hv : s.value? source with
  | none =>
    simp only [hv] at h
    cases h
    refine ⟨hlu, by simp, hsecret, by simp, .inr (.inl ⟨?_, ?_⟩)⟩
    · rw [value?_enqueue, value?_newDerived, if_neg (Nat.ne_of_lt hc), hv]
    · rw [cell_enqueue, if_pos ⟨rfl, by simpa using hc.trans (Nat.lt_succ_self _)⟩,
        cell_newDerived_of_lt s _ _ hc]
      exact List.mem_append_right _ (.head _)
  | some v =>
    cases hf : f v with
    | error e => simp [hv, hf] at h
    | ok w =>
      simp only [hv, hf] at h
      cases h
      refine ⟨hlu, by simp, hsecret, by simp, .inl ?_⟩
      rw [value?_newDerived, if_pos rfl]
      rfl

end DerivedByTicket

/-! ## Layouts that end -/

theorem Steps.subscriptions_eq {s t : Store} (h : Steps Move.Closes s t) :
    t.subscriptions = s.subscriptions := by
  refine h.preserve (F := fun t => t.subscriptions = s.subscriptions) ?_ rfl
  intro t task u ts hcloses hr hsame
  rcases hr.subscriptions_cases with hkept | ⟨names, rfl⟩
  · exact hkept.trans hsame
  · exact (hcloses _ rfl).elim

/-- Moves that add bytes and settle cells lead to a store in which the patches of some fields are
then taken back. -/
def ClosesLayout (s t : Store) : Prop :=
  ∃ (path : List Reaction) (u : Store) (first last : FieldId),
    Traces Move.Composes s [] path u ∧ Steps Move.Closes u t ∧
    ∀ c, t.cell c = (u.released (u.placeholders.extract first last).toList).cell c

section ClosesLayout

variable {ticket : Subscription} {t : CellId} {f : Datum → Except Error Datum} {s u : Store}

theorem Withdraws.closesLayout {first last : FieldId} {path : List Reaction}
    (h : Withdraws first last path s u) : ClosesLayout s u := by
  obtain ⟨v, htrace, hclose, -, -, hcell, -⟩ := h
  exact ⟨path, v, first, last, htrace, hclose, hcell⟩

theorem Layout.drop_closesLayout (l : Layout) (hv : Valid s []) :
    ClosesLayout s (l.drop.after s) := by
  refine ⟨[], s, l.first, l.last, .nil s, l.steps_drop hv, fun c => ?_⟩
  rw [Layout.drop, after_of_ok (release_run l.first l.last)]

theorem Layout.finalizeObserved_closesLayout (l : Layout) (config : FlattenConfig)
    (observer : Observer) (hv : Valid s []) (hw : ∀ e ∈ l.entries, e.Within s.cells.size) :
    ClosesLayout s ((l.finalizeObserved config observer).after s) := by
  obtain ⟨tally, v, hrun⟩ := Layout.runEntries_isOk l config.enforceComplete 0 l.entries {} s
  have hsv : Steps (Move.Settles s.cells.size) s v :=
    after_of_ok hrun ▸ Layout.steps_runEntries l _ 0 {} hv le_rfl hw
  obtain ⟨path, htrace⟩ := hsv.traces
  obtain ⟨log, trace, reports, hclose⟩ := Layout.after_close (s := v) l config observer tally
  have hafter : (l.finalizeObserved config observer).after s =
      { v.released (l.placeholders v).toList with log, trace, reports } := by
    rw [Layout.finalizeObserved, after_bind, hrun]
    exact hclose
  rw [hafter]
  exact ⟨path, v, l.first, l.last, htrace.mono fun _ hm => (hm.writes (i := 0)).composes,
    Layout.steps_closed l (hsv.valid hv) log trace reports, fun c => rfl⟩

theorem Move.Composes.leaves {m : Move} (h : m.Composes) : m.Leaves ticket := by
  cases m with
  | journal | settle | append | place => trivial
  | _ => exact h.elim

theorem Move.Prepares.leaves {m : Move} (h : m.Prepares) : m.Leaves ticket := by
  cases m with
  | unsubscribe | define => exact h.elim
  | _ => trivial

/-- What a layout takes back when it ends are patches. -/
theorem DerivedByTicket.closesLayout (hf : ∀ v, ∃ w, f v = .ok w) (hn : Numbered s)
    (hr : ClosesLayout s u)
    (h : DerivedByTicket ticket t f s []) : DerivedByTicket ticket t f u [] := by
  obtain ⟨path, v, first, last, htrace, hclose, hcell⟩ := hr
  have hv : DerivedByTicket ticket t f v [] := (htrace.invariant h
    (fun hm hi => hi.start hm.plain.lasting hm.leaves) (DerivedByTicket.step hf)).1
  have hvalue : ∀ c, u.value? c = v.value? c := fun c => by
    rw [value?, hcell]
    exact value?_released ..
  exact {
    lasting := hclose.lasting (fun _ hm => hm.plain.lasting) hv.lasting
    moves := by simp
    secret := hclose.subscriptions_eq ▸ hv.secret
    exist := hv.exist.trans_le hclose.grows.cells
    due := by
      rcases hv.due with hw | ⟨hpending, hq⟩ | ⟨_, hrun⟩
      · exact .inl (hvalue t ▸ hw)
      · refine .inr (.inl ⟨(hvalue _).trans hpending, ?_⟩)
        rw [hcell]
        exact ((htrace.numbered h.lasting.toValid hn).mem_released first last).2 ⟨hq, by simp⟩
      · cases hrun }

end ClosesLayout

/-! ## Along a program -/

section Along

variable {ticket : Subscription} {t : CellId} {f : Datum → Except Error Datum} {held : List CellId}
  {r : Region} {i : ImageId} {s u : Store}

theorem Use.numbered (use : Use) (h : Valid s []) (hn : Numbered s) (ha : use.Admissible s) :
    Numbered (use.run.after s) := by
  cases use with
  | call c => exact (Call.steps h ha).numbered h hn
  | write r instruction =>
    rw [Use.run, after_discard]
    exact (steps_writeInstruction r ha).numbered h hn

theorem Program.numbered {uses : List Use} {held' : List CellId}
    (h : Program held s uses held' u) (hs : Holding held s) (hl : ∀ use ∈ uses, use.Lasting)
    (hn : Numbered s) : Numbered u := by
  induction h with
  | nil => exact hn
  | cons ha hm _ ih =>
    exact ih (hs.step _ ha (hl _ (.head _)) hm) (fun use huse => hl use (.tail _ huse))
      (Use.numbered _ hs.lasting.toValid hn ha)

theorem DerivedByTicket.laid (hf : ∀ v, ∃ w, f v = .ok w) {observer : Observer} {l : Layout}
    (hi : i < s.images.size) (hw : r.Within s.cells.size)
    (hrun : r.layoutObserved i observer s = .ok l u) (h : DerivedByTicket ticket t f s []) :
    DerivedByTicket ticket t f u [] := by
  obtain ⟨hemit, -⟩ := Region.layoutObserved_eq_ok hrun
  have hsteps : Steps (Move.Writes i s.cells.size) s u :=
    after_of_ok hemit ▸ steps_traversal observer h.lasting.toValid hi hw
  exact h.steps hf hsteps fun m hm => ⟨hm.plain.lasting, hm.composes.leaves⟩

theorem DerivedByTicket.layout (hf : ∀ v, ∃ w, f v = .ok w) (observer : Observer)
    (hi : i < s.images.size) (hw : r.Within s.cells.size) (hn : Numbered s)
    (h : DerivedByTicket ticket t f s []) :
    DerivedByTicket ticket t f ((r.layoutObserved i observer).after s) [] := by
  have hv := h.lasting.toValid
  cases hrun : r.layoutObserved i observer s with
  | error e v =>
    obtain ⟨path, hwithdraws⟩ := Region.layoutObserved_withdraws hv hi hw hrun
    rw [after_of_error hrun]
    exact h.closesLayout hf hn hwithdraws.closesLayout
  | ok l v =>
    rw [after_of_ok hrun]
    exact h.laid hf hi hw hrun

theorem DerivedByTicket.flatten (hf : ∀ v, ∃ w, f v = .ok w) (config : FlattenConfig)
    (observer : Observer) (hi : i < s.images.size) (hw : r.Within s.cells.size) (hn : Numbered s)
    (h : DerivedByTicket ticket t f s []) :
    DerivedByTicket ticket t f ((r.flattenObserved i config observer).after s) [] := by
  obtain ⟨path, hwithdraws⟩ :=
    Region.flattenObserved_withdraws config observer h.lasting.toValid hi hw
  exact h.closesLayout hf hn hwithdraws.closesLayout

theorem DerivedByTicket.prepare (hf : ∀ v, ∃ w, f v = .ok w) (hst : Steps Move.Prepares s u)
    (h : DerivedByTicket ticket t f s []) : DerivedByTicket ticket t f u [] :=
  h.steps hf hst fun _ hm => ⟨hm.plain.lasting, hm.leaves⟩

theorem DerivedByTicket.build (hf : ∀ v, ∃ w, f v = .ok w) {b : Snapshot.Builder}
    (config : FlattenConfig) (hb : b.Within s.cells.size) (hn : Numbered s)
    (h : DerivedByTicket ticket t f s []) :
    DerivedByTicket ticket t f ((b.build config).after s) [] := by
  have hprepare := b.prepare_prepares s
  rw [Snapshot.Builder.build, after_bind]
  cases hrun : b.prepare s with
  | error e v =>
    rw [after_of_error hrun] at hprepare
    exact h.prepare hf hprepare
  | ok result v =>
    obtain ⟨refs, crc, r⟩ := result
    rw [after_of_ok hrun] at hprepare
    have himage : Steps Move.Prepares v { v with images := v.images.push {} } :=
      .quiet (m := .newImage) trivial trivial rfl
    have hmade := hprepare.trans himage
    have hflat : DerivedByTicket ticket t f
        ((r.flatten v.images.size config).after { v with images := v.images.push {} }) [] :=
      (h.prepare hf hmade).flatten hf config config.observer (by simp)
        (show r.Within v.cells.size from Snapshot.Builder.prepare_within hrun hb)
        (hmade.numbered h.lasting.toValid hn)
    change DerivedByTicket ticket t f ((do
      b.collect config refs crc v.images.size (← r.flatten v.images.size config) :
        Op Snapshot).after { v with images := v.images.push {} }) []
    rw [after_bind]
    cases hflatten : r.flatten v.images.size config { v with images := v.images.push {} } with
    | error e w =>
      rw [after_of_error hflatten] at hflat
      exact hflat
    | ok summary w =>
      rw [after_of_ok hflatten] at hflat
      exact hflat.prepare hf (b.steps_collect ..)

/-- Every use that leaves the ticket alone keeps the derivation. -/
theorem DerivedByTicket.after_use (hf : ∀ v, ∃ w, f v = .ok w) (h : DerivedByTicket ticket t f s [])
    (hn : Numbered s) (use : Use) (ha : use.Admissible s) (hl : use.Lasting)
    (hu : use.Leaves ticket) : DerivedByTicket ticket t f (use.run.after s) [] := by
  have hv := h.lasting.toValid
  cases use with
  | write r instruction =>
    rw [Use.run, after_discard]
    exact h.prepare hf ((steps_writeInstruction r ha).mono fun _ => Move.Creates.prepares)
  | call c =>
    have hcauses := Call.causes hv ha
    -- Calls that end no layout.
    have quiet : (∀ m, c.Causes s m → m.Lasting ∧ m.Leaves ticket) →
        DerivedByTicket ticket t f ((Use.call c).run.after s) [] := h.steps hf hcauses
    cases c with
    | newCell | tryMap | tryBind | subtract =>
      exact quiet fun m hm => ⟨hm.plain.lasting, hm.prepares.leaves⟩
    | resolve | confirm | newImage | append | overwrite =>
      refine quiet fun m hm => ?_
      rw [show m = _ from hm]
      exact ⟨trivial, trivial⟩
    | unsubscribe | define =>
      refine quiet fun m hm => ?_
      rw [show m = _ from hm]
      exact ⟨trivial, hu⟩
    | unresolve => exact hl.elim
    | onResolve c a =>
      refine quiet fun m hm => ?_
      rcases hm with rfl | ⟨v, rfl⟩
      · exact ⟨hl, trivial⟩
      · exact ⟨hl, trivial⟩
    | layout r i observer =>
      rw [Use.run, Call.run, after_discard]
      exact h.layout hf observer ha.1 ha.2 hn
    | finalize l config observer =>
      rw [Use.run, Call.run, after_discard]
      exact h.closesLayout hf hn (l.finalizeObserved_closesLayout config observer hv ha)
    | drop l => exact h.closesLayout hf hn (l.drop_closesLayout hv)
    | flatten r i config observer =>
      rw [Use.run, Call.run, after_discard]
      exact h.flatten hf config observer ha.1 ha.2 hn
    | build b config =>
      rw [Use.run, Call.run, after_discard]
      exact h.build hf config ha hn

theorem Region.flatten_lasts {config : FlattenConfig} {observer : Observer}
    {summary : FlattenSummary} (hl : Lasting s []) (hi : i < s.images.size)
    (hw : r.Within s.cells.size) (h : r.flattenObserved i config observer s = .ok summary u) :
    ∃ l s₁, r.layoutObserved i observer s = .ok l s₁ ∧ Steps Move.Lasting s₁ u := by
  obtain ⟨l, s₁, hlayout, hrest⟩ := bind_eq_ok.1 h
  obtain ⟨summary', s₂, hfinalize, hnote⟩ := bind_eq_ok.1 hrest
  obtain ⟨-, -, -, hfinal⟩ := Region.finalize_of_layout (P := Move.Lasting) hl hi hw hlayout
    (.refl s₁) (fun _ hm => hm) hfinalize
  have hnoted : Steps Move.Lasting s₂ u := after_of_ok hnote ▸
    Steps.bind (steps_emit _ fun _ _ _ => trivial) fun _ v _ _ => .refl v
  exact ⟨l, s₁, hlayout, (hfinal.mono fun _ hm => (hm.flattens 0).plain.lasting).trans hnoted⟩

/-- A region that is rendered is laid out with success, perhaps after some preparations, and values
last from then on. -/
theorem Renders.laid (h : Renders held r i s u) (hs : Holding held s) :
    ∃ (observer : Observer) (l : Layout) (a b : Store), Steps Move.Prepares s a ∧
      (a.image i).size = (s.image i).size ∧ i < a.images.size ∧ r.Within a.cells.size ∧
      r.layoutObserved i observer a = .ok l b ∧ Steps Move.Lasting b u := by
  have hv := hs.lasting.toValid
  cases h with
  | @finalize observer observer' config l s₁ s₂ _ between held' summary hi hw hm hlayout hbetween
      hkeeps hstrict hfinalize =>
    have hsteps : Steps Move.Plain s s₁ :=
      after_of_ok hlayout ▸ Region.steps_layoutObserved observer hv hi hw
    have hkept := hbetween.keeps (hsteps.valid hv) hkeeps
    obtain ⟨-, -, -, hfinal⟩ := Region.finalize_of_layout hs.lasting hi hw hlayout hkept
      (fun _ => Move.Keeps.lasting) hfinalize
    refine ⟨observer, l, s, s₁, .refl s, rfl, hi, hw, hlayout, ?_⟩
    exact (hkept.mono fun _ => Move.Keeps.lasting).trans
      (hfinal.mono fun _ hm => (hm.flattens 0).plain.lasting)
  | flatten hi hw hm hstrict hflatten =>
    obtain ⟨l, s₁, hlayout, hlater⟩ := Region.flatten_lasts hs.lasting hi hw hflatten
    exact ⟨_, l, s, s₁, .refl s, rfl, hi, hw, hlayout, hlater⟩
  | @build b config refs crc t _ snap hb hm hprepare hi hstrict hbuild =>
    obtain ⟨a, v, summary, hsa, hl, hia, hsize, hw, hflatten, hvu⟩ :=
      Snapshot.Builder.build_into_image hs.lasting hb hprepare hbuild
    obtain ⟨l, s₁, hlayout, hlater⟩ := Region.flatten_lasts hl hia hw hflatten
    rw [hi]
    exact ⟨_, l, a, s₁, hsa, hsize, hia, hw, hlayout,
      hlater.trans (hvu.mono fun _ hm => hm.plain.lasting)⟩

/-- If a rendered region marks the source of a derived cell, the cell has its value in the end. -/
theorem DerivedByTicket.rendered (hf : ∀ v, ∃ w, f v = .ok w) (h : DerivedByTicket ticket t f s [])
    (hs : Holding held s) (hr : Renders held r i s u) {p : Nat}
    (hmark : (ticket.cell, p) ∈ r.marks (s.image i).size) : ∃ w, u.value? t = some w := by
  obtain ⟨observer, l, a, b, hmade, hsize, hi, hw, hlayout, hlater⟩ := hr.laid hs
  have ha := h.prepare hf hmade
  have hstands := Region.layoutObserved_stands ha.lasting hi hw hlayout
  have hb := ha.laid hf hi hw hlayout
  obtain ⟨w, hw⟩ := hb.value (hstands.marks _ (hsize ▸ hmark))
  exact ⟨w, hlater.value?_eq (fun _ hm => hm) hb.lasting hw⟩

end Along

end Backpatch
