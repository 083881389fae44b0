import Mathlib
import Backpatch.Proofs.Waiting
import Backpatch.Proofs.Finalization

/-!
# The life of a placeholder

Layouts are made, finalized and dropped one after another, several of them may live at a time, and
several may share an image. `Visits` goes through all stores on the way, also those between two
reactions of one call. In each of them the fields stand apart, those that are not patched are zero,
and their layouts list them (`Fields`); and each single reaction leaves the bytes as they are,
appends some, or patches one whole field of a layout that lives (`Task.Framed`). What every reaction
keeps is `Underway`.
-/

namespace Backpatch

open Store Failable

/-! ## Stores on the way -/

/-- The stores, with the tasks that are still to run in them, to which moves that satisfy `P` lead
from `s`. -/
inductive Visits (P : Move → Prop) (s : Store) : Store → List Task → Prop where
  | start : Visits P s s []
  | move {t m} (hm : P m) (h : Visits P s t []) : Visits P s t [.move m]
  | react {t task u ts k} (hr : Reacts t task u ts) (h : Visits P s t (task :: k)) :
      Visits P s u (ts ++ k)

section Visits

variable {P : Move → Prop} {s t u : Store} {tasks : List Task}

theorem Visits.cascade (h : Visits P s t tasks) (hc : Cascade t tasks u) : Visits P s u [] := by
  induction hc with
  | nil => exact h
  | cons hr _ ih => exact ih (h.react hr)

theorem Steps.visits (h : Steps P s t) : Visits P s t [] := by
  induction h with
  | refl => exact .start
  | tail _ hstep ih =>
    obtain ⟨m, hm, hc⟩ := hstep
    exact (ih.move hm).cascade hc

theorem Visits.invariant {I : Store → List Task → Prop} (h : Visits P s t tasks) (hs : I s [])
    (start : ∀ {s m}, P m → I s [] → I s [.move m])
    (step : ∀ {s task t ts k}, Reacts s task t ts → I s (task :: k) → I t (ts ++ k)) :
    I t tasks := by
  induction h with
  | start => exact hs
  | move hm _ ih => exact start hm ih
  | react hr _ ih => exact step hr ih

theorem Visits.grows (h : Visits P s t tasks) : Grows s t :=
  h.invariant (I := fun u _ => Grows s u) (.refl s) (fun _ hg => hg) fun hr hg => hg.trans hr.grows

end Visits

/-- The move writes over no bytes. -/
def Move.Indirect : Move → Prop
  | .overwrite .. => False
  | _ => True

/-- The move makes a placeholder. -/
def Move.Places : Move → Prop
  | .place .. => True
  | _ => False

theorem Steps.size_placeholders_le {P : Move → Prop} {s t : Store} (h : Steps P s t)
    (hP : ∀ m, P m → ¬ m.Places) : t.placeholders.size ≤ s.placeholders.size := by
  refine h.preserve (F := fun u => u.placeholders.size ≤ s.placeholders.size)
    (fun {u task v ts} hm hr hle => ?_) le_rfl
  by_contra hlt
  have hf : u.placeholders.size < v.placeholders.size := by omega
  obtain ⟨i, format, c, label, rfl, -⟩ :=
    hr.new_placeholder (Array.getElem?_eq_getElem hf) le_rfl
  exact hP _ (hm _ rfl) trivial

/-! ## What holds while layouts live -/

/-- The field belongs to one of the layouts, or it was placed after the first `n`. -/
def Tracked (live : List Layout) (n f : Nat) : Prop :=
  n ≤ f ∨ ∃ l ∈ live, l.first ≤ f ∧ f < l.last

/-- The fields of the layout exist and are in its image, and so do the cells of its entries. -/
structure Layout.Laid (l : Layout) (s : Store) : Prop where
  last : l.last ≤ s.placeholders.size
  image : ∀ (f : FieldId) (p : Placeholder), l.first ≤ f → f < l.last →
    s.placeholders[f]? = some p → p.image = l.image
  entries : ∀ e ∈ l.entries, e.Within s.cells.size

theorem Layout.Laid.mono {l : Layout} {s t : Store} (h : l.Laid s) (hg : Grows s t) :
    l.Laid t where
  last := h.last.trans hg.placeholders
  image f p hfirst hlast hp := by
    have hf : f < s.placeholders.size := hlast.trans_le h.last
    obtain ⟨b, hb⟩ := hg.fields f _ (Array.getElem?_eq_getElem hf)
    obtain rfl := Option.some.inj (hp.symm.trans hb)
    have himage := h.image f _ hfirst hlast (Array.getElem?_eq_getElem hf)
    exact himage
  entries e he := (h.entries e he).mono hg.cells

/-- The bytes of a field that is not patched are those of a placeholder. -/
def Blank (s : Store) : Prop :=
  ∀ (f : FieldId) (p : Placeholder), s.placeholders[f]? = some p → p.patched = false →
    (s.image p.image).slice p.offset p.width = p.format.placeholder

/-- What holds while a call runs that began with the layouts `live` and `n` placeholders: patches
that wait or are about to run belong to these layouts, or to what the call itself laid out. -/
structure Underway (live : List Layout) (n : Nat) (s : Store) (tasks : List Task) : Prop
    extends Valid s tasks where
  numbered : Numbered s
  once : Once s tasks
  blank : Blank s
  laid : ∀ l ∈ live, l.Laid s
  size : n ≤ s.placeholders.size
  moves : ∀ m, .move m ∈ tasks → m.Indirect
  patches : ∀ c id f, (id, .patch f) ∈ (s.cell c).queue → Tracked live n f
  patching : ∀ c f v, .notify c (.patch f) v ∈ tasks → Tracked live n f

/-- What holds between calls. -/
def Ledger (live : List Layout) (s : Store) : Prop := Underway live s.placeholders.size s []

section Step

variable {s t : Store} {task : Task} {ts k : List Task} {live : List Layout} {n : Nat}

/-- A field that is not patched keeps its bytes, since patches of other fields stand apart, or is a
new one and holds zeros. -/
theorem Reacts.blank_cases (hv : Valid s (task :: k)) (hm : ∀ m, task = .move m → m.Indirect)
    (hr : Reacts s task t ts) {f : FieldId} {p : Placeholder} (hp : t.placeholders[f]? = some p)
    (hpatched : p.patched = false) :
    (s.placeholders[f]? = some p ∧
      (t.image p.image).slice p.offset p.width = (s.image p.image).slice p.offset p.width) ∨
    (t.image p.image).slice p.offset p.width = p.format.placeholder := by
  obtain ⟨q, b, hq, rfl⟩ | ⟨i, format, c, label, -, hfits, rfl, -, rfl⟩ := hr.placeholder_cases hp
  · obtain ⟨hqpatched, rfl⟩ := Bool.or_eq_false_iff.1 hpatched
    refine .inl ⟨by simpa using hq, ?_⟩
    change (t.image q.image).slice q.offset q.width = (s.image q.image).slice q.offset q.width
    by_cases htask : ∃ c v, task = .notify c (.patch f) v
    · obtain ⟨c, v, rfl⟩ := htask
      obtain ⟨hi, -⟩ | ⟨c', g, v', p', bs, hpatch, -, -, -, rfl⟩ | ⟨m, hmove, -⟩ := hr.draws
      · rw [image, hi, image]
      · -- The patch of the field itself marks it.
        cases hpatch
        change (s.placeholders.modify f fun p => { p with patched := true })[f]? = _ at hp
        rw [Array.getElem?_modify, if_pos rfl, hq] at hp
        have := congrArg Placeholder.patched (Option.some.inj hp)
        simp [hqpatched] at this
      · cases hmove
    · refine hr.slice_eq (hv.fields f q hq).2.2 ?_ ?_
      · rintro o bs note rfl
        exact hm _ rfl
      · rintro c g v p' rfl hp' hi
        have hfg : f ≠ g := fun hfg => htask ⟨c, v, hfg ▸ rfl⟩
        rcases Nat.lt_or_gt_of_ne hfg with hfg | hgf
        · exact .inl (hv.apart f g q p' hfg hq hp' hi.symm)
        · exact .inr (hv.apart g f p' q hgf hp' hq hi)
  · refine .inr ?_
    change ((s.placed c i format label).image i).slice (s.image i).size format.width = _
    rw [image_placed, if_pos ⟨rfl, hfits.1⟩, ← FixedFormat.length_placeholder]
    exact Image.slice_append_end ..

theorem Blank.step (hv : Valid s (task :: k)) (hm : ∀ m, task = .move m → m.Indirect)
    (hr : Reacts s task t ts) (h : Blank s) : Blank t := by
  intro f p hp hpatched
  obtain ⟨hold, hbytes⟩ | hnew := hr.blank_cases hv hm hp hpatched
  · exact hbytes.trans (h f p hold hpatched)
  · exact hnew

theorem Underway.start {m : Move} (hm : m.Indirect) (h : Underway live n s []) :
    Underway live n s [.move m] :=
  { h with
    toValid := h.toValid.start m
    once := h.once.start m
    moves := by
      intro m' hm'
      cases List.mem_singleton.1 hm'
      exact hm
    patching := by simp }

/-- Every reaction keeps what holds while a call runs. -/
theorem Underway.step (hr : Reacts s task t ts) (h : Underway live n s (task :: k)) :
    Underway live n t (ts ++ k) where
  toValid := Valid.step hr h.toValid
  numbered := h.numbered.step h.toValid hr
  once := h.once.step h.toValid hr
  blank := h.blank.step h.toValid (fun m hm => h.moves m (hm ▸ .head k)) hr
  laid l hl := (h.laid l hl).mono hr.grows
  size := h.size.trans hr.grows.placeholders
  moves m hm := h.moves m (hr.move_mem hm)
  patches c id f hq := by
    obtain hthin | ⟨sub, hsub, -, hpush⟩ := hr.queue_cases h.toValid c
    · exact h.patches c id f (hthin.1 hq)
    · rw [hpush.1] at hq
      obtain hq | hq := List.mem_append.1 hq
      · exact h.patches c id f hq
      · cases List.mem_singleton.1 hq
        obtain ⟨-, -, -, -, rfl⟩ := hr.queues_patch hsub
        exact .inl h.size
  patching c f v hx := by
    obtain hx | hx := List.mem_append.1 hx
    · obtain ⟨⟨q, hq, hsub⟩, -⟩ := hr.notified hx
      exact h.patches c q.1 f (hsub ▸ hq)
    · exact h.patching c f v (.tail _ hx)

theorem Underway.visits {tasks : List Task} (hv : Visits Move.Indirect s t tasks)
    (h : Underway live n s []) : Underway live n t tasks :=
  hv.invariant h (fun hm h => h.start hm) Underway.step

theorem Underway.steps {P : Move → Prop} (hst : Steps P s t) (hP : ∀ m, P m → m.Indirect)
    (h : Underway live n s []) : Underway live n t [] :=
  h.visits (hst.mono hP).visits

/-- A field whose patch waits exists. -/
theorem Underway.patch_lt {c : CellId} {id : Nat} {f : FieldId} (h : Underway live n s k)
    (hq : (id, .patch f) ∈ (s.cell c).queue) : f < s.placeholders.size := by
  obtain ⟨p, hp, -⟩ := h.numbered.patches c id f hq
  exact (Array.getElem?_eq_some_iff.1 hp).1

end Step

/-! ## Calls -/

/-- The calls that neither write to images directly nor make or release layouts that live on. -/
def Call.Indirect : Call → Prop
  | .append .. | .overwrite .. | .layout .. | .finalize .. | .drop .. => False
  | _ => True

/-- One use of the library leads from some living layouts and a store to others: any indirect call,
a layout that is made or fails, or one that is finalized or dropped. -/
inductive Leads : List Layout → Store → List Layout → Store → Prop where
  | call {live s} {call : Call} (ha : call.Admissible s) (hi : call.Indirect) :
      Leads live s live (call.run.after s)
  | layout {live s r i observer l t} (hi : i < s.images.size) (hw : Region.Within s.cells.size r)
      (h : r.layoutObserved i observer s = .ok l t) : Leads live s (l :: live) t
  | abandon {live s r i observer e t} (hi : i < s.images.size) (hw : Region.Within s.cells.size r)
      (h : r.layoutObserved i observer s = .error e t) : Leads live s live t
  | finalize {s l config observer} (front back : List Layout) :
      Leads (front ++ l :: back) s (front ++ back) ((l.finalizeObserved config observer).after s)
  | drop {s l} (front back : List Layout) :
      Leads (front ++ l :: back) s (front ++ back) (l.drop.after s)

namespace Ledger

variable {s t : Store} {live : List Layout} {l : Layout} {front back : List Layout}

theorem empty : Ledger [] {} where
  toValid := Valid.empty
  numbered := Numbered.empty
  once := Once.empty
  blank := by simp [Blank]
  laid := by simp
  size := le_rfl
  moves := by simp
  patches c id f hq := by simp [Store.cell] at hq
  patching := by simp

/-- Steps that place nothing keep the ledger. -/
theorem steps {P : Move → Prop} (hst : Steps P s t) (hP : ∀ m, P m → m.Indirect ∧ ¬ m.Places)
    (h : Ledger live s) : Ledger live t := by
  have hsize := hst.size_placeholders_le fun m hm => (hP m hm).2
  have hu := Underway.steps hst (fun m hm => (hP m hm).1) h
  exact { hu with
    size := le_rfl
    patches := fun c id f hq => (hu.patches c id f hq).imp_left hsize.trans
    patching := by simp }

/-- A layout is released: none of its patches waits any more. -/
theorem release {P : Move → Prop} (hst : Steps P s t) (hP : ∀ m, P m → m.Indirect ∧ ¬ m.Places)
    (hfree : ∀ c id (f : Nat), (id, .patch f) ∈ (t.cell c).queue → ¬ (l.first ≤ f ∧ f < l.last))
    (h : Ledger (front ++ l :: back) s) : Ledger (front ++ back) t := by
  have hu := h.steps hst hP
  have hmem : ∀ l' ∈ front ++ back, l' ∈ front ++ l :: back := by
    simp only [List.mem_append, List.mem_cons]
    exact fun l' hl => hl.imp_right .inr
  refine { hu with
    laid := fun l' hl => hu.laid l' (hmem l' hl)
    patches := fun c id f hq => ?_
    patching := by simp }
  obtain hlt | ⟨l', hl, hf⟩ := hu.patches c id f hq
  · exact .inl hlt
  · refine .inr ⟨l', ?_, hf⟩
    have hne : l' ≠ l := fun heq => hfree c id f hq (heq ▸ hf)
    simpa [hne] using hl

theorem drop (h : Ledger (front ++ l :: back) s) : Ledger (front ++ back) (l.drop.after s) := by
  refine h.release (l.steps_drop h.toValid) (fun m hm => ?_) fun c id f hq hf => ?_
  · cases m with
    | journal | unsubscribe => exact ⟨trivial, id⟩
    | _ => exact hm.elim
  · rw [Layout.drop, after_of_ok (release_run l.first l.last)] at hq
    exact ((h.numbered.mem_released l.first l.last).1 hq).2 f hf.1 hf.2 rfl

theorem finalize (config : FlattenConfig) (observer : Observer)
    (h : Ledger (front ++ l :: back) s) :
    Ledger (front ++ back) ((l.finalizeObserved config observer).after s) := by
  have hw := (h.laid l (by simp)).entries
  refine h.release (Layout.finalizeObserved_finalizes config observer h.toValid hw) (fun m hm => ?_)
    fun c id f hq hf => ?_
  · cases m with
    | journal | settle | unsubscribe => exact ⟨trivial, id⟩
    | _ => exact hm.elim
  · obtain ⟨tally, u, hrun⟩ := Layout.runEntries_isOk l config.enforceComplete 0 l.entries {} s
    have hsu : Steps (Move.Settles s.cells.size) s u :=
      after_of_ok hrun ▸ Layout.steps_runEntries l _ 0 {} h.toValid le_rfl hw
    obtain ⟨log, trace, reports, hclose⟩ := Layout.after_close (s := u) l config observer tally
    rw [Layout.finalizeObserved, after_bind, hrun] at hq
    dsimp only at hq
    rw [hclose] at hq
    have hnumbered := hsu.numbered h.toValid h.numbered
    exact ((hnumbered.mem_released l.first l.last).1 hq).2 f hf.1 hf.2 rfl

/-- What a layout placed is in its image. -/
theorem image_eq {i : ImageId} (hst : Steps (Move.Flattens i) s t) {f : FieldId} {p : Placeholder}
    (hf : s.placeholders.size ≤ f) (hp : t.placeholders[f]? = some p) : p.image = i := by
  refine hst.preserve (F := fun u => ∀ (f : FieldId) (p : Placeholder), s.placeholders.size ≤ f →
    u.placeholders[f]? = some p → p.image = i) (fun hm hr ih f p hf hp => ?_)
    (fun f p hf hp => ?_) f p hf hp
  · obtain ⟨q, b, hq, rfl⟩ | ⟨j, format, c, label, rfl, -, -, -, rfl⟩ := hr.placeholder_cases hp
    · exact ih f q hf hq
    · exact hm _ rfl
  · exact absurd (Array.getElem?_eq_some_iff.1 hp).1 (Nat.not_lt.2 hf)

theorem indirect_of_flattens {i : ImageId} {m : Move} (hm : m.Flattens i) : m.Indirect := by
  cases m <;> trivial

theorem layout {r : Region} {i : ImageId} {observer : Observer} (hi : i < s.images.size)
    (hw : r.Within s.cells.size) (hrun : r.layoutObserved i observer s = .ok l t)
    (h : Ledger live s) : Ledger (l :: live) t := by
  have hst : Steps (Move.Flattens i) s t :=
    after_of_ok hrun ▸ Region.layoutObserved_flattens observer h.toValid hi hw
  have hu := Underway.steps hst (fun _ => indirect_of_flattens) h
  obtain ⟨-, rfl⟩ := Region.layoutObserved_eq_ok hrun
  refine { hu with
    size := le_rfl
    laid := List.forall_mem_cons.2 ⟨⟨le_rfl, fun f p hf _ hp => image_eq hst hf hp, ?_⟩, hu.laid⟩
    patches := fun c id f hq => .inr ?_
    patching := by simp }
  · exact fun e he => (Segment.WithinAll.entries hw e he).mono hst.grows.cells
  · obtain hf | ⟨l', hl, hf⟩ := hu.patches c id f hq
    · exact ⟨_, .head _, hf, hu.patch_lt hq⟩
    · exact ⟨l', .tail _ hl, hf⟩

/-- A layout that fails leaves no patches. -/
theorem abandon {r : Region} {i : ImageId} {observer : Observer} {e : Error}
    (hi : i < s.images.size) (hw : r.Within s.cells.size)
    (hrun : r.layoutObserved i observer s = .error e t) (h : Ledger live s) : Ledger live t := by
  have hst : Steps (Move.Flattens i) s t :=
    after_of_error hrun ▸ Region.layoutObserved_flattens observer h.toValid hi hw
  have hu := Underway.steps hst (fun _ => indirect_of_flattens) h
  obtain ⟨u, hemit, rfl⟩ := Region.layoutObserved_eq_error hrun
  have hnote : Steps (Move.Writes i s.cells.size) s ((emit
    (.flattening r.segments.length (s.image i).size)).after s) := steps_emit _ fun _ _ _ => trivial
  have hsu : Steps (Move.Writes i s.cells.size) s u := hnote.trans (after_of_error hemit ▸
    steps_emitObserved observer 0 (hnote.valid h.toValid) hi le_rfl hw)
  have hnumbered := hsu.numbered h.toValid h.numbered
  refine { hu with
    size := le_rfl
    patches := fun c id f hq => ?_
    patching := by simp }
  obtain hf | hlive := hu.patches c id f hq
  · have hlt := hu.patch_lt hq
    rw [placeholders_released] at hlt
    exact absurd rfl (((hnumbered.mem_released _ _).1 hq).2 f hf hlt)
  · exact .inr hlive

theorem flatten {r : Region} {i : ImageId} (config : FlattenConfig) (observer : Observer)
    (hi : i < s.images.size) (hw : r.Within s.cells.size) (h : Ledger live s) :
    Ledger live ((r.flattenObserved i config observer).after s) := by
  rw [Region.flattenObserved, after_bind]
  cases hlayout : r.layoutObserved i observer s with
  | error e t => exact h.abandon hi hw hlayout
  | ok l t =>
    have hlaid : Ledger ([] ++ l :: live) t := h.layout hi hw hlayout
    have hfinal : Ledger live _ := hlaid.finalize config observer
    simp only [after_bind]
    cases hrun : l.finalizeObserved config observer t with
    | error e u => exact after_of_error hrun ▸ hfinal
    | ok summary u =>
      rw [after_of_ok hrun] at hfinal
      have hnote : Steps Move.Closes u ((emit (.flattened summary.size summary.deferredFields
        summary.unresolved.length)).after u) := steps_emit _ fun _ _ _ => trivial
      refine hfinal.steps hnote fun m hm => ?_
      cases m with
      | journal | unsubscribe => exact ⟨trivial, id⟩
      | _ => exact hm.elim

theorem prepares {m : Move} (hm : m.Prepares) : m.Indirect ∧ ¬ m.Places := by
  cases m with
  | overwrite | place => exact hm.elim
  | _ => exact ⟨trivial, id⟩

theorem build {b : Snapshot.Builder} (config : FlattenConfig) (hb : b.Within s.cells.size)
    (h : Ledger live s) : Ledger live ((b.build config).after s) := by
  have hprepare := h.steps (Snapshot.Builder.prepare_prepares b s) fun _ => prepares
  rw [Snapshot.Builder.build, after_bind]
  cases hrun : b.prepare s with
  | error e t => exact after_of_error hrun ▸ hprepare
  | ok result t =>
    obtain ⟨refs, crc, r⟩ := result
    rw [after_of_ok hrun] at hprepare
    have hnew : Ledger live { t with images := t.images.push {} } :=
      hprepare.steps (P := (· = .newImage)) (.quiet (m := .newImage) rfl trivial rfl) (by
        rintro m rfl
        exact ⟨trivial, id⟩)
    have hi : t.images.size < ({ t with images := t.images.push {} } : Store).images.size := by
      simp
    have hw : r.Within t.cells.size := Snapshot.Builder.prepare_within hrun hb
    have hflatten := hnew.flatten config config.observer hi hw
    change Ledger live ((do
      b.collect config refs crc t.images.size (← r.flatten t.images.size config) :
        Op Snapshot).after { t with images := t.images.push {} })
    rw [after_bind, Region.flatten]
    cases hrun' : r.flattenObserved t.images.size config config.observer
        { t with images := t.images.push {} } with
    | error e u => exact after_of_error hrun' ▸ hflatten
    | ok summary u =>
      rw [after_of_ok hrun'] at hflatten
      exact hflatten.steps (Snapshot.Builder.steps_collect ..) fun _ => prepares

/-- An indirect call keeps the ledger. -/
theorem call {call : Call} (ha : call.Admissible s) (hi : call.Indirect) (h : Ledger live s) :
    Ledger live (call.run.after s) := by
  -- Most calls place nothing; flattening and building release what they place.
  have quiet : (∀ m, call.Causes s m → m.Indirect ∧ ¬ m.Places) →
      Ledger live (call.run.after s) := h.steps (Call.causes h.toValid ha)
  cases call with
  | newCell | tryMap | tryBind | subtract =>
    exact quiet fun m hm => prepares (Move.Creates.prepares hm)
  | resolve | confirm | unresolve | unsubscribe | define | newImage =>
    refine quiet fun m hm => ?_
    rw [show m = _ from hm]
    exact ⟨trivial, id⟩
  | onResolve =>
    refine quiet fun m hm => ?_
    obtain rfl | ⟨v, rfl⟩ := hm
    · exact ⟨trivial, id⟩
    · exact ⟨trivial, id⟩
  | flatten r i config observer =>
    rw [Call.run, after_discard]
    exact h.flatten config observer ha.1 ha.2
  | build b config =>
    rw [Call.run, after_discard]
    exact h.build config ha
  | append | overwrite | layout | finalize | drop => exact hi.elim

theorem leads {live' : List Layout} (hl : Leads live s live' t) (h : Ledger live s) :
    Ledger live' t := by
  cases hl with
  | call ha hi => exact h.call ha hi
  | layout hi hw hrun => exact h.layout hi hw hrun
  | abandon hi hw hrun => exact h.abandon hi hw hrun
  | finalize => exact h.finalize ..
  | drop => exact h.drop

end Ledger

theorem Call.Causes.indirect {call : Call} {s : Store} {m : Move} (h : call.Causes s m)
    (hi : call.Indirect) : m.Indirect := by
  cases call with
  | newCell | tryMap | tryBind | subtract => exact (Ledger.prepares (Move.Creates.prepares h)).1
  | resolve | confirm | unresolve | unsubscribe | define | newImage =>
    rw [show m = _ from h]
    trivial
  | onResolve =>
    obtain rfl | ⟨v, rfl⟩ := h
    · trivial
    · trivial
  | flatten => exact Ledger.indirect_of_flattens h
  | build =>
    obtain h | ⟨i, -, h⟩ := h
    · exact (Ledger.prepares h).1
    · exact Ledger.indirect_of_flattens h
  | append | overwrite | layout | finalize | drop => exact hi.elim

/-- The way of each use of the library goes through moves that write over no bytes. -/
theorem Leads.visits {live live' : List Layout} {s t : Store} (hl : Leads live s live' t)
    (h : Ledger live s) : Visits Move.Indirect s t [] := by
  cases hl with
  | call ha hi => exact ((Call.causes h.toValid ha).mono fun _ hm => hm.indirect hi).visits
  | layout hi hw hrun =>
    rw [← after_of_ok hrun]
    exact ((Region.layoutObserved_flattens _ h.toValid hi hw).mono
      fun _ => Ledger.indirect_of_flattens).visits
  | abandon hi hw hrun =>
    rw [← after_of_error hrun]
    exact ((Region.layoutObserved_flattens _ h.toValid hi hw).mono
      fun _ => Ledger.indirect_of_flattens).visits
  | @finalize _ l =>
    have hw := (h.laid l (by simp)).entries
    exact ((Layout.finalizeObserved_finalizes _ _ h.toValid hw).mono
      fun _ hm => Ledger.indirect_of_flattens (hm.flattens 0)).visits
  | drop =>
    exact ((Layout.steps_drop _ h.toValid).mono
      fun _ hm => Ledger.indirect_of_flattens (hm.finalizes.flattens 0)).visits

/-! ## Fields and frames -/

section Frames

variable {s t : Store} {task : Task} {ts k tasks : List Task} {live : List Layout} {n : Nat}

/-- A task that is not a patch leaves the bytes and the placeholders that are there. -/
theorem Reacts.keeps (hr : Reacts s task t ts) (hm : ∀ m, task = .move m → m.Indirect)
    (hp : ∀ c f v, task ≠ .notify c (.patch f) v) :
    (∀ i, (s.image i).bytes <+: (t.image i).bytes) ∧
      ∀ (f : FieldId) (p : Placeholder), s.placeholders[f]? = some p →
        t.placeholders[f]? = some p := by
  obtain ⟨hi, hph⟩ | ⟨c, f, v, -, -, rfl, -⟩ | ⟨m, rfl, hd, -, rfl⟩ := hr.draws
  · refine ⟨fun i => ?_, fun f p hp => hph ▸ hp⟩
    rw [image, image, hi]
  · exact absurd rfl (hp c f v)
  · have appended : ∀ (i j : ImageId) (bs : Bytes) (note : Note), (s.image i).bytes <+:
        ((s.modifyImage j (·.append bs note)).image i).bytes := by
      intro i j bs note
      rw [image_modifyImage]
      split_ifs with hj
      · rw [hj.1, Image.bytes_append]
        exact List.prefix_append _ _
      · exact List.prefix_rfl
    cases m with
    | newImage =>
      refine ⟨fun i => ?_, fun f p hp => hp⟩
      exact (congrArg Image.bytes (image_newImage s i)).symm ▸ List.prefix_rfl
    | append j bs note => exact ⟨fun i => appended i j bs note, fun f p hp => hp⟩
    | place j format c label =>
      refine ⟨fun i => appended i j _ _, fun f p hp => ?_⟩
      have hf := (Array.getElem?_eq_some_iff.1 hp).1
      simp only [Move.apply, placed, Array.getElem?_push, if_neg (Nat.ne_of_lt hf), hp]
    | overwrite => exact (hm _ rfl).elim
    | journal | define | create | attach | watch | run | resolve | settle | unresolve
    | unsubscribe => exact hd.elim

end Frames

end Backpatch
