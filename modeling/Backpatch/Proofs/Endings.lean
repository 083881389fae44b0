import Mathlib
import Backpatch.Proofs.Placeholders
import Backpatch.Proofs.Traces

/-!
# Layouts end without a trace

A layout ends when it is finalized, with success or not, when it is dropped, or when the traversal
of its region fails. However it ends, none of its patches waits any more, and all other subscribers
are where they were, in their order, unless their cell was resolved or a callback took them back
(`ReleasesPatches`). A patch that neither waits nor runs is gone for good (`PatchesGone`): whatever
is done later, no byte and no row of an image changes for the sake of its field. New subscribers
come only from derived values and callbacks that the layout set off; if no one waits who would do
that, flattening never makes a queue longer.
-/

namespace Backpatch

open Store Failable

/-- What the end of a layout does to the queues, and how the trace of the operation accounts for
it. -/
structure ReleasesPatches (first last : FieldId) (path : List Reaction) (s t : Store) : Prop where
  gone : ∀ c id (f : FieldId), first ≤ f → f < last → (id, .patch f) ∉ (t.cell c).queue
  others : ∀ c, ∃ kept added, (t.cell c).queue = kept ++ added ∧ kept.Sublist (s.cell c).queue ∧
    (∀ q ∈ (s.cell c).queue, (∀ f : FieldId, first ≤ f → f < last → q.2 ≠ .patch f) →
      q ∈ kept ∨ ∃ x ∈ path, x.Resolves c ∨ x.Cancels c q.1) ∧
    ∀ q ∈ added, ∃ x ∈ path, x.Subscribes c q.2

/-- The move notes something, settles a cell, or adds to an image. -/
def Move.Composes : Move → Prop
  | .journal .. | .settle .. | .append .. | .place .. => True
  | _ => False

theorem Move.Composes.plain {m : Move} (h : m.Composes) : m.Plain := by
  cases m with
  | journal | settle | append | place => trivial
  | _ => exact h.elim

theorem Move.Writes.composes {i : ImageId} {n : Nat} {m : Move} (h : m.Writes i n) :
    m.Composes := by
  cases m with
  | journal | settle | append | place => trivial
  | _ => exact h.elim

/-- The trace leads to a store in which the patches of the fields from `first` up to `last` are then
taken back; these are the fields that the trace itself places, or it places none. -/
def Withdraws (first last : FieldId) (path : List Reaction) (s t : Store) : Prop :=
  ∃ u, Traces Move.Composes s [] path u ∧ Steps Move.Closes u t ∧
    t.placeholders = u.placeholders ∧ last ≤ u.placeholders.size ∧
    (∀ c, t.cell c = (u.released (u.placeholders.extract first last).toList).cell c) ∧
    ∀ f : FieldId, s.placeholders.size ≤ f → f < u.placeholders.size → first ≤ f ∧ f < last

section Releasing

variable {first last : FieldId} {path path' : List Reaction} {s t u : Store}

theorem Traces.valid {P : Move → Prop} (h : Traces P s [] path t) (hv : Valid s []) :
    Valid t [] :=
  (h.invariant hv (fun _ hv => hv.start _) Valid.step).1

theorem Traces.numbered {P : Move → Prop} (h : Traces P s [] path t) (hv : Valid s [])
    (hn : Numbered s) : Numbered t :=
  (h.invariant (I := fun s tasks => Valid s tasks ∧ Numbered s) ⟨hv, hn⟩
    (fun _ hi => ⟨hi.1.start _, hi.2⟩) fun hr hi => ⟨Valid.step hr hi.1, hi.2.step hi.1 hr⟩).1.2

theorem Withdraws.prepend (g : Traces Move.Composes s [] path' u)
    (h : Withdraws first last path u t)
    (hplaced : ∀ f : FieldId, s.placeholders.size ≤ f → f < u.placeholders.size →
      first ≤ f ∧ f < last) : Withdraws first last (path' ++ path) s t := by
  obtain ⟨v, htrace, hclose, hsame, hlast, hcell, hmore⟩ := h
  refine ⟨v, g.append htrace, hclose, hsame, hlast, hcell, fun f hf hlt => ?_⟩
  obtain hold | hnew := Nat.lt_or_ge f u.placeholders.size
  · exact hplaced f hf hold
  · exact hmore f hnew hlt

/-- If the layout was there before, its end places no field. -/
theorem Withdraws.size_eq (h : Withdraws first s.placeholders.size path s t) :
    t.placeholders.size = s.placeholders.size := by
  obtain ⟨u, -, -, hsame, hlast, -, hplaced⟩ := h
  rw [hsame]
  refine le_antisymm (Nat.le_of_not_lt fun hlt => ?_) hlast
  exact absurd (hplaced _ le_rfl hlt).2 (lt_irrefl _)

theorem Withdraws.note (h : Withdraws first last path s t) (event : Event) :
    Withdraws first last path s ((emit event).after t) := by
  obtain ⟨u, htrace, hclose, hsame, hlast, hcell, hplaced⟩ := h
  have hnote : Steps Move.Closes t ((emit event).after t) := steps_emit _ fun _ _ _ => trivial
  exact ⟨u, htrace, hclose.trans hnote, hsame, hlast, hcell, hplaced⟩

theorem Layout.finalizeObserved_withdraws (l : Layout) (config : FlattenConfig)
    (observer : Observer) (hv : Valid s []) (hw : ∀ e ∈ l.entries, e.Within s.cells.size)
    (hl : l.last ≤ s.placeholders.size) :
    ∃ path, Withdraws l.first l.last path s ((l.finalizeObserved config observer).after s) := by
  obtain ⟨tally, u, hrun⟩ := Layout.runEntries_isOk l config.enforceComplete 0 l.entries {} s
  have hsu : Steps (Move.Settles s.cells.size) s u :=
    after_of_ok hrun ▸ Layout.steps_runEntries l _ 0 {} hv le_rfl hw
  obtain ⟨path, htrace⟩ := hsu.traces
  obtain ⟨log, trace, reports, hclose⟩ := Layout.after_close (s := u) l config observer tally
  have hafter : (l.finalizeObserved config observer).after s =
      { u.released (l.placeholders u).toList with log, trace, reports } := by
    rw [Layout.finalizeObserved, after_bind, hrun]
    exact hclose
  have hsize := hsu.size_placeholders fun _ hm => hm.not_draws
  refine ⟨path, u, htrace.mono fun _ hm => (hm.writes (i := 0)).composes, ?_, ?_, hsize ▸ hl,
    fun c => by rw [hafter]; rfl, fun f hf hlt => ?_⟩
  · rw [hafter]
    exact Layout.steps_closed l (hsu.valid hv) log trace reports
  · rw [hafter]
    exact placeholders_released ..
  · exact absurd (hsize ▸ hlt) (Nat.not_lt.2 hf)

/-- The traversal of a region, whether it fails or not. -/
theorem steps_traversal {r : Region} {i : ImageId} (observer : Observer) (hv : Valid s [])
    (hi : i < s.images.size) (hw : r.Within s.cells.size) :
    Steps (Move.Writes i s.cells.size) s ((emitObserved observer i 0 r.segments).after ((emit
      (.flattening r.segments.length (s.image i).size)).after s)) := by
  have hnote : Steps (Move.Writes i s.cells.size) s ((emit
    (.flattening r.segments.length (s.image i).size)).after s) := steps_emit _ fun _ _ _ => trivial
  exact hnote.trans (steps_emitObserved observer 0 (hnote.valid hv) hi le_rfl hw)

theorem Region.layoutObserved_withdraws {r : Region} {i : ImageId} {observer : Observer} {e : Error}
    (hv : Valid s []) (hi : i < s.images.size) (hw : r.Within s.cells.size)
    (h : r.layoutObserved i observer s = .error e t) :
    ∃ path, Withdraws s.placeholders.size t.placeholders.size path s t := by
  obtain ⟨u, hemit, rfl⟩ := Region.layoutObserved_eq_error h
  have hsu : Steps (Move.Writes i s.cells.size) s u :=
    after_of_error hemit ▸ steps_traversal observer hv hi hw
  obtain ⟨path, htrace⟩ := hsu.traces
  rw [placeholders_released]
  refine ⟨path, u, htrace.mono fun _ hm => hm.composes, ?_, placeholders_released .., le_rfl,
    fun _ => rfl, fun f hf hlt => ⟨hf, hlt⟩⟩
  exact steps_released fun _ hp => cell_lt_of_mem_extract (hsu.valid hv) hp

theorem Region.flattenObserved_withdraws {r : Region} {i : ImageId} (config : FlattenConfig)
    (observer : Observer) (hv : Valid s []) (hi : i < s.images.size) (hw : r.Within s.cells.size) :
    ∃ path, Withdraws s.placeholders.size
      ((r.flattenObserved i config observer).after s).placeholders.size path s
      ((r.flattenObserved i config observer).after s) := by
  rw [Region.flattenObserved, after_bind]
  cases hlayout : r.layoutObserved i observer s with
  | error e t => exact Region.layoutObserved_withdraws hv hi hw hlayout
  | ok l u =>
    obtain ⟨hemit, rfl⟩ := Region.layoutObserved_eq_ok hlayout
    have hsu : Steps (Move.Writes i s.cells.size) s u :=
      after_of_ok hemit ▸ steps_traversal observer hv hi hw
    obtain ⟨path, htrace⟩ := hsu.traces
    obtain ⟨path', hfinal⟩ := Layout.finalizeObserved_withdraws
      ⟨i, s.placeholders.size, u.placeholders.size, r.entries⟩ config observer (hsu.valid hv)
      (fun e he => (Segment.WithinAll.entries hw e he).mono hsu.grows.cells) le_rfl
    have hwhole := hfinal.prepend (htrace.mono fun _ hm => hm.composes) fun f hf hlt => ⟨hf, hlt⟩
    refine ⟨path ++ path', ?_⟩
    -- The finalization places nothing, so the layout has all fields of the operation.
    have hsize := hfinal.size_eq
    simp only [after_bind]
    cases hrun : Layout.finalizeObserved ⟨i, s.placeholders.size, u.placeholders.size, r.entries⟩
        config observer u with
    | error e t =>
      rw [after_of_error hrun] at hwhole hsize
      exact hsize ▸ hwhole
    | ok summary t =>
      rw [after_of_ok hrun] at hwhole hsize
      exact hsize ▸ hwhole.note _

end Releasing

/-! ## Fields whose patches are gone -/

/-- The patches of the fields in `F` neither wait nor are about to run, and no field in `F` is yet
to be placed. -/
structure PatchesGone (F : FieldId → Prop) (s : Store) (tasks : List Task) : Prop where
  waiting : ∀ c id f, F f → (id, .patch f) ∉ (s.cell c).queue
  running : ∀ c f v, F f → .notify c (.patch f) v ∉ tasks
  placed : ∀ f : FieldId, F f → f < s.placeholders.size

section PatchesGone

variable {F : FieldId → Prop} {s t : Store} {task : Task} {ts k tasks : List Task} {i : ImageId}

theorem PatchesGone.step (hv : Valid s (task :: k)) (hr : Reacts s task t ts)
    (h : PatchesGone F s (task :: k)) :
    PatchesGone F t (ts ++ k) where
  waiting c id f hf hq := by
    obtain hthin | ⟨sub, hsub, -, hpush⟩ := hr.queue_cases hv c
    · exact h.waiting c id f hf (hthin.1 hq)
    · rw [hpush.1] at hq
      obtain hq | hq := List.mem_append.1 hq
      · exact h.waiting c id f hf hq
      · cases List.mem_singleton.1 hq
        obtain ⟨-, -, -, -, rfl⟩ := hr.queues_patch hsub
        exact absurd (h.placed _ hf) (lt_irrefl _)
  running c f v hf hx := by
    obtain hx | hx := List.mem_append.1 hx
    · obtain ⟨⟨q, hq, hsub⟩, -⟩ := hr.notified hx
      exact h.waiting c q.1 f hf (hsub ▸ hq)
    · exact h.running c f v hf (.tail _ hx)
  placed f hf := (h.placed f hf).trans_le hr.grows.placeholders

theorem PatchesGone.start (h : PatchesGone F s []) (m : Move) : PatchesGone F s [.move m] :=
  ⟨h.waiting, by simp, h.placed⟩

theorem PatchesGone.visits {P : Move → Prop} (hvisits : Visits P s t tasks) (hv : Valid s [])
    (h : PatchesGone F s []) : Valid t tasks ∧ PatchesGone F t tasks :=
  hvisits.invariant (I := fun s tasks => Valid s tasks ∧ PatchesGone F s tasks) ⟨hv, h⟩
    (fun _ hi => ⟨hi.1.start _, hi.2.start _⟩)
    fun hr hi => ⟨Valid.step hr hi.1, hi.2.step hi.1 hr⟩

/-- The move writes to the image `i`. -/
def Move.Touches (i : ImageId) : Move → Prop
  | .append j .. | .place j .. | .overwrite j .. => j = i
  | _ => False

/-- The fields that the image `i` has in the store `s`. -/
def Store.HasField (s : Store) (i : ImageId) (f : FieldId) : Prop :=
  ∃ p, s.placeholders[f]? = some p ∧ p.image = i

/-- An image stays as it is, bytes and rows, if all patches of its fields are gone and no one writes
to it. -/
theorem PatchesGone.image_eq (hvisits : Visits (fun m => ¬ m.Touches i) s t tasks) (hv : Valid s [])
    (h : PatchesGone (s.HasField i) s []) : t.image i = s.image i := by
  refine (hvisits.invariant
    (I := fun t tasks => Valid t tasks ∧ PatchesGone (s.HasField i) t tasks ∧
      (∀ f, t.HasField i f → s.HasField i f) ∧ (∀ m, .move m ∈ tasks → ¬ m.Touches i) ∧
      t.image i = s.image i)
    ⟨hv, h, fun _ hf => hf, by simp, rfl⟩ ?_ ?_).2.2.2.2
  · rintro t m hm ⟨hv, hd, hfields, -, himage⟩
    exact ⟨hv.start m, hd.start m, hfields, by simpa using hm, himage⟩
  · rintro t task u ts k hr ⟨hv, hd, hfields, hmoves, himage⟩
    refine ⟨Valid.step hr hv, hd.step hv hr, ?_, ?_, Eq.trans ?_ himage⟩
    · rintro f ⟨p, hp, rfl⟩
      obtain ⟨q, b, hq, rfl⟩ | ⟨j, format, c, label, rfl, -, -, -, rfl⟩ := hr.placeholder_cases hp
      · exact hfields f ⟨q, hq, rfl⟩
      · exact absurd rfl (hmoves _ (.head k))
    · exact fun m hm => hmoves m (hr.move_mem hm)
    · obtain ⟨hi, -⟩ | ⟨c, f, v, p, bs, rfl, hp, -, -, rfl⟩ | ⟨m, rfl, hm, -, rfl⟩ := hr.draws
      · rw [image, hi, image]
      · have hne : i ≠ p.image := by
          rintro rfl
          exact hd.running c f v (hfields f ⟨p, hp, rfl⟩) (.head k)
        rw [image_patched, if_neg fun h => hne h.1]
      · have hfree := hmoves m (.head k)
        cases m with
        | newImage => exact image_newImage t i
        | append j | overwrite j =>
          have hne : i ≠ j := fun h => hfree h.symm
          exact (image_modifyImage ..).trans (if_neg fun h => hne h.1)
        | place j format c label =>
          have hne : i ≠ j := fun h => hfree h.symm
          exact (image_placed ..).trans (if_neg fun h => hne h.1)
        | _ => exact hm.elim

end PatchesGone

/-! ## Subscribers that bring no others -/

/-- When the subscriber is set off, it settles its cell or patches its field, and queues no one. -/
def Subscriber.isPassive : Subscriber → Bool
  | .derive .. | .patch _ => true
  | .follow .. | .minus .. | .act _ => false

/-- Only passive subscribers wait. -/
def Store.Passive (s : Store) : Prop := ∀ c, ∀ q ∈ (s.cell c).queue, q.2.isPassive = true

/-- The task is a move of a layout, or runs a passive subscriber. -/
def Task.Passive : Task → Prop
  | .move m => m.Composes
  | .notify _ sub _ => sub.isPassive = true
  | .act .. => False

section Passive

variable {s t : Store} {task : Task} {ts k : List Task} {path : List Reaction}

theorem Task.Passive.queues {c : CellId} {sub : Subscriber} (h : task.Passive)
    (hq : task.Queues s c sub) : sub.isPassive = true ∧ ∃ m, task = .move m := by
  cases task with
  | move m =>
    cases m with
    | place =>
      obtain ⟨-, rfl⟩ := hq
      exact ⟨rfl, _, rfl⟩
    | journal | settle | append => exact hq.elim
    | _ => exact h.elim
  | notify c' sub' v =>
    cases sub' with
    | derive | patch => exact hq.elim
    | follow | minus | act => cases h
  | act => exact h.elim

end Passive

theorem ReleasesPatches.mono {first last : FieldId} {path path' : List Reaction} {s t : Store}
    (h : ReleasesPatches first last path s t) (hpath : path ⊆ path') :
    ReleasesPatches first last path' s t := by
  refine ⟨h.gone, fun c => ?_⟩
  obtain ⟨kept, added, hqueue, hkept, hold, hadded⟩ := h.others c
  refine ⟨kept, added, hqueue, hkept, fun q hq hother => (hold q hq hother).imp_right ?_,
    fun q hq => ?_⟩
  · exact fun ⟨x, hx, hgone⟩ => ⟨x, hpath hx, hgone⟩
  · obtain ⟨x, hx, hsub⟩ := hadded q hq
    exact ⟨x, hpath hx, hsub⟩

end Backpatch
