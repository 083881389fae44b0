import Mathlib
import Backpatch.Proofs.Steps

/-!
# Layouts and snapshots as steps

Emitting segments and running entries only append to one image and settle cells that the segments
and entries name. Laying a region out, finalizing it and building a snapshot are plain: they take
no value back and write over no bytes but those of placeholders. What segments that were emitted
leave behind is proved by induction on `Emission`, whichever function emitted them.
-/

namespace Backpatch

open Store Failable

/-- The move notes something, adds to the image `i`, or settles one of the first `n` cells. -/
def Move.Writes (i : ImageId) (n : Nat) : Move → Prop
  | .journal .. => True
  | .settle c _ => c < n
  | .append j .. => j = i
  | .place j _ c _ => j = i ∧ c < n
  | _ => False

/-- The move notes something or settles one of the first `n` cells. -/
def Move.Settles (n : Nat) : Move → Prop
  | .journal .. => True
  | .settle c _ => c < n
  | _ => False

/-- The move notes something or takes a subscriber out of its queue. -/
def Move.Closes : Move → Prop
  | .journal .. | .unsubscribe .. => True
  | _ => False

theorem Move.Writes.plain {i : ImageId} {n : Nat} {m : Move} (h : m.Writes i n) : m.Plain := by
  cases m <;> trivial

theorem Move.Settles.writes {i : ImageId} {n : Nat} {m : Move} (h : m.Settles n) :
    m.Writes i n := by
  cases m with
  | journal => trivial
  | settle => exact h
  | _ => exact h.elim

theorem Move.Settles.plain {n : Nat} {m : Move} (h : m.Settles n) : m.Plain :=
  (h.writes (i := 0)).plain

theorem Move.Closes.plain {m : Move} (h : m.Closes) : m.Plain := by
  cases m <;> trivial

/-- The move notes something, adds to the image `i`, settles a cell, or takes a subscriber out of
its queue. -/
def Move.Flattens (i : ImageId) : Move → Prop
  | .journal .. | .settle .. | .unsubscribe .. => True
  | .append j .. | .place j .. => j = i
  | _ => False

theorem Move.Flattens.plain {i : ImageId} {m : Move} (h : m.Flattens i) : m.Plain := by
  cases m <;> trivial

/-- The move notes something, settles a cell, or takes a subscriber out of its queue. -/
def Move.Finalizes : Move → Prop
  | .journal .. | .settle .. | .unsubscribe .. => True
  | _ => False

theorem Move.Finalizes.flattens {m : Move} (h : m.Finalizes) (i : ImageId) : m.Flattens i := by
  cases m <;> trivial

theorem Move.Closes.finalizes {m : Move} (h : m.Closes) : m.Finalizes := by
  cases m <;> trivial

/-- The moves that lay segments out and finalize them are among `P`: notes, additions to the image
`i` with fields for the first `n` cells, and settling the cells in `S`. -/
structure Move.Emits (i : ImageId) (n : Nat) (S : CellId → Prop) (P : Move → Prop) : Prop where
  journal : ∀ log trace reports, P (.journal log trace reports)
  append : ∀ bs note, P (.append i bs note)
  place : ∀ format c label, c < n → P (.place i format c label)
  settle : ∀ c v, S c → P (.settle c v)

theorem Move.emits_writes (i : ImageId) (n : Nat) : Move.Emits i n (· < n) (Move.Writes i n) :=
  ⟨fun _ _ _ => trivial, fun _ _ => rfl, fun _ _ _ hc => ⟨rfl, hc⟩, fun _ _ hc => hc⟩

mutual

/-- The cells that the marks and the entries of a segment settle are in `S`. -/
def Segment.Settles (S : CellId → Prop) : Segment → Prop
  | .direct .. | .deferred .. => True
  | .mark c => S c
  | .postProcess e => S e.result
  | .nested segments => Segment.SettlesAll S segments

def Segment.SettlesAll (S : CellId → Prop) : List Segment → Prop
  | [] => True
  | segment :: rest => segment.Settles S ∧ Segment.SettlesAll S rest

end

mutual

theorem Segment.Within.settles {n : Nat} {segment : Segment} (h : segment.Within n) :
    segment.Settles (· < n) := by
  cases segment with
  | direct | deferred => trivial
  | mark => exact h
  | postProcess e => exact h.2.2
  | nested segments => exact Segment.WithinAll.settles h

theorem Segment.WithinAll.settles {n : Nat} {segments : List Segment}
    (h : Segment.WithinAll n segments) : Segment.SettlesAll (· < n) segments := by
  cases segments with
  | nil => trivial
  | cons segment rest => exact ⟨Segment.Within.settles h.1, Segment.WithinAll.settles h.2⟩

end

theorem Segment.withinAll_iff {n : Nat} {segments : List Segment} :
    Segment.WithinAll n segments ↔ ∀ s ∈ segments, s.Within n := by
  induction segments with
  | nil => simp [Segment.WithinAll]
  | cons s rest ih => simp [Segment.WithinAll, ih]

theorem Segment.withinAll_append {n : Nat} {xs ys : List Segment} :
    Segment.WithinAll n (xs ++ ys) ↔ Segment.WithinAll n xs ∧ Segment.WithinAll n ys := by
  simp only [Segment.withinAll_iff, List.forall_mem_append]

variable {s : Store} {i : ImageId} {n : Nat} {S : CellId → Prop} {P : Move → Prop}

namespace Store

theorem steps_emit (event : Event)
    (hP : ∀ log trace reports, P (.journal log trace reports)) : Steps P s ((emit event).after s) :=
  .quiet (m := .journal s.log (s.trace.push event) s.reports) (hP ..) trivial rfl

/-- A checkpoint changes nothing but the journal. -/
theorem checkpoint_run (observer : Observer) (j : ImageId) (c : Checkpoint) (s : Store) :
    ∃ log trace reports, checkpoint observer j c s = .ok () { s with log, trace, reports } := by
  cases observer with
  | silent => exact ⟨s.log, s.trace, s.reports, rfl⟩
  | tracing => cases c <;> exact ⟨s.log, s.trace.push _, s.reports, rfl⟩
  | recording => exact ⟨s.log, s.trace, s.reports.push _, rfl⟩

theorem steps_checkpoint (observer : Observer) (j : ImageId) (c : Checkpoint)
    (hP : ∀ log trace reports, P (.journal log trace reports)) :
    Steps P s ((checkpoint observer j c).after s) := by
  obtain ⟨log, trace, reports, h⟩ := checkpoint_run observer j c s
  rw [after_of_ok h]
  exact .quiet (m := .journal log trace reports) (hP ..) trivial rfl

theorem steps_append (hi : i < s.images.size) (bs : Bytes) (note : Note)
    (hP : P (.append i bs note)) : Steps P s ((append i bs note).after s) :=
  .quiet (m := .append i bs note) hP hi rfl

theorem place_run (format : FixedFormat) (c : CellId) (label : Option String) :
    place i format c label s = .ok () (s.placed c i format label) := rfl

mutual

/-- Emitting a segment makes moves of one kind only, if it settles cells in `S` only. -/
theorem emitSegment_makes {s : Store} {segment : Segment} (hP : Move.Emits i n S P)
    (h : Valid s []) (hi : i < s.images.size) (hn : n ≤ s.cells.size) (hw : segment.Within n)
    (hS : segment.Settles S) : Steps P s ((emitSegment i segment).after s) := by
  cases segment with
  | direct bytes note => exact steps_append hi bytes note (hP.append ..)
  | deferred format c label =>
    simp only [emitSegment, after_bind, valueOf_run]
    cases hv : s.value? c with
    | none =>
      exact .quiet (m := .place i format c label) (hP.place format c label hw)
        ⟨hi, hw.trans_le hn, hv⟩ rfl
    | some v =>
      refine Steps.bind (by rw [after_ofExcept]; exact .refl s) fun bytes t _ ht => ?_
      exact steps_append (hi.trans_le ht.grows.images) _ _ (hP.append ..)
  | mark c =>
    rw [emitSegment, after_bind]
    exact steps_settleOrConfirm h (hw.trans_le hn) (hP.settle c _ hS)
  | postProcess e => exact .refl s
  | nested segments => exact emitAll_makes hP h hi hn hw hS

theorem emitAll_makes {s : Store} {segments : List Segment} (hP : Move.Emits i n S P)
    (h : Valid s []) (hi : i < s.images.size) (hn : n ≤ s.cells.size)
    (hw : Segment.WithinAll n segments) (hS : Segment.SettlesAll S segments) :
    Steps P s ((emitAll i segments).after s) := by
  cases segments with
  | nil => exact .refl s
  | cons segment rest =>
    refine Steps.bind (emitSegment_makes hP h hi hn hw.1 hS.1) fun _ t _ ht => ?_
    exact emitAll_makes hP (ht.valid h) (hi.trans_le ht.grows.images) (hn.trans ht.grows.cells)
      hw.2 hS.2

end

theorem steps_emitSegment {segment : Segment} (h : Valid s []) (hi : i < s.images.size)
    (hn : n ≤ s.cells.size) (hw : segment.Within n) :
    Steps (Move.Writes i n) s ((emitSegment i segment).after s) :=
  emitSegment_makes (Move.emits_writes i n) h hi hn hw hw.settles

theorem emitObserved_makes (observer : Observer) {segments : List Segment} (index : Nat)
    (hP : Move.Emits i n S P) (h : Valid s []) (hi : i < s.images.size) (hn : n ≤ s.cells.size)
    (hw : Segment.WithinAll n segments) (hS : Segment.SettlesAll S segments) :
    Steps P s ((emitObserved observer i index segments).after s) := by
  induction segments generalizing index s with
  | nil => exact .refl s
  | cons segment rest ih =>
    refine Steps.bind (emitSegment_makes hP h hi hn hw.1 hS.1) fun _ t _ ht => ?_
    refine Steps.bind (.refl t) fun size u hu _ => ?_
    refine Steps.bind (steps_checkpoint _ _ _ hP.journal) fun _ v _ hv => ?_
    obtain ⟨rfl, rfl⟩ : (t.image i).size = size ∧ t = u := by simpa [imageSize] using hu
    have hsv := ht.trans hv
    exact ih (index + 1) (hsv.valid h) (hi.trans_le hsv.grows.images) (hn.trans hsv.grows.cells)
      hw.2 hS.2

theorem steps_emitObserved (observer : Observer) {segments : List Segment} (index : Nat)
    (h : Valid s []) (hi : i < s.images.size) (hn : n ≤ s.cells.size)
    (hw : Segment.WithinAll n segments) :
    Steps (Move.Writes i n) s ((emitObserved observer i index segments).after s) :=
  emitObserved_makes observer index (Move.emits_writes i n) h hi hn hw hw.settles

/-- The store after the patches of some placeholders were taken out of their queues. -/
def released (s : Store) (ps : List Placeholder) : Store :=
  ps.foldl (fun s p => s.withdrawn p.cell p.subscription) s

/-- Taking patches back never fails. -/
theorem release_run (first last : FieldId) : release first last s =
    .ok () (s.released (s.placeholders.extract first last).toList) := by
  have all : ∀ (ps : List Placeholder) (s : Store),
      (forM ps fun p => discard (unsubscribe p.cell p.subscription) : Op PUnit) s =
        .ok () (s.released ps) := by
    intro ps
    induction ps with
    | nil => exact fun s => rfl
    | cons p ps ih =>
      intro s
      simpa [List.forM_cons, released] using ih (s.withdrawn p.cell p.subscription)
  rw [← all]
  change _ = List.forM (m := Op) _ _ s
  rw [← List.forM_toArray]
  rfl

theorem released_journal (s : Store) (ps : List Placeholder) (log : Array LogEntry)
    (trace : Array Event) (reports : Array Report) :
    ({ s with log, trace, reports } : Store).released ps =
      { s.released ps with log, trace, reports } := by
  induction ps generalizing s with
  | nil => rfl
  | cons p ps ih => exact ih (s.withdrawn p.cell p.subscription)

theorem steps_released {ps : List Placeholder} (hps : ∀ p ∈ ps, p.cell < s.cells.size) :
    Steps Move.Closes s (s.released ps) := by
  induction ps generalizing s with
  | nil => exact .refl s
  | cons p ps ih =>
    have hp : Steps Move.Closes s (s.withdrawn p.cell p.subscription) :=
      .quiet (m := .unsubscribe p.cell p.subscription) trivial (hps p (.head ps)) rfl
    exact hp.trans (ih fun q hq => by simpa using hps q (.tail p hq))

theorem cell_lt_of_mem_extract (h : Valid s []) {p : Placeholder} {first last : FieldId}
    (hp : p ∈ (s.placeholders.extract first last).toList) : p.cell < s.cells.size := by
  obtain ⟨f, hf⟩ := List.getElem?_of_mem hp
  rw [Array.getElem?_toList, Array.getElem?_extract] at hf
  split_ifs at hf
  exact (h.fields (first + f) p hf).2.1

theorem steps_release (h : Valid s []) (first last : FieldId) :
    Steps Move.Closes s ((release first last).after s) := by
  rw [after_of_ok (release_run first last)]
  exact steps_released fun p hp => cell_lt_of_mem_extract h hp

end Store

section Emission

/-! ## One segment after another -/

/-- Emitting a segment, and noting something afterwards, leads from one store to the other. -/
def Emit (i : ImageId) (segment : Segment) (s t : Store) : Prop :=
  ∃ u log trace reports, emitSegment i segment s = .ok () u ∧ t = { u with log, trace, reports }

def Emits (i : ImageId) : List Segment → Store → Store → Prop
  | [], s, t => t = s
  | segment :: rest, s, t => ∃ u, Emit i segment s u ∧ Emits i rest u t

variable {t : Store} {segment : Segment}

theorem emitObserved_emits {observer : Observer} {index : Nat} {segments : List Segment}
    (h : emitObserved observer i index segments s = .ok () t) : Emits i segments s t := by
  induction segments generalizing index s with
  | nil =>
    cases h
    rfl
  | cons segment rest ih =>
    obtain ⟨_, u, hu, h⟩ := bind_eq_ok.1 h
    obtain ⟨size, u', hu', h⟩ := bind_eq_ok.1 h
    cases hu'
    obtain ⟨_, v, hv, h⟩ := bind_eq_ok.1 h
    obtain ⟨log, trace, reports, hcheck⟩ := checkpoint_run observer i
      (.segment index (u.image i).size) u
    cases hcheck.symm.trans hv
    exact ⟨_, ⟨u, log, trace, reports, hu, rfl⟩, ih h⟩

theorem Emits.append {first rest : List Segment} (h : Emits i (first ++ rest) s t) :
    ∃ u, Emits i first s u ∧ Emits i rest u t := by
  induction first generalizing s with
  | nil => exact ⟨s, rfl, h⟩
  | cons segment first ih =>
    obtain ⟨u, hu, h⟩ := h
    obtain ⟨v, hv, h⟩ := ih h
    exact ⟨v, ⟨u, hu, hv⟩, h⟩

theorem Emit.steps (h : Emit i segment s t) (hv : Valid s []) (hi : i < s.images.size)
    (hn : n ≤ s.cells.size) (hw : segment.Within n) : Steps (Move.Writes i n) s t := by
  obtain ⟨u, log, trace, reports, hrun, rfl⟩ := h
  have hsu : Steps (Move.Writes i n) s u := after_of_ok hrun ▸ steps_emitSegment hv hi hn hw
  exact hsu.trans (.quiet (m := .journal log trace reports) trivial trivial rfl)

/-- Segments are emitted with success, and things are noted on the way. There is one rule for each
thing that emission does with a segment, and a list of segments is emitted part by part. -/
inductive Emission (i : ImageId) : List Segment → Store → Store → Prop where
  | note {s : Store} (log : Array LogEntry) (trace : Array Event) (reports : Array Report) :
      Emission i [] s { s with log, trace, reports }
  | direct {s : Store} (bytes : Bytes) (note : Note) :
      Emission i [.direct bytes note] s (s.modifyImage i (·.append bytes note))
  | known {s : Store} {format : FixedFormat} {c : CellId} {label : Option String} {v : Datum}
      {bytes : Bytes} (hv : s.value? c = some v) (he : format.encode v = .ok bytes) :
      Emission i [.deferred format c label] s
        (s.modifyImage i (·.append bytes ((Format.fixed format).describe (some v) label)))
  | place {s : Store} {c : CellId} (format : FixedFormat) (label : Option String)
      (hv : s.value? c = none) :
      Emission i [.deferred format c label] s (s.placed c i format label)
  | mark {s t : Store} {c : CellId}
      (h : settleOrConfirm c (.int (s.image i).size) s = .ok () t) : Emission i [.mark c] s t
  | postProcess {s : Store} (e : Entry) : Emission i [.postProcess e] s s
  | nested {s t : Store} {segments : List Segment} (h : Emission i segments s t) :
      Emission i [.nested segments] s t
  | append {s u t : Store} {xs ys : List Segment} (h : Emission i xs s u)
      (g : Emission i ys u t) : Emission i (xs ++ ys) s t

mutual

theorem emitSegment_emission {s t : Store} {segment : Segment}
    (h : emitSegment i segment s = .ok () t) : Emission i [segment] s t := by
  cases segment with
  | direct bytes note =>
    cases h
    exact .direct bytes note
  | deferred format c label =>
    simp only [emitSegment, bind_run, valueOf_run] at h
    cases hv : s.value? c with
    | none =>
      simp only [hv, place_run] at h
      cases h
      exact .place format label hv
    | some v =>
      simp only [hv] at h
      obtain ⟨bytes, u, hbytes, h⟩ := bind_eq_ok.1 h
      obtain ⟨he, rfl⟩ := ofExcept_eq_ok.1 hbytes
      cases h
      exact .known hv he
  | mark c => exact .mark h
  | postProcess e =>
    cases h
    exact .postProcess e
  | nested segments => exact .nested (emitAll_emission h)

theorem emitAll_emission {s t : Store} {segments : List Segment}
    (h : emitAll i segments s = .ok () t) : Emission i segments s t := by
  cases segments with
  | nil =>
    cases h
    exact .note s.log s.trace s.reports
  | cons segment rest =>
    obtain ⟨_, u, hu, h⟩ := bind_eq_ok.1 h
    change Emission i ([segment] ++ rest) s t
    exact .append (emitSegment_emission hu) (emitAll_emission h)

end

theorem Emits.emission {segments : List Segment} (h : Emits i segments s t) :
    Emission i segments s t := by
  induction segments generalizing s with
  | nil =>
    obtain rfl := h
    exact .note t.log t.trace t.reports
  | cons segment rest ih =>
    obtain ⟨_, ⟨u, log, trace, reports, hu, rfl⟩, h⟩ := h
    change Emission i ([segment] ++ ([] ++ rest)) s t
    exact .append (emitSegment_emission hu) (.append (.note log trace reports) (ih h))

theorem Emission.steps {segments : List Segment} (h : Emission i segments s t) (hv : Valid s [])
    (hi : i < s.images.size) (hn : n ≤ s.cells.size) (hw : Segment.WithinAll n segments) :
    Steps (Move.Writes i n) s t := by
  induction h with
  | note log trace reports => exact .quiet (m := .journal log trace reports) trivial trivial rfl
  | direct bytes note => exact .quiet (m := .append i bytes note) rfl hi rfl
  | known => exact .quiet (m := .append i _ _) rfl hi rfl
  | place format label hc =>
    exact .quiet (m := .place i format _ label) ⟨rfl, hw.1⟩ ⟨hi, hw.1.trans_le hn, hc⟩ rfl
  | mark hrun => exact after_of_ok hrun ▸ steps_settleOrConfirm hv (hw.1.trans_le hn) hw.1
  | postProcess => exact .refl _
  | nested _ ih => exact ih hv hi hn hw.1
  | append _ _ ih ih' =>
    obtain ⟨hxs, hys⟩ := Segment.withinAll_append.1 hw
    have hsu := ih hv hi hn hxs
    exact hsu.trans (ih' (hsu.valid hv) (hi.trans_le hsu.grows.images) (hn.trans hsu.grows.cells)
      hys)

theorem Emits.steps {segments : List Segment} (h : Emits i segments s t) (hv : Valid s [])
    (hi : i < s.images.size) (hn : n ≤ s.cells.size) (hw : Segment.WithinAll n segments) :
    Steps (Move.Writes i n) s t :=
  h.emission.steps hv hi hn hw

end Emission

/-- Laying a region out makes the moves of its segments, and takes its patches back if it fails. -/
theorem Region.layoutObserved_makes {r : Region} (observer : Observer)
    (hP : Move.Emits i s.cells.size S P) (hc : ∀ m, m.Closes → P m) (h : Valid s [])
    (hi : i < s.images.size) (hw : r.Within s.cells.size)
    (hS : Segment.SettlesAll S r.segments) :
    Steps P s ((r.layoutObserved i observer).after s) := by
  refine Steps.bind (.refl s) fun size t ht _ => ?_
  obtain ⟨-, rfl⟩ : (s.image i).size = size ∧ s = t := by simpa [imageSize] using ht
  refine Steps.bind (steps_emit _ hP.journal) fun _ t _ ht => ?_
  refine Steps.bind (.refl t) fun u v hu _ => ?_
  obtain ⟨-, rfl⟩ : t = u ∧ t = v := by simpa using hu
  have hi' := hi.trans_le ht.grows.images
  refine Steps.bind (Steps.onFailure (emitObserved_makes observer 0 hP (ht.valid h) hi'
    ht.grows.cells hw hS) fun v hv => ?_) fun _ v _ _ => .refl v
  exact (steps_release ((ht.trans hv).valid h) ..).mono hc

theorem Region.layoutObserved_flattens {r : Region} (observer : Observer) (h : Valid s [])
    (hi : i < s.images.size) (hw : r.Within s.cells.size) :
    Steps (Move.Flattens i) s ((r.layoutObserved i observer).after s) :=
  layoutObserved_makes observer (S := fun c => c < s.cells.size)
    ⟨fun _ _ _ => trivial, fun _ _ => rfl, fun _ _ _ _ => rfl, fun _ _ _ => trivial⟩
    (fun _ hm => hm.finalizes.flattens i) h hi hw hw.settles

theorem Region.steps_layoutObserved {r : Region} (observer : Observer) (h : Valid s [])
    (hi : i < s.images.size) (hw : r.Within s.cells.size) :
    Steps Move.Plain s ((r.layoutObserved i observer).after s) :=
  (r.layoutObserved_flattens observer h hi hw).mono fun _ => Move.Flattens.plain

namespace Layout

theorem steps_drop (l : Layout) (h : Valid s []) : Steps Move.Closes s (l.drop.after s) :=
  steps_release h ..

theorem applyEntry_makes (l : Layout) {e : Entry} (start stop : Nat) (h : Valid s [])
    (hc : e.result < s.cells.size) (hP : ∀ v, P (.settle e.result v)) :
    Steps P s ((l.applyEntry e start stop).after s) := by
  simp only [applyEntry, after_bind, get_run]
  cases hr : (s.image l.image).read start stop with
  | error e => exact .refl s
  | ok bytes => exact steps_settleOrConfirm h hc (hP _)

theorem steps_applyEntry (l : Layout) {e : Entry} (start stop : Nat) (h : Valid s [])
    (hn : n ≤ s.cells.size) (hw : e.Within n) :
    Steps (Move.Settles n) s ((l.applyEntry e start stop).after s) :=
  l.applyEntry_makes start stop h (hw.2.2.trans_le hn) fun _ => hw.2.2

theorem runEntry_makes (l : Layout) (enforce : Bool) (index : Nat) {e : Entry} (tally : Tally)
    (h : Valid s []) (hc : e.result < s.cells.size)
    (hj : ∀ log trace reports, P (.journal log trace reports)) (hP : ∀ v, P (.settle e.result v)) :
    Steps P s ((l.runEntry enforce index e tally).after s) := by
  simp only [runEntry, after_bind, get_run]
  split
  · simp only [after_bind, get_run]
    split_ifs
    · exact Steps.bind (steps_emit _ hj) fun _ t _ _ => .refl t
    · refine Steps.bind ?_ fun errors t _ _ => ?_
      · rw [after_failures]
        exact l.applyEntry_makes _ _ h hc hP
      · split <;> exact .refl t
  · split_ifs
    · exact .refl s
    · exact Steps.bind (steps_emit _ hj) fun _ t _ _ => .refl t

theorem steps_runEntry (l : Layout) (enforce : Bool) (index : Nat) {e : Entry} (tally : Tally)
    (h : Valid s []) (hn : n ≤ s.cells.size) (hw : e.Within n) :
    Steps (Move.Settles n) s ((l.runEntry enforce index e tally).after s) :=
  l.runEntry_makes enforce index tally h (hw.2.2.trans_le hn) (fun _ _ _ => trivial) fun _ => hw.2.2

theorem runEntries_makes (l : Layout) (enforce : Bool) (index : Nat) {entries : List Entry}
    (tally : Tally) (h : Valid s []) (hc : ∀ e ∈ entries, e.result < s.cells.size)
    (hj : ∀ log trace reports, P (.journal log trace reports))
    (hP : ∀ e ∈ entries, ∀ v, P (.settle e.result v)) :
    Steps P s ((l.runEntries enforce index entries tally).after s) := by
  induction entries generalizing index tally s with
  | nil => exact .refl s
  | cons e rest ih =>
    refine Steps.bind (l.runEntry_makes enforce index tally h (hc e (.head rest)) hj
      (hP e (.head rest))) fun tally t _ ht => ?_
    exact ih (index + 1) tally (ht.valid h)
      (fun e he => (hc e (.tail _ he)).trans_le ht.grows.cells) fun e he => hP e (.tail _ he)

theorem steps_runEntries (l : Layout) (enforce : Bool) (index : Nat) {entries : List Entry}
    (tally : Tally) (h : Valid s []) (hn : n ≤ s.cells.size) (hw : ∀ e ∈ entries, e.Within n) :
    Steps (Move.Settles n) s ((l.runEntries enforce index entries tally).after s) :=
  l.runEntries_makes enforce index tally h (fun e he => (hw e he).2.2.trans_le hn)
    (fun _ _ _ => trivial) fun e he _ => (hw e he).2.2

/-- What strict or tolerant finalization has to complain about. -/
def complaints (l : Layout) (config : FlattenConfig) (tally : Tally) (s : Store) : List Error :=
  tally.errors ++
    if (!(l.pendingFields s).isEmpty) && config.enforceComplete then
      [.unresolved (l.pendingFields s)] else []

def summary (l : Layout) (tally : Tally) (s : Store) : FlattenSummary where
  size := (s.image l.image).size
  deferredFields := l.deferredFields
  unresolved := l.pendingFields s
  postProcessed := tally.applied
  skipped := tally.skipped

/-- Closing a layout takes its patches back, and complains. -/
theorem close_run (l : Layout) (config : FlattenConfig) (observer : Observer) (tally : Tally) :
    ∃ log trace reports, l.close config observer tally s = (do
        Failable.raise (l.complaints config tally s)
        return l.summary tally s : Op FlattenSummary)
      { s.released (l.placeholders s).toList with log, trace, reports } := by
  -- Notes in the journal come first; they change nothing that is looked at.
  have closing : ∀ log trace reports, ∃ log' trace' reports',
        (do
          checkpoint observer l.image
            (.finalized (s.image l.image).size (l.pendingFields s).length)
          l.drop
          Failable.raise (l.complaints config tally s)
          return l.summary tally s : Op FlattenSummary) { s with log, trace, reports } =
        (do
          Failable.raise (l.complaints config tally s)
          return l.summary tally s : Op FlattenSummary)
        { s.released (l.placeholders s).toList with
          log := log', trace := trace', reports := reports' } := by
    intro log trace reports
    obtain ⟨log', trace', reports', hc⟩ := checkpoint_run observer l.image
      (.finalized (s.image l.image).size (l.pendingFields s).length) { s with log, trace, reports }
    refine ⟨log', trace', reports', ?_⟩
    rw [bind_run, hc, ← released_journal]
    simp only [bind_run, drop, release_run, placeholders]
  obtain ⟨log, trace, reports, hc⟩ := checkpoint_run observer l.image
    (.postProcessed tally.applied tally.skipped) s
  unfold close
  rw [bind_run, hc]
  by_cases hm : (l.pendingFields s).isEmpty
  · obtain ⟨log', trace', reports', hrun⟩ := closing log trace reports
    refine ⟨log', trace', reports', Eq.trans ?_ hrun⟩
    change (if (!(l.pendingFields s).isEmpty) = true then _ else _ : Op FlattenSummary) _ = _
    rw [if_neg (by simp [hm])]
    rfl
  · obtain ⟨log', trace', reports', hrun⟩ := closing log
      (trace.push (.unresolvedFields (l.pendingFields s).length)) reports
    refine ⟨log', trace', reports', Eq.trans ?_ hrun⟩
    change (if (!(l.pendingFields s).isEmpty) = true then _ else _ : Op FlattenSummary) _ = _
    rw [if_pos (by simpa using hm)]
    rfl

theorem after_close (l : Layout) (config : FlattenConfig) (observer : Observer) (tally : Tally) :
    ∃ log trace reports, (l.close config observer tally).after s =
      { s.released (l.placeholders s).toList with log, trace, reports } := by
  obtain ⟨log, trace, reports, hrun⟩ := close_run (s := s) l config observer tally
  refine ⟨log, trace, reports, ?_⟩
  unfold after
  rw [hrun, bind_run, raise]
  cases Error.ofMany? (l.complaints config tally s) <;> rfl

theorem steps_closed (l : Layout) (h : Valid s []) (log : Array LogEntry) (trace : Array Event)
    (reports : Array Report) : Steps Move.Closes s
      { s.released (l.placeholders s).toList with log, trace, reports } :=
  (steps_released fun _ hp => cell_lt_of_mem_extract h hp).trans
    (.quiet (m := .journal log trace reports) trivial trivial rfl)

theorem steps_close (l : Layout) (config : FlattenConfig) (observer : Observer) (tally : Tally)
    (h : Valid s []) : Steps Move.Closes s ((l.close config observer tally).after s) := by
  obtain ⟨log, trace, reports, hafter⟩ := after_close (s := s) l config observer tally
  rw [hafter]
  exact steps_closed l h log trace reports

theorem finalizeObserved_makes {l : Layout} (config : FlattenConfig) (observer : Observer)
    (hc : ∀ m, m.Closes → P m) (hP : ∀ e ∈ l.entries, ∀ v, P (.settle e.result v))
    (h : Valid s []) (hw : ∀ e ∈ l.entries, e.Within s.cells.size) :
    Steps P s ((l.finalizeObserved config observer).after s) := by
  refine Steps.bind (l.runEntries_makes _ 0 {} h (fun e he => (hw e he).2.2)
    (fun log trace reports => hc (.journal log trace reports) trivial) hP) fun tally t _ ht => ?_
  exact (steps_close l config observer tally (ht.valid h)).mono hc

theorem finalizeObserved_finalizes {l : Layout} (config : FlattenConfig) (observer : Observer)
    (h : Valid s []) (hw : ∀ e ∈ l.entries, e.Within s.cells.size) :
    Steps Move.Finalizes s ((l.finalizeObserved config observer).after s) :=
  finalizeObserved_makes config observer (fun _ => Move.Closes.finalizes)
    (fun _ _ _ => trivial) h hw

/-- A finalization that succeeds ran all entries and has nothing to complain about. -/
theorem finalizeObserved_eq_ok {l : Layout} {config : FlattenConfig} {observer : Observer}
    {summary : FlattenSummary} {t : Store} (h : Valid s [])
    (hw : ∀ e ∈ l.entries, e.Within s.cells.size)
    (hrun : l.finalizeObserved config observer s = .ok summary t) :
    ∃ tally u, l.runEntries config.enforceComplete 0 l.entries {} s = .ok tally u ∧
      Error.ofMany? (l.complaints config tally u) = none ∧ summary = l.summary tally u ∧
      Steps Move.Closes u t := by
  obtain ⟨tally, u, hu, hrun⟩ := bind_eq_ok.1 hrun
  have hsu : Steps (Move.Settles s.cells.size) s u :=
    after_of_ok hu ▸ steps_runEntries l _ 0 {} h le_rfl hw
  obtain ⟨log, trace, reports, hclose⟩ := close_run (s := u) l config observer tally
  obtain ⟨_, w, hraise, hw⟩ := bind_eq_ok.1 (hclose.symm.trans hrun)
  obtain ⟨hnone, rfl⟩ := raise_eq_ok.1 hraise
  cases hw
  exact ⟨tally, u, hu, hnone, rfl, steps_closed l (hsu.valid h) log trace reports⟩

end Layout

theorem Segment.entriesAll_append (xs ys : List Segment) :
    entriesAll (xs ++ ys) = entriesAll xs ++ entriesAll ys := by
  induction xs with
  | nil => rfl
  | cons x xs ih => rw [List.cons_append, entriesAll, ih, entriesAll, List.append_assoc]

mutual

theorem Segment.Within.entries {segment : Segment} (h : segment.Within n) :
    ∀ e ∈ segment.entries, e.Within n := by
  cases segment with
  | direct | deferred | mark => simp [Segment.entries]
  | postProcess e =>
    intro e' he
    obtain rfl := List.mem_singleton.1 he
    exact h
  | nested segments => exact Segment.WithinAll.entries h

theorem Segment.WithinAll.entries {segments : List Segment} (h : Segment.WithinAll n segments) :
    ∀ e ∈ Segment.entriesAll segments, e.Within n := by
  cases segments with
  | nil => simp [Segment.entriesAll]
  | cons segment rest =>
    intro e he
    obtain he | he := List.mem_append.1 he
    · exact Segment.Within.entries h.1 e he
    · exact Segment.WithinAll.entries h.2 e he

end

mutual

theorem Segment.Settles.entries {segment : Segment} (h : segment.Settles S) :
    ∀ e ∈ segment.entries, S e.result := by
  cases segment with
  | direct | deferred | mark => simp [Segment.entries]
  | postProcess e =>
    intro e' he
    obtain rfl := List.mem_singleton.1 he
    exact h
  | nested segments => exact Segment.SettlesAll.entries h

theorem Segment.SettlesAll.entries {segments : List Segment} (h : Segment.SettlesAll S segments) :
    ∀ e ∈ Segment.entriesAll segments, S e.result := by
  cases segments with
  | nil => simp [Segment.entriesAll]
  | cons segment rest =>
    intro e he
    obtain he | he := List.mem_append.1 he
    · exact Segment.Settles.entries h.1 e he
    · exact Segment.SettlesAll.entries h.2 e he

end

namespace Region

/-- A layout covers the placeholders that were written while its segments were emitted. -/
theorem layoutObserved_eq_ok {r : Region} {observer : Observer} {l : Layout} {t : Store}
    (h : r.layoutObserved i observer s = .ok l t) :
    emitObserved observer i 0 r.segments ((emit
      (.flattening r.segments.length (s.image i).size)).after s) = .ok () t ∧
      l = ⟨i, s.placeholders.size, t.placeholders.size, r.entries⟩ := by
  obtain ⟨size, u, hu, h⟩ := bind_eq_ok.1 h
  obtain ⟨rfl, rfl⟩ : (s.image i).size = size ∧ s = u := by simpa [imageSize] using hu
  obtain ⟨_, u, hu, h⟩ := bind_eq_ok.1 h
  obtain rfl := after_of_ok hu
  obtain ⟨u, u', hu', h⟩ := bind_eq_ok.1 h
  cases hu'
  obtain ⟨_, v, hv, h⟩ := bind_eq_ok.1 h
  obtain ⟨v', v'', hv', h⟩ := bind_eq_ok.1 h
  cases hv'
  cases h
  refine ⟨?_, rfl⟩
  unfold Failable.onFailure at hv
  cases he : emitObserved observer i 0 r.segments ((emit
      (.flattening r.segments.length (s.image i).size)).after s) with
  | ok _ w => simpa [he] using hv
  | error e w =>
    simp only [he, bind_run] at hv
    split at hv <;> simp at hv

/-- A layout that fails takes the patches of the placeholders back that were written. -/
theorem layoutObserved_eq_error {r : Region} {observer : Observer} {e : Error} {t : Store}
    (h : r.layoutObserved i observer s = .error e t) :
    ∃ u, emitObserved observer i 0 r.segments ((emit
      (.flattening r.segments.length (s.image i).size)).after s) = .error e u ∧
      t = u.released (u.placeholders.extract s.placeholders.size u.placeholders.size).toList := by
  change (Failable.onFailure (emitObserved observer i 0 r.segments) _ >>= _ : Op Layout) ((emit
    (.flattening r.segments.length (s.image i).size)).after s) = _ at h
  rw [bind_run, Failable.onFailure] at h
  cases he : emitObserved observer i 0 r.segments ((emit
      (.flattening r.segments.length (s.image i).size)).after s) with
  | ok _ u =>
    simp only [he] at h
    cases h
  | error e' u =>
    simp only [he, bind_run, get_run, release_run, throw_run] at h
    cases h
    exact ⟨u, rfl, rfl⟩

theorem flattenObserved_makes {r : Region} (config : FlattenConfig) (observer : Observer)
    (hP : Move.Emits i s.cells.size S P) (hc : ∀ m, m.Closes → P m) (h : Valid s [])
    (hi : i < s.images.size) (hw : r.Within s.cells.size)
    (hS : Segment.SettlesAll S r.segments) :
    Steps P s ((r.flattenObserved i config observer).after s) := by
  refine Steps.bind (layoutObserved_makes observer hP hc h hi hw hS) fun l t hl ht => ?_
  obtain ⟨-, rfl⟩ := layoutObserved_eq_ok hl
  refine Steps.bind (Layout.finalizeObserved_makes config observer hc
    (fun e he v => hP.settle _ v (Segment.SettlesAll.entries hS e he)) (ht.valid h)
    fun e he => (Segment.WithinAll.entries hw e he).mono ht.grows.cells) fun summary u _ _ => ?_
  exact Steps.bind (steps_emit _ hP.journal) fun _ v _ _ => .refl v

theorem flattenObserved_flattens {r : Region} (config : FlattenConfig) (observer : Observer)
    (h : Valid s []) (hi : i < s.images.size) (hw : r.Within s.cells.size) :
    Steps (Move.Flattens i) s ((r.flattenObserved i config observer).after s) :=
  flattenObserved_makes config observer (S := fun c => c < s.cells.size)
    ⟨fun _ _ _ => trivial, fun _ _ => rfl, fun _ _ _ _ => rfl, fun _ _ _ => trivial⟩
    (fun _ hm => hm.finalizes.flattens i) h hi hw hw.settles

end Region

/-- Steps of a loop, with a property of the results that later steps keep. -/
theorem Steps.mapM {α β : Type} {G : β → Store → Prop} {f : α → Op β}
    {l : List α} (hf : ∀ x ∈ l, ∀ t, Steps P s t → Steps P t ((f x).after t))
    (hg : ∀ x ∈ l, ∀ t b u, Steps P s t → f x t = .ok b u → G b u)
    (keep : ∀ b t u, Steps P t u → G b t → G b u) :
    Steps P s ((l.mapM f).after s) ∧ ∀ bs t, l.mapM f s = .ok bs t → ∀ b ∈ bs, G b t := by
  induction l generalizing s with
  | nil => exact ⟨.refl s, fun bs t h => by cases h; simp⟩
  | cons x l ih =>
    have hx := hf x (.head l) s (.refl s)
    have rest : ∀ t, Steps P s t →
        Steps P t ((l.mapM f).after t) ∧ ∀ bs u, l.mapM f t = .ok bs u → ∀ b ∈ bs, G b u :=
      fun t ht => ih (fun x hx u hu => hf x (.tail _ hx) u (ht.trans hu))
        fun x hx u b v hu => hg x (.tail _ hx) u b v (ht.trans hu)
    rw [List.mapM_cons]
    constructor
    · refine hx.bind fun b t _ ht => ?_
      exact (rest t ht).1.bind fun bs u _ _ => .refl u
    · intro bs t h
      obtain ⟨b, u, hb, h⟩ := bind_eq_ok.1 h
      obtain ⟨bs, v, hbs, h⟩ := bind_eq_ok.1 h
      cases h
      rw [after_of_ok hb] at hx
      obtain ⟨hut, hbs'⟩ := rest u hx
      rw [after_of_ok hbs] at hut
      intro c hc
      obtain rfl | hc := List.mem_cons.1 hc
      · exact keep c u t hut (hg x (.head l) s c u (.refl s) hb)
      · exact hbs' bs t hbs c hc

end Backpatch
