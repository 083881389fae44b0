import Mathlib
import Backpatch.Proofs.Nesting
import Backpatch.Proofs.Rows

/-!
# Regions without loose ends

A segment is `Inert` if it has neither marks nor ranges to digest. If moreover all its fields have
their values, emitting it only appends its content: no cell is settled and no field is left behind
(`Appends`). So a region of such segments is flattened at once, under every configuration.
-/

namespace Backpatch

open Store Failable

mutual

/-- The segment settles no cell, neither where it stands nor afterwards. -/
def Segment.Inert : Segment → Prop
  | .direct .. | .deferred .. => True
  | .mark _ | .postProcess _ => False
  | .nested segments => Segment.InertAll segments

def Segment.InertAll : List Segment → Prop
  | [] => True
  | segment :: rest => segment.Inert ∧ Segment.InertAll rest

end

/-- From one store to the other, bytes are appended to the image `i`, and neither cells nor
placeholders change. -/
structure Appends (i : ImageId) (bs : Bytes) (s t : Store) : Prop where
  cells : t.cells = s.cells
  placeholders : t.placeholders = s.placeholders
  images : t.images.size = s.images.size
  bytes : (t.image i).bytes = (s.image i).bytes ++ bs

section Appending

variable {s t u : Store} {i : ImageId} {bs cs : Bytes}

namespace Appends

theorem refl (s : Store) : Appends i [] s s := ⟨rfl, rfl, rfl, by simp⟩

theorem trans (h : Appends i bs s t) (g : Appends i cs t u) : Appends i (bs ++ cs) s u where
  cells := g.cells.trans h.cells
  placeholders := g.placeholders.trans h.placeholders
  images := g.images.trans h.images
  bytes := by rw [g.bytes, h.bytes, List.append_assoc]

theorem note (h : Appends i bs s t) (log : Array LogEntry) (trace : Array Event)
    (reports : Array Report) : Appends i bs s { t with log, trace, reports } :=
  ⟨h.cells, h.placeholders, h.images, h.bytes⟩

theorem append (hi : i < s.images.size) (bs : Bytes) (note : Note) :
    Appends i bs s (s.modifyImage i (·.append bs note)) := by
  refine ⟨rfl, rfl, size_modifyImage .., ?_⟩
  rw [image_modifyImage, if_pos ⟨rfl, hi⟩, Image.bytes_append]

theorem knows (h : Appends i bs s t) : t.Knows s := by
  intro c v hv
  rwa [value?, cell, h.cells]

end Appends

theorem Segment.contentAll_cons {segment : Segment} {rest : List Segment}
    (h : contentAll s (segment :: rest) = some bs) :
    ∃ b₁ b₂, segment.content s = some b₁ ∧ contentAll s rest = some b₂ ∧ bs = b₁ ++ b₂ := by
  obtain ⟨b₁, h₁, h⟩ := Option.bind_eq_some_iff.1 h
  obtain ⟨b₂, h₂, h⟩ := Option.bind_eq_some_iff.1 h
  exact ⟨b₁, b₂, h₁, h₂, (Option.some.inj h).symm⟩

mutual

/-- What is known of the content of a segment stays when more values are known. -/
theorem Segment.content_mono {segment : Segment} {bs : Bytes} (ht : t.Knows s)
    (h : segment.content s = some bs) : segment.content t = some bs := by
  cases segment with
  | deferred format c label =>
    obtain ⟨v, hv, h⟩ := Option.bind_eq_some_iff.1 h
    exact Option.bind_eq_some_iff.2 ⟨v, ht c v hv, h⟩
  | direct | mark | postProcess => exact h
  | nested segments => exact Segment.contentAll_mono ht h

theorem Segment.contentAll_mono {segments : List Segment} {bs : Bytes} (ht : t.Knows s)
    (h : contentAll s segments = some bs) : contentAll t segments = some bs := by
  cases segments with
  | nil => exact h
  | cons segment rest =>
    obtain ⟨b₁, b₂, h₁, h₂, rfl⟩ := contentAll_cons h
    rw [contentAll, content_mono ht h₁, contentAll_mono ht h₂]
    rfl

end

mutual

theorem emitSegment_appends {s : Store} {segment : Segment} {bs : Bytes} (hi : i < s.images.size)
    (hinert : segment.Inert) (h : segment.content s = some bs) :
    ∃ t, emitSegment i segment s = .ok () t ∧ Appends i bs s t := by
  cases segment with
  | direct bytes note =>
    obtain rfl : bytes = bs := Option.some.inj h
    exact ⟨_, rfl, .append hi bytes note⟩
  | deferred format c label =>
    obtain ⟨v, hv, h⟩ := Option.bind_eq_some_iff.1 h
    cases he : format.encode v with
    | error e => simp [he, Except.toOption] at h
    | ok bytes =>
      obtain rfl : bytes = bs := by simpa [he, Except.toOption] using h
      refine ⟨_, ?_, .append hi bytes ((Format.fixed format).describe (some v) label)⟩
      simp only [emitSegment, bind_run, valueOf_run, hv, he, ofExcept_ok_run]
      rfl
  | mark | postProcess => exact hinert.elim
  | nested segments => exact emitAll_appends hi hinert h

theorem emitAll_appends {s : Store} {segments : List Segment} {bs : Bytes}
    (hi : i < s.images.size) (hinert : Segment.InertAll segments)
    (h : Segment.contentAll s segments = some bs) :
    ∃ t, emitAll i segments s = .ok () t ∧ Appends i bs s t := by
  cases segments with
  | nil =>
    cases h
    exact ⟨s, rfl, .refl s⟩
  | cons segment rest =>
    obtain ⟨b₁, b₂, h₁, h₂, rfl⟩ := Segment.contentAll_cons h
    obtain ⟨u, hu, hsu⟩ := emitSegment_appends hi hinert.1 h₁
    obtain ⟨t, ht, hut⟩ := emitAll_appends (hsu.images ▸ hi) hinert.2
      (Segment.contentAll_mono hsu.knows h₂)
    exact ⟨t, bind_eq_ok.2 ⟨(), u, hu, ht⟩, hsu.trans hut⟩

end

mutual

theorem Segment.Inert.entries {segment : Segment} (h : segment.Inert) : segment.entries = [] := by
  cases segment with
  | direct | deferred => rfl
  | mark | postProcess => exact h.elim
  | nested segments => exact InertAll.entries h

theorem Segment.InertAll.entries {segments : List Segment} (h : InertAll segments) :
    entriesAll segments = [] := by
  cases segments with
  | nil => rfl
  | cons segment rest => rw [entriesAll, Inert.entries h.1, InertAll.entries h.2, List.append_nil]

end

/-- A layout without fields and entries is finalized under every configuration. -/
theorem Layout.finalizeObserved_empty (s : Store) (i : ImageId) (first : FieldId)
    (config : FlattenConfig) (observer : Observer) :
    ∃ summary log trace reports, (⟨i, first, first, []⟩ : Layout).finalizeObserved config observer s
      = .ok summary { s with log, trace, reports } := by
  obtain ⟨log, trace, reports, hclose⟩ :=
    close_run (s := s) ⟨i, first, first, []⟩ config observer {}
  have hnone : (⟨i, first, first, []⟩ : Layout).placeholders s = #[] := by simp [placeholders]
  have hfields : (⟨i, first, first, []⟩ : Layout).pendingFields s = [] := by
    simp [pendingFields, pending, hnone]
  refine ⟨summary ⟨i, first, first, []⟩ {} s, log, trace, reports, ?_⟩
  change close _ config observer {} s = _
  rw [hclose, hnone, complaints, hfields]
  rfl

/-- A region of inert segments whose values are all there is flattened at once. -/
theorem Region.flattenObserved_appends {r : Region} (config : FlattenConfig) (observer : Observer)
    (hi : i < s.images.size) (hinert : Segment.InertAll r.segments)
    (h : Segment.contentAll s r.segments = some bs) :
    ∃ summary t, r.flattenObserved i config observer s = .ok summary t ∧ Appends i bs s t := by
  obtain ⟨t, ht, hst⟩ := emitAll_appends hi hinert h
  obtain ⟨trace, reports, hlayout⟩ := Region.layoutObserved_of_emitAll observer ht
  have hentries : r.entries = [] := hinert.entries
  have hsize : t.placeholders.size = s.placeholders.size := by rw [hst.placeholders]
  rw [hentries, hsize] at hlayout
  obtain ⟨summary, log, trace', reports', hfinal⟩ := Layout.finalizeObserved_empty
    { t with trace, reports } i s.placeholders.size config observer
  let event := Event.flattened summary.size summary.deferredFields summary.unresolved.length
  refine ⟨summary, { t with log, trace := trace'.push event, reports := reports' }, ?_,
    hst.note log _ reports'⟩
  exact bind_eq_ok.2 ⟨_, _, hlayout, bind_eq_ok.2 ⟨_, _, hfinal, rfl⟩⟩

/-- The bytes of such a region, in an image of its own. -/
theorem Region.toBytes_of_inert {r : Region} (config : FlattenConfig)
    (hinert : Segment.InertAll r.segments) (h : Segment.contentAll s r.segments = some bs) :
    ∃ t, r.toBytes config s = .ok bs t := by
  let s₁ : Store := { s with images := s.images.push {} }
  have hi : s.images.size < s₁.images.size := by simp [s₁]
  have hknows : s₁.Knows s := fun _ _ hv => hv
  obtain ⟨summary, t, ht, hst⟩ := Region.flattenObserved_appends config config.observer hi hinert
    (Segment.contentAll_mono hknows h)
  have hnew : s₁.image s.images.size = {} := by simp [s₁, image]
  have hbytes : (t.image s.images.size).bytes = bs := by
    rw [hst.bytes, hnew]
    rfl
  refine ⟨t, ?_⟩
  refine bind_eq_ok.2 ⟨s.images.size, s₁, rfl, bind_eq_ok.2 ⟨(), t, ?_, ?_⟩⟩
  · rw [discard_run, Region.flatten, ht]
  · rw [← hbytes]
    rfl

end Appending

end Backpatch
