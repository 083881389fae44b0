import Mathlib
import Backpatch.Proofs.Branches
import Backpatch.Proofs.Endings
import Backpatch.Proofs.Nesting
import Backpatch.Proofs.Rows

/-!
# The rows do not depend on when values arrive

If every value is there before a region is laid out, each segment appends its rows and no field is
left to patch (`Prints`). If values arrive later, patches bring about the same rows, as long as no
field without bytes is patched in front of other bytes: the patch of such a field takes the row that
starts at its offset, which belongs to what comes next.
-/

namespace Backpatch

open Store Failable

/-- Every field has a value that fits, the same in both stores, and every mark has its offset. -/
structure Ready (o s : Store) (slots : List Slot) (marks : List (CellId × Nat)) : Prop where
  fields : ∀ x ∈ slots, ∃ v bs, s.value? x.cell = some v ∧ o.value? x.cell = some v ∧
    x.format.encode v = .ok bs
  marks : ∀ m ∈ marks, s.value? m.1 = some (.int m.2)

/-- From one store to the other, `n` bytes with the given rows are appended to the image `i`, and
neither cells nor placeholders change. -/
structure Prints (i : ImageId) (n : Nat) (rows : List Row) (s t : Store) : Prop where
  cells : t.cells = s.cells
  placeholders : t.placeholders = s.placeholders
  images : t.images.size = s.images.size
  size : (t.image i).size = (s.image i).size + n
  rows : (t.image i).rows.toList = (s.image i).rows.toList ++ rows

section Printing

variable {o s t u : Store} {i : ImageId} {slots slots' : List Slot}
  {marks marks' : List (CellId × Nat)}

theorem Ready.left (h : Ready o s (slots ++ slots') (marks ++ marks')) : Ready o s slots marks :=
  ⟨fun x hx => h.fields x (List.mem_append_left _ hx),
    fun m hm => h.marks m (List.mem_append_left _ hm)⟩

theorem Ready.right (h : Ready o s (slots ++ slots') (marks ++ marks')) : Ready o s slots' marks' :=
  ⟨fun x hx => h.fields x (List.mem_append_right _ hx),
    fun m hm => h.marks m (List.mem_append_right _ hm)⟩

theorem Ready.congr (h : Ready o s slots marks) (hc : t.cells = s.cells) :
    Ready o t slots marks := by
  have hvalue : ∀ c, t.value? c = s.value? c := fun c => by rw [value?, cell, hc, value?, cell]
  exact ⟨fun x hx => hvalue x.cell ▸ h.fields x hx, fun m hm => hvalue m.1 ▸ h.marks m hm⟩

namespace Prints

theorem refl (s : Store) : Prints i 0 [] s s := ⟨rfl, rfl, rfl, rfl, by simp⟩

theorem trans {n m : Nat} {rows rows' : List Row} (h : Prints i n rows s t)
    (g : Prints i m rows' t u) : Prints i (n + m) (rows ++ rows') s u where
  cells := g.cells.trans h.cells
  placeholders := g.placeholders.trans h.placeholders
  images := g.images.trans h.images
  size := by rw [g.size, h.size, Nat.add_assoc]
  rows := by rw [g.rows, h.rows, List.append_assoc]

theorem note {n : Nat} {rows : List Row} (h : Prints i n rows s t) (log : Array LogEntry)
    (trace : Array Event) (reports : Array Report) :
    Prints i n rows s { t with log, trace, reports } :=
  ⟨h.cells, h.placeholders, h.images, h.size, h.rows⟩

theorem direct (hi : i < s.images.size) (bs : Bytes) (note : Note) :
    Prints i bs.length (Segment.rows o (s.image i).size (.direct bs note)) s
      (s.modifyImage i (·.append bs note)) := by
  have himage : (s.modifyImage i (·.append bs note)).image i = (s.image i).append bs note := by
    rw [image_modifyImage, if_pos ⟨rfl, hi⟩]
  refine ⟨rfl, rfl, by simp [modifyImage], by rw [himage, Image.size_append], ?_⟩
  rw [himage, Segment.rows]
  split_ifs with hbs
  · simp [hbs, Image.append]
  · simp [hbs, Image.append]

end Prints

mutual

theorem emitSegment_prints {s : Store} {segment : Segment} (hi : i < s.images.size)
    (h : Ready o s (segment.slots (s.image i).size) (segment.marks (s.image i).size)) :
    ∃ t, emitSegment i segment s = .ok () t ∧
      Prints i segment.size (segment.rows o (s.image i).size) s t := by
  cases segment with
  | direct bytes note => exact ⟨_, rfl, .direct hi bytes note⟩
  | deferred format c label =>
    obtain ⟨v, bs, hv, ho, he⟩ := h.fields _ (.head _)
    have hprints := Prints.direct (o := o) hi bs ((Format.fixed format).describe (some v) label)
    have hempty : bs = [] ↔ format.width = 0 := by
      rw [← FixedFormat.length_encode he, List.length_eq_zero_iff]
    refine ⟨s.modifyImage i (·.append bs ((Format.fixed format).describe (some v) label)), ?_, ?_⟩
    · change format.encode v = .ok bs at he
      simp only [emitSegment, bind_run, valueOf_run, hv, he, ofExcept_ok_run]
      rfl
    · rw [FixedFormat.length_encode he] at hprints
      simp only [Segment.rows, hempty] at hprints ⊢
      rwa [Slot.row_of_value (x := ⟨_, format, c, label⟩) ho he]
  | mark c =>
    have hholds : (s.cell c).holds (.int (s.image i).size) = true := by
      have hvalue : (s.cell c).value = some (.int (s.image i).size) := h.marks _ (.head _)
      simp [Cell.holds, hvalue, Datum.same]
    refine ⟨s, ?_, .refl s⟩
    change settleOrConfirm c (.int (s.image i).size) s = _
    rw [settleOrConfirm, bind_run, get_run]
    simp only [hholds, if_true]
    rfl
  | postProcess e => exact ⟨s, rfl, .refl s⟩
  | nested segments => exact emitAll_prints hi h

theorem emitAll_prints {s : Store} {segments : List Segment} (hi : i < s.images.size)
    (h : Ready o s (Segment.slotsAll (s.image i).size segments)
      (Segment.marksAll (s.image i).size segments)) :
    ∃ t, emitAll i segments s = .ok () t ∧
      Prints i (Segment.sizeAll segments) (Segment.rowsAll o (s.image i).size segments) s t := by
  cases segments with
  | nil => exact ⟨s, rfl, .refl s⟩
  | cons segment rest =>
    obtain ⟨u, hu, hsu⟩ := emitSegment_prints hi (Ready.left h)
    have hready := (Ready.right h).congr hsu.cells
    rw [← hsu.size] at hready
    obtain ⟨t, ht, hut⟩ := emitAll_prints (hsu.images ▸ hi) hready
    rw [hsu.size] at hut
    exact ⟨t, bind_eq_ok.2 ⟨(), u, hu, ht⟩, hsu.trans hut⟩

end

/-- A region whose values are all there is laid out at once. -/
theorem Region.layoutObserved_prints {r : Region} (observer : Observer) (hi : i < s.images.size)
    (h : Ready o s (r.slots (s.image i).size) (r.marks (s.image i).size)) :
    ∃ l t, r.layoutObserved i observer s = .ok l t ∧
      Prints i r.size (Segment.rowsAll o (s.image i).size r.segments) s t := by
  obtain ⟨t, ht, hprints⟩ := emitAll_prints hi h
  obtain ⟨trace, reports, hrun⟩ := Region.layoutObserved_of_emitAll observer ht
  exact ⟨_, _, hrun, hprints.note t.log trace reports⟩

end Printing

/-! ## Early and late values -/

section Timing

variable {s s₁ s₂ s₃ : Store} {i : ImageId} {r : Region} {observer observer' : Observer}
  {config : FlattenConfig} {l : Layout} {summary : FlattenSummary}

theorem Move.Finalizes.avoids {m : Move} (h : m.Finalizes) : m.Avoids i := by
  refine ⟨(h.flattens i).plain.keeps i, ?_⟩
  exact (h.flattens (i + 1)).spares (Nat.succ_ne_self i)

theorem Move.Finalizes.not_touches {m : Move} (h : m.Finalizes) : ¬ m.Touches i := by
  cases m with
  | append | place | overwrite => exact h.elim
  | _ => exact id

theorem Run.avoids {calls : List Call} {t : Store} (h : Run s calls t) (hv : Valid s [])
    (hi : i < s.images.size)
    (hcalls : ∀ call ∈ calls, call.Lasting ∧ ¬ call.Overwrites i ∧ ¬ call.Extends i) :
    Steps (Move.Avoids i) s t := by
  induction h with
  | nil s => exact .refl s
  | cons ha _ ih =>
    obtain ⟨hlasting, hoverwrites, hextends⟩ := hcalls _ (.head _)
    have hcall := (Call.causes hv ha).mono fun m hm =>
      show m.Avoids i from ⟨hlasting.keeps hoverwrites hm.makes, hm.spares hi hextends⟩
    exact hcall.trans (ih (hcall.valid hv) (hi.trans_le hcall.grows.images)
      fun call hc => hcalls call (.tail _ hc))

/-- Strict finalization that succeeds leaves the rows of the region. -/
theorem Region.rows_of_finalize (hl : Lasting s []) (hi : i < s.images.size)
    (hw : r.Within s.cells.size) (hempty : s.image i = {})
    (hlayout : r.layoutObserved i observer s = .ok l s₁) (hz : s₁.ZeroLast i)
    (hst : Steps (Move.Avoids i) s₁ s₂) (hstrict : config.enforceComplete = true)
    (hfinalize : l.finalizeObserved config observer' s₂ = .ok summary s₃) :
    (s₃.image i).rows.toList = r.rows s₃ := by
  obtain ⟨hl₁, hl₂, hentries, hfinal⟩ := Region.finalize_of_layout hl hi hw hlayout hst
    (fun _ hm => hm.1.lasting) hfinalize
  have hi₁ : i < s₁.images.size := hi.trans_le (after_of_ok hlayout ▸
    (Region.steps_layoutObserved observer hl.toValid hi hw).grows.images)
  have hs₃ : Steps (Move.Avoids i) s₁ s₃ := hst.trans (hfinal.mono fun _ hm => hm.avoids)
  have hknows : s₃.Knows s₃ := fun _ _ hv => hv
  have hshown := Region.layoutObserved_shown hl hi hw hempty hlayout
    (hknows.of_steps hs₃ (fun _ hm => hm.1.lasting) hl₁) hz
  refine (hshown.steps hs₃ hl₁ hi₁ hknows hz).rows_eq ?_
  exact fun f p hf hlast hp =>
    Layout.finalizeObserved_patched hl₂.toValid hentries hstrict hfinalize hf hlast hp

/-- A region whose values are all there has its rows in an image that is new, both after its layout
and after its flattening, whatever the latter returns. -/
theorem Region.rows_of_ready {o : Store} (observer : Observer) (config : FlattenConfig)
    (hv : Valid s []) (hi : i < s.images.size) (hw : r.Within s.cells.size)
    (hempty : s.image i = {}) (hnew : ∀ f, ¬ s.HasField i f)
    (h : Ready o s (r.slots 0) (r.marks 0)) :
    ∃ l t, r.layoutObserved i observer s = .ok l t ∧ (t.image i).rows.toList = r.rows o ∧
      ((r.flattenObserved i config observer).after s).image i = t.image i := by
  have hsize : (s.image i).size = 0 := by
    rw [hempty]
    rfl
  rw [← hsize] at h
  obtain ⟨l, t, hlayout, hprints⟩ := Region.layoutObserved_prints observer hi h
  refine ⟨l, t, hlayout, ?_, ?_⟩
  · rw [hprints.rows, hempty]
    rfl
  -- The image has no field, so what the entries settle does not reach it.
  have hst : Steps Move.Plain s t :=
    after_of_ok hlayout ▸ Region.steps_layoutObserved observer hv hi hw
  have hnone : ∀ f, ¬ t.HasField i f := by
    rintro f ⟨p, hp, hpi⟩
    exact hnew f ⟨p, hprints.placeholders ▸ hp, hpi⟩
  have habsent : PatchesGone (t.HasField i) t [] :=
    ⟨fun _ _ f hf => absurd hf (hnone f), by simp, fun f hf => absurd hf (hnone f)⟩
  have hentries : ∀ e ∈ l.entries, e.Within t.cells.size := by
    obtain ⟨-, rfl⟩ := Region.layoutObserved_eq_ok hlayout
    exact fun e he => (Segment.WithinAll.entries hw e he).mono hst.grows.cells
  have hrest : Steps (fun m => ¬ m.Touches i) t
      ((r.flattenObserved i config observer).after s) := by
    rw [Region.flattenObserved, after_bind, hlayout]
    refine Steps.bind ((l.finalizeObserved_finalizes config observer (hst.valid hv) hentries).mono
      fun _ hm => hm.not_touches) fun summary u _ _ => ?_
    exact Steps.bind (steps_emit _ fun _ _ _ => id) fun _ v _ _ => .refl v
  exact habsent.image_eq hrest.visits (hst.valid hv)

end Timing

/-- A region is laid out in an empty image and, after any calls that take no value back and do not
write to the image, finalized strictly with success. If each field without bytes that was not known
at its turn stands at the end of the image, the rows of the image are those that the region has with
the values at the end. They are also the rows that any other run gives an empty image that is new to
it, if the cells of the region hold these values before the region is laid out or flattened. -/
theorem rows_independent_of_timing {before between reference : List Call} {s s₁ s₂ s₃ s' : Store}
    {r : Region} {i j : ImageId} {observer observer' : Observer} {config : FlattenConfig}
    {l : Layout} {summary : FlattenSummary} (hbefore : Run {} before s)
    (hlasting : ∀ call ∈ before, call.Lasting) (hi : i < s.images.size) (hempty : s.image i = {})
    (hr : r.Within s.cells.size) (hlayout : r.layoutObserved i observer s = .ok l s₁)
    (hzero : ∀ (f : FieldId) (p : Placeholder), s₁.placeholders[f]? = some p → p.image = i →
      p.width = 0 → (s₁.image i).size ≤ p.offset)
    (hbetween : Run s₁ between s₂)
    (hcalls : ∀ call ∈ between, call.Lasting ∧ ¬ call.Overwrites i ∧ ¬ call.Extends i)
    (hstrict : config.enforceComplete = true)
    (hfinalize : l.finalizeObserved config observer' s₂ = .ok summary s₃)
    (hreference : Run {} reference s') (hj : j < s'.images.size) (hempty' : s'.image j = {})
    (hnew : ∀ f, ¬ s'.HasField j f) (hr' : r.Within s'.cells.size)
    (hfields : ∀ x ∈ r.slots 0, s'.value? x.cell = s₃.value? x.cell)
    (hmarks : ∀ m ∈ r.marks 0, s'.value? m.1 = s₃.value? m.1) (config' : FlattenConfig)
    (observer'' : Observer) :
    (s₃.image i).rows.toList = r.rows s₃ ∧
      ∃ l' t, r.layoutObserved j observer'' s' = .ok l' t ∧
        (t.image j).rows = (s₃.image i).rows ∧
        (((r.flattenObserved j config' observer'').after s').image j).rows =
          (s₃.image i).rows := by
  have hl := hbefore.lasting Lasting.empty hlasting
  have hs₁ : Steps Move.Plain s s₁ :=
    after_of_ok hlayout ▸ Region.steps_layoutObserved observer hl.toValid hi hr
  have hst : Steps (Move.Avoids i) s₁ s₂ :=
    hbetween.avoids (hs₁.valid hl.toValid) (hi.trans_le hs₁.grows.images) hcalls
  have hrows := Region.rows_of_finalize hl hi hr hempty hlayout hzero hst hstrict hfinalize
  have hrendered := Region.rendered_of_finalize hl hi hr hlayout (hst.mono fun _ hm => hm.1) hstrict
    hfinalize (.refl s₃)
  rw [hempty] at hrendered
  have hready : Ready s₃ s' (r.slots 0) (r.marks 0) := by
    refine ⟨fun x hx => ?_, fun m hm => (hmarks m hm).trans (hrendered.marks m hm)⟩
    obtain ⟨v, hv, he⟩ := hrendered.fields x hx
    exact ⟨v, _, (hfields x hx).trans hv, hv, he⟩
  obtain ⟨l', t, hlayout', hrows', himage⟩ := Region.rows_of_ready observer'' config'
    hreference.valid hj hr' hempty' hnew hready
  have heq : (t.image j).rows = (s₃.image i).rows := Array.toList_inj.1 (hrows'.trans hrows.symm)
  exact ⟨hrows, l', t, hlayout', heq, himage ▸ heq⟩

/-! A field is patched by a mark behind it, two fields and an empty one at the end from outside. -/

def timedCalls : List Call :=
  [.newCell (.int .i64) none false, .newCell .offset none true,
    .tryMap 1 (.int .i64) Datum.signedOffset, .newCell (.block 2) none false,
    .newCell (.block 0) none false, .newImage]

def timedStore : Store := timedCalls.foldl (fun s call => call.run.after s) {}

def timedRegion : Region :=
  ⟨[.direct [1, 2] ⟨some "2 bytes", some "head"⟩, .deferred (.int .u8) 2 none,
    .deferred (.int .u16le) 0 (some "length"), .nested [.mark 1, .deferred (.block 2) 3 none],
    .deferred (.block 0) 4 (some "gap")]⟩

def timedValues : List Call :=
  [.resolve 3 (.bytes [7, 8]), .resolve 0 (.int 9), .resolve 4 (.bytes [])]

/-- The same cells, with their values from the start. -/
def knownCalls : List Call :=
  [.newCell (.int .i64) (some (.int 9)) false, .newCell .offset (some (.int 5)) true,
    .newCell (.int .i64) (some (.int 5)) true, .newCell (.block 2) (some (.bytes [7, 8])) false,
    .newCell (.block 0) (some (.bytes [])) false, .newImage]

def knownStore : Store := knownCalls.foldl (fun s call => call.run.after s) {}

theorem rows_independent_of_timing_late :
    ∃ l s₁ s₂ summary s₃, timedRegion.layoutObserved 0 .silent timedStore = .ok l s₁ ∧
      Run s₁ timedValues s₂ ∧ l.finalizeObserved .strict .silent s₂ = .ok summary s₃ ∧
      (s₃.image 0).rows.toList =
        [⟨0, [1, 2], ⟨some "2 bytes", some "head"⟩⟩, ⟨2, [5], ⟨some "5", none⟩⟩,
          ⟨3, [9, 0], ⟨some "9", some "length"⟩⟩, ⟨5, [7, 8], ⟨some "0708", none⟩⟩] ∧
      ∃ l' t, timedRegion.layoutObserved 0 .tracing knownStore = .ok l' t ∧
        (t.image 0).rows = (s₃.image 0).rows := by
  let step := fun (s : Store) (call : Call) => call.run.after s
  have hrun : (match timedRegion.layoutObserved 0 .silent timedStore with
      | .error .. => false
      | .ok l s₁ => match l.finalizeObserved .strict .silent (timedValues.foldl step s₁) with
        | .error .. => false
        | .ok _ t => decide ((t.image 0).rows.toList =
            [⟨0, [1, 2], ⟨some "2 bytes", some "head"⟩⟩, ⟨2, [5], ⟨some "5", none⟩⟩,
              ⟨3, [9, 0], ⟨some "9", some "length"⟩⟩, ⟨5, [7, 8], ⟨some "0708", none⟩⟩] ∧
          (∀ p ∈ s₁.placeholders.toList, p.image = 0 → p.width = 0 →
            (s₁.image 0).size ≤ p.offset) ∧
          (∀ n ∈ List.range 3, 4 < ((timedValues.take n).foldl step s₁).cells.size) ∧
          (∀ c ∈ List.range 5, knownStore.value? c = t.value? c))) = true := by decide +kernel
  cases hlayout : timedRegion.layoutObserved 0 .silent timedStore with
  | error e t => simp [hlayout] at hrun
  | ok l s₁ =>
    simp only [hlayout] at hrun
    cases hfinalize : l.finalizeObserved .strict .silent (timedValues.foldl step s₁) with
    | error e t => simp [hfinalize] at hrun
    | ok summary s₃ =>
      simp only [hfinalize, decide_eq_true_eq] at hrun
      obtain ⟨hrows, hzero, hcells, hvalues⟩ := hrun
      have hbefore : Run {} timedCalls timedStore :=
        .cons trivial (.cons trivial (.cons (show 1 < _ by decide +kernel) (.cons trivial
          (.cons trivial (.cons trivial (.nil _))))))
      have hreference : Run {} knownCalls knownStore :=
        .cons trivial (.cons trivial (.cons trivial (.cons trivial (.cons trivial (.cons trivial
          (.nil _))))))
      have hbetween : Run s₁ timedValues (timedValues.foldl step s₁) :=
        .cons ((by decide : 3 < 4).trans (hcells 0 (by decide)))
          (.cons ((by decide : 0 < 4).trans (hcells 1 (by decide)))
            (.cons (hcells 2 (by decide)) (.nil _)))
      have hwithin : ∀ {n}, n = 5 → timedRegion.Within n := by
        rintro n rfl
        simp [timedRegion, Region.Within, Segment.WithinAll, Segment.Within]
      have hnew : ∀ f, ¬ knownStore.HasField 0 f := by
        rintro f ⟨p, hp, -⟩
        have hnone : knownStore.placeholders = #[] := rfl
        simp [hnone] at hp
      have hslots : ∀ x ∈ timedRegion.slots 0, x.cell ∈ List.range 5 := by decide
      have hmarks : ∀ m ∈ timedRegion.marks 0, m.1 ∈ List.range 5 := by decide
      obtain ⟨-, l', t, hlayout', heq, -⟩ := rows_independent_of_timing hbefore
        (by simp [timedCalls, Call.Lasting]) (by decide +kernel) rfl
        (hwithin (by decide +kernel)) hlayout
        (fun f p hp => hzero p (List.mem_of_getElem? (Array.getElem?_toList.trans hp))) hbetween
        (by simp [timedValues, Call.Lasting, Call.Overwrites, Call.Extends]) rfl hfinalize
        hreference (j := 0) (by decide +kernel) rfl hnew (hwithin (by decide +kernel))
        (fun x hx => hvalues x.cell (hslots x hx)) (fun m hm => hvalues m.1 (hmarks m hm)) .strict
        .tracing
      exact ⟨l, s₁, _, summary, s₃, rfl, hbetween, hfinalize, hrows, l', t, hlayout', heq⟩

def gapCalls : List Call := [.newCell (.block 0) none false, .newImage, .newImage]

def gapStore : Store := gapCalls.foldl (fun s call => call.run.after s) {}

def gapRegion : Region :=
  ⟨[.deferred (.block 0) 0 (some "gap"), .direct [1, 2] ⟨some "2 bytes", some "body"⟩]⟩

/-- A field without bytes whose value arrives late takes the row of the bytes behind it. -/
theorem empty_field_takes_row :
    Run {} gapCalls gapStore ∧
    ∃ l s₁ summary s₃ summary' t, gapRegion.layoutObserved 0 .silent gapStore = .ok l s₁ ∧
      l.finalizeObserved .strict .silent ((Call.resolve 0 (.bytes [])).run.after s₁) =
        .ok summary s₃ ∧
      s₃.value? 0 = some (.bytes []) ∧
      gapRegion.flattenObserved 1 .strict .silent s₃ = .ok summary' t ∧
      (s₃.image 0).rows.toList = [⟨0, [], ⟨some "", some "gap"⟩⟩] ∧
      (t.image 1).rows.toList = [⟨0, [1, 2], ⟨some "2 bytes", some "body"⟩⟩] := by
  refine ⟨.cons trivial (.cons trivial (.cons trivial (.nil _))), _, _, _, _, _, _, rfl, rfl, ?_,
    rfl, ?_, ?_⟩
  · decide +kernel
  · decide +kernel
  · decide +kernel

end Backpatch
