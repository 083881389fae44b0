import Mathlib
import Backpatch.Proofs.Finalization

/-!
# Layouts are stable

Where the pieces of a region go depends on nothing but the region and the offset at which it is laid
out: not on which values are known, and not on what callbacks do on the way. `Segment.slots` lists
the fields of a segment with their offsets and `Segment.marks` its marks. A layout stands at its
offset (`Layout.Stands`) if its placeholders are among the slots, its marks hold their offsets, and
the image ends behind it. It stands there as soon as it is made, and as long as nothing is appended.
-/

namespace Backpatch

open Store Failable

/-- A field of a region, and the offset at which it stands. -/
structure Slot where
  offset : Nat
  format : FixedFormat
  cell : CellId
  label : Option String

def Slot.report (x : Slot) : UnresolvedField := ⟨x.offset, x.format.width, x.label⟩

def Placeholder.slot (p : Placeholder) : Slot := ⟨p.offset, p.format, p.cell, p.label⟩

mutual

/-- The fields of a segment at the given offset, in order. -/
def Segment.slots : Nat → Segment → List Slot
  | a, .deferred format c label => [⟨a, format, c, label⟩]
  | _, .direct .. | _, .mark _ | _, .postProcess _ => []
  | a, .nested segments => Segment.slotsAll a segments

def Segment.slotsAll : Nat → List Segment → List Slot
  | _, [] => []
  | a, segment :: rest => segment.slots a ++ Segment.slotsAll (a + segment.size) rest

end

mutual

/-- The cells that a segment at the given offset marks, with the offsets of the marks. -/
def Segment.marks : Nat → Segment → List (CellId × Nat)
  | a, .mark c => [(c, a)]
  | _, .direct .. | _, .deferred .. | _, .postProcess _ => []
  | a, .nested segments => Segment.marksAll a segments

def Segment.marksAll : Nat → List Segment → List (CellId × Nat)
  | _, [] => []
  | a, segment :: rest => segment.marks a ++ Segment.marksAll (a + segment.size) rest

end

def Region.slots (r : Region) (a : Nat) : List Slot := Segment.slotsAll a r.segments

def Region.marks (r : Region) (a : Nat) : List (CellId × Nat) := Segment.marksAll a r.segments

/-- The slots of the placeholders from `first` up to `last`. -/
def Store.slots (s : Store) (first last : FieldId) : List Slot :=
  (s.placeholders.extract first last).toList.map Placeholder.slot

def Layout.slots (l : Layout) (s : Store) : List Slot := s.slots l.first l.last

/-- The layout is one of the region `r` at the offset `a`, at the end of its image. -/
structure Layout.Stands (l : Layout) (r : Region) (a : Nat) (s : Store) : Prop where
  size : (s.image l.image).size = a + r.size
  slots : List.Sublist (l.slots s) (r.slots a)
  pending : List.Sublist (l.pendingFields s) ((r.slots a).map Slot.report)
  marks : ∀ m ∈ r.marks a, s.value? m.1 = some (.int m.2)

section Slots

variable {s t : Store} {first mid last : FieldId}

theorem Grows.slots (h : Grows s t) (hlast : last ≤ s.placeholders.size) :
    t.slots first last = s.slots first last := by
  apply List.ext_getElem?
  intro k
  have hsize : last ≤ t.placeholders.size := hlast.trans h.placeholders
  simp only [Store.slots, List.getElem?_map, Array.getElem?_toList, Array.getElem?_extract,
    min_eq_left hlast, min_eq_left hsize]
  split_ifs with hk
  · have hf : first + k < s.placeholders.size :=
      (Nat.lt_sub_iff_add_lt'.1 hk).trans_le hlast
    obtain ⟨b, hb⟩ := h.fields (first + k) _ (Array.getElem?_eq_getElem hf)
    rw [hb, Array.getElem?_eq_getElem hf]
    rfl
  · rfl

theorem Store.slots_append (s : Store) (h : first ≤ mid) (h' : mid ≤ last) :
    s.slots first mid ++ s.slots mid last = s.slots first last := by
  rw [slots, slots, ← List.map_append, ← Array.toList_append, Array.extract_append_extract,
    min_eq_left h, max_eq_right h']
  rfl

theorem Store.slots_self (s : Store) (f : FieldId) : s.slots f f = [] := by
  simp [slots]

/-- Pending fields are reported with the offsets of their slots. -/
theorem Layout.pendingFields_sublist (l : Layout) (s : Store) :
    List.Sublist (l.pendingFields s) ((l.slots s).map Slot.report) := by
  rw [Layout.slots, Store.slots, List.map_map]
  exact List.filter_sublist.map Placeholder.report

end Slots

/-! ## Marks -/

section Marks

variable {s t : Store} {c : CellId} {v : Datum}

theorem Store.settle_pending (h : Store.settle c v s = .ok () t) : s.value? c = none := by
  cases hv : s.value? c with
  | none => rfl
  | some x => simp [Store.settle, settleWithin, hv] at h

/-- A cell that was settled has the value. -/
theorem Store.settle_value (hl : Lasting s []) (hc : c < s.cells.size)
    (h : Store.settle c v s = .ok () t) : t.value? c = some v := by
  have hr := Reacts.move (m := .settle c v) (s := s) hc
  have hlasting := Lasting.step hr (hl.start (m := .settle c v) trivial)
  rw [List.append_nil] at hlasting
  have hfire := (cascades_settle (s.load + 1) c v s hl.load (by omega)).1
  rw [← after_of_ok h]
  exact (hfire.invariant (I := fun s tasks => Lasting s tasks ∧ s.value? c = some v)
    (fun hr hi => ⟨Lasting.step hr hi.1, hi.1.value?_step hr hi.2⟩)
    ⟨hlasting, value?_fire_self s v hc (settle_pending h)⟩).2

/-- Settling or confirming a cell that succeeds: the cell was pending and has the value now, or it
had an equal one, and nothing happened. -/
theorem Store.settleOrConfirm_cases (hl : Lasting s []) (hc : c < s.cells.size)
    (h : settleOrConfirm c v s = .ok () t) :
    (s.value? c = none ∧ settle c v s = .ok () t ∧ t.value? c = some v) ∨
      ∃ x, s.value? c = some x ∧ x.same v = true ∧ t = s := by
  rw [settleOrConfirm, bind_run, get_run] at h
  cases hv : s.value? c with
  | none =>
    have hholds : (s.cell c).holds v = false := by
      rw [Cell.holds, show (s.cell c).value = none from hv]
      rfl
    simp only [hholds, Bool.false_eq_true, if_false] at h
    exact .inl ⟨rfl, h, settle_value hl hc h⟩
  | some x =>
    refine .inr ⟨x, rfl, ?_⟩
    have hholds : (s.cell c).holds v = x.same v := by
      rw [Cell.holds, show (s.cell c).value = some x from hv]
      rfl
    by_cases hsame : x.same v = true
    · simp only [hholds, hsame, if_true] at h
      cases h
      exact ⟨hsame, rfl⟩
    · simp [hholds, hsame, settle, settleWithin, hv] at h

theorem Datum.eq_of_same_int {x : Datum} {n : Int} (h : x.same (.int n) = true) : x = .int n := by
  cases x with
  | int m => simpa [Datum.same] using h
  | _ => simp [Datum.same] at h

/-- A mark that succeeds holds its offset. -/
theorem Store.settleOrConfirm_int {n : Int} (hl : Lasting s []) (hc : c < s.cells.size)
    (h : settleOrConfirm c (.int n) s = .ok () t) : t.value? c = some (.int n) := by
  obtain ⟨-, -, ht⟩ | ⟨x, hx, hsame, rfl⟩ := settleOrConfirm_cases hl hc h
  · exact ht
  · rw [hx, Datum.eq_of_same_int hsame]

end Marks

/-! ## Emission -/

section Emission

variable {i : ImageId}

theorem Segment.slotsAll_append (a : Nat) (xs ys : List Segment) :
    slotsAll a (xs ++ ys) = slotsAll a xs ++ slotsAll (a + sizeAll xs) ys := by
  induction xs generalizing a with
  | nil => rfl
  | cons x xs ih =>
    rw [List.cons_append, slotsAll, slotsAll, ih, List.append_assoc, sizeAll, Nat.add_assoc]

theorem Segment.marksAll_append (a : Nat) (xs ys : List Segment) :
    marksAll a (xs ++ ys) = marksAll a xs ++ marksAll (a + sizeAll xs) ys := by
  induction xs generalizing a with
  | nil => rfl
  | cons x xs ih =>
    rw [List.cons_append, marksAll, marksAll, ih, List.append_assoc, sizeAll, Nat.add_assoc]

theorem Emission.slots {s t : Store} {segments : List Segment} (h : Emission i segments s t)
    (hl : Lasting s []) (hi : i < s.images.size) (hw : Segment.WithinAll s.cells.size segments) :
    List.Sublist (t.slots s.placeholders.size t.placeholders.size)
      (Segment.slotsAll (s.image i).size segments) := by
  induction h with
  | note | direct | known | postProcess => exact (slots_self _ _).symm ▸ List.nil_sublist _
  | place =>
    simp [Store.slots, Store.placed, Segment.slotsAll, Segment.slots, nextPlaceholder,
      Placeholder.slot]
  | @mark s t c hrun =>
    have hsettle : Steps (fun m => ¬ m.Draws) s t :=
      after_of_ok hrun ▸ steps_settleOrConfirm hl.toValid hw.1 id
    rw [hsettle.size_placeholders fun _ hm => hm, slots_self]
    exact List.nil_sublist _
  | nested _ ih =>
    rw [Segment.slotsAll, Segment.slotsAll, List.append_nil]
    exact ih hl hi hw.1
  | append h g ih ih' =>
    obtain ⟨hxs, hys⟩ := Segment.withinAll_append.1 hw
    obtain ⟨hlu, hiu, hsu⟩ := h.lasting hl hi hxs
    have hwu := hys.mono hsu.cells
    obtain ⟨-, -, hut⟩ := g.lasting hlu hiu hwu
    have hrest := ih' hlu hiu hwu
    rw [h.size hl.toValid hi hxs] at hrest
    rw [← slots_append _ hsu.placeholders hut.placeholders, hut.slots le_rfl,
      Segment.slotsAll_append]
    exact (ih hl hi hxs).append hrest

/-- The marks that were emitted hold their offsets. -/
theorem Emission.marks {s t : Store} {segments : List Segment} (h : Emission i segments s t)
    (hl : Lasting s []) (hi : i < s.images.size) (hw : Segment.WithinAll s.cells.size segments) :
    ∀ m ∈ Segment.marksAll (s.image i).size segments, t.value? m.1 = some (.int m.2) := by
  induction h with
  | note | direct | known | place | postProcess => simp [Segment.marksAll, Segment.marks]
  | mark hrun =>
    intro m hm
    obtain rfl := List.mem_singleton.1 hm
    exact settleOrConfirm_int hl hw.1 hrun
  | nested _ ih =>
    rw [Segment.marksAll, Segment.marksAll, List.append_nil]
    exact ih hl hi hw.1
  | append h g ih ih' =>
    obtain ⟨hxs, hys⟩ := Segment.withinAll_append.1 hw
    obtain ⟨hlu, hiu, hsu⟩ := h.lasting hl hi hxs
    have hwu := hys.mono hsu.cells
    have hut := g.steps hlu.toValid hiu le_rfl hwu
    have hrest := ih' hlu hiu hwu
    rw [h.size hl.toValid hi hxs] at hrest
    rw [Segment.marksAll_append]
    intro m hm
    obtain hm | hm := List.mem_append.1 hm
    · exact hut.value?_eq (fun m hm => hm.plain.lasting) hlu (ih hl hi hxs m hm)
    · exact hrest m hm

/-- A layout stands where the image ended before. -/
theorem Region.layoutObserved_stands {r : Region} {observer : Observer} {l : Layout} {s t : Store}
    (hl : Lasting s []) (hi : i < s.images.size) (hw : r.Within s.cells.size)
    (h : r.layoutObserved i observer s = .ok l t) : l.Stands r (s.image i).size t := by
  obtain ⟨-, hsize⟩ := Region.layoutObserved_placed hl hi hw h
  obtain ⟨hemit, rfl⟩ := layoutObserved_eq_ok h
  have hs : Steps (Move.Writes i 0) s ((emit
    (.flattening r.segments.length (s.image i).size)).after s) := steps_emit _ fun _ _ _ => trivial
  have hs' := hs.lasting (fun m hm => hm.plain.lasting) hl
  have hemission := (emitObserved_emits hemit).emission
  have hslots := hemission.slots hs' hi hw
  exact ⟨hsize, hslots, (Layout.pendingFields_sublist _ t).trans (hslots.map _),
    hemission.marks hs' hi hw⟩

/-- A layout stands where it does until something is appended to its image. -/
theorem Layout.Stands.grows {l : Layout} {r : Region} {a : Nat} {s t : Store}
    (h : l.Stands r a s) (hg : Grows s t) (hlast : l.last ≤ s.placeholders.size)
    (hsize : (t.image l.image).size = (s.image l.image).size)
    (hvalues : ∀ c v, s.value? c = some v → t.value? c = some v) : l.Stands r a t := by
  have hslots : l.slots t = l.slots s := hg.slots hlast
  refine ⟨hsize.trans h.size, hslots ▸ h.slots, ?_, fun m hm => hvalues _ _ (h.marks m hm)⟩
  exact (l.pendingFields_sublist t).trans ((hslots ▸ h.slots).map _)

end Emission

/-! ## What moves the end of an image -/

/-- The move adds to the image `i`. -/
def Move.Extends (i : ImageId) : Move → Prop
  | .append j .. | .place j .. => j = i
  | _ => False

/-- The call adds to the image `i`. -/
def Call.Extends (i : ImageId) : Call → Prop
  | .append j .. | .layout _ j _ | .flatten _ j _ _ => j = i
  | _ => False

section Extension

variable {s t : Store} {i : ImageId}

theorem Move.Creates.spares {m : Move} (h : m.Creates) : ¬ m.Extends i := by
  cases m with
  | append | place => exact h.elim
  | _ => exact id

theorem Move.Prepares.spares {m : Move} (h : m.Prepares) : ¬ m.Extends i := by
  cases m with
  | append | place => exact h.elim
  | _ => exact id

theorem Move.Flattens.spares {m : Move} {j : ImageId} (h : m.Flattens j) (hj : j ≠ i) :
    ¬ m.Extends i := by
  cases m with
  | append | place => exact fun hi => hj (h.symm.trans hi)
  | _ => exact id

theorem Reacts.size_image_eq {task : Task} {ts : List Task} (hr : Reacts s task t ts)
    (hd : ∀ m, task = .move m → ¬ m.Extends i) : (t.image i).size = (s.image i).size := by
  by_cases hdraws : ∃ m, task = .move m ∧ m.Draws
  · obtain ⟨m, rfl, hm⟩ := hdraws
    have hspares := hd m rfl
    cases hr with
    | refuse h => exact h.elim
    | move =>
      cases m with
      | newImage => exact congrArg Image.size (image_newImage s i)
      | append j | place j =>
        simp only [Move.apply, image_modifyImage, image_placed]
        rw [if_neg fun h => hspares h.1.symm]
      | overwrite j =>
        simp only [Move.apply, image_modifyImage]
        split_ifs with hj
        · rw [Image.size_replace, hj.1]
        · rfl
      | journal | define | create | attach | watch | run | resolve | settle | unresolve
      | unsubscribe => exact hm.elim
  · exact hr.size_image fun m htask hm => hdraws ⟨m, htask, hm⟩

theorem Steps.size_image_eq (h : Steps (fun m => ¬ m.Extends i) s t) :
    (t.image i).size = (s.image i).size :=
  h.preserve (F := fun u => (u.image i).size = (s.image i).size)
    (fun hm hr hsize => (hr.size_image_eq hm).trans hsize) rfl

/-- A call that does not add to an image leaves its end where it is. -/
theorem Call.Causes.spares {call : Call} {m : Move} (h : call.Causes s m) (hi : i < s.images.size)
    (hx : ¬ call.Extends i) : ¬ m.Extends i := by
  cases call with
  | newCell | tryMap | tryBind | subtract => exact Move.Creates.spares h
  | resolve | confirm | unresolve | unsubscribe | define | newImage | overwrite =>
    rw [show m = _ from h]
    exact id
  | append =>
    rw [show m = _ from h]
    exact hx
  | onResolve =>
    obtain rfl | ⟨v, rfl⟩ := h
    · exact id
    · exact id
  | layout | flatten => exact Move.Flattens.spares h hx
  | finalize => exact (Move.Finalizes.flattens h (i + 1)).spares (Nat.succ_ne_self i)
  | drop => exact (h.finalizes.flattens (i + 1)).spares (Nat.succ_ne_self i)
  | build =>
    obtain h | ⟨j, hj, h⟩ := h
    · exact h.spares
    · exact h.spares (Nat.ne_of_gt (hi.trans_le hj))

theorem Run.append {u : Store} {calls more : List Call} (h : Run s calls t)
    (g : Run t more u) : Run s (calls ++ more) u := by
  induction h with
  | nil => exact g
  | cons ha _ ih => exact .cons ha (ih g)

theorem Run.size_image_eq {calls : List Call} (h : Run s calls t) (hs : Valid s [])
    (hi : i < s.images.size) (hx : ∀ call ∈ calls, ¬ call.Extends i) :
    (t.image i).size = (s.image i).size := by
  induction h with
  | nil s => rfl
  | cons ha _ ih =>
    have hcall := (Call.causes hs ha).mono fun _ hm => hm.spares hi (hx _ (.head _))
    exact (ih (hcall.valid hs) (hi.trans_le hcall.grows.images)
      fun call hc => hx call (.tail _ hc)).trans hcall.size_image_eq

end Extension

/-- Layouts are stable. Where values last, a region of size `n` that is laid out at the offset `a`
of an image moves the end of the image to `a + n`; the fields that became placeholders stand among
the slots of the region at `a`, each behind all that comes before it, and its marks hold their
offsets. No later call changes any of this, unless it appends to the image. So any two layouts of a
region at one offset agree, whichever values were known. -/
theorem layout_offsets_stable {before later : List Call} {s t u : Store} {r : Region} {i : ImageId}
    {observer : Observer} {l : Layout} (hbefore : Run {} before s)
    (hlasting : ∀ call ∈ before, call.Lasting) (hi : i < s.images.size)
    (hr : r.Within s.cells.size) (hlayout : r.layoutObserved i observer s = .ok l t)
    (hlater : Run t later u) (hkeeps : ∀ call ∈ later, call.Lasting ∧ ¬ call.Extends i) :
    l.Stands r (s.image i).size t ∧ l.Stands r (s.image i).size u ∧
    ∀ (before' : List Call) (s' t' : Store) (i' : ImageId) (observer' : Observer) (l' : Layout),
      Run {} before' s' → (∀ call ∈ before', call.Lasting) → i' < s'.images.size →
      r.Within s'.cells.size → r.layoutObserved i' observer' s' = .ok l' t' →
      (s'.image i').size = (s.image i).size →
      l'.Stands r (s.image i).size t' ∧ (t'.image i').size = (t.image i).size ∧
        ∀ m ∈ r.marks (s.image i).size, t'.value? m.1 = t.value? m.1 := by
  have hl := hbefore.lasting Lasting.empty hlasting
  have hstands := Region.layoutObserved_stands hl hi hr hlayout
  have hst : Steps Move.Plain s t :=
    after_of_ok hlayout ▸ Region.steps_layoutObserved observer hl.toValid hi hr
  have ht := hst.lasting (fun _ hm => hm.lasting) hl
  have htu : Steps Move.Lasting t u :=
    hlater.steps ht.toValid fun call hc _ => (hkeeps call hc).1.makes
  obtain ⟨-, rfl⟩ := Region.layoutObserved_eq_ok hlayout
  refine ⟨hstands, ?_, ?_⟩
  · refine hstands.grows htu.grows le_rfl ?_ fun c v => htu.value?_eq (fun _ hm => hm) ht
    exact hlater.size_image_eq ht.toValid (hi.trans_le hst.grows.images) fun call hc =>
      (hkeeps call hc).2
  · intro before' s' t' i' observer' l' hbefore' hlasting' hi' hr' hlayout' hsize
    have hl' := hbefore'.lasting Lasting.empty hlasting'
    have hstands' := Region.layoutObserved_stands hl' hi' hr' hlayout'
    obtain ⟨-, rfl⟩ := Region.layoutObserved_eq_ok hlayout'
    rw [hsize] at hstands'
    refine ⟨hstands', hstands'.size.trans hstands.size.symm, fun m hm => ?_⟩
    rw [hstands'.marks m hm, hstands.marks m hm]

/-- A region with four fields: two become placeholders that its mark patches on the way, one is
known when its turn comes, and one stays pending. Where the last one is known before, a second
layout has fewer placeholders, and the same offsets. -/
theorem layout_offsets_stable_late :
    ∃ l t l' t', lateRegion.layoutObserved 0 .silent lateStore = .ok l t ∧
      lateRegion.layoutObserved 0 .silent ((Call.resolve 3 (.int 9)).run.after lateStore) =
        .ok l' t' ∧
      (lateRegion.slots 1).map Slot.offset = [3, 4, 6, 7] ∧ lateRegion.marks 1 = [(1, 6)] ∧
      (l.slots t).map Slot.offset = [3, 4, 7] ∧ (l'.slots t').map Slot.offset = [3, 4] ∧
      l.Stands lateRegion 1 t ∧
      l.Stands lateRegion 1 ((Call.resolve 3 (.int 9)).run.after t) ∧
      l'.Stands lateRegion 1 t' ∧ (t'.image 0).size = (t.image 0).size := by
  have hrun : (match lateRegion.layoutObserved 0 .silent lateStore,
        lateRegion.layoutObserved 0 .silent ((Call.resolve 3 (.int 9)).run.after lateStore) with
      | .ok l t, .ok l' t' => decide ((l.slots t).map Slot.offset = [3, 4, 7] ∧
          (l'.slots t').map Slot.offset = [3, 4])
      | _, _ => false) = true := by decide +kernel
  cases hlayout : lateRegion.layoutObserved 0 .silent lateStore with
  | error e t => simp [hlayout] at hrun
  | ok l t =>
    cases hlayout' : lateRegion.layoutObserved 0 .silent
        ((Call.resolve 3 (.int 9)).run.after lateStore) with
    | error e t => simp [hlayout, hlayout'] at hrun
    | ok l' t' =>
      simp only [hlayout, hlayout', decide_eq_true_eq] at hrun
      have hbefore : Run {} lateCalls lateStore :=
        .cons trivial (.cons trivial (.cons (show 1 < _ by decide +kernel) (.cons trivial
          (.cons ⟨show 1 < _ by decide +kernel, show 0 < _ by decide +kernel⟩ (.cons trivial
            (.cons (show 0 < _ by decide +kernel) (.nil _)))))))
      have hbefore' : Run {} (lateCalls ++ [.resolve 3 (.int 9)])
          ((Call.resolve 3 (.int 9)).run.after lateStore) :=
        hbefore.append (.cons (show 3 < _ by decide +kernel) (.nil _))
      have hwithin : lateRegion.Within 4 := by
        simp [lateRegion, Region.Within, Segment.WithinAll, Segment.Within]
      have hsize : lateStore.cells.size = 4 := by decide +kernel
      have hsize' : ((Call.resolve 3 (.int 9)).run.after lateStore).cells.size = 4 := by
        decide +kernel
      have hone : (lateStore.image 0).size = 1 := by decide +kernel
      have hcells : 3 < t.cells.size := by
        have := (Region.steps_layoutObserved .silent (i := 0) hbefore.valid (by decide +kernel)
          (hsize ▸ hwithin)).grows.cells
        rw [after_of_ok hlayout] at this
        omega
      obtain ⟨hstands, hlater, hagree⟩ := layout_offsets_stable hbefore
        (by simp [lateCalls, Call.Lasting, Action.Lasting]) (by decide +kernel) (hsize ▸ hwithin)
        hlayout (.cons (show Call.Admissible t (.resolve 3 (.int 9)) from hcells) (.nil _))
        (by simp [Call.Lasting, Call.Extends])
      obtain ⟨hstands', hend, -⟩ := hagree _ _ _ 0 .silent l' hbefore'
        (by simp [lateCalls, Call.Lasting, Action.Lasting]) (by decide +kernel) (hsize' ▸ hwithin)
        hlayout' (by decide +kernel)
      rw [hone] at hstands hlater hstands'
      exact ⟨l, t, l', t', rfl, rfl, by decide +kernel, by decide +kernel, hrun.1, hrun.2, hstands,
        hlater, hstands', hend⟩

end Backpatch
