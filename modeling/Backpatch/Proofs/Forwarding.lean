import Mathlib
import Backpatch.Proofs.Reserved

/-!
# Forward references

A forward reference is a field whose cell takes its value over from another one, as a mark settles
that cell. Where nothing else waits for the two cells, settling the first one writes the field and
changes nothing else (`settle_chain`).
-/

namespace Backpatch

open Store Failable

variable {s t u : Store}

/-! ## Changes of few cells -/

/-- No cells but those in `D` changed, and no fields but theirs. -/
structure Only (D : Nat → Prop) (s t : Store) : Prop extends Same (fun c => ¬ D c) s t where
  size : s.cells.size ≤ t.cells.size
  names : t.names = s.names
  subscriptions : t.subscriptions = s.subscriptions

namespace Only

variable {D E : Nat → Prop}

theorem trans (h : Only D s t) (g : Only D t u) : Only D s u :=
  { h.toSame.trans g.toSame with
    size := h.size.trans g.size
    names := g.names.trans h.names
    subscriptions := g.subscriptions.trans h.subscriptions }

theorem mono (h : Only D s t) (hD : ∀ c, D c → E c) : Only E s t :=
  { h.toSame.mono fun c hc hd => hc (hD c hd) with
    size := h.size
    names := h.names
    subscriptions := h.subscriptions }

theorem journal (log : Array LogEntry) (trace : Array Event) (reports : Array Report) :
    Only D s { s with log, trace, reports } :=
  ⟨⟨fun _ _ => rfl, fun _ _ hp _ => ⟨hp, rfl⟩⟩, le_rfl, rfl, rfl⟩

theorem append (hv : Valid s []) (i : ImageId) (bs : Bytes) (note : Note) :
    Only D s (s.modifyImage i (·.append bs note)) where
  cells _ _ := rfl
  fields f p hp _ := by
    refine ⟨hp, ?_⟩
    rw [image_modifyImage]
    split_ifs with hi
    · rw [← hi.1, Image.slice_append _ _ _ _ _ (hv.fields f p hp).2.2]
    · rfl
  size := le_rfl
  names := rfl
  subscriptions := rfl

theorem modifyCell (c : CellId) (f : Cell → Cell) : Only (· = c) s (s.modifyCell c f) where
  cells d hd := by rw [cell_modifyCell, if_neg fun h => hd h.1]
  fields _ _ hp _ := ⟨hp, rfl⟩
  size := by simp [Store.modifyCell]
  names := rfl
  subscriptions := rfl

theorem enqueue (c : CellId) (sub : Subscriber) : Only (· = c) s (s.enqueue c sub) where
  cells d hd := by rw [cell_enqueue, if_neg fun h => hd h.1]
  fields _ _ hp _ := ⟨hp, rfl⟩
  size := (size_enqueue ..).ge
  names := rfl
  subscriptions := rfl

theorem placed (hv : Valid s []) (c : CellId) (i : ImageId) (format : FixedFormat)
    (label : Option String) : Only (· = c) s (s.placed c i format label) where
  cells d hd := by
    change ((s.modifyImage i _).enqueue c _).cell d = s.cell d
    rw [cell_enqueue, if_neg fun h => hd h.1]
    rfl
  fields f p hp _ := by
    constructor
    · change (s.placeholders.push _)[f]? = some p
      rw [Array.getElem?_push, if_neg (Nat.ne_of_lt (Array.getElem?_eq_some_iff.1 hp).1), hp]
    · rw [image_placed]
      split_ifs with hi
      · rw [← hi.1, Image.slice_append _ _ _ _ _ (hv.fields f p hp).2.2]
      · rfl
  size := (size_enqueue ..).ge
  names := rfl
  subscriptions := rfl

theorem patched (hv : Valid s []) {f : FieldId} {p : Placeholder} {v : Datum} {bs : Bytes}
    (hp : s.placeholders[f]? = some p) (he : p.format.encode v = .ok bs) :
    Only (· = p.cell) s (s.patched v f p bs) where
  cells _ _ := rfl
  fields g q hq hcell := by
    have hne : f ≠ g := by
      rintro rfl
      exact hcell (congrArg Placeholder.cell (Option.some.inj (hq.symm.trans hp)))
    have hlength : bs.length = p.width := FixedFormat.length_encode he
    constructor
    · change (s.placeholders.modify f _)[g]? = some q
      rw [Array.getElem?_modify, if_neg hne, hq]
    · rw [image_patched]
      split_ifs with hi
      · rw [hi.1]
        refine Image.slice_replace_apart _ _ _ _ _ _ (hlength ▸ (hv.fields f p hp).2.2) ?_
        rw [hlength]
        obtain hfg | hgf := Nat.lt_or_gt_of_ne hne
        · exact .inr (hv.apart f g p q hfg hp hq hi.1.symm)
        · exact .inl (hv.apart g f q p hgf hq hp hi.1)
      · rfl
  size := le_rfl
  names := rfl
  subscriptions := rfl

end Only

/-- Reserved cells may change, as long as nothing else does. -/
theorem Reserved.only {lo hi : Nat} {D : Nat → Prop} (h : Reserved lo hi s) (ho : Only D s t)
    (hD : ∀ c, D c → lo ≤ c ∧ c < hi) : Reserved lo hi t where
  size := h.size.trans ho.size
  names := ho.names ▸ h.names
  subscriptions := ho.subscriptions ▸ h.subscriptions
  queues c hc q hq := by
    have hcell : t.cell c = s.cell c := ho.cells c fun hd =>
      hc.elim (Nat.not_lt.2 (hD c hd).1) (Nat.not_le.2 (hD c hd).2)
    exact h.queues c hc q (hcell ▸ hq)

/-! ## Settling two cells in a row -/

namespace Store

/-- Settling a cell for which one subscriber waits comes down to running it. -/
theorem settleWithin_singleton {c : CellId} {id depth : Nat} {sub : Subscriber} (v : Datum)
    (hv : s.value? c = none) (hq : (s.cell c).queue = [(id, sub)]) :
    settleWithin (depth + 1) c v s =
      match runSubscriber (settleWithin depth) sub v (s.delivered c v) with
      | .ok _ t => .ok () t
      | .error e t => (raise [e] : Op Unit) t := by
  simp only [settleWithin, bind_run, valueOf_run, hv, deliver_run, hq, runQueue, failures]
  cases runSubscriber (settleWithin depth) sub v (s.delivered c v) with
  | ok _ t => rfl
  | error e t => rfl

theorem raise_singleton {e : Error} (h : e.parts = [e]) : (raise [e] : Op Unit) s = .error e s := by
  simp [raise, Error.ofMany?, h]

theorem settle_chain {c d : CellId} {i j : Nat} {sub : Subscriber} {f : FieldId} {p : Placeholder}
    (v : Datum) (hissued : 0 < s.issued) (hc : s.value? c = none)
    (hqc : (s.cell c).queue = [(i, sub)]) (hd : s.value? d = none)
    (hqd : (s.cell d).queue = [(j, .patch f)]) (hne : d ≠ c)
    (hsub : ∀ settle, runSubscriber settle sub v (s.delivered c v) = settle d v (s.delivered c v))
    (hp : s.placeholders[f]? = some p) (hin : p.offset + p.width ≤ (s.image p.image).size) :
    settle c v s = match p.format.encode v with
      | .ok bs => .ok () (((s.patched v f p bs).delivered c v).delivered d v)
      | .error e => .error e ((s.delivered c v).delivered d v) := by
  obtain ⟨depth, hdepth⟩ := Nat.exists_eq_add_of_lt hissued
  have hd' : (s.delivered c v).value? d = none := by
    rw [value?, cell_delivered, if_neg fun h => hne h.1]
    exact hd
  have hqd' : ((s.delivered c v).cell d).queue = [(j, .patch f)] := by
    rw [cell_delivered, if_neg fun h => hne h.1]
    exact hqd
  change settleWithin (s.issued + 1) c v s = _
  rw [settleWithin_singleton v hc hqc, hsub, hdepth, Nat.zero_add,
    settleWithin_singleton v hd' hqd', runSubscriber]
  cases he : p.format.encode v with
  | error e =>
    have hpatch : patch f v ((s.delivered c v).delivered d v) =
        .error e ((s.delivered c v).delivered d v) := by
      have hp' : ((s.delivered c v).delivered d v).placeholders[f]? = some p := hp
      simp [patch, hp', he]
    have hparts := FixedFormat.parts_of_encode_eq_error he
    simp only [hpatch, raise_singleton hparts]
  | ok bs =>
    have hpatch : patch f v ((s.delivered c v).delivered d v) =
        .ok () (((s.delivered c v).delivered d v).patched v f p bs) := by
      obtain ⟨hrefused, -⟩ | ⟨p', bs', hp', he', -, hrun⟩ :=
        patch_cases ((s.delivered c v).delivered d v) d f v
      · rw [Placeholder.width, ← FixedFormat.length_encode he] at hin
        exact absurd (hrefused p bs hp he) (Nat.not_lt.2 hin)
      · obtain rfl := Option.some.inj (hp.symm.trans hp')
        obtain rfl := Except.ok.inj (he.symm.trans he')
        exact hrun
    rw [hpatch]
    rfl

end Store

/-! ## Marks -/

/-- `c` is pending, and nothing waits for it. -/
def Idle (s : Store) (c : CellId) : Prop := s.value? c = none ∧ (s.cell c).queue = []

/-- `c` is pending, and `d` is to take its offset over. -/
def PassesOn (s : Store) (c d : CellId) : Prop :=
  s.value? c = none ∧ ∃ id, (s.cell c).queue = [(id, .derive d Datum.signedOffset)]

/-- `d` is pending, and a placeholder of zeros at the offset `o` waits for it. -/
def Awaits (s : Store) (i : ImageId) (first : FieldId) (d : CellId) (o : Nat)
    (format : FixedFormat) (label : Option String) : Prop :=
  s.value? d = none ∧ ∃ (f : FieldId) (id : Nat), first ≤ f ∧
    (s.cell d).queue = [(id, .patch f)] ∧
    s.placeholders[f]? =
      some { image := i, offset := o, format, label, cell := d, subscription := id } ∧
    (s.image i).slice o format.width = format.placeholder

/-- The field of `d` at the offset `o` holds the given bytes. -/
def Written (s : Store) (i : ImageId) (d : CellId) (o : Nat) (format : FixedFormat) (bs : Bytes) :
    Prop :=
  ∃ (f : FieldId) (p : Placeholder), s.placeholders[f]? = some p ∧ p.image = i ∧ p.offset = o ∧
    p.format = format ∧ p.cell = d ∧ (s.image i).slice o format.width = bs

section Marks

variable {C : Nat → Prop} {i : ImageId} {first : FieldId} {c d : CellId} {o : Nat}
  {label : Option String}

theorem Idle.same (h : Idle s c) (hs : Same C s t) (hc : C c) : Idle t c := by
  unfold Idle value? at *
  rwa [hs.cells c hc]

theorem PassesOn.same (h : PassesOn s c d) (hs : Same C s t) (hc : C c) : PassesOn t c d := by
  unfold PassesOn value? at *
  rwa [hs.cells c hc]

theorem Awaits.same {format : FixedFormat} (h : Awaits s i first d o format label)
    (hs : Same C s t) (hd : C d) : Awaits t i first d o format label := by
  obtain ⟨hv, f, id, hf, hq, hp, hslice⟩ := h
  obtain ⟨hp', hslice'⟩ := hs.fields f _ hp hd
  refine ⟨?_, f, id, hf, by rwa [hs.cells d hd], hp', hslice'.trans hslice⟩
  rwa [value?, hs.cells d hd]

theorem Written.same {format : FixedFormat} {bs : Bytes} (h : Written s i d o format bs)
    (hs : Same C s t) (hd : C d) : Written t i d o format bs := by
  obtain ⟨f, p, hp, rfl, rfl, rfl, rfl, hslice⟩ := h
  obtain ⟨hp', hslice'⟩ := hs.fields f p hp hd
  exact ⟨f, p, hp', rfl, rfl, rfl, rfl, hslice'.trans hslice⟩

theorem Store.settleOrConfirm_of_pending {v : Datum} (h : s.value? c = none) :
    settleOrConfirm c v s = settle c v s := by
  have hholds : (s.cell c).holds v = false := by
    rw [Cell.holds, show (s.cell c).value = none from h]
    rfl
  simp [settleOrConfirm, hholds]

theorem Store.value?_delivered_self {v : Datum} (hc : c < s.cells.size) :
    (s.delivered c v).value? c = some v := by
  rw [value?_delivered s c c v hc, if_pos rfl]

theorem Datum.signedOffset_eq_ok {v w : Datum} (h : v.signedOffset = .ok w) : w = v := by
  unfold signedOffset at h
  split at h
  · split_ifs at h
    cases h
    rfl
  · cases h

theorem Datum.parts_of_signedOffset_eq_error {v : Datum} {e : Error}
    (h : v.signedOffset = .error e) : e.parts = [e] := by
  unfold signedOffset at h
  split at h
  · split_ifs at h
    cases h
    rfl
  · cases h
    rfl

theorem Valid.issued_pos (hv : Valid s []) {id : Nat} {sub : Subscriber}
    (hq : (s.cell c).queue = [(id, sub)]) (hw : 0 < sub.weight) : 0 < s.issued := by
  have hmem : (id, sub) ∈ (s.cell c).queue := by simp [hq]
  exact hw.trans_le ((le_total s c sub Subscriber.weight hmem).trans hv.load)

/-- A field is written when the cell behind it is settled. -/
theorem Awaits.written {format : FixedFormat} {v : Datum} {bs : Bytes} {sub : Subscriber} {id : Nat}
    (hv : Valid s []) (h : Awaits s i first d o format label) (hne : d ≠ c)
    (hc : s.value? c = none) (hq : (s.cell c).queue = [(id, sub)]) (hw : 0 < sub.weight)
    (hsub : ∀ settle, runSubscriber settle sub v (s.delivered c v) = settle d v (s.delivered c v))
    (he : format.encode v = .ok bs) :
    ∃ t, settle c v s = .ok () t ∧ Only (fun x => x = c ∨ x = d) s t ∧ t.value? c = some v ∧
      t.value? d = some v ∧ Written t i d o format bs ∧ (t.image i).size = (s.image i).size ∧
      ∀ a k, o + format.width ≤ a → (t.image i).slice a k = (s.image i).slice a k := by
  obtain ⟨hd, f, id', hf, hqd, hp, -⟩ := h
  have hcell : c < s.cells.size := lt_size_of_queue s c (q := (id, sub)) (by simp [hq])
  have hfield := hv.fields f _ hp
  have hrun := settle_chain v (hv.issued_pos hq hw) hc
    hq hd hqd hne hsub hp hfield.2.2
  rw [he] at hrun
  have hlength : bs.length = format.width := FixedFormat.length_encode he
  refine ⟨_, hrun, ?_, ?_, ?_, ?_, ?_, ?_⟩
  · exact (((Only.patched hv hp he).mono fun _ => .inr).trans
      ((Only.modifyCell c _).mono fun _ => .inl)).trans ((Only.modifyCell d _).mono fun _ => .inr)
  · rw [value?, cell_delivered, if_neg fun h => hne h.1.symm]
    exact value?_delivered_self (s := s.patched v f _ bs) hcell
  · refine value?_delivered_self ?_
    rw [size_delivered]
    exact hfield.2.1
  · refine ⟨f, ⟨i, o, format, label, d, id', true⟩, ?_, rfl, rfl, rfl, rfl, ?_⟩
    · change (s.placeholders.modify f fun p => { p with patched := true })[f]? = _
      rw [Array.getElem?_modify, if_pos rfl, hp]
      rfl
    · change ((s.patched v f _ bs).image i).slice o format.width = bs
      rw [image_patched, if_pos ⟨rfl, hfield.1⟩, ← hlength]
      exact Image.slice_replace _ _ _ _ (hlength ▸ hfield.2.2)
  · change ((s.patched v f _ bs).image i).size = _
    rw [image_patched, if_pos ⟨rfl, hfield.1⟩, Image.size_replace]
  · intro a k hak
    change ((s.patched v f _ bs).image i).slice a k = _
    rw [image_patched, if_pos ⟨rfl, hfield.1⟩]
    exact Image.slice_replace_apart _ _ _ _ _ _ (hlength ▸ hfield.2.2) (.inr (hlength ▸ hak))

/-- A mark that succeeds writes its offset into the field that waits for it. -/
theorem mark_written {format : IntFormat} (hv : Valid s []) (hpass : PassesOn s c d)
    (haw : Awaits s i first d o (.int format) label) (hne : d ≠ c) (hs : format.signed = false)
    (hb : format.bigEndian = false) (h : emitSegment i (.mark c) s = .ok () t) :
    (s.image i).size < Bytes.wordCount format.width ∧ Only (fun x => x = c ∨ x = d) s t ∧
      t.value? c = some (.int (s.image i).size) ∧
      Written t i d o (.int format) (Bytes.littleEndian format.width (s.image i).size) ∧
      (t.image i).size = (s.image i).size := by
  obtain ⟨hc, id, hq⟩ := hpass
  have hrun : settle c (.int (s.image i).size) s = .ok () t :=
    (settleOrConfirm_of_pending hc).symm.trans h
  have hoffset : Datum.signedOffset (.int (s.image i).size) = .ok (.int (s.image i).size) := by
    cases ho : Datum.signedOffset (.int (s.image i).size) with
    | ok w => rw [Datum.signedOffset_eq_ok ho]
    | error e =>
      change settleWithin (s.issued + 1) c _ s = _ at hrun
      rw [settleWithin_singleton _ hc hq] at hrun
      simp [runSubscriber, ho, raise_singleton (Datum.parts_of_signedOffset_eq_error ho)] at hrun
  have hsub : ∀ settle : CellId → Datum → Op Unit,
      runSubscriber settle (.derive d Datum.signedOffset) (.int (s.image i).size)
        (s.delivered c (.int (s.image i).size)) =
      settle d (.int (s.image i).size) (s.delivered c (.int (s.image i).size)) := by
    intro settle
    simp [runSubscriber, hoffset]
  cases he : FixedFormat.encode (.int format) (.int (s.image i).size) with
  | error e =>
    obtain ⟨hd, f, id', -, hqd, hp, -⟩ := haw
    have hissued := hv.issued_pos hq (Nat.lt_succ_self _)
    have hfail := settle_chain _ hissued hc hq hd hqd hne hsub hp (hv.fields f _ hp).2.2
    rw [he] at hfail
    cases hfail.symm.trans hrun
  | ok bs =>
    obtain ⟨t', hsettle, honly, hvalue, -, hwritten, hsize, -⟩ :=
      haw.written hv hne hc hq (Nat.lt_succ_self _) hsub he
    cases hsettle.symm.trans hrun
    rw [FixedFormat.encode, IntFormat.encode_natCast hs hb] at he
    split_ifs at he with hlt
    cases he
    exact ⟨hlt, honly, hvalue, hwritten, hsize⟩

/-- Nothing else happens when an idle cell is settled. -/
theorem Idle.settle_eq (h : Idle s c) (v : Datum) : settle c v s = .ok () (s.delivered c v) := by
  change settleWithin (s.issued + 1) c v s = _
  simp [settleWithin, h.1, h.2, runQueue, raise, Error.ofMany?]

theorem Idle.mark (h : Idle s c) (hc : c < s.cells.size)
    (hrun : emitSegment i (.mark c) s = .ok () t) :
    Only (· = c) s t ∧ t.value? c = some (.int (s.image i).size) ∧
      (t.image i).size = (s.image i).size := by
  have hsettle : settle c (.int (s.image i).size) s = .ok () t :=
    (settleOrConfirm_of_pending h.1).symm.trans hrun
  cases (h.settle_eq _).symm.trans hsettle
  exact ⟨.modifyCell c _, value?_delivered_self hc, rfl⟩

/-- A field of an idle cell becomes a placeholder that waits for it. -/
theorem Idle.placed {format : FixedFormat} (hv : Valid s []) (h : Idle s d) (hd : d < s.cells.size)
    (hi : i < s.images.size) (hf : first ≤ s.placeholders.size) :
    Only (· = d) s (s.placed d i format label) ∧
      Awaits (s.placed d i format label) i first d (s.image i).size format label := by
  have hcell : (s.placed d i format label).cell d = (s.cell d).push (.patch s.placeholders.size) :=
    (cell_enqueue (s.modifyImage i _) d d _).trans (if_pos ⟨rfl, hd⟩)
  refine ⟨.placed hv d i format label, ?_, s.placeholders.size, (s.cell d).next, hf, ?_, ?_, ?_⟩
  · rw [value?, hcell]
    exact h.1
  · rw [hcell, Cell.push, h.2]
    rfl
  · simp [Store.placed, nextPlaceholder]
  · rw [image_placed, if_pos ⟨rfl, hi⟩, ← FixedFormat.length_placeholder]
    exact Image.slice_append_end ..

end Marks

end Backpatch
