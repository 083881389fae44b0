import Mathlib
import Backpatch.Proofs.Appending
import Backpatch.Proofs.Emission
import Backpatch.Proofs.Rendering

/-!
# Layouts that fail for want of room

A layout of own segments can fail in one way only: a mark has no room in the word that waits for its
offset. The operations on the way to it succeed under conditions on the sizes (`SucceedsIff`), and
so does the emission of a list of segments (`EmitsIf`). The fields that still wait are counted along
(`PatchedOutside`).
-/

namespace Backpatch

open Store Failable

/-! ## Operations that succeed under a condition -/

namespace Failable

variable {σ α β : Type} {x y : Failable σ α} {f : α → Failable σ β} {s t : σ} {p q : Prop}

/-- Run in `s`, the operation succeeds if `p` holds; otherwise some value is out of range. -/
def SucceedsIff (x : Failable σ α) (s : σ) (p : Prop) : Prop :=
  (p ∧ ∃ a t, x s = .ok a t) ∨
    (¬ p ∧ ∃ value format t, x s = .error (.valueOutOfRange value format) t)

theorem SucceedsIff.of_ok {a : α} (h : x s = .ok a t) : x.SucceedsIff s True :=
  .inl ⟨trivial, a, t, h⟩

theorem SucceedsIff.congr (h : x.SucceedsIff s p) (hpq : p ↔ q) : x.SucceedsIff s q :=
  propext hpq ▸ h

theorem SucceedsIff.ok_iff (h : x.SucceedsIff s p) : (∃ a t, x s = .ok a t) ↔ p := by
  obtain ⟨hp, hok⟩ | ⟨hp, value, format, t, herror⟩ := h
  · exact iff_of_true hok hp
  · refine iff_of_false ?_ hp
    rintro ⟨a, u, hok⟩
    cases hok.symm.trans herror

theorem SucceedsIff.error (h : x.SucceedsIff s p) (hp : ¬ p) :
    ∃ value format t, x s = .error (.valueOutOfRange value format) t :=
  (h.resolve_left fun hok => hp hok.1).2

theorem SucceedsIff.run (h : y.SucceedsIff t p) (hrun : x s = y t) : x.SucceedsIff s p := by
  unfold SucceedsIff
  rwa [hrun]

theorem SucceedsIff.bind (hx : x.SucceedsIff s p)
    (hf : ∀ a t, x s = .ok a t → (f a).SucceedsIff t q) :
    (x >>= f).SucceedsIff s (p ∧ q) := by
  obtain ⟨hp, a, t, hrun⟩ | ⟨hp, value, format, t, hrun⟩ := hx
  · refine ((hf a t hrun).congr ?_).run (by rw [bind_run, hrun])
    simp [hp]
  · exact .inr ⟨fun h => hp h.1, value, format, t, by rw [bind_run, hrun]⟩

/-- What cannot fail before does not count. -/
theorem SucceedsIff.ok_bind {a : α} (hx : x s = .ok a t) (hf : (f a).SucceedsIff t q) :
    (x >>= f).SucceedsIff s q :=
  hf.run (by rw [bind_run, hx])

/-- What cannot fail afterwards does not count. -/
theorem SucceedsIff.bind_ok (hx : x.SucceedsIff s p)
    (hf : ∀ a t, x s = .ok a t → ∃ b u, f a t = .ok b u) : (x >>= f).SucceedsIff s p := by
  refine (hx.bind (q := True) fun a t hrun => ?_).congr (by rw [and_true])
  obtain ⟨b, u, hu⟩ := hf a t hrun
  exact .of_ok hu

end Failable

section Emission

variable {i : ImageId} {s t : Store} {segment : Segment} {rest : List Segment} {p q : Prop}

theorem emitObserved_append (observer : Observer) (index : Nat) (xs ys : List Segment) (s : Store) :
    emitObserved observer i index (xs ++ ys) s = (do
      emitObserved observer i index xs
      emitObserved observer i (index + xs.length) ys : Op Unit) s := by
  induction xs generalizing index s with
  | nil => rfl
  | cons x xs ih =>
    rw [List.cons_append, emitObserved, emitObserved, bind_run, bind_run, bind_run]
    cases emitSegment i x s with
    | error e u => rfl
    | ok _ u =>
      obtain ⟨log, trace, reports, hcheck⟩ := checkpoint_run observer i
        (.segment index (u.image i).size) u
      simp only [bind_run, imageSize, get_run, pure_run, hcheck, ih, List.length_cons]
      rw [Nat.add_right_comm, Nat.add_assoc]

/-- Whoever watches, emitting the segments succeeds if `p` holds, and fails otherwise. -/
def EmitsIf (i : ImageId) (segments : List Segment) (s : Store) (p : Prop) : Prop :=
  ∀ observer index, (emitObserved observer i index segments).SucceedsIff s p

theorem EmitsIf.nil : EmitsIf i [] s True := fun _ _ => .of_ok (a := ()) (t := s) rfl

theorem EmitsIf.cons (h : (emitSegment i segment).SucceedsIff s p)
    (hrest : ∀ u, Emit i segment s u → EmitsIf i rest u q) :
    EmitsIf i (segment :: rest) s (p ∧ q) := by
  intro observer index
  refine h.bind fun _ u hu => ?_
  obtain ⟨log, trace, reports, hcheck⟩ := checkpoint_run observer i
    (.segment index (u.image i).size) u
  refine (hrest _ ⟨u, log, trace, reports, hu, rfl⟩ observer (index + 1)).run ?_
  simp only [bind_run, imageSize, get_run, pure_run, hcheck]

theorem EmitsIf.append {segments : List Segment} (h : EmitsIf i segments s p)
    (hrest : ∀ u, Emits i segments s u → EmitsIf i rest u q) :
    EmitsIf i (segments ++ rest) s (p ∧ q) := fun observer index =>
  ((h observer index).bind fun _ u hu =>
    hrest u (emitObserved_emits hu) observer (index + segments.length)).run
      (emitObserved_append observer index segments rest s)

theorem EmitsIf.congr {segments : List Segment} (h : EmitsIf i segments s p) (hpq : p ↔ q) :
    EmitsIf i segments s q := fun observer index => (h observer index).congr hpq

/-- A layout succeeds under the same condition as the emission of its segments. -/
theorem EmitsIf.layoutObserved {r : Region} (observer : Observer)
    (h : EmitsIf i r.segments
      ((emit (.flattening r.segments.length (s.image i).size)).after s) p) :
    (r.layoutObserved i observer).SucceedsIff s p := by
  have hemit := h observer 0
  cases hrun : r.layoutObserved i observer s with
  | ok l t =>
    obtain ⟨hok, -⟩ := Region.layoutObserved_eq_ok hrun
    obtain ⟨hp, -⟩ | ⟨-, value, format, u, hfail⟩ := hemit
    · exact .inl ⟨hp, l, t, hrun⟩
    · cases hok.symm.trans hfail
  | error e t =>
    obtain ⟨u, hfail, -⟩ := Region.layoutObserved_eq_error hrun
    obtain ⟨-, a, v, hok⟩ | ⟨hp, value, format, v, hfail'⟩ := hemit
    · cases hok.symm.trans hfail
    · cases hfail.symm.trans hfail'
      exact .inr ⟨hp, value, format, t, hrun⟩

end Emission

/-! ## Plain bytes -/

mutual

/-- The segment is made of direct bytes only. -/
def Segment.Literal : Segment → Prop
  | .direct .. => True
  | .deferred .. | .mark _ | .postProcess _ => False
  | .nested segments => Segment.LiteralAll segments

def Segment.LiteralAll : List Segment → Prop
  | [] => True
  | segment :: rest => segment.Literal ∧ Segment.LiteralAll rest

end

def Region.Literal (r : Region) : Prop := Segment.LiteralAll r.segments

mutual

/-- Plain bytes refer to no cell, and are the same in every store. -/
theorem Segment.Literal.inert {segment : Segment} (h : segment.Literal) (n : Nat) (s : Store) :
    segment.Inert ∧ segment.Within n ∧ ∃ bs, segment.content s = some bs := by
  cases segment with
  | direct bytes note => exact ⟨trivial, trivial, bytes, rfl⟩
  | deferred | mark | postProcess => exact h.elim
  | nested segments => exact Segment.LiteralAll.inert h n s

theorem Segment.LiteralAll.inert {segments : List Segment} (h : LiteralAll segments) (n : Nat)
    (s : Store) : InertAll segments ∧ WithinAll n segments ∧
      ∃ bs, contentAll s segments = some bs := by
  cases segments with
  | nil => exact ⟨trivial, trivial, [], rfl⟩
  | cons segment rest =>
    obtain ⟨hinert, hwithin, bs, hbs⟩ := Segment.Literal.inert h.1 n s
    obtain ⟨hinert', hwithin', bs', hbs'⟩ := Segment.LiteralAll.inert h.2 n s
    exact ⟨⟨hinert, hinert'⟩, ⟨hwithin, hwithin'⟩, bs ++ bs', by rw [contentAll, hbs, hbs']; rfl⟩

end

/-- Plain bytes can always be emitted. -/
theorem Segment.Literal.emit {segment : Segment} {i : ImageId} {s : Store} (h : segment.Literal)
    (hi : i < s.images.size) :
    (∃ t, emitSegment i segment s = .ok () t) ∧ ∀ t, Emit i segment s t →
      t.cells = s.cells ∧ t.placeholders = s.placeholders ∧
        (t.image i).size = (s.image i).size + segment.size := by
  obtain ⟨hinert, -, bs, hbs⟩ := h.inert 0 s
  obtain ⟨u, hrun, happends⟩ := emitSegment_appends hi hinert hbs
  refine ⟨⟨u, hrun⟩, ?_⟩
  rintro t ⟨u', log, trace, reports, hrun', rfl⟩
  cases hrun.symm.trans hrun'
  refine ⟨happends.cells, happends.placeholders, ?_⟩
  rw [← Segment.length_content hbs]
  change (u.image i).bytes.length = (s.image i).bytes.length + _
  rw [happends.bytes, List.length_append]


/-! ## Fields that still wait -/

/-- The fields from `first` on belong to different cells, and those of the cells outside `D` are
patched. -/
structure PatchedOutside (first : FieldId) (D : Nat → Prop) (s : Store) : Prop where
  apart : ∀ (f g : FieldId) (p q : Placeholder), first ≤ f → first ≤ g →
    s.placeholders[f]? = some p → s.placeholders[g]? = some q → p.cell = q.cell → f = g
  waiting : ∀ (f : FieldId) (p : Placeholder), first ≤ f → s.placeholders[f]? = some p →
    p.patched = false → D p.cell

section PatchedOutside

variable {s t : Store} {first : FieldId} {D E : Nat → Prop}

theorem PatchedOutside.start (s : Store) :
    PatchedOutside s.placeholders.size (fun _ => False) s where
  apart _ _ _ _ hf _ hp := absurd (Array.getElem?_eq_some_iff.1 hp).1 (Nat.not_lt.2 hf)
  waiting _ _ hf hp := absurd (Array.getElem?_eq_some_iff.1 hp).1 (Nat.not_lt.2 hf)

theorem PatchedOutside.mono (h : PatchedOutside first D s) (hD : ∀ c, D c → E c) :
    PatchedOutside first E s :=
  ⟨h.apart, fun f p hf hp hpatched => hD _ (h.waiting f p hf hp hpatched)⟩

theorem PatchedOutside.keep (h : PatchedOutside first D s) (ht : t.placeholders = s.placeholders) :
    PatchedOutside first D t := by
  constructor
  · rw [ht]
    exact h.apart
  · rw [ht]
    exact h.waiting

theorem PatchedOutside.patch {f : FieldId} {p : Placeholder} (h : PatchedOutside first D s)
    (hf : first ≤ f) (hp : s.placeholders[f]? = some p)
    (ht : t.placeholders = s.placeholders.modify f fun p => { p with patched := true }) :
    PatchedOutside first (fun c => D c ∧ c ≠ p.cell) t := by
  have hold : ∀ (g : FieldId) (q : Placeholder), t.placeholders[g]? = some q →
      ∃ q', s.placeholders[g]? = some q' ∧ q'.cell = q.cell ∧
        (q.patched = false → g ≠ f ∧ q = q') := by
    intro g q hq
    rw [ht, Array.getElem?_modify] at hq
    split_ifs at hq with hfg
    · obtain ⟨q', hq', rfl⟩ := Option.map_eq_some_iff.1 hq
      exact ⟨q', hq', rfl, fun hpatched => by cases hpatched⟩
    · exact ⟨q, hq, rfl, fun _ => ⟨Ne.symm hfg, rfl⟩⟩
  refine ⟨fun g g' q q' hg hg' hq hq' hcell => ?_, fun g q hg hq hpatched => ?_⟩
  · obtain ⟨r, hr, hrq, -⟩ := hold g q hq
    obtain ⟨r', hr', hrq', -⟩ := hold g' q' hq'
    exact h.apart g g' r r' hg hg' hr hr' (by rw [hrq, hrq', hcell])
  · obtain ⟨q', hq', -, hsame⟩ := hold g q hq
    obtain ⟨hne, rfl⟩ := hsame hpatched
    exact ⟨h.waiting g q hg hq' hpatched, fun hcell => hne (h.apart g f q p hg hf hq' hp hcell)⟩

theorem PatchedOutside.place {p : Placeholder} (h : PatchedOutside first D s)
    (hfree : ∀ (f : FieldId) (q : Placeholder), first ≤ f → s.placeholders[f]? = some q →
      q.cell ≠ p.cell) (ht : t.placeholders = s.placeholders.push p) :
    PatchedOutside first (fun c => D c ∨ c = p.cell) t := by
  have hold : ∀ (g : FieldId) (q : Placeholder), t.placeholders[g]? = some q →
      (g = s.placeholders.size ∧ q = p) ∨ s.placeholders[g]? = some q := by
    intro g q hq
    rw [ht, Array.getElem?_push] at hq
    split_ifs at hq with hg
    · exact .inl ⟨hg, (Option.some.inj hq).symm⟩
    · exact .inr hq
  refine ⟨fun g g' q q' hg hg' hq hq' hcell => ?_, fun g q hg hq hpatched => ?_⟩
  · obtain ⟨rfl, rfl⟩ | hq := hold g q hq <;> obtain ⟨rfl, rfl⟩ | hq' := hold g' q' hq'
    · rfl
    · exact absurd hcell.symm (hfree g' q' hg' hq')
    · exact absurd hcell (hfree g q hg hq)
    · exact h.apart g g' q q' hg hg' hq hq' hcell
  · obtain ⟨-, rfl⟩ | hq := hold g q hq
    · exact .inr rfl
    · exact .inl (h.waiting g q hg hq hpatched)

/-- A run of fields of different cells, which are all pending: each one is placed and waits. -/
theorem PatchedOutside.fields {i : ImageId} {segments : List Segment}
    (houtside : PatchedOutside first D s) (hfields : ∀ x ∈ segments, x.IsField)
    (hcells : ∀ c ∈ Segment.fieldCells segments, s.value? c = none)
    (hnodup : (Segment.fieldCells segments).Nodup)
    (hfree : ∀ (f : FieldId) (p : Placeholder), first ≤ f → s.placeholders[f]? = some p →
      p.cell ∉ Segment.fieldCells segments) :
    EmitsIf i segments s True ∧ ∀ t, Emits i segments s t →
      PatchedOutside first (fun c => D c ∨ c ∈ Segment.fieldCells segments) t := by
  induction segments generalizing s D with
  | nil =>
    refine ⟨.nil, ?_⟩
    rintro t rfl
    exact houtside.mono fun _ => .inl
  | cons segment rest ih =>
    have hrest : ∀ x ∈ rest, x.IsField := fun x hx => hfields x (.tail _ hx)
    cases segment with
    | direct bytes note =>
      have hstep : ∀ u, Emit i (.direct bytes note) s u →
          EmitsIf i rest u True ∧ ∀ t, Emits i rest u t →
            PatchedOutside first (fun c => D c ∨ c ∈ Segment.fieldCells rest) t := by
        rintro u ⟨v, log, trace, reports, hrun, rfl⟩
        cases hrun
        exact ih (houtside.keep rfl) hrest hcells hnodup hfree
      constructor
      · exact (EmitsIf.cons (.of_ok (a := ()) rfl) fun u hu => (hstep u hu).1).congr (and_self_iff)
      · rintro t ⟨u, hu, ht⟩
        exact (hstep u hu).2 t ht
    | deferred format d label =>
      obtain ⟨hdrest, hnodup'⟩ := List.nodup_cons.1 hnodup
      have hrun : emitSegment i (.deferred format d label) s =
          .ok () (s.placed d i format label) := by
        simp only [emitSegment, bind_run, valueOf_run, hcells d (.head _), place_run]
      have hplaced : PatchedOutside first (fun c => D c ∨ c = d) (s.placed d i format label) :=
        houtside.place (p := s.nextPlaceholder d i format label)
          (fun f q hf hq hqd => hfree f q hf hq (hqd ▸ .head _)) rfl
      have hstep : ∀ u, Emit i (.deferred format d label) s u →
          EmitsIf i rest u True ∧ ∀ t, Emits i rest u t →
            PatchedOutside first (fun c => (D c ∨ c = d) ∨ c ∈ Segment.fieldCells rest) t := by
        rintro u ⟨v, log, trace, reports, hv, rfl⟩
        cases hrun.symm.trans hv
        refine ih (hplaced.keep rfl) hrest (fun c hc => ?_) hnodup' fun f p hf hp hmem => ?_
        · exact (value?_enqueue (s.modifyImage i _) ..).trans (hcells c (.tail _ hc))
        · change (s.placeholders.push _)[f]? = some p at hp
          rw [Array.getElem?_push] at hp
          split_ifs at hp with hsize
          · cases hp
            exact hdrest hmem
          · exact hfree f p hf hp (.tail _ hmem)
      constructor
      · exact (EmitsIf.cons (.of_ok hrun) fun u hu => (hstep u hu).1).congr (and_self_iff)
      · rintro t ⟨u, hu, ht⟩
        refine ((hstep u hu).2 t ht).mono fun c hc => ?_
        rw [Segment.fieldCells, List.mem_cons]
        exact or_assoc.1 hc
    | mark | postProcess | nested => exact (hfields _ (.head _)).elim

end PatchedOutside

/-! ## Marks -/

section Marks

variable {s t : Store} {i : ImageId} {first : FieldId} {c d : CellId} {o : Nat}
  {label : Option String} {D : Nat → Prop}

/-- Settling the cell behind a field patches it, or fails because the value has no room there. -/
theorem Awaits.settle_cases {format : FixedFormat} {v : Datum} {sub : Subscriber} {id : Nat}
    (hv : Valid s []) (h : Awaits s i first d o format label) (hne : d ≠ c)
    (hc : s.value? c = none) (hq : (s.cell c).queue = [(id, sub)]) (hw : 0 < sub.weight)
    (hsub : ∀ settle, runSubscriber settle sub v (s.delivered c v) =
      settle d v (s.delivered c v)) :
    (∃ e t, format.encode v = .error e ∧ settle c v s = .error e t) ∨
      ∃ bs t, format.encode v = .ok bs ∧ settle c v s = .ok () t ∧
        ∀ D, PatchedOutside first D s → PatchedOutside first (fun x => D x ∧ x ≠ d) t := by
  obtain ⟨hd, f, id', hf, hqd, hp, -⟩ := h
  have hrun := settle_chain v (hv.issued_pos hq hw) hc hq hd hqd hne hsub hp (hv.fields f _ hp).2.2
  cases he : format.encode v with
  | error e =>
    rw [he] at hrun
    exact .inl ⟨e, _, rfl, hrun⟩
  | ok bs =>
    rw [he] at hrun
    exact .inr ⟨bs, _, rfl, hrun, fun D houtside => houtside.patch hf hp rfl⟩

/-- A mark writes its offset into a word of the header, if it fits. -/
theorem mark_cases {format : IntFormat} (hv : Valid s []) (hpass : PassesOn s c d)
    (hawaits : Awaits s i first d o (.int format) label) (hne : d ≠ c)
    (hs : format.signed = false) (hb : format.bigEndian = false)
    (hwidth : Bytes.wordCount format.width ≤ 2 ^ 63) :
    ((s.image i).size < Bytes.wordCount format.width ∧
        ∃ t, emitSegment i (.mark c) s = .ok () t ∧
          ∀ D, PatchedOutside first D s → PatchedOutside first (fun x => D x ∧ x ≠ d) t) ∨
      (¬ (s.image i).size < Bytes.wordCount format.width ∧
        ∃ value name t, emitSegment i (.mark c) s = .error (.valueOutOfRange value name) t) := by
  obtain ⟨hc, id, hq⟩ := hpass
  have hrun : emitSegment i (.mark c) s = settle c (.int (s.image i).size) s :=
    settleOrConfirm_of_pending hc
  by_cases hoffset : IntKind.i64.holds (s.image i).size
  · have hsub : ∀ settle : CellId → Datum → Op Unit,
        runSubscriber settle (.derive d Datum.signedOffset) (.int (s.image i).size)
          (s.delivered c (.int (s.image i).size)) =
        settle d (.int (s.image i).size) (s.delivered c (.int (s.image i).size)) := by
      intro settle
      simp [runSubscriber, Datum.signedOffset, hoffset]
    obtain ⟨e, t, he, hsettle⟩ | ⟨bs, t, he, hsettle, houtside⟩ :=
      hawaits.settle_cases hv hne hc hq (Nat.lt_succ_self _) hsub
    all_goals
      rw [FixedFormat.encode, IntFormat.encode_natCast hs hb] at he
      split_ifs at he with hlt
    · cases he
      exact .inr ⟨hlt, _, _, t, hrun.trans hsettle⟩
    · exact .inl ⟨hlt, t, hrun.trans hsettle, houtside⟩
  · -- An offset that is not even signed has no room in a word.
    have hsigned : Datum.signedOffset (.int (s.image i).size) =
        .error (.valueOutOfRange (toString ((s.image i).size : Int)) "i64") := by
      simp [Datum.signedOffset, hoffset]
    have hfail : emitSegment i (.mark c) s =
        .error (.valueOutOfRange (toString ((s.image i).size : Int)) "i64")
          (s.delivered c (.int (s.image i).size)) := by
      rw [hrun]
      change settleWithin (s.issued + 1) c _ s = _
      rw [settleWithin_singleton _ hc hq]
      simp only [runSubscriber, hsigned, bind_run, ofExcept_error_run]
      exact raise_singleton (Datum.parts_of_signedOffset_eq_error hsigned)
    refine .inr ⟨fun hlt => hoffset ?_, _, _, _, hfail⟩
    have hleast : IntKind.i64.least ≤ ((s.image i).size : Int) :=
      (show IntKind.i64.least ≤ 0 by decide).trans (Int.natCast_nonneg _)
    have hgreatest : IntKind.i64.greatest = 2 ^ 63 - 1 := by decide
    simp only [IntKind.holds, Bool.and_eq_true, decide_eq_true_eq]
    omega

theorem mark_succeedsIff {format : IntFormat} (hv : Valid s []) (hpass : PassesOn s c d)
    (hawaits : Awaits s i first d o (.int format) label) (hne : d ≠ c)
    (hs : format.signed = false) (hb : format.bigEndian = false)
    (hwidth : Bytes.wordCount format.width ≤ 2 ^ 63) :
    (emitSegment i (.mark c)).SucceedsIff s ((s.image i).size < Bytes.wordCount format.width) := by
  obtain ⟨hlt, t, hrun, -⟩ | hrefused := mark_cases hv hpass hawaits hne hs hb hwidth
  · exact .inl ⟨hlt, (), t, hrun⟩
  · exact .inr hrefused

theorem Emit.mark_patchedOutside {format : IntFormat} (hv : Valid s []) (hpass : PassesOn s c d)
    (hawaits : Awaits s i first d o (.int format) label) (hne : d ≠ c)
    (hs : format.signed = false) (hb : format.bigEndian = false)
    (hwidth : Bytes.wordCount format.width ≤ 2 ^ 63) (h : Emit i (.mark c) s t)
    (houtside : PatchedOutside first D s) : PatchedOutside first (fun x => D x ∧ x ≠ d) t := by
  obtain ⟨u, log, trace, reports, hrun, rfl⟩ := h
  obtain ⟨-, v, hrun', hpatch⟩ | ⟨-, value, name, v, hrun'⟩ :=
    mark_cases hv hpass hawaits hne hs hb hwidth
  · cases hrun'.symm.trans hrun
    exact (hpatch D houtside).keep rfl
  · cases hrun'.symm.trans hrun

theorem Idle.mark_succeedsIff (h : Idle s c) :
    (emitSegment i (.mark c)).SucceedsIff s True ∧
      ∀ t, Emit i (.mark c) s t → t.placeholders = s.placeholders ∧ t.image i = s.image i := by
  have hrun : emitSegment i (.mark c) s = .ok () (s.delivered c (.int (s.image i).size)) :=
    (settleOrConfirm_of_pending h.1).trans (h.settle_eq _)
  refine ⟨.of_ok hrun, ?_⟩
  rintro t ⟨u, log, trace, reports, hrun', rfl⟩
  cases hrun.symm.trans hrun'
  exact ⟨rfl, rfl⟩

end Marks

end Backpatch
