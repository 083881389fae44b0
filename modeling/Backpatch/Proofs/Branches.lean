import Mathlib
import Backpatch.Proofs.Programs
import Backpatch.Proofs.RoundTrip
import Backpatch.Proofs.Stability

/-!
# Relative branches land on their target

A relative instruction holds the difference between the value of its target and the offset of its
own end. That difference goes through cells which the library makes for itself: both operands as
signed numbers, and what a subtraction makes on its way. No caller holds them, so no region marks
them, and they stay guarded (`Relative`). Strict flattening that succeeds leaves the bytes of every
field in the image and the offset of every mark in its cell (`Region.Rendered`), so the payload is
the distance to the target, whenever the target got its value.
-/

namespace Backpatch

open Store Failable Instruction

/-! ## Signed numbers -/

/-- A number that fits is read back from its two's complement. -/
theorem Bytes.toInt_twosComplement {width half : Nat} {n : Int} (hw : wordCount width = 2 * half)
    (hle : -half ≤ n) (hlt : n < half) : toInt (twosComplement width n) = n := by
  have hnonneg : 0 ≤ n % (wordCount width : Int) := Int.emod_nonneg n (by omega)
  have hbound : n % (wordCount width : Int) < wordCount width := Int.emod_lt_of_pos n (by omega)
  have htoNat : (toNat (twosComplement width n) : Int) = n % wordCount width := by
    rw [twosComplement, toNat_littleEndian, Nat.mod_eq_of_lt (by omega),
      Int.toNat_of_nonneg hnonneg]
  rw [toInt, length_twosComplement]
  by_cases hn : 0 ≤ n
  · rw [Int.emod_eq_of_lt hn (by omega)] at htoNat
    rw [if_pos (by omega), htoNat]
  · have hmod : n % (wordCount width : Int) = n + wordCount width := by
      rw [← Int.add_emod_right, Int.emod_eq_of_lt (by omega) (by omega)]
    rw [if_neg (by omega), htoNat, hmod, Int.add_sub_cancel]

/-- What a signed format encodes is in its range, and is read back. -/
theorem IntFormat.toInt_encode {f : IntFormat} {n : Int} {bs : Bytes} (hs : f.signed = true)
    (h : f.encode n = .ok bs) :
    Bytes.toInt bs = n ∧ -2 ^ (8 * f.width - 1) ≤ n ∧ n < 2 ^ (8 * f.width - 1) := by
  unfold IntFormat.encode at h
  split_ifs at h with hrange hbig
  · cases f <;> simp [IntFormat.signed, IntFormat.bigEndian] at hs hbig
  · obtain rfl := Except.ok.inj h
    have hwords : Bytes.wordCount f.width = 2 * 2 ^ (8 * f.width - 1) := by cases f <;> rfl
    have hleast : f.least = -2 ^ (8 * f.width - 1) := by
      cases f <;> first | rfl | simp [IntFormat.signed] at hs
    have hgreatest : f.greatest = 2 ^ (8 * f.width - 1) - 1 := by
      cases f <;> first | rfl | simp [IntFormat.signed] at hs
    rw [hleast, hgreatest] at hrange
    refine ⟨Bytes.toInt_twosComplement hwords ?_ ?_, hrange.1, by omega⟩
    · push_cast
      exact hrange.1
    · push_cast
      omega

/-! ## Strictly flattened regions -/

/-- The image `i` shows the region at the offset `a`: its fields hold the encoded values of their
cells, and its marks hold their offsets. -/
structure Region.Rendered (r : Region) (i : ImageId) (a : Nat) (u : Store) : Prop where
  fields : ∀ x ∈ r.slots a, ∃ v, u.value? x.cell = some v ∧
    x.format.encode v = .ok ((u.image i).slice x.offset x.format.width)
  marks : ∀ m ∈ r.marks a, u.value? m.1 = some (.int m.2)

section Rendered

variable {s s₁ s₂ u w : Store} {i : ImageId} {first last : FieldId}

mutual

theorem Segment.Placed.fields {segment : Segment} {a : Nat} (hf : Filled s i first)
    (hp : ∀ (f : FieldId) (p : Placeholder), first ≤ f → f < last → s.placeholders[f]? = some p →
      p.patched = true)
    (h : segment.Placed s i first last a) : ∀ x ∈ segment.slots a,
      ∃ v, s.value? x.cell = some v ∧
        x.format.encode v = .ok ((s.image i).slice x.offset x.format.width) := by
  cases segment with
  | deferred format c label =>
    intro x hx
    obtain rfl := List.mem_singleton.1 hx
    obtain ⟨v, bs, hv, he, hfixed⟩ | ⟨f, p, hfirst, hlast, hfp, rfl, rfl, rfl, rfl⟩ := h
    · refine ⟨v, hv, ?_⟩
      rw [he, ← FixedFormat.length_encode he, hfixed.bytes]
    · obtain ⟨v, bs, hv, he, hbytes⟩ := hf f p hfirst hfp rfl (hp f p hfirst hlast hfp)
      refine ⟨v, hv, ?_⟩
      rw [he, ← hbytes, Placeholder.width]
  | direct | mark | postProcess => simp [Segment.slots]
  | nested segments => exact Segment.PlacedAll.fields hf hp h

theorem Segment.PlacedAll.fields {segments : List Segment} {a : Nat} (hf : Filled s i first)
    (hp : ∀ (f : FieldId) (p : Placeholder), first ≤ f → f < last → s.placeholders[f]? = some p →
      p.patched = true)
    (h : Segment.PlacedAll s i first last a segments) : ∀ x ∈ Segment.slotsAll a segments,
      ∃ v, s.value? x.cell = some v ∧
        x.format.encode v = .ok ((s.image i).slice x.offset x.format.width) := by
  cases segments with
  | nil => simp [Segment.slotsAll]
  | cons segment rest =>
    intro x hx
    obtain hx | hx := List.mem_append.1 hx
    · exact Segment.Placed.fields hf hp h.1 x hx
    · exact Segment.PlacedAll.fields hf hp h.2 x hx

end

/-- A strict finalization that succeeds has nothing left to patch. -/
theorem Layout.finalizeObserved_patched {l : Layout} {config : FlattenConfig} {observer : Observer}
    {summary : FlattenSummary} (h : Valid s []) (hw : ∀ e ∈ l.entries, e.Within s.cells.size)
    (hstrict : config.enforceComplete = true)
    (hrun : l.finalizeObserved config observer s = .ok summary u) {f : FieldId} {p : Placeholder}
    (hfirst : l.first ≤ f) (hlast : f < l.last) (hp : u.placeholders[f]? = some p) :
    p.patched = true := by
  obtain ⟨tally, t, -, hnone, -, hclose⟩ := Layout.finalizeObserved_eq_ok h hw hrun
  have hfields := Layout.pendingFields_of_complaints hstrict hnone
  rw [hclose.closes.2.1] at hp
  exact Layout.patched_of_pendingFields hfields hfirst hlast hp

/-- What holds around a finalization that succeeds, if values last since the layout. -/
theorem Region.finalize_of_layout {P : Move → Prop} {r : Region} {observer observer' : Observer}
    {l : Layout} {config : FlattenConfig} {summary : FlattenSummary} (hl : Lasting s [])
    (hi : i < s.images.size) (hw : r.Within s.cells.size)
    (hlayout : r.layoutObserved i observer s = .ok l s₁) (hst : Steps P s₁ s₂)
    (hP : ∀ m, P m → m.Lasting)
    (hfinalize : l.finalizeObserved config observer' s₂ = .ok summary u) :
    Lasting s₁ [] ∧ Lasting s₂ [] ∧ (∀ e ∈ l.entries, e.Within s₂.cells.size) ∧
      Steps Move.Finalizes s₂ u := by
  have hs₁ : Steps Move.Plain s s₁ :=
    after_of_ok hlayout ▸ Region.steps_layoutObserved observer hl.toValid hi hw
  have hl₁ := hs₁.lasting (fun _ hm => hm.lasting) hl
  have hl₂ := hst.lasting hP hl₁
  have hentries : ∀ e ∈ l.entries, e.Within s₂.cells.size := by
    obtain ⟨-, rfl⟩ := Region.layoutObserved_eq_ok hlayout
    exact fun e he => (Segment.WithinAll.entries hw e he).mono
      (hs₁.grows.cells.trans hst.grows.cells)
  exact ⟨hl₁, hl₂, hentries,
    after_of_ok hfinalize ▸ l.finalizeObserved_finalizes config observer' hl₂.toValid hentries⟩

/-- Every segment of the region is in its place at the offset `a` of the image `i`, all its fields
are patched with the values of their cells, and its marks hold their offsets. -/
structure Region.Finished (r : Region) (i : ImageId) (a : Nat) (first last : FieldId) (u : Store) :
    Prop where
  placed : Segment.PlacedAll u i first last a r.segments
  filled : Filled u i first
  patched : ∀ (f : FieldId) (p : Placeholder), first ≤ f → f < last → u.placeholders[f]? = some p →
    p.patched = true
  marks : ∀ m ∈ r.marks a, u.value? m.1 = some (.int m.2)

theorem Region.Finished.rendered {r : Region} {a : Nat} (h : r.Finished i a first last u) :
    r.Rendered i a u :=
  ⟨h.placed.fields h.filled h.patched, h.marks⟩

/-- Strict flattening that succeeds finishes the region where the image ended before, whatever was
done between layout and finalization, or is done afterwards. -/
theorem Region.finished_of_finalize {r : Region} {observer observer' : Observer} {l : Layout}
    {config : FlattenConfig} {summary : FlattenSummary} (hl : Lasting s [])
    (hi : i < s.images.size) (hw : r.Within s.cells.size)
    (hlayout : r.layoutObserved i observer s = .ok l s₁) (hst : Steps (Move.Keeps i) s₁ s₂)
    (hstrict : config.enforceComplete = true)
    (hfinalize : l.finalizeObserved config observer' s₂ = .ok summary u)
    (hlater : Steps (Move.Keeps i) u w) : r.Finished i (s.image i).size l.first l.last w := by
  obtain ⟨hplaced, -⟩ := Region.layoutObserved_placed hl hi hw hlayout
  have hstands := Region.layoutObserved_stands hl hi hw hlayout
  have hs₁ : Steps Move.Plain s s₁ :=
    after_of_ok hlayout ▸ Region.steps_layoutObserved observer hl.toValid hi hw
  obtain ⟨hl₁, hl₂, hentries, hfinal⟩ := Region.finalize_of_layout hl hi hw hlayout hst
    (fun _ => Move.Keeps.lasting) hfinalize
  have hsw : Steps (Move.Keeps i) s₁ w :=
    (hst.trans (hfinal.mono fun _ hm => (hm.flattens i).plain.keeps i)).trans hlater
  have hpatched : ∀ (f : FieldId) (p : Placeholder), l.first ≤ f → f < l.last →
      w.placeholders[f]? = some p → p.patched = true := by
    intro f p hfirst hlast hp
    have hf : f < u.placeholders.size := by
      obtain ⟨-, rfl⟩ := Region.layoutObserved_eq_ok hlayout
      exact hlast.trans_le (hst.grows.trans hfinal.grows).placeholders
    have hcomplete := Layout.finalizeObserved_patched hl₂.toValid hentries hstrict hfinalize hfirst
      hlast (Array.getElem?_eq_getElem hf)
    obtain ⟨b, hb⟩ := hlater.grows.fields f _ (Array.getElem?_eq_getElem hf)
    obtain rfl := Option.some.inj (hp.symm.trans hb)
    simp [hcomplete]
  have hfilled : Filled w i l.first := by
    have hstart : Filled s i l.first := by
      obtain ⟨-, rfl⟩ := Region.layoutObserved_eq_ok hlayout
      intro f p hf hp
      exact absurd (Array.getElem?_eq_some_iff.1 hp).1 (Nat.not_lt.2 hf)
    exact hstart.keep hl ((hs₁.mono fun _ hm => hm.keeps i).trans hsw)
  exact ⟨hplaced.keep hl₁ hsw, hfilled, hpatched,
    fun m hm => hsw.value?_eq (fun _ => Move.Keeps.lasting) hl₁ (hstands.marks m hm)⟩

theorem Region.rendered_of_finalize {r : Region} {observer observer' : Observer} {l : Layout}
    {config : FlattenConfig} {summary : FlattenSummary} (hl : Lasting s [])
    (hi : i < s.images.size) (hw : r.Within s.cells.size)
    (hlayout : r.layoutObserved i observer s = .ok l s₁) (hst : Steps (Move.Keeps i) s₁ s₂)
    (hstrict : config.enforceComplete = true)
    (hfinalize : l.finalizeObserved config observer' s₂ = .ok summary u)
    (hlater : Steps (Move.Keeps i) u w) : r.Rendered i (s.image i).size w :=
  (Region.finished_of_finalize hl hi hw hlayout hst hstrict hfinalize hlater).rendered

theorem Region.finished_of_flatten {r : Region} {observer : Observer} {config : FlattenConfig}
    {summary : FlattenSummary} (hl : Lasting s []) (hi : i < s.images.size)
    (hw : r.Within s.cells.size) (hstrict : config.enforceComplete = true)
    (hflatten : r.flattenObserved i config observer s = .ok summary u)
    (hlater : Steps (Move.Keeps i) u w) :
    ∃ first last, r.Finished i (s.image i).size first last w := by
  obtain ⟨l, s₁, hlayout, hflatten⟩ := bind_eq_ok.1 hflatten
  obtain ⟨summary', t, hfinalize, hnote⟩ := bind_eq_ok.1 hflatten
  have hnoted : Steps (Move.Keeps i) t u := after_of_ok hnote ▸
    Steps.bind (steps_emit _ fun _ _ _ => trivial) fun _ v _ _ => .refl v
  exact ⟨_, _, Region.finished_of_finalize hl hi hw hlayout (.refl s₁) hstrict hfinalize
    (hnoted.trans hlater)⟩

end Rendered

/-! ## Code in a region -/

/-- The segments `code` stand at the offset `p`, one after another, somewhere in the segments that
start at the offset `a`. -/
inductive Segment.Stands (code : List Segment) (p : Nat) : Nat → List Segment → Prop where
  | here {a} (front back : List Segment) (hp : p = a + Segment.sizeAll front) :
      Stands code p a (front ++ code ++ back)
  | nested {a inner} (front back : List Segment)
      (h : Stands code p (a + Segment.sizeAll front) inner) :
      Stands code p a (front ++ .nested inner :: back)

namespace Segment

namespace Stands

variable {code segments : List Segment} {p a : Nat}

theorem slots_subset (h : Stands code p a segments) : slotsAll p code ⊆ slotsAll a segments := by
  induction h with
  | here front back hp =>
    rw [List.append_assoc, slotsAll_append, slotsAll_append, ← hp]
    exact fun x hx => List.mem_append_right _ (List.mem_append_left _ hx)
  | nested front back _ ih =>
    rw [slotsAll_append, slotsAll]
    exact fun x hx => List.mem_append_right _ (List.mem_append_left _ (ih hx))

theorem marks_subset (h : Stands code p a segments) : marksAll p code ⊆ marksAll a segments := by
  induction h with
  | here front back hp =>
    rw [List.append_assoc, marksAll_append, marksAll_append, ← hp]
    exact fun x hx => List.mem_append_right _ (List.mem_append_left _ hx)
  | nested front back _ ih =>
    rw [marksAll_append, marksAll]
    exact fun x hx => List.mem_append_right _ (List.mem_append_left _ (ih hx))

end Stands

end Segment

/-! ## Relative instructions -/

/-- The format of the payload of a relative instruction, and its target. -/
def Instruction.relative? : Instruction → Option (IntFormat × CellId)
  | .branch8 target | .jump8 target => some (.i8, target)
  | .branch16 target | .jump16 target => some (.i16le, target)
  | _ => none

/-- `payload` is the distance from the offset in `stop` to the one in `target`, through cells that
are not in `M`. -/
def Relative (M : CellId → Prop) (s : Store) (target stop payload : CellId) : Prop :=
  ∃ a b, (Link.derive target Datum.signedOffset).Guarded M s [] a ∧
    (Link.derive stop Datum.signedOffset).Guarded M s [] b ∧
    (Link.minus .i64 a b).Guarded M s [] payload

section Relative

variable {M : CellId → Prop} {s u : Store} {target stop payload : CellId}

theorem Datum.difference_eq_ok {kind : IntKind} {x y w : Datum}
    (h : Datum.difference kind x y = .ok w) :
    ∃ m n, x = .int m ∧ y = .int n ∧ w = .int (m - n) := by
  unfold Datum.difference IntKind.difference at h
  split at h
  · split_ifs at h
    · exact ⟨_, _, rfl, rfl, (Except.ok.inj h).symm⟩
    · cases h
  · cases h

/-- If the payload is known, it is the distance. -/
theorem Relative.value {v : Datum} (h : Relative M s target stop payload)
    (hv : s.value? payload = some v) :
    ∃ n e, s.value? target = some (.int n) ∧ s.value? stop = some (.int e) ∧ v = .int (n - e) := by
  obtain ⟨a, b, ha, hb, hpayload⟩ := h
  obtain ⟨x, hx, y, hy, hd⟩ := Link.value_minus.1 (hpayload.value v hv)
  obtain ⟨x', hx', hsx⟩ := Link.value_derive.1 (ha.value x hx)
  obtain ⟨y', hy', hsy⟩ := Link.value_derive.1 (hb.value y hy)
  obtain rfl := Datum.signedOffset_eq_ok hsx
  obtain rfl := Datum.signedOffset_eq_ok hsy
  obtain ⟨n, e, rfl, rfl, rfl⟩ := Datum.difference_eq_ok hd
  exact ⟨n, e, hx', hy', rfl⟩

theorem distance_relative (hl : Lasting s []) (ht : target < s.cells.size)
    (hs : stop < s.cells.size) (hM : ∀ c, M c → c < s.cells.size)
    (h : distance target stop s = .ok payload u) : Relative M u target stop payload := by
  have fresh : ∀ {c}, s.cells.size ≤ c → ¬ M c := fun hc h => absurd (hM _ h) (Nat.not_lt.2 hc)
  obtain ⟨a, s₁, ha, h⟩ := bind_eq_ok.1 h
  obtain ⟨b, s₂, hb, h⟩ := bind_eq_ok.1 h
  have hs₁ : Steps Move.Creates s s₁ := after_of_ok ha ▸ steps_tryMap ht ..
  have hl₁ := hs₁.lasting (fun m hm => hm.plain.lasting) hl
  have hs₂ : Steps Move.Creates s₁ s₂ :=
    after_of_ok hb ▸ steps_tryMap (hs.trans_le hs₁.grows.cells) ..
  have hl₂ := hs₂.lasting (fun m hm => hm.plain.lasting) hl₁
  have hga := tryMap_sourced hl ht (fresh le_rfl) ha
  have hgb := tryMap_sourced hl₁ (hs.trans_le hs₁.grows.cells) (fresh hs₁.grows.cells) hb
  obtain ⟨rfl, hsize₁⟩ := tryMap_eq_ok ha
  obtain ⟨rfl, hsize₂⟩ := tryMap_eq_ok hb
  have ha₂ : s.cells.size < s₂.cells.size := by omega
  have hb₂ : s₁.cells.size < s₂.cells.size := by omega
  have hu : Steps Move.Creates s₂ u := after_of_ok h ▸ steps_subtract .i64 ha₂ hb₂
  -- The operands are made first, and what is made after them sets nothing off.
  refine ⟨_, _, ((hs₂.trans hu).mono fun _ => Move.Creates.prepares).guarded_quiet hl₁ hga.guarded,
    (hu.mono fun _ => Move.Creates.prepares).guarded_quiet hl₂ hgb.guarded,
    subtract_guarded hl₂ ha₂ hb₂ (fun c hc => (hM c hc).trans ha₂) h⟩

theorem Region.writeField_known {r r' : Region} {format : FixedFormat} {v : Datum}
    {label : Option String} (h : r.writeField format (.known v) label = .ok r') :
    ∃ bytes note, bytes.length = format.width ∧
      r'.segments = r.segments ++ [.direct bytes note] := by
  simp only [Region.writeField, Region.write, Format.encode] at h
  cases hbs : format.encode v with
  | error e =>
    rw [hbs] at h
    cases h
  | ok bs =>
    rw [hbs] at h
    cases h
    exact ⟨bs, _, FixedFormat.length_encode hbs, rfl⟩

theorem writePaged_eq_ok {α : Type} [Table α] {r r' : Region} {page : Opcode} {sub : α}
    {format : IntFormat} {c : CellId} {label : Option String}
    (h : writePaged r page sub format (.deferred c) label s = .ok r' u) :
    u = s ∧ ∃ bytes note, bytes.length = 1 ∧ r'.segments =
      r.segments ++ [.direct bytes note, .deferred (.int format) c label] := by
  refine ⟨(after_of_ok h).symm.trans (after_writePaged ..), ?_⟩
  obtain ⟨_, s₁, -, h⟩ := bind_eq_ok.1 h
  obtain ⟨r₁, s₂, hbyte, h⟩ := bind_eq_ok.1 h
  obtain ⟨bytes, note, hlength, hr₁⟩ := Region.writeField_known (ofExcept_eq_ok.1 hbyte).1
  obtain rfl := Except.ok.inj (ofExcept_eq_ok.1 h).1
  exact ⟨bytes, note, hlength, by simp [Region.push, hr₁]⟩

/-- A relative instruction is a byte, the distance to its target, and a mark of its end. -/
theorem writeRelative_eq_ok {α : Type} [Table α] {r r' : Region} {page : Opcode} {sub : α}
    {format : IntFormat} (hl : Lasting s []) (ht : target < s.cells.size)
    (hM : ∀ c, M c → c ≤ s.cells.size)
    (h : writeRelative r page sub format target s = .ok r' u) :
    ∃ bytes note payload label, bytes.length = 1 ∧ r'.segments = r.segments ++
        [.direct bytes note, .deferred (.int format) payload label, .mark s.cells.size] ∧
      Relative M u target s.cells.size payload := by
  obtain ⟨stop, s₁, hstop, h⟩ := bind_eq_ok.1 h
  cases hstop
  obtain ⟨payload, s₂, hdistance, h⟩ := bind_eq_ok.1 h
  obtain ⟨r₁, s₃, hpaged, hmark⟩ := bind_eq_ok.1 h
  obtain ⟨rfl, bytes, note, hlength, hr₁⟩ := writePaged_eq_ok hpaged
  cases hmark
  have hmade : Steps Move.Creates s (s.addCell { kind := .offset }) :=
    .quiet (m := .create .offset none false) trivial trivial rfl
  refine ⟨bytes, note, payload, some "relative", hlength, by simp [Region.mark, Region.push, hr₁],
    distance_relative (hmade.lasting (fun m hm => hm.plain.lasting) hl)
      (ht.trans_le hmade.grows.cells) (by simp) (fun c hc => ?_) hdistance⟩
  simpa using Nat.lt_succ_of_le (hM c hc)

/-- Each relative instruction writes its own byte, and is laid out in the same way. -/
theorem writeInstruction_relative {r r' : Region} {instruction : Instruction} {format : IntFormat}
    (hrel : instruction.relative? = some (format, target)) (hl : Lasting s [])
    (ht : instruction.Within s.cells.size) (hM : ∀ c, M c → c ≤ s.cells.size)
    (h : r.writeInstruction instruction s = .ok r' u) :
    format.signed = true ∧
    ∃ bytes note payload label, bytes.length = 1 ∧ r'.segments = r.segments ++
        [.direct bytes note, .deferred (.int format) payload label, .mark s.cells.size] ∧
      Relative M u target s.cells.size payload := by
  cases instruction with
  | branch8 | jump8 | branch16 | jump16 =>
    cases hrel
    exact ⟨rfl, writeRelative_eq_ok hl ht hM h⟩
  | _ => cases hrel

end Relative

/-! ## Strict flattening -/

/-- The use writes over bytes of the image. -/
def Use.Overwrites (i : ImageId) : Use → Prop
  | call c => c.Overwrites i
  | write .. => False

/-- The region is laid out in the image and strictly finalized, both with success: in two steps with
other things in between, at once, or as the region of a snapshot. -/
inductive Renders (held : List CellId) (r : Region) (i : ImageId) (s : Store) : Store → Prop where
  | finalize {observer observer' : Observer} {config : FlattenConfig} {l : Layout} {s₁ s₂ u : Store}
      {between : List Use} {held' : List CellId} {summary : FlattenSummary}
      (hi : i < s.images.size) (hw : r.Within s.cells.size)
      (hm : Segment.SettlesAll (· ∈ held) r.segments)
      (hlayout : r.layoutObserved i observer s = .ok l s₁)
      (hbetween : Program held s₁ between held' s₂)
      (hkeeps : ∀ use ∈ between, use.Lasting ∧ ¬ use.Overwrites i)
      (hstrict : config.enforceComplete = true)
      (hfinalize : l.finalizeObserved config observer' s₂ = .ok summary u) : Renders held r i s u
  | flatten {observer : Observer} {config : FlattenConfig} {summary : FlattenSummary} {u : Store}
      (hi : i < s.images.size) (hw : r.Within s.cells.size)
      (hm : Segment.SettlesAll (· ∈ held) r.segments) (hstrict : config.enforceComplete = true)
      (hflatten : r.flattenObserved i config observer s = .ok summary u) : Renders held r i s u
  | build {b : Snapshot.Builder} {config : FlattenConfig} {refs : Snapshot.Builder.References}
      {crc : CellId} {t u : Store} {snap : Snapshot} (hb : b.Within s.cells.size)
      (hm : ∀ part ∈ b.sections, Segment.SettlesAll (· ∈ held) part.region.segments)
      (hprepare : b.prepare s = .ok (refs, crc, r) t) (hi : i = t.images.size)
      (hstrict : config.enforceComplete = true) (hbuild : b.build config s = .ok snap u) :
      Renders held r i s u

section Renders

variable {held held' : List CellId} {r : Region} {i : ImageId} {s u : Store} {use : Use}
  {uses : List Use} {l : Link} {t : CellId}

theorem Use.keeps (h : Valid s []) (ha : use.Admissible s) (hl : use.Lasting)
    (ho : ¬ use.Overwrites i) : Steps (Move.Keeps i) s (use.run.after s) := by
  cases use with
  | call c => exact (Call.steps h ha).mono fun _ => Call.Lasting.keeps hl ho
  | write r instruction =>
    rw [Use.run, after_discard]
    exact (steps_writeInstruction r ha).mono fun _ hm => hm.plain.keeps i

theorem Program.keeps (h : Program held s uses held' u) (hs : Valid s [])
    (hkeeps : ∀ use ∈ uses, use.Lasting ∧ ¬ use.Overwrites i) : Steps (Move.Keeps i) s u := by
  induction h with
  | nil => exact .refl _
  | cons ha _ _ ih =>
    obtain ⟨hl, ho⟩ := hkeeps _ (.head _)
    have hstep := Use.keeps hs ha hl ho
    exact hstep.trans (ih (hstep.valid hs) fun use huse => hkeeps use (.tail _ huse))

theorem Program.held_subset (h : Program held s uses held' u) : held ⊆ held' := by
  induction h with
  | nil => exact List.Subset.refl _
  | cons _ _ _ ih => exact fun c hc => ih (List.mem_append_right _ hc)

/-- What no caller holds stays guarded, whatever is marked. -/
theorem Holding.guarded_held (h : Holding held s) (use : Use) (ha : use.Admissible s)
    (hl : use.Lasting) (hm : use.Marks (· ∈ held)) (hg : l.Guarded (· ∈ held) s [] t) :
    l.Guarded (· ∈ use.hands s ++ held) (use.run.after s) [] t := by
  have hall : use.Marks fun _ => ¬ False := hm.and_mono hm fun _ _ _ => not_false
  exact (h.guarded (T := fun _ => False) use ha hl hm hall
    (hg.extend fun c hc => .inl hc.1)).extend fun c hc => .inl ⟨hc, not_false⟩

theorem Program.guarded_held (h : Program held s uses held' u) (hs : Holding held s)
    (hl : ∀ use ∈ uses, use.Lasting) (hg : l.Guarded (· ∈ held) s [] t) :
    l.Guarded (· ∈ held') u [] t := by
  induction h with
  | nil => exact hg
  | cons ha hm _ ih =>
    have hlasting := hl _ (.head _)
    exact ih (hs.step _ ha hlasting hm) (fun use huse => hl use (.tail _ huse))
      (hs.guarded_held _ ha hlasting hm hg)

/-- Building a snapshot flattens its region into a new image, after some preparations. -/
theorem Snapshot.Builder.build_into_image {b : Builder} {config : FlattenConfig}
    {refs : Builder.References} {crc : CellId} {t : Store} {snap : Snapshot} (hl : Lasting s [])
    (hb : b.Within s.cells.size) (hprepare : b.prepare s = .ok (refs, crc, r) t)
    (hbuild : b.build config s = .ok snap u) :
    ∃ a v summary, Steps Move.Prepares s a ∧ Lasting a [] ∧ t.images.size < a.images.size ∧
      (a.image t.images.size).size = (s.image t.images.size).size ∧ r.Within a.cells.size ∧
      r.flattenObserved t.images.size config config.observer a = .ok summary v ∧
      Steps Move.Prepares v u := by
  obtain ⟨refs', crc', r', t', summary, v, hprepare', hflatten, hcollect⟩ := build_eq_ok hbuild
  cases hprepare.symm.trans hprepare'
  have hmade : Steps Move.Prepares s t := after_of_ok hprepare ▸ b.prepare_prepares s
  have himage : Steps Move.Prepares t { t with images := t.images.push {} } :=
    .quiet (m := .newImage) trivial trivial rfl
  have hsa := hmade.trans himage
  have hwithin : r.Within t.cells.size := prepare_within hprepare hb
  refine ⟨_, v, summary, hsa, hsa.lasting (fun m hm => hm.plain.lasting) hl, by simp, ?_, hwithin,
    hflatten, after_of_ok hcollect ▸ b.steps_collect ..⟩
  simp [image, Array.getElem?_eq_none hmade.grows.images]

theorem Renders.finished (h : Renders held r i s u) (hs : Holding held s) :
    ∃ first last, r.Finished i (s.image i).size first last u := by
  cases h with
  | finalize hi hw hm hlayout hbetween hkeeps hstrict hfinalize =>
    have hsteps := after_of_ok hlayout ▸ Region.steps_layoutObserved _ hs.lasting.toValid hi hw
    exact ⟨_, _, Region.finished_of_finalize hs.lasting hi hw hlayout
      (hbetween.keeps (hsteps.valid hs.lasting.toValid) hkeeps) hstrict hfinalize (.refl u)⟩
  | flatten hi hw hm hstrict hflatten =>
    exact Region.finished_of_flatten hs.lasting hi hw hstrict hflatten (.refl u)
  | @build b config refs crc t _ snap hb hm hprepare hi hstrict hbuild =>
    obtain ⟨a, v, summary, -, hl, hia, hsize, hw, hflatten, hvu⟩ :=
      Snapshot.Builder.build_into_image hs.lasting hb hprepare hbuild
    rw [hi, ← hsize]
    exact Region.finished_of_flatten hl hia hw hstrict hflatten
      (hvu.mono fun _ hm => hm.plain.keeps _)

theorem Renders.rendered (h : Renders held r i s u) (hs : Holding held s) :
    r.Rendered i (s.image i).size u := by
  obtain ⟨first, last, hfinished⟩ := h.finished hs
  exact hfinished.rendered

/-- What is guarded stays guarded when a region is flattened. -/
theorem Renders.guarded (h : Renders held r i s u) (hs : Holding held s)
    (hg : l.Guarded (· ∈ held) s [] t) : l.Guarded (fun _ => False) u [] t := by
  cases h with
  | @finalize observer observer' config k s₁ s₂ _ between held' summary hi hw hm hlayout hbetween
      hkeeps hstrict hfinalize =>
    have hafter : ((Use.call (.layout r i observer)).run).after s = s₁ := by
      rw [Use.run, Call.run, after_discard, after_of_ok hlayout]
    have hs₁ := hs.step (.call (.layout r i observer)) ⟨hi, hw⟩ trivial hm
    have hg₁ := hs.guarded_held (.call (.layout r i observer)) ⟨hi, hw⟩ trivial hm hg
    rw [hafter] at hs₁ hg₁
    have hlasting : ∀ use ∈ between, use.Lasting := fun use huse => (hkeeps use huse).1
    have hg₂ := hbetween.guarded_held hs₁ hlasting hg₁
    have hs₂ := hbetween.holding hs₁ hlasting
    have hsteps : Steps Move.Plain s s₁ :=
      after_of_ok hlayout ▸ Region.steps_layoutObserved observer hs.lasting.toValid hi hw
    have hcells : s.cells.size ≤ s₂.cells.size :=
      hsteps.grows.cells.trans (hbetween.keeps hs₁.lasting.toValid hkeeps).grows.cells
    have hentries : k.entries = Segment.entriesAll r.segments := by
      rw [(Region.layoutObserved_eq_ok hlayout).2]
      rfl
    have hwithin : ∀ e ∈ k.entries, e.Within s₂.cells.size := by
      rw [hentries]
      exact fun e he => (Segment.WithinAll.entries hw e he).mono hcells
    have hmarks : ∀ e ∈ k.entries, e.result ∈ held' := by
      rw [hentries]
      exact fun e he => hbetween.held_subset (Segment.SettlesAll.entries hm e he)
    have hg' := hs₂.guarded_held (.call (.finalize k config observer')) hwithin trivial hmarks
      hg₂
    rw [Use.run, Call.run, after_discard, after_of_ok hfinalize] at hg'
    exact hg'.extend fun _ hc => hc.elim
  | @flatten observer config summary _ hi hw hm hstrict hflatten =>
    have hg' := hs.guarded_held (.call (.flatten r i config observer)) ⟨hi, hw⟩ trivial hm hg
    rw [Use.run, Call.run, after_discard, after_of_ok hflatten] at hg'
    exact hg'.extend fun _ hc => hc.elim
  | @build b config refs crc _ _ snap hb hm hprepare hi hstrict hbuild =>
    have hg' := hs.guarded_held (.call (.build b config)) hb trivial hm hg
    rw [Use.run, Call.run, after_discard, after_of_ok hbuild] at hg'
    exact hg'.extend fun _ hc => hc.elim

end Renders

theorem Program.relative {held held' : List CellId} {s u : Store} {uses : List Use}
    {target stop payload : CellId} (h : Program held s uses held' u) (hs : Holding held s)
    (hl : ∀ use ∈ uses, use.Lasting) (hrel : Relative (· ∈ held) s target stop payload) :
    Relative (· ∈ held') u target stop payload := by
  obtain ⟨a, b, ha, hb, hpayload⟩ := hrel
  exact ⟨a, b, h.guarded_held hs hl ha, h.guarded_held hs hl hb, h.guarded_held hs hl hpayload⟩

/-- The displacement of a relative instruction that stands in a strictly flattened region. -/
theorem Region.Rendered.displacement {M : CellId → Prop} {r : Region} {i : ImageId} {a p : Nat}
    {u : Store} {bytes : Bytes} {note : Note} {format : IntFormat} {label : Option String}
    {target stop payload : CellId} (h : r.Rendered i a u) (hrel : Relative M u target stop payload)
    (hbytes : bytes.length = 1) (hsigned : format.signed = true)
    (hstands : Segment.Stands
      [.direct bytes note, .deferred (.int format) payload label, .mark stop] p a r.segments) :
    ∃ n : Int, u.value? target = some (.int n) ∧
      (p + 1 + format.width : Int) + Bytes.toInt ((u.image i).slice (p + 1) format.width) = n ∧
      -2 ^ (8 * format.width - 1) ≤ n - (p + 1 + format.width) ∧
      n - (p + 1 + format.width) < 2 ^ (8 * format.width - 1) := by
  have hslot : ⟨p + 1, .int format, payload, label⟩ ∈ r.slots a := by
    apply hstands.slots_subset
    simp [Segment.slotsAll, Segment.slots, Segment.size, hbytes]
  have hmark : (stop, p + 1 + format.width) ∈ r.marks a := by
    apply hstands.marks_subset
    simp [Segment.marksAll, Segment.marks, Segment.size, hbytes, FixedFormat.width]
  obtain ⟨v, hv, hencode⟩ := h.fields _ hslot
  obtain ⟨n, e, htarget, hstop, rfl⟩ := hrel.value hv
  have he : e = (p + 1 + format.width : Nat) := by
    have := (h.marks _ hmark).symm.trans hstop
    simpa using this.symm
  obtain ⟨hread, hle, hlt⟩ := IntFormat.toInt_encode hsigned hencode
  subst he
  push_cast at hread hle hlt
  refine ⟨n, htarget, ?_, hle, hlt⟩
  rw [FixedFormat.width] at hread
  rw [hread]
  ring

/-- Relative branches land on their target. A caller runs any program that takes no value back,
writes a relative instruction to a region, and goes on with any such program. Then a region, in
which the instruction stands at the offset `p`, is strictly flattened with success. The payload,
read as a signed number, leads from the end of the instruction to the value of its target, whenever
that came; so the distance fits the payload. -/
theorem relative_branches_land {before after : List Use} {held held' : List CellId}
    {s₀ s₁ s u : Store} {r₀ r₁ r : Region} {instruction : Instruction} {format : IntFormat}
    {target : CellId} {code : List Segment} {i : ImageId} {p : Nat}
    (hbefore : Program [] {} before held s₀)
    (hrel : instruction.relative? = some (format, target))
    (hw : instruction.Within s₀.cells.size)
    (hwrite : r₀.writeInstruction instruction s₀ = .ok r₁ s₁)
    (hcode : r₁.segments = r₀.segments ++ code)
    (hafter : Program ((Use.write r₀ instruction).hands s₀ ++ held) s₁ after held' s)
    (hlasting : ∀ use ∈ before ++ after, use.Lasting) (hrenders : Renders held' r i s u)
    (hstands : Segment.Stands code p (s.image i).size r.segments) :
    ∃ n : Int, u.value? target = some (.int n) ∧
      (p + 1 + format.width : Int) + Bytes.toInt ((u.image i).slice (p + 1) format.width) = n ∧
      -2 ^ (8 * format.width - 1) ≤ n - (p + 1 + format.width) ∧
      n - (p + 1 + format.width) < 2 ^ (8 * format.width - 1) := by
  have hs₀ := hbefore.holding .empty fun use huse => hlasting use (List.mem_append_left _ huse)
  have hs₁ := hs₀.step (.write r₀ instruction) hw trivial trivial
  rw [Use.run, after_discard, after_of_ok hwrite] at hs₁
  have hhands : (Use.write r₀ instruction).hands s₀ = [s₀.cells.size] := by
    cases instruction with
    | branch8 | jump8 | branch16 | jump16 => rfl
    | _ => cases hrel
  rw [hhands] at hs₁ hafter
  have hheld : ∀ c, c ∈ [s₀.cells.size] ++ held → c ≤ s₀.cells.size := by
    intro c hc
    obtain rfl | hc := List.mem_cons.1 hc
    · exact le_rfl
    · exact (hs₀.exist c hc).le
  obtain ⟨hsigned, bytes, note, payload, label, hbytes, hsegments, hwritten⟩ :=
    writeInstruction_relative hrel hs₀.lasting hw hheld hwrite
  obtain rfl := List.append_cancel_left (hcode.symm.trans hsegments)
  have hlater : ∀ use ∈ after, use.Lasting :=
    fun use huse => hlasting use (List.mem_append_right _ huse)
  have hs := hafter.holding hs₁ hlater
  obtain ⟨a, b, ha, hb, hpayload⟩ := hafter.relative hs₁ hlater hwritten
  exact (hrenders.rendered hs).displacement
    ⟨a, b, hrenders.guarded hs ha, hrenders.guarded hs hb, hrenders.guarded hs hpayload⟩ hbytes
    hsigned hstands

/-! A branch in a nested region, whose target is resolved by the caller between layout and
finalization, with an offset in front of the branch. -/

def lateBranchUses : List Use := [.call (.newCell .offset none false), .call .newImage]

def lateBranchRegion (r : Region) : Region :=
  ⟨[.direct [1, 2] {}, .nested (r.segments ++ [.direct [9] {}])]⟩

def lateBranch : Op (Region × Store × Layout × Store × FlattenSummary) := do
  let r ← Region.writeInstruction {} (.branch8 0)
  let s ← get
  let l ← (lateBranchRegion r).layoutObserved 0 .silent
  let t ← get
  Store.resolve 0 (.int 1)
  return (r, s, l, t, ← l.finalizeObserved .strict .silent)

theorem relative_branches_land_late :
    ∃ held r s u, Region.writeInstruction {} (.branch8 0) (runUses lateBranchUses {}) = .ok r s ∧
      Renders held (lateBranchRegion r) 0 s u ∧ (u.image 0).bytes = [1, 2, 0x70, 0xFD, 9] ∧
      u.value? 0 = some (.int 1) ∧ 4 + Bytes.toInt ((u.image 0).slice 3 1) = 1 := by
  have hrun : (match lateBranch (runUses lateBranchUses {}) with
      | .ok _ u => decide ((u.image 0).bytes = [1, 2, 0x70, 0xFD, 9] ∧ u.value? 0 = some (.int 1))
      | .error .. => false) = true := by decide +kernel
  have hbefore : ∃ held, Program [] {} lateBranchUses held (runUses lateBranchUses {}) :=
    ⟨_, .cons trivial trivial (.cons trivial trivial (.nil _ _))⟩
  obtain ⟨held, hbefore⟩ := hbefore
  have hlasting : ∀ use ∈ lateBranchUses, use.Lasting := by
    simp [lateBranchUses, Use.Lasting, Call.Lasting]
  have hs₀ := hbefore.holding .empty hlasting
  have hw : (Instruction.branch8 0).Within (runUses lateBranchUses {}).cells.size :=
    show 0 < _ by decide +kernel
  have hs := hs₀.step (.write {} (.branch8 0)) hw trivial trivial
  cases hlate : lateBranch (runUses lateBranchUses {}) with
  | error e t => simp [hlate] at hrun
  | ok result u =>
    simp only [hlate, decide_eq_true_eq] at hrun
    obtain ⟨r, s, hwrite, hrest⟩ := bind_eq_ok.1 hlate
    obtain ⟨_, _, hget, hrest⟩ := bind_eq_ok.1 hrest
    cases hget
    obtain ⟨l, s₁, hlayout, hrest⟩ := bind_eq_ok.1 hrest
    obtain ⟨_, _, hget, hrest⟩ := bind_eq_ok.1 hrest
    cases hget
    obtain ⟨_, s₂, hresolve, hrest⟩ := bind_eq_ok.1 hrest
    obtain ⟨summary, t, hfinalize, hrest⟩ := bind_eq_ok.1 hrest
    cases hrest
    rw [Use.run, after_discard, after_of_ok hwrite] at hs
    obtain ⟨-, bytes, note, payload, label, -, hsegments, a, b, -, -, hpayload⟩ :=
      writeInstruction_relative (M := fun _ => False) rfl hs₀.lasting hw (by simp) hwrite
    have hsteps : Steps Move.Creates (runUses lateBranchUses {}) s :=
      after_of_ok hwrite ▸ steps_writeInstruction {} hw
    have hi : 0 < s.images.size := Nat.lt_of_lt_of_le (by decide +kernel) hsteps.grows.images
    have hwithin : (lateBranchRegion r).Within s.cells.size := by
      simp only [lateBranchRegion, hsegments]
      exact ⟨trivial, ⟨trivial, hpayload.exist, hs.exist _ (.head _), trivial, trivial⟩, trivial⟩
    have hmarks : Segment.SettlesAll (· ∈ (Use.write {} (.branch8 0)).hands
        (runUses lateBranchUses {}) ++ held) (lateBranchRegion r).segments := by
      simp only [lateBranchRegion, hsegments]
      exact ⟨trivial, ⟨trivial, trivial, .head _, trivial, trivial⟩, trivial⟩
    have hlaid : Steps Move.Plain s s₁ := after_of_ok hlayout ▸
      Region.steps_layoutObserved .silent hs.lasting.toValid hi hwithin
    have hcell : 0 < s₁.cells.size :=
      Nat.lt_of_lt_of_le hw (hsteps.grows.trans hlaid.grows).cells
    have hbetween : Program
        ((Use.write {} (.branch8 0)).hands (runUses lateBranchUses {}) ++ held) s₁
        [.call (.resolve 0 (.int 1))]
        ((Use.write {} (.branch8 0)).hands (runUses lateBranchUses {}) ++ held) s₂ := by
      refine .cons hcell trivial ?_
      rw [Use.run, Call.run, after_of_ok hresolve]
      exact .nil _ _
    have hrenders := Renders.finalize hi hwithin hmarks hlayout hbetween
      (by simp [Use.Lasting, Call.Lasting, Use.Overwrites, Call.Overwrites]) rfl hfinalize
    have hempty : (s.image 0).size = 0 := by
      rw [(hsteps.mono fun _ => Move.Creates.spares).size_image_eq]
      decide +kernel
    have hstands : Segment.Stands r.segments 2 (s.image 0).size (lateBranchRegion r).segments := by
      rw [hempty]
      exact .nested [.direct [1, 2] {}] [] (.here [] [.direct [9] {}] rfl)
    obtain ⟨n, hn, hlands, -⟩ := relative_branches_land hbefore rfl hw hwrite
      (List.nil_append _).symm (.nil _ _) (by simpa using hlasting) hrenders hstands
    obtain rfl : n = 1 := by simpa [hrun.2] using hn.symm
    exact ⟨_, r, s, u, hwrite, hrenders, hrun.1, hn, hlands⟩

end Backpatch
