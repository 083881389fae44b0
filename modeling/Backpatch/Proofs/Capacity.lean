import Mathlib
import Backpatch.Proofs.Room
import Backpatch.Proofs.RoundTrip

/-!
# What fits into a snapshot

The header of a snapshot holds its own size and the starts of the sections in words of sixteen bits,
and the size of the image in one of thirty-two. Each of them is settled by a mark, which fails if
the word has no room for it. Where the sections are plain bytes, nothing else can fail, and nothing
is left to be patched but the checksum: so these bounds decide whether the snapshot is built.
-/

namespace Backpatch

open Store Failable

namespace Snapshot.Builder

/-! ## Sections -/

/-- The number of bytes in some sections. -/
def lengthOf (parts : List PendingSection) : Nat := (parts.map (·.region.size)).sum

section Sections

variable {s t : Store} {i : ImageId} {first : FieldId} {c d o lo hi : Nat} {D : Nat → Prop}
  {part : PendingSection} {parts : List PendingSection}

/-- One section of plain bytes fits if the table has room for its start. -/
theorem Ready.emitsIf_section (hready : Ready s i first c d o 1) (h : Stage lo hi i s)
    (hpart : part.region.Literal) (hc : lo ≤ c) (hcd : c + 2 ≤ d) (hd : d < hi) :
    EmitsIf i (bodiesFrom c [part]) s ((s.image i).size < 65536) ∧
      ∀ t, Emits i (bodiesFrom c [part]) s t →
        (t.image i).size = (s.image i).size + part.region.size ∧
        (PatchedOutside first D s → PatchedOutside first (fun x => D x ∧ x ≠ d) t) := by
  have hliteral : (Segment.nested part.region.segments).Literal := hpart
  have hpass : PassesOn s c d := hready.starts 0 Nat.one_pos
  obtain ⟨label, hawaits⟩ := hready.words 0 Nat.one_pos
  have hne : d ≠ c := by omega
  have hwidth : Bytes.wordCount IntFormat.u16le.width ≤ 2 ^ 63 := by decide
  have hmarked : ∀ u, Emit i (.mark c) s u →
      Idle u (c + 1) ∧ i < u.images.size ∧ (u.image i).size = (s.image i).size := by
    intro u hu
    obtain ⟨-, honly, -, -, hsize⟩ := hu.mark_written h.valid hpass hawaits hne rfl rfl
    exact ⟨(hready.stops 0 Nat.one_pos).same honly.toSame (by omega),
      (h.own hu (show c < hi by omega) honly (by omega)).image, hsize⟩
  have hnested : ∀ u v, Emit i (.mark c) s u → Emit i (.nested part.region.segments) u v →
      Idle v (c + 1) ∧ v.placeholders = u.placeholders ∧
        (v.image i).size = (s.image i).size + part.region.size := by
    intro u v hu hv
    obtain ⟨hidle, hi', hsize⟩ := hmarked u hu
    obtain ⟨hcells, hfields, hsize'⟩ := (hliteral.emit hi').2 v hv
    refine ⟨?_, hfields, hsize ▸ hsize'⟩
    unfold Idle value? Store.cell at *
    rwa [hcells]
  constructor
  · refine (EmitsIf.cons (mark_succeedsIff h.valid hpass hawaits hne rfl rfl hwidth) fun u hu =>
      EmitsIf.cons (p := True) ?_ fun v hv =>
        EmitsIf.cons (hnested u v hu hv).1.mark_succeedsIff.1 fun w _ => .nil).congr ?_
    · obtain ⟨v, hv⟩ := (hliteral.emit (hmarked u hu).2.1).1
      exact .of_ok hv
    · simp only [and_true]
      exact Iff.rfl
  · rintro t ⟨u, hu, v, hv, w, hw, rfl⟩
    obtain ⟨hidle, hfields, hsize⟩ := hnested u v hu hv
    obtain ⟨hfields', himage⟩ := hidle.mark_succeedsIff.2 t hw
    refine ⟨himage ▸ hsize, fun houtside => ?_⟩
    exact (hu.mark_patchedOutside h.valid hpass hawaits hne rfl rfl hwidth houtside).keep
      (hfields'.trans hfields)

/-- Sections of plain bytes fit if the table has room for all their starts. -/
theorem Ready.emitsIf (hready : Ready s i first c d o parts.length) (h : Stage lo hi i s)
    (hparts : ∀ part ∈ parts, part.region.Literal) (hc : lo ≤ c)
    (hcd : c + 2 * parts.length ≤ d) (hd : d + parts.length ≤ hi) :
    EmitsIf i (bodiesFrom c parts) s
        (∀ k < parts.length, (s.image i).size + lengthOf (parts.take k) < 65536) ∧
      ∀ t, Emits i (bodiesFrom c parts) s t →
        (t.image i).size = (s.image i).size + lengthOf parts ∧
        (PatchedOutside first D s →
          PatchedOutside first (fun x => D x ∧ ¬ (d ≤ x ∧ x < d + parts.length)) t) := by
  induction parts generalizing s c d o D with
  | nil =>
    refine ⟨EmitsIf.nil.congr (by simp), ?_⟩
    rintro t rfl
    exact ⟨rfl, fun houtside => houtside.mono fun x hx => ⟨hx, by simp⟩⟩
  | cons part rest ih =>
    simp only [List.length_cons] at hcd hd hready ⊢
    have hone : Ready s i first c d o 1 :=
      ⟨fun k hk => hready.starts k (by omega), fun k hk => hready.stops k (by omega),
        fun k hk => hready.words k (by omega)⟩
    obtain ⟨hfits, hafter⟩ := hone.emitsIf_section (D := D) h (hparts part (.head _)) hc (by omega)
      (by omega)
    have hrest : ∀ u, Emits i (bodiesFrom c [part]) s u →
        EmitsIf i (bodiesFrom (c + 2) rest) u
            (∀ k < rest.length, (u.image i).size + lengthOf (rest.take k) < 65536) ∧
          ∀ t, Emits i (bodiesFrom (c + 2) rest) u t →
            (t.image i).size = (u.image i).size + lengthOf rest ∧
            (PatchedOutside first (fun x => D x ∧ x ≠ d) u →
              PatchedOutside first
                (fun x => (D x ∧ x ≠ d) ∧ ¬ (d + 1 ≤ x ∧ x < d + 1 + rest.length)) t) := by
      intro u hu
      have hwithin : ∀ p ∈ [part], p.region.Within lo := by
        intro p hp
        obtain rfl := List.mem_singleton.1 hp
        exact (Segment.LiteralAll.inert (hparts p (.head _)) lo s).2.1
      have hone' : Ready s i first c d o [part].length := hone
      obtain ⟨hstage, hsame, -, -⟩ := hone'.sections h hwithin hc
        (show c + 2 * 1 ≤ d by omega) (show d + 1 ≤ hi by omega) hu
      refine ih (hready.tail.same hsame (fun x hx hx' => ?_) fun x hx hx' => ?_) hstage
        (fun part hp => hparts part (.tail _ hp)) (by omega) (by omega) (by omega)
      all_goals
        simp only [List.length_singleton]
        omega
    have hlength (k : Nat) : lengthOf ((part :: rest).take (k + 1)) =
        part.region.size + lengthOf (rest.take k) := by simp [lengthOf]
    constructor
    · have happend : EmitsIf i (bodiesFrom c [part] ++ bodiesFrom (c + 2) rest) s
          ((s.image i).size < 65536 ∧ ∀ k < rest.length,
            (s.image i).size + lengthOf ((part :: rest).take (k + 1)) < 65536) :=
        hfits.append fun u hu => (hrest u hu).1.congr (by
          simp only [hlength, (hafter u hu).1, Nat.add_assoc])
      refine happend.congr ?_
      rw [Nat.forall_lt_succ_left]
      simp [lengthOf]
    · intro t ht
      obtain ⟨u, hu, ht⟩ := Emits.append
        (show Emits i (bodiesFrom c [part] ++ bodiesFrom (c + 2) rest) s t from ht)
      obtain ⟨hsize, houtside⟩ := hafter u hu
      obtain ⟨hsize', houtside'⟩ := (hrest u hu).2 t ht
      refine ⟨?_, fun h => (houtside' (houtside h)).mono fun x hx => ⟨hx.1.1, by omega⟩⟩
      rw [hsize', hsize, Nat.add_assoc]
      simp [lengthOf]

end Sections

/-! ## Header and sections -/

/-- The offset of a section, after the header and the sections before it. -/
def startOf (b : Builder) (k : Nat) : Nat :=
  16 + 2 * b.sections.size + lengthOf (b.sections.toList.take k)

/-- The words of the header have room for its size, for the starts of the sections and for the size
of the image. -/
def Fits (b : Builder) : Prop :=
  16 + 2 * b.sections.size ≤ 65535 ∧ (∀ k < b.sections.size, b.startOf k ≤ 65535) ∧
    b.startOf b.sections.size ≤ 2 ^ 32 - 1

instance (b : Builder) : Decidable b.Fits := inferInstanceAs (Decidable (_ ∧ _ ∧ _))

section Whole

variable {b : Builder} {s t u : Store} {i : ImageId} {first : FieldId} {m : Nat}

/-- Sections of plain bytes and the mark at their end. -/
theorem Headed.emitsIf {D : Nat → Prop} (h : b.Headed m i first s)
    (hb : ∀ part ∈ b.sections, part.region.Literal) :
    EmitsIf i (bodiesFrom (m + 3) b.sections.toList ++ [.mark (m + 1)]) s
        ((∀ k < b.sections.size, b.startOf k ≤ 65535) ∧
          b.startOf b.sections.size ≤ 2 ^ 32 - 1) ∧
      ∀ t, Emits i (bodiesFrom (m + 3) b.sections.toList ++ [.mark (m + 1)]) s t →
        PatchedOutside first D s → PatchedOutside first (fun x =>
          D x ∧ x ≠ m + 4 + 2 * b.sections.size ∧
          ¬ (m + 5 + 2 * b.sections.size ≤ x ∧ x < m + 5 + 3 * b.sections.size)) t := by
  have hlength : b.sections.toList.length = b.sections.size := Array.length_toList
  have hparts : ∀ part ∈ b.sections.toList, part.region.Literal :=
    fun part hp => hb part (by simpa using hp)
  obtain ⟨hfits, hafter⟩ := h.ready.emitsIf (D := D) h.stage hparts (by omega) (by omega) (by omega)
  have hlast : ∀ u, Emits i (bodiesFrom (m + 3) b.sections.toList) s u →
      Valid u [] ∧ PassesOn u (m + 1) (m + 4 + 2 * b.sections.size) ∧
        Awaits u i first (m + 4 + 2 * b.sections.size) 8 (.int .u32le) (some "bytecode size") := by
    intro u hu
    obtain ⟨hstage, hsame, -, -⟩ := h.ready.sections h.stage
      (fun part hp => (Segment.LiteralAll.inert (hparts part hp) m s).2.1) (by omega) (by omega)
      (by omega) hu
    exact ⟨hstage.valid, h.image.same hsame (by omega), h.imageSize.same hsame (by omega)⟩
  have hne : m + 4 + 2 * b.sections.size ≠ m + 1 := by omega
  have hwidth : Bytes.wordCount IntFormat.u32le.width ≤ 2 ^ 63 := by decide
  have hwhole : lengthOf (b.sections.toList.take b.sections.size) =
      lengthOf b.sections.toList := by
    rw [← hlength, List.take_length]
  constructor
  · refine (hfits.append (q := b.startOf b.sections.size ≤ 2 ^ 32 - 1) fun u hu => ?_).congr ?_
    · obtain ⟨hv, hpass, hawaits⟩ := hlast u hu
      have hmark := mark_succeedsIff hv hpass hawaits hne rfl rfl hwidth
      refine (EmitsIf.cons hmark fun _ _ => .nil).congr ?_
      have hcount : Bytes.wordCount IntFormat.u32le.width = 2 ^ 32 := by decide
      rw [(hafter u hu).1, h.size, hcount, startOf, hwhole, and_true]
      omega
    · rw [hlength, h.size]
      exact and_congr_left' (forall₂_congr fun k _ => Nat.lt_succ_iff)
  · intro t ht houtside
    obtain ⟨u, hu, ht⟩ := ht.append
    obtain ⟨v, hv, rfl⟩ := ht
    obtain ⟨hvalid, hpass, hawaits⟩ := hlast u hu
    refine (hv.mark_patchedOutside hvalid hpass hawaits hne rfl rfl hwidth
      ((hafter u hu).2 houtside)).mono
      fun x hx => ⟨hx.1.1, hx.2, ?_⟩
    have := hx.1.2
    omega

/-- A prepared snapshot of plain bytes can be laid out if it fits. Then only the checksum waits. -/
theorem Prepared.emitsIf (hprepared : Prepared m b.sections.size s)
    (h : Stage m (m + 6 + 3 * b.sections.size) i s) (hempty : (s.image i).size = 0)
    (hb : ∀ part ∈ b.sections, part.region.Literal) :
    EmitsIf i (b.headerFrom m ++ .mark m ::
        (bodiesFrom (m + 3) b.sections.toList ++ [.mark (m + 1)])) s b.Fits ∧
      ∀ t, Emits i (b.headerFrom m ++ .mark m ::
        (bodiesFrom (m + 3) b.sections.toList ++ [.mark (m + 1)])) s t →
        PatchedOutside s.placeholders.size (· = m + 2) t := by
  have hpending : ∀ c ∈ Segment.fieldCells (b.headerFrom m), s.value? c = none := by
    intro c hc
    obtain rfl | rfl | rfl | hc := mem_fieldCells_headerFrom.1 hc
    · exact hprepared.headerSize.1
    · exact hprepared.imageSize.1
    · exact hprepared.crcField.1
    · obtain ⟨k, rfl⟩ := Nat.exists_eq_add_of_le hc.1
      exact (hprepared.offsets k (by omega)).1
  obtain ⟨hfields, houtside⟩ := (PatchedOutside.start s).fields (i := i) (isField_headerFrom b m)
    hpending
    (nodup_fieldCells_headerFrom b m)
    fun f p hf hp => absurd (Array.getElem?_eq_some_iff.1 hp).1 (Nat.not_lt.2 hf)
  have hne : m + 3 + 2 * b.sections.size ≠ m := by omega
  have hwidth : Bytes.wordCount IntFormat.u16le.width ≤ 2 ^ 63 := by decide
  have hheader : ∀ u, Emits i (b.headerFrom m) s u → _ :=
    fun u => hprepared.headerLaid h hempty le_rfl
  constructor
  · refine (hfields.append fun u hu => ?_).congr (by rw [true_and])
    obtain ⟨hstage, hlaid, honly⟩ := hheader u hu
    have hmark := mark_succeedsIff hstage.valid (hprepared.header.same honly.toSame (by omega))
      hlaid.headerSize hne rfl rfl hwidth
    rw [hlaid.size] at hmark
    refine (EmitsIf.cons hmark fun v hv => ?_).congr (and_congr_left' Nat.lt_succ_iff)
    have hheaded := hlaid.headed hstage hprepared.toReferenced honly hv
    exact (hheaded.emitsIf (D := fun _ => True) hb).1
  · intro t ht
    obtain ⟨u, hu, v, hv, ht⟩ := ht.append
    obtain ⟨hstage, hlaid, honly⟩ := hheader u hu
    have hmarked := hv.mark_patchedOutside hstage.valid
      (hprepared.header.same honly.toSame (by omega))
      hlaid.headerSize hne rfl rfl hwidth (houtside u hu)
    refine (((hlaid.headed hstage hprepared.toReferenced honly hv).emitsIf hb).2 t ht hmarked).mono
      fun x hx => ?_
    obtain ⟨⟨hmem, hx₁⟩, hx₂, hx₃⟩ := hx
    have := mem_fieldCells_headerFrom.1 (hmem.resolve_left id)
    omega

end Whole

/-! ## Preparation -/

/-- The region of a snapshot is made if its sections can be counted. -/
theorem region_succeedsIff {b : Builder} {m : Nat} {s : Store}
    (hsize : s.cells.size = m + 3 + 2 * b.sections.size)
    (hidle : ∀ c : Nat, m ≤ c → c < m + 3 + 2 * b.sections.size → Idle s c) :
    (b.region (referencesFrom m b.sections.size)).SucceedsIff s (b.sections.size < 65536) := by
  have hlt : m < s.cells.size := by omega
  obtain ⟨s₁, hrun₁, hsize₁, honly₁, -, -⟩ := (hidle m le_rfl (by omega)).signedOffset hlt
  have hlt₁ : m + 1 < s₁.cells.size := by omega
  obtain ⟨s₂, hrun₂, hsize₂, honly₂, -, -⟩ :=
    ((hidle (m + 1) (by omega) (by omega)).same honly₁.toSame (by omega)).signedOffset hlt₁
  have hkeep : Same (fun c => m + 2 ≤ c ∧ c < m + 3 + 2 * b.sections.size) s s₂ :=
    (honly₁.toSame.mono fun c hc => by omega).trans (honly₂.toSame.mono fun c hc => by omega)
  obtain ⟨s₃, hrun₃, -⟩ := signedOffset_mapM b.sections.size (c := m + 3) (s := s₂)
    (by omega) fun k hk => (hidle _ (by omega) (by omega)).same hkeep (by omega)
  refine .ok_bind hrun₁ (.ok_bind hrun₂ ?_)
  have hfixed (x y z : CellId) :
      (Failable.ofExcept (b.fixedFields x y z) : Op Region).SucceedsIff s₂
      (b.sections.size < 65536) := by
    rw [fixedFields_run]
    split_ifs with hcount
    · exact .inl ⟨hcount, _, s₂, rfl⟩
    · exact .inr ⟨hcount, _, _, s₂, rfl⟩
  refine (hfixed ..).bind_ok fun fixed t ht => ?_
  obtain ⟨-, rfl⟩ := ofExcept_eq_ok.1 ht
  exact ⟨_, s₃, bind_eq_ok.2 ⟨_, s₃, hrun₃, rfl⟩⟩

theorem prepare_succeedsIff (b : Builder) (s : Store) :
    b.prepare.SucceedsIff s (b.sections.size < 65536) := by
  obtain ⟨t, hrun, hsize, hfresh, -⟩ := newReferences_run b.sections.size s
  have hregion := region_succeedsIff hsize fun c hlo hhi => hfresh.idle c hlo (hsize ▸ hhi)
  exact .ok_bind hrun (hregion.bind_ok fun r v _ => ⟨_, _, checksum_run _ r v⟩)

/-! ## Building -/

section Building

variable {b : Builder} {s u v : Store} {i : ImageId} {m z : Nat} {l : Layout}
  {refs : References} {crc : CellId} {r : Region}

theorem layoutObserved_succeedsIff (hv : Valid s []) (hb : ∀ part ∈ b.sections, part.region.Literal)
    (hprepare : b.prepare s = .ok (refs, crc, r) u) (observer : Observer) :
    (r.layoutObserved u.images.size observer).SucceedsIff
      { u with images := u.images.push {} } b.Fits ∧
      ∀ l v, r.layoutObserved u.images.size observer { u with images := u.images.push {} } =
        .ok l v → PatchedOutside l.first (· = s.cells.size + 2) v := by
  obtain ⟨rfl, rfl, -, hsegments, hp, -⟩ := prepare_prepared hprepare
  rw [segments_eq] at hsegments
  have hready (event : Event) := Prepared.emitsIf
    (s := (emit event).after { u with images := u.images.push {} }) (b := b)
    ⟨⟨hp.header, hp.image, hp.starts, hp.stops, hp.headerSize, hp.imageSize, hp.offsets,
      hp.crcField, hp.given⟩, hp.size, hp.crc⟩
    ((stage_newImage hv hprepare).foreign (steps_emit event fun _ _ _ => trivial)).1
    (congrArg Image.size ((image_newImage u _).trans (image_of_size_le u _ le_rfl))) hb
  constructor
  · refine EmitsIf.layoutObserved observer ?_
    rw [hsegments]
    -- The checksum entry appends nothing.
    refine ((hready _).1.append fun t _ => ?_).congr (by rw [and_true])
    exact (EmitsIf.cons (.of_ok (a := ()) (t := t) rfl) fun _ _ => .nil).congr (by rw [and_true])
  · intro l v hlayout
    obtain ⟨hemit, rfl⟩ := Region.layoutObserved_eq_ok hlayout
    have hemits := emitObserved_emits hemit
    rw [hsegments] at hemits
    obtain ⟨t, ht, x, ⟨t', log, trace, reports, hrun, rfl⟩, rfl⟩ := hemits.append
    cases hrun
    exact ((hready _).2 t ht).keep rfl

/-- With the checksum, the last field is patched. -/
theorem AwaitsChecksum.patchedOutside {n : Nat} {first : FieldId} {x : Datum} {D : Nat → Prop}
    (h : AwaitsChecksum m n i first s) (hrun : settleOrConfirm (m + 5 + 3 * n) x s = .ok () u)
    (houtside : PatchedOutside first D s) : PatchedOutside first (fun c => D c ∧ c ≠ m + 2) u := by
  obtain ⟨id, hqueue⟩ := h.passes
  rw [settleOrConfirm_of_pending h.pending] at hrun
  obtain ⟨e, t, -, hsettle⟩ | ⟨bs, t, -, hsettle, hpatch⟩ := h.crcField.settle_cases h.stage.valid
    (show m + 2 ≠ m + 5 + 3 * n by omega) h.pending hqueue (by simp [Subscriber.weight])
    (h.forwards x)
  · cases hsettle.symm.trans hrun
  · cases hsettle.symm.trans hrun
    exact hpatch D houtside

/-- Where only the checksum waits, the layout is completed by its turn. -/
theorem LaidOut.finalizeObserved (h : b.LaidOut m z i s)
    (hc : AwaitsChecksum m b.sections.size i l.first s) (hi : l.image = i)
    (houtside : PatchedOutside l.first (· = m + 2) s)
    (hentries : l.entries = [checksumEntry (referencesFrom m b.sections.size)
      (m + 5 + 3 * b.sections.size)]) (config : FlattenConfig) (observer : Observer) :
    ∃ summary t, l.finalizeObserved config observer s = .ok summary t ∧
      summary.unresolved = [] := by
  -- The checksum stands before its range.
  have hclear : ¬ (l.pending s).any (·.overlaps (16 + 2 * b.sections.size) z) = true := by
    intro hcovered
    obtain ⟨p, hp, hoverlaps⟩ := List.any_eq_true.1 hcovered
    obtain ⟨f, hf, -, hfp, hpatched⟩ := Layout.mem_pending.1 hp
    obtain ⟨-, g, id, hg, -, hgp, -⟩ := hc.crcField
    obtain rfl := houtside.apart f g p _ hf hg hfp hgp (houtside.waiting f p hf hfp hpatched)
    obtain rfl := Option.some.inj (hfp.symm.trans hgp)
    simp only [Placeholder.overlaps, Bool.and_eq_true, decide_eq_true_eq] at hoverlaps
    have hend : 12 + 2 ≤ 16 + 2 * b.sections.size := by omega
    exact absurd hoverlaps.2 (Nat.not_lt.2 hend)
  obtain ⟨u, hsettle, -⟩ := hc.sealed
  have hnone : l.pending u = [] := by
    refine List.eq_nil_iff_forall_not_mem.2 fun p hp => ?_
    obtain ⟨f, hf, -, hfp, hpatched⟩ := Layout.mem_pending.1 hp
    have hwaiting := (hc.patchedOutside hsettle houtside).waiting f p hf hfp hpatched
    exact hwaiting.2 hwaiting.1
  have hfields : l.pendingFields u = [] := by rw [Layout.pendingFields, hnone, List.map_nil]
  have hturns : l.runEntries config.enforceComplete 0 l.entries {} s = .ok { applied := 1 } u := by
    rw [hentries, Layout.runEntries, bind_run, Layout.runEntry_run, h.bounds_checksumEntry]
    dsimp only
    rw [if_neg hclear, h.applyEntry_checksum hi, hsettle]
    rfl
  obtain ⟨log, trace, reports, hclose⟩ := Layout.close_run (s := u) l config observer
    { applied := 1 }
  rw [Layout.complaints, hfields] at hclose
  exact ⟨l.summary { applied := 1 } u, _, bind_eq_ok.2 ⟨_, u, hturns, hclose⟩, hfields⟩

theorem entriesAll_bodiesFrom {c : Nat} {parts : List PendingSection}
    (h : ∀ part ∈ parts, part.region.Literal) : Segment.entriesAll (bodiesFrom c parts) = [] := by
  induction parts generalizing c with
  | nil => rfl
  | cons part rest ih =>
    have hpart := (Segment.LiteralAll.inert (h part (.head _)) 0 {}).1.entries
    change Segment.entriesAll part.region.segments ++
      Segment.entriesAll (bodiesFrom (c + 2) rest) = []
    rw [hpart, ih fun part hp => h part (.tail _ hp)]
    rfl

/-- The checksum is the only entry of a snapshot of plain bytes. -/
theorem entries_prepare (hb : ∀ part ∈ b.sections, part.region.Literal)
    (hprepare : b.prepare s = .ok (refs, crc, r) u) : r.entries = [checksumEntry refs crc] := by
  obtain ⟨rfl, rfl, -, hsegments, -, -⟩ := prepare_prepared hprepare
  rw [segments_eq] at hsegments
  rw [Region.entries, hsegments, Segment.entriesAll_append, Segment.entriesAll_append,
    Segment.entriesAll_of_isField (isField_headerFrom b _)]
  change Segment.entriesAll (_ ++ _) ++ _ = _
  rw [Segment.entriesAll_append, entriesAll_bodiesFrom fun part hp => hb part (by simpa using hp)]
  rfl

theorem collect_ok {config : FlattenConfig} {summary : FlattenSummary} {infos : List SectionInfo}
    (hinfos : ((b.sections.toList.zip refs.bounds).mapM fun p => sectionInfo p.1 p.2) s =
      .ok infos s) (hcrc : config.enforceComplete = true → (s.offset? crc).isSome) :
    ∃ snap t, b.collect config refs crc i summary s = .ok snap t := by
  have hknown : ¬ ((s.offset? crc).isNone && config.enforceComplete) = true := by
    rw [Bool.and_eq_true]
    rintro ⟨hnone, hstrict⟩
    simpa [Option.isNone_iff_eq_none.1 hnone] using hcrc hstrict
  let image := s.image i
  refine ⟨⟨image.bytes, image.view, s.offset? crc, infos, summary⟩,
    (emit (.builtSnapshot image.size infos.length (s.offset? crc))).after s,
    bind_eq_ok.2 ⟨infos, s, hinfos, ?_⟩⟩
  simp only [bind_run, get_run]
  rw [if_neg hknown]
  rfl

/-- Where nothing is missing, the checksum is known. -/
theorem checksum_known {n : Nat} (hcases : Sealed s i m n ∨ Unsealed l s i m n)
    (hnone : l.pendingFields s = []) (hvalues : ∀ c, v.value? c = s.value? c) :
    (v.offset? (m + 5 + 3 * n)).isSome := by
  obtain hsealed | hunsealed := hcases
  · rw [offset?, hvalues, hsealed.1]
    rfl
  · obtain ⟨p, hp, -⟩ := hunsealed.crcField
    exact absurd (List.mem_map_of_mem hp) (hnone ▸ List.not_mem_nil)

theorem build_succeedsIff (hv : Valid s []) (hb : ∀ part ∈ b.sections, part.region.Literal)
    (config : FlattenConfig) : (b.build config).SucceedsIff s b.Fits := by
  have hwithin : b.Within s.cells.size := fun part hp =>
    (Segment.LiteralAll.inert (hb part hp) s.cells.size s).2.1
  refine ((prepare_succeedsIff b s).bind fun a u hprepare => ?_).congr
    (and_iff_right_of_imp fun hfits => by have := hfits.1; omega)
  obtain ⟨refs, crc, r⟩ := a
  obtain ⟨hlayout, houtside⟩ := layoutObserved_succeedsIff hv hb hprepare config.observer
  have hfinal : ∀ l v, r.layoutObserved u.images.size config.observer
      { u with images := u.images.push {} } = .ok l v →
      ∃ summary t, l.finalizeObserved config config.observer v = .ok summary t ∧
        summary.unresolved = [] := by
    intro l v hl
    obtain ⟨hlaid, hawaits, hi, -, -⟩ := laidOut_of_layoutObserved hv hwithin hprepare hl
    have hentries : l.entries = [checksumEntry refs crc] := by
      rw [(Region.layoutObserved_eq_ok hl).2]
      exact entries_prepare hb hprepare
    obtain ⟨rfl, rfl, -⟩ := prepare_prepared hprepare
    exact hlaid.finalizeObserved hawaits hi (houtside l v hl) hentries config config.observer
  refine .ok_bind rfl (SucceedsIff.bind_ok (x := r.flatten u.images.size config) ?_ ?_)
  · refine hlayout.bind_ok fun l v hl => ?_
    obtain ⟨summary, t, hsummary, -⟩ := hfinal l v hl
    exact ⟨summary, _, bind_eq_ok.2 ⟨summary, t, hsummary, rfl⟩⟩
  · intro summary v hflatten
    obtain ⟨l, w, hlaid, hcases, hunresolved, -, hvalues⟩ :=
      sealed_or_unsealed hv hwithin hprepare hflatten
    obtain ⟨l', v₁, v₂, hl, hf, -, -⟩ := Region.flattenObserved_eq_ok hflatten
    obtain ⟨summary', t, hsummary, hnone⟩ := hfinal l' v₁ hl
    cases hsummary.symm.trans hf
    obtain ⟨rfl, rfl, -⟩ := prepare_prepared hprepare
    obtain ⟨infos, hinfos, -⟩ := hlaid.sections.infos hvalues
    rw [Array.length_toList] at hinfos
    exact collect_ok hinfos fun _ => checksum_known hcases (hunresolved.symm.trans hnone) hvalues

end Building

end Snapshot.Builder

open Snapshot in
/-- The exact capacity of a snapshot. Whatever was done before and whatever the configuration is, a
snapshot of plain sections is built if and only if the words of its header have room for its size,
for the start of each section and for the size of the image. In all other cases some value is
reported as out of range. -/
theorem snapshot_built_iff_fits {calls : List Call} {s : Store} {b : Builder}
    (hbefore : Run {} calls s) (hb : ∀ part ∈ b.sections, part.region.Literal)
    (config : FlattenConfig) :
    ((∃ snap t, b.build config s = .ok snap t) ↔ b.Fits) ∧
      (¬ b.Fits →
        ∃ value format t, b.build config s = .error (.valueOutOfRange value format) t) := by
  have hsucceeds := Builder.build_succeedsIff hbefore.valid hb config
  exact ⟨hsucceeds.ok_iff, hsucceeds.error⟩

/-! Two sections: the start of the second one is the largest that fits, or the next one. -/

def edgeCalls : List Call := [.newCell (.int .u8) none true, .newImage]

def edgeStore : Store := edgeCalls.foldl (fun s call => call.run.after s) {}

def edgeBuilder (length : Nat) : Snapshot.Builder where
  sections := #[⟨"data", ⟨[.direct (List.replicate length 0) {}]⟩⟩,
    ⟨"end", ⟨[.nested [.direct [1] {}, .direct [2, 3] {}]]⟩⟩]

open Snapshot in
theorem snapshot_built_iff_fits_edge :
    (∃ snap t, (edgeBuilder 65515).build .strict edgeStore = .ok snap t) ∧
      ∃ value format t, (edgeBuilder 65516).build .strict edgeStore =
        .error (.valueOutOfRange value format) t := by
  have hbefore : Run {} edgeCalls edgeStore := .cons trivial (.cons trivial (.nil _))
  have hliteral (k : Nat) : ∀ part ∈ (edgeBuilder k).sections, part.region.Literal := by
    simp [edgeBuilder, Region.Literal, Segment.LiteralAll, Segment.Literal]
  have hfits (k : Nat) : (edgeBuilder k).Fits ↔ k ≤ 65515 := by
    have hstart : (edgeBuilder k).startOf 0 = 20 ∧ (edgeBuilder k).startOf 1 = 20 + k ∧
        (edgeBuilder k).startOf 2 = 23 + k := by
      simp [Builder.startOf, Builder.lengthOf, edgeBuilder, Region.size, Segment.sizeAll,
        Segment.size]
      omega
    have hsize : (edgeBuilder k).sections.size = 2 := rfl
    rw [Builder.Fits, hsize, Nat.forall_lt_succ_left, Nat.forall_lt_succ_left]
    simp [hstart]
    omega
  exact ⟨(snapshot_built_iff_fits hbefore (hliteral _) .strict).1.2 ((hfits _).2 le_rfl),
    (snapshot_built_iff_fits hbefore (hliteral _) .strict).2 fun h => by
      have := (hfits _).1 h
      omega⟩

end Backpatch
