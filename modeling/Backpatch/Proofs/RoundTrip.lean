import Mathlib
import Backpatch.Proofs.Finalization
import Backpatch.Proofs.Headers
import Backpatch.Proofs.Sections

/-!
# Snapshots are read back

After the layout of a snapshot, entries of its sections may still patch the body. The checksum is
the last entry. If no field of the body is pending at its turn, it sees the final bytes of the body
and seals the snapshot; otherwise the checksum stays unknown. In both cases the header is read back
from the bytes as it was built.
-/

namespace Backpatch

open Store Failable

theorem Image.drop_bytes (image : Image) (a : Nat) :
    image.bytes.drop a = image.slice a (image.size - a) := by
  rw [slice, List.take_of_length_le (by simp)]

theorem Image.read_to_end {image : Image} {a : Nat} (h : a ≤ image.size) :
    image.read a image.size = .ok (image.bytes.drop a) := by
  have hrange : image.checkRange a (image.size - a) = .ok () := by
    rw [checkRange, if_pos (by omega)]
  have hbytes : (image.data.extract a image.size).toList = image.bytes.drop a := by
    rw [Image.bytes, Array.toList_extract]
    simp [Image.size]
  simp only [read, if_neg (Nat.not_lt.2 h), hrange, ← hbytes]
  rfl

/-! ## Entries -/

namespace Segment

theorem entriesAll_of_isField {segments : List Segment} (h : ∀ x ∈ segments, x.IsField) :
    entriesAll segments = [] := by
  induction segments with
  | nil => rfl
  | cons x xs ih =>
    rw [entriesAll, ih fun y hy => h y (.tail _ hy), List.append_nil]
    cases x with
    | direct | deferred => rfl
    | mark | postProcess | nested => exact (h _ (.head _)).elim

end Segment

theorem Layout.runEntries_append {l : Layout} {enforce : Bool} {index : Nat} {xs ys : List Entry}
    {tally tally' : Tally} {s t : Store}
    (h : l.runEntries enforce index (xs ++ ys) tally s = .ok tally' t) :
    ∃ mid u, l.runEntries enforce index xs tally s = .ok mid u ∧
      l.runEntries enforce (index + xs.length) ys mid u = .ok tally' t := by
  induction xs generalizing index tally s with
  | nil => exact ⟨tally, s, rfl, h⟩
  | cons e xs ih =>
    obtain ⟨tally₁, s₁, hturn, h⟩ := bind_eq_ok.1 h
    obtain ⟨mid, u, hrest, h⟩ := ih h
    refine ⟨mid, u, bind_eq_ok.2 ⟨tally₁, s₁, hturn, hrest⟩, ?_⟩
    rwa [List.length_cons, ← Nat.add_assoc, Nat.add_right_comm]

namespace Snapshot.Builder

variable {b : Builder} {m n z : Nat} {i : ImageId} {first : FieldId} {s t : Store}

theorem entries_bodiesFrom {c lo : Nat} {parts : List PendingSection}
    (h : ∀ part ∈ parts, part.region.Within lo) :
    ∀ e ∈ Segment.entriesAll (bodiesFrom c parts), e.Within lo := by
  induction parts generalizing c with
  | nil => simp [bodiesFrom, Segment.entriesAll]
  | cons part rest ih =>
    intro e he
    obtain he | he := List.mem_append.1
      (show e ∈ Segment.entriesAll part.region.segments ++ Segment.entriesAll _ from he)
    · exact Segment.WithinAll.entries (h part (.head _)) e he
    · exact ih (fun part hp => h part (.tail _ hp)) e he

/-- The entries of a snapshot are those of its sections. -/
theorem entries_segments (hb : b.Within m) :
    ∀ e ∈ Segment.entriesAll (b.headerFrom m ++ .mark m ::
      (bodiesFrom (m + 3) b.sections.toList ++ [.mark (m + 1)])), e.Within m := by
  rw [Segment.entriesAll_append, Segment.entriesAll_of_isField (isField_headerFrom b m)]
  change ∀ e ∈ Segment.entriesAll (_ ++ _), _
  rw [Segment.entriesAll_append]
  change ∀ e ∈ _ ++ [], _
  rw [List.append_nil]
  exact entries_bodiesFrom fun part hp => hb part (by simpa using hp)

theorem LaidOut.keep {C : Nat → Prop} (h : b.LaidOut m z i s) (hsame : Same C s t)
    (hC : ∀ x : Nat, m ≤ x → x < m + 5 + 3 * b.sections.size → x ≠ m + 2 → C x)
    (hst : Steps (Move.Settles n) s t) : b.LaidOut m z i t :=
  have hwrites : Steps (Move.Writes i n) s t := hst.mono fun _ => Move.Settles.writes
  have hlength : b.sections.toList.length = b.sections.size := Array.length_toList
  { size := (hst.size_image fun _ => Move.Settles.not_draws).trans h.size
    magic := h.magic.steps hwrites
    version := h.version.steps hwrites
    count := h.count.steps hwrites
    headerFits := h.headerFits
    headerEnd := (hsame.value? (hC m (by omega) (by omega) (by omega))).trans h.headerEnd
    headerSize := h.headerSize.same hsame (hC _ (by omega) (by omega) (by omega))
    imageFits := h.imageFits
    imageEnd := (hsame.value? (hC _ (by omega) (by omega) (by omega))).trans h.imageEnd
    imageSize := h.imageSize.same hsame (hC _ (by omega) (by omega) (by omega))
    body := h.body
    boundary := h.boundary.steps hwrites
    sections := h.sections.same hsame (fun x hx hx' => hC x (by omega) (by omega) (by omega))
      fun x hx hx' => hC x (by omega) (by omega) (by omega) }

/-- Entries of the sections do not reach the cells of the snapshot. -/
theorem AwaitsChecksum.keep (h : AwaitsChecksum m n i first s) (hst : Steps (Move.Settles m) s t) :
    AwaitsChecksum m n i first t ∧ Same (fun c => m ≤ c ∧ c < m + 6 + 3 * n) s t := by
  obtain ⟨hstage, hsame⟩ := h.stage.foreign (hst.mono fun _ => Move.Settles.writes)
  refine ⟨?_, hsame⟩
  exact {
    stage := hstage
    crcField := h.crcField.same hsame (by omega)
    given := hsame.cells (m + 2) (by omega) ▸ h.given
    pending := (hsame.value? (by omega)).trans h.pending
    passes := hsame.cells (m + 5 + 3 * n) (by omega) ▸ h.passes }

/-! ## The checksum -/

/-- The checksum of the body is known and stands in the header. -/
def Sealed (s : Store) (i : ImageId) (m n : Nat) : Prop :=
  s.value? (m + 5 + 3 * n) =
      some (.int (Digest.crc16 ((s.image i).bytes.drop (16 + 2 * n))).toNat) ∧
    (s.image i).slice 12 2 =
      Bytes.littleEndian 2 (Digest.crc16 ((s.image i).bytes.drop (16 + 2 * n))).toNat

/-- The checksum is not known: there are zeros for it in the header, and both this word and some
field of the body are pending. -/
structure Unsealed (l : Layout) (s : Store) (i : ImageId) (m n : Nat) : Prop where
  pending : s.value? (m + 5 + 3 * n) = none
  zeros : (s.image i).slice 12 2 = [0, 0]
  crcField : ∃ p ∈ l.pending s, p.offset = 12 ∧ p.width = 2
  body : ∃ p ∈ l.pending s, 16 + 2 * n ≤ p.offset ∧ p.offset + p.width ≤ (s.image i).size

/-- A pending field in the range of the checksum keeps the snapshot from being sealed. -/
theorem AwaitsChecksum.unsealed {l : Layout} (h : AwaitsChecksum m n i l.first s)
    (hboundary : Fixed s i (16 + 2 * n) []) (howns : Owns s i l.first)
    (hlast : s.placeholders.size = l.last)
    (hcovered : (l.pending s).any (·.overlaps (16 + 2 * n) z) = true) : Unsealed l s i m n := by
  obtain ⟨hvalue, f, id, hf, hqueue, hfield, hzeros⟩ := h.crcField
  obtain ⟨p, hp, hoverlaps⟩ := List.any_eq_true.1 hcovered
  simp only [Placeholder.overlaps, Bool.and_eq_true, decide_eq_true_eq] at hoverlaps
  refine ⟨h.pending, hzeros, ⟨_, Layout.mem_pending.2 ⟨f, hf, ?_, hfield, rfl⟩, rfl, rfl⟩,
    p, hp, ?_⟩
  · exact hlast ▸ (Array.getElem?_eq_some_iff.1 hfield).1
  · obtain ⟨g, hg, -, hgp, -⟩ := Layout.mem_pending.1 hp
    have hinside := (h.stage.valid.fields g p hgp).2.2
    obtain rfl := howns g p hg hgp
    have hclear := hboundary.clear g p hgp rfl
    simp only [List.length_nil] at hclear
    exact ⟨by omega, hinside⟩

/-- The checksum is passed on to the header. -/
theorem AwaitsChecksum.forwards (h : AwaitsChecksum m n i first s)
    (x : Datum) (settle : CellId → Datum → Op Unit) :
    runSubscriber settle (.act (.forward (.cell (m + 2)))) x (s.delivered (m + 5 + 3 * n) x) =
      settle (m + 2) x (s.delivered (m + 5 + 3 * n) x) := by
  have hne : m + 2 ≠ m + 5 + 3 * n := by omega
  have hgiven : ((s.delivered (m + 5 + 3 * n) x).cell (m + 2)).derived = false := by
    rw [cell_delivered, if_neg fun hd => hne hd.1]
    exact h.given
  simp [runSubscriber, runAction, find?, resolveBy, hgiven]

/-- Settling the checksum seals the snapshot and leaves the body as it is. -/
theorem AwaitsChecksum.sealed (h : AwaitsChecksum m n i first s) :
    ∃ t, settleOrConfirm (m + 5 + 3 * n)
        (.int (Digest.crc16 ((s.image i).bytes.drop (16 + 2 * n))).toNat) s = .ok () t ∧
      Sealed t i m n ∧ Only (fun x => x = m + 5 + 3 * n ∨ x = m + 2) s t ∧
      Steps (Move.Settles (m + 6 + 3 * n)) s t := by
  generalize hcrc : (Digest.crc16 ((s.image i).bytes.drop (16 + 2 * n))).toNat = crc
  have hlt : crc < Bytes.wordCount IntFormat.u16le.width := hcrc ▸ UInt16.toNat_lt _
  have hencode : word.encode (.int crc) = .ok (Bytes.littleEndian 2 crc) := by
    rw [word, FixedFormat.encode, IntFormat.encode_natCast rfl rfl, if_pos hlt]
    rfl
  have hne : m + 2 ≠ m + 5 + 3 * n := by omega
  obtain ⟨id, hqueue⟩ := h.passes
  obtain ⟨t, hsettle, honly, hvalue, -, ⟨f, p, -, -, -, -, -, hslice⟩, hsize, hrest⟩ :=
    h.crcField.written h.stage.valid hne h.pending hqueue (by simp [Subscriber.weight])
      (h.forwards (.int crc)) hencode
  have hbody : (t.image i).bytes.drop (16 + 2 * n) = (s.image i).bytes.drop (16 + 2 * n) := by
    rw [Image.drop_bytes, Image.drop_bytes, hsize]
    exact hrest _ _ (by change 14 ≤ _; omega)
  have hcell : m + 5 + 3 * n < s.cells.size := by
    have := h.stage.reserved.size
    omega
  refine ⟨t, (settleOrConfirm_of_pending h.pending).trans hsettle, ?_, honly, ?_⟩
  · rw [Sealed, hbody, hcrc]
    exact ⟨hvalue, hslice⟩
  · rw [← after_of_ok hsettle]
    exact steps_settle h.stage.valid hcell (show m + 5 + 3 * n < m + 6 + 3 * n by omega)

/-- The range of the checksum is the body. -/
theorem LaidOut.bounds_checksumEntry (h : b.LaidOut m z i s) :
    Layout.bounds (checksumEntry (referencesFrom m b.sections.size)
      (m + 5 + 3 * b.sections.size)) s = (some (16 + 2 * b.sections.size), some z) := by
  rw [Layout.bounds, checksumEntry, referencesFrom, offset?, offset?, h.headerEnd, h.imageEnd]
  rfl

theorem LaidOut.applyEntry_checksum {l : Layout} (h : b.LaidOut m z i s) (hi : l.image = i) :
    l.applyEntry (checksumEntry (referencesFrom m b.sections.size)
        (m + 5 + 3 * b.sections.size)) (16 + 2 * b.sections.size) z s =
      settleOrConfirm (m + 5 + 3 * b.sections.size)
        (.int (Digest.crc16 ((s.image i).bytes.drop (16 + 2 * b.sections.size))).toNat) s := by
  have hread : (s.image i).read (16 + 2 * b.sections.size) z = .ok _ :=
    h.size ▸ Image.read_to_end (h.size ▸ h.body)
  simp [Layout.applyEntry, hi, hread, checksumEntry]

/-- The turn of the checksum. -/
theorem LaidOut.checksum {l : Layout} {enforce : Bool} {index : Nat} {tally tally' : Tally}
    (h : b.LaidOut m z i s) (hc : AwaitsChecksum m b.sections.size i l.first s) (hi : l.image = i)
    (howns : Owns s i l.first) (hlast : s.placeholders.size = l.last)
    (hrun : l.runEntry enforce index (checksumEntry (referencesFrom m b.sections.size)
      (m + 5 + 3 * b.sections.size)) tally s = .ok tally' t) :
    b.LaidOut m z i t ∧ (Sealed t i m b.sections.size ∨ Unsealed l t i m b.sections.size) := by
  rw [Layout.runEntry_run, h.bounds_checksumEntry] at hrun
  dsimp only at hrun
  split_ifs at hrun with hcovered
  · cases hrun
    have hnote : Steps (Move.Settles m) s ((emit (.skippedCovered index
      (16 + 2 * b.sections.size) z)).after s) := steps_emit _ fun _ _ _ => trivial
    have hunsealed := hc.unsealed h.boundary howns hlast hcovered
    refine ⟨h.keep (hc.keep hnote).2 (fun x hx hx' _ => by omega) hnote, .inr ?_⟩
    exact ⟨hunsealed.pending, hunsealed.zeros, hunsealed.crcField, hunsealed.body⟩
  · obtain ⟨u, hsettle, hsealed, honly, hst⟩ := hc.sealed
    rw [h.applyEntry_checksum hi, hsettle] at hrun
    cases hrun
    exact ⟨h.keep honly.toSame (fun x hx hx' _ => by omega) hst, .inl hsealed⟩

/-- The turns of all entries, those of the sections first. -/
theorem LaidOut.runEntries {l : Layout} {enforce : Bool} {entries : List Entry} {tally : Tally}
    (h : b.LaidOut m z i s) (hc : AwaitsChecksum m b.sections.size i l.first s) (hi : l.image = i)
    (howns : Owns s i l.first) (hlast : s.placeholders.size = l.last)
    (hw : ∀ e ∈ entries, e.Within m)
    (hrun : l.runEntries enforce 0 (entries ++ [checksumEntry (referencesFrom m b.sections.size)
      (m + 5 + 3 * b.sections.size)]) {} s = .ok tally t) :
    b.LaidOut m z i t ∧ (Sealed t i m b.sections.size ∨ Unsealed l t i m b.sections.size) := by
  obtain ⟨mid, u, hentries, hrun⟩ := Layout.runEntries_append hrun
  obtain ⟨tally', v, hturn, hpure⟩ := bind_eq_ok.1 hrun
  cases hpure
  have hm : m ≤ s.cells.size := by
    have := hc.stage.reserved.size
    omega
  have hst : Steps (Move.Settles m) s u :=
    after_of_ok hentries ▸ Layout.steps_runEntries l enforce 0 {} hc.stage.valid hm hw
  obtain ⟨hc', hsame⟩ := hc.keep hst
  refine (h.keep hsame (fun x hx hx' _ => by omega) hst).checksum hc' hi
    (howns.steps (hst.mono fun _ => Move.Settles.writes)) ?_ hturn
  exact (hst.size_placeholders fun _ => Move.Settles.not_draws).trans hlast

/-! ## Building -/

theorem build_eq_ok {config : FlattenConfig} {snap : Snapshot} (h : b.build config s = .ok snap t) :
    ∃ refs crc r u summary v, b.prepare s = .ok (refs, crc, r) u ∧
      r.flattenObserved u.images.size config config.observer
        { u with images := u.images.push {} } = .ok summary v ∧
      b.collect config refs crc u.images.size summary v = .ok snap t := by
  obtain ⟨⟨refs, crc, r⟩, u, hprepare, h⟩ := bind_eq_ok.1 h
  obtain ⟨i, u', himage, h⟩ := bind_eq_ok.1 h
  cases himage
  obtain ⟨summary, v, hflatten, h⟩ := bind_eq_ok.1 h
  exact ⟨refs, crc, r, u, summary, v, hprepare, hflatten, h⟩

/-- The store with a new image is ready for the layout of a snapshot. -/
theorem stage_newImage (hv : Valid s []) {r : Region} {refs : References} {crc : CellId} {u : Store}
    (hprepare : b.prepare s = .ok (refs, crc, r) u) :
    Stage s.cells.size (s.cells.size + 6 + 3 * b.sections.size) u.images.size
      { u with images := u.images.push {} } := by
  obtain ⟨-, -, -, -, hprepared, honly⟩ := prepare_prepared hprepare
  have hsu : Steps Move.Plain s u := after_of_ok hprepare ▸ steps_prepare b s
  have hnew : Steps Move.Plain u { u with images := u.images.push {} } :=
    .quiet (m := .newImage) trivial trivial rfl
  have hreserved := hv.reserved honly
  rw [hprepared.size] at hreserved
  refine ⟨(hsu.trans hnew).valid hv, ?_, by simp⟩
  exact ⟨hreserved.size, hreserved.names, hreserved.subscriptions, hreserved.queues⟩

section Flattening

variable {r : Region} {refs : References} {crc : CellId} {u v : Store} {observer : Observer}

theorem laidOut_of_layoutObserved {l : Layout} (hv : Valid s []) (hb : b.Within s.cells.size)
    (hprepare : b.prepare s = .ok (refs, crc, r) u)
    (hlayout : r.layoutObserved u.images.size observer { u with images := u.images.push {} } =
      .ok l v) :
    b.LaidOut s.cells.size (v.image u.images.size).size u.images.size v ∧
      AwaitsChecksum s.cells.size b.sections.size u.images.size l.first v ∧
      l.image = u.images.size ∧ Owns v u.images.size l.first ∧ v.placeholders.size = l.last := by
  obtain ⟨rfl, rfl, -, hsegments, hp, -⟩ := prepare_prepared hprepare
  rw [segments_eq] at hsegments
  obtain ⟨hemit, rfl⟩ := Region.layoutObserved_eq_ok hlayout
  have hwithin : r.Within (s.cells.size + 6 + 3 * b.sections.size) :=
    hp.size ▸ prepare_within hprepare hb
  have hstage (event : Event) :=
    ((stage_newImage hv hprepare).foreign (steps_emit event fun _ _ _ => trivial)).1
  have hemits := emitObserved_emits hemit
  have hsteps := hemits.steps (hstage _).valid (hstage _).image (hstage _).reserved.size hwithin
  rw [hsegments] at hemits
  obtain ⟨w, hemits, x, hpost, hx⟩ := hemits.append
  obtain rfl : v = x := hx
  have hempty : (u.image u.images.size).size = 0 :=
    congrArg Image.size (image_of_size_le u _ le_rfl)
  have hprepared (event : Event) : Prepared s.cells.size b.sections.size
      ((emit event).after { u with images := u.images.push {} }) :=
    ⟨⟨hp.header, hp.image, hp.starts, hp.stops, hp.headerSize, hp.imageSize, hp.offsets,
      hp.crcField, hp.given⟩, hp.size, hp.crc⟩
  obtain ⟨hlaid, hawaits⟩ := (hprepared _).laidOut (hstage _) hb
    ((congrArg Image.size (image_newImage u _)).trans hempty) le_rfl hemits
  -- The checksum entry appends nothing.
  obtain ⟨w', log, trace, reports, hrun, rfl⟩ := hpost
  cases hrun
  have hjournal : Steps (Move.Settles s.cells.size) w { w with log, trace, reports } :=
    .quiet (m := .journal log trace reports) trivial trivial rfl
  obtain ⟨hawaits, hsame⟩ := hawaits.keep hjournal
  refine ⟨hlaid.keep hsame (fun x hx hx' _ => by omega) hjournal, hawaits, rfl, ?_, rfl⟩
  refine Owns.steps (fun f p hf hp => ?_) hsteps
  exact absurd (Array.getElem?_eq_some_iff.1 hp).1 (Nat.not_lt.2 hf)

/-- The store after the turns of all entries, and what is known of the one after flattening. -/
theorem sealed_or_unsealed {config : FlattenConfig} {summary : FlattenSummary} (hv : Valid s [])
    (hb : b.Within s.cells.size) (hprepare : b.prepare s = .ok (refs, crc, r) u)
    (hflatten : r.flattenObserved u.images.size config observer
      { u with images := u.images.push {} } = .ok summary v) :
    ∃ l w, b.LaidOut s.cells.size (v.image u.images.size).size u.images.size w ∧
      (Sealed w u.images.size s.cells.size b.sections.size ∨
        Unsealed l w u.images.size s.cells.size b.sections.size) ∧
      summary.unresolved = l.pendingFields w ∧ v.images = w.images ∧
      ∀ c, v.value? c = w.value? c := by
  obtain ⟨l, v₁, v₂, hlayout, hfinalize, himages, hvalues⟩ := Region.flattenObserved_eq_ok hflatten
  obtain ⟨hlaid, hawaits, hi, howns, hlast⟩ := laidOut_of_layoutObserved hv hb hprepare hlayout
  obtain ⟨rfl, rfl, -, hsegments, hp, -⟩ := prepare_prepared hprepare
  rw [segments_eq] at hsegments
  have hstage := stage_newImage hv hprepare
  have hwithin : r.Within u.cells.size := prepare_within hprepare hb
  have hst : Steps Move.Plain { u with images := u.images.push {} } v₁ :=
    after_of_ok hlayout ▸ Region.steps_layoutObserved observer hstage.valid hstage.image hwithin
  have hentries : l.entries = r.entries := by rw [(Region.layoutObserved_eq_ok hlayout).2]
  obtain ⟨tally, w, hrun, -, rfl, hcloses⟩ := Layout.finalizeObserved_eq_ok hawaits.stage.valid
    (hentries ▸ fun e he => (Segment.WithinAll.entries hwithin e he).mono hst.grows.cells) hfinalize
  rw [hentries, Region.entries, hsegments, Segment.entriesAll_append] at hrun
  obtain ⟨hw, hcases⟩ := hlaid.runEntries hawaits hi howns hlast (entries_segments hb) hrun
  obtain ⟨himages', -, hvalues'⟩ := hcloses.closes
  refine ⟨l, w, ?_, hcases, rfl, himages.trans himages', fun c => (hvalues c).trans (hvalues' c)⟩
  have hsize : (v.image u.images.size).size = (v₁.image u.images.size).size := by
    rw [image, himages.trans himages']
    exact hw.size
  rwa [hsize]

end Flattening

theorem collect_eq_ok {config : FlattenConfig} {summary : FlattenSummary} {snap : Snapshot}
    {infos : List SectionInfo} {refs : References} {crc : CellId}
    (hinfos : ((b.sections.toList.zip refs.bounds).mapM fun p => sectionInfo p.1 p.2) s =
      .ok infos s)
    (h : b.collect config refs crc i summary s = .ok snap t) :
    snap.bytes = (s.image i).bytes ∧ snap.crc = s.offset? crc ∧ snap.sections = infos ∧
      snap.summary = summary ∧ (s.offset? crc = none → config.enforceComplete = false) := by
  obtain ⟨infos', u, hinfos', h⟩ := bind_eq_ok.1 h
  cases hinfos.symm.trans hinfos'
  simp only [bind_run, get_run] at h
  split_ifs at h with hmissing
  · cases h
  · cases h
    exact ⟨rfl, rfl, rfl, rfl, fun hnone => by simpa [hnone] using hmissing⟩

/-- The bytes of a laid out snapshot: its header and its body. -/
theorem LaidOut.bytes_eq (h : b.LaidOut m z i s) {crc : Nat} {offsets : List Nat}
    (hcrc : (s.image i).slice 12 2 = Bytes.littleEndian 2 crc)
    (hlength : offsets.length = b.sections.size)
    (htable : (s.image i).slice 16 (2 * b.sections.size) =
      offsets.flatMap (Bytes.littleEndian 2)) :
    (s.image i).bytes =
      (⟨b.version.toNat, 16 + 2 * b.sections.size, z, crc, offsets⟩ : Header).encode ++
        (s.image i).bytes.drop (16 + 2 * b.sections.size) := by
  have hmagic : (s.image i).slice 0 4 = Bytes.littleEndian 4 Snapshot.magic := h.magic.bytes
  have hversion : (s.image i).slice 4 2 = Bytes.littleEndian 2 b.version.toNat := h.version.bytes
  have hcount : (s.image i).slice 14 2 = Bytes.littleEndian 2 b.sections.size := h.count.bytes
  have hheaderSize : (s.image i).slice 6 2 = Bytes.littleEndian 2 (16 + 2 * b.sections.size) :=
    let ⟨_, _, _, _, _, _, _, hslice⟩ := h.headerSize
    hslice
  have himageSize : (s.image i).slice 8 4 = Bytes.littleEndian 4 z :=
    let ⟨_, _, _, _, _, _, _, hslice⟩ := h.imageSize
    hslice
  have hheader : (s.image i).slice 0 (4 + (2 + (2 + (4 + (2 + (2 + 2 * b.sections.size)))))) =
      (⟨b.version.toNat, 16 + 2 * b.sections.size, z, crc, offsets⟩ : Header).encode := by
    simp only [Image.slice_add, Nat.zero_add, Nat.reduceAdd, hmagic, hversion, hheaderSize,
      himageSize, hcrc, hcount, htable, Header.encode, hlength]
  rw [← hheader, show 4 + (2 + (2 + (4 + (2 + (2 + 2 * b.sections.size))))) =
    16 + 2 * b.sections.size by omega]
  exact (List.take_append_drop ..).symm

/-- The header is read back from the bytes of a laid out snapshot. -/
theorem LaidOut.parse_bytes (h : b.LaidOut m z i s) {crc : Nat} {offsets : List Nat}
    (hcrc : (s.image i).slice 12 2 = Bytes.littleEndian 2 crc) (hlt : crc < 65536)
    (hlength : offsets.length = b.sections.size) (hoffsets : ∀ o ∈ offsets, o < 65536)
    (htable : (s.image i).slice 16 (2 * b.sections.size) =
      offsets.flatMap (Bytes.littleEndian 2)) :
    Header.parse (s.image i).bytes =
      .ok ⟨b.version.toNat, 16 + 2 * b.sections.size, z, crc, offsets⟩ := by
  have hbytes := h.bytes_eq hcrc hlength htable
  have hsize : (s.image i).bytes.length = z := h.size
  have hfits : Header.Fits ⟨b.version.toNat, 16 + 2 * b.sections.size, z, crc, offsets⟩
      (s.image i).bytes.length := {
    version := b.version.toNat_lt
    headerSize := by rw [hlength]; rfl
    headerFits := h.headerFits
    imageSize := hsize.ge
    imageFits := h.imageFits
    body := h.body
    crc := hlt
    sectionOffsets := hoffsets }
  rw [hbytes] at hfits ⊢
  exact Header.parse_encode hfits

end Snapshot.Builder

open Snapshot in
/-- Snapshots are read back. Whatever was done before, if a snapshot is built, the header in front
of its bytes has the version and the sizes, and the sections tile the body from the offsets in the
header. If the checksum is known, it is the one of the final body and verified by the header. It is
unknown only in a tolerant run, if a field of the body is missing. -/
theorem snapshot_header_round_trip {calls : List Call} {s t : Store} {b : Builder}
    {config : FlattenConfig} {snap : Snapshot} (hbefore : Run {} calls s)
    (hb : b.Within s.cells.size) (hbuild : b.build config s = .ok snap t) :
    ∃ header, Header.parse snap.bytes = .ok header ∧ header.version = b.version.toNat ∧
      header.headerSize = 16 + 2 * b.sections.size ∧ header.imageSize = snap.size ∧
      header.sectionOffsets = snap.sections.map (·.offset) ∧
      snap.sections.length = b.sections.size ∧
      Tiles header.headerSize snap.size snap.sections ∧
      (∀ c, snap.crc = some c →
        c = (Digest.crc16 (snap.bytes.drop header.headerSize)).toNat ∧ header.crc = c ∧
        header.verify snap.bytes = true) ∧
      (snap.crc = none →
        config.enforceComplete = false ∧ header.crc = 0 ∧ (snap.bytes.drop 12).take 2 = [0, 0] ∧
        (∃ field ∈ snap.summary.unresolved, field.offset = 12 ∧ field.width = 2) ∧
        ∃ field ∈ snap.summary.unresolved, header.headerSize ≤ field.offset ∧
          field.offset + field.width ≤ snap.size) := by
  obtain ⟨refs, crc, r, u, summary, v, hprepare, hflatten, hcollect⟩ := Builder.build_eq_ok hbuild
  obtain ⟨l, w, hlaid, hcases, hunresolved, himages, hvalues⟩ :=
    Builder.sealed_or_unsealed hbefore.valid hb hprepare hflatten
  obtain ⟨rfl, rfl, -, -, -, -⟩ := Builder.prepare_prepared hprepare
  obtain ⟨infos, hinfos, htiles, hlength, hoffsets, htable⟩ := hlaid.sections.infos hvalues
  rw [Array.length_toList] at hinfos hlength htable
  obtain ⟨hbytes, hcrc, rfl, rfl, hstrict⟩ := Builder.collect_eq_ok hinfos hcollect
  have himage : v.image u.images.size = w.image u.images.size := by rw [image, himages, image]
  have hsize : (v.image u.images.size).size = snap.size := by
    rw [Snapshot.size, hbytes]
    rfl
  rw [himage] at hbytes
  rw [hsize] at hlaid htiles
  rw [offset?, hvalues] at hcrc hstrict
  have hparse : ∀ x < 65536, (w.image u.images.size).slice 12 2 = Bytes.littleEndian 2 x →
      Header.parse snap.bytes = .ok ⟨b.version.toNat, 16 + 2 * b.sections.size, snap.size, x,
        snap.sections.map (·.offset)⟩ := fun x hx hslice =>
    hbytes ▸ hlaid.parse_bytes hslice hx (by simpa using hlength) hoffsets htable
  obtain hsealed | hunsealed := hcases
  · refine ⟨_, hparse _ (UInt16.toNat_lt _) hsealed.2, rfl, rfl, rfl, rfl, hlength, htiles,
      fun c hc => ?_, fun hnone => ?_⟩
    · rw [hsealed.1, ← hbytes] at hcrc
      obtain rfl := Option.some.inj (hcrc.symm.trans hc)
      rw [← hbytes]
      exact ⟨rfl, rfl, Header.verify_of_crc rfl hlaid.body rfl⟩
    · rw [hsealed.1] at hcrc
      cases hcrc.symm.trans hnone
  · have hzeros : (w.image u.images.size).slice 12 2 = Bytes.littleEndian 2 0 := hunsealed.zeros
    rw [hunsealed.pending] at hcrc hstrict
    refine ⟨_, hparse 0 (by decide) hzeros, rfl, rfl, rfl, rfl, hlength, htiles, fun c hc => ?_,
      fun hnone => ⟨hstrict rfl, rfl, ?_, ?_, ?_⟩⟩
    · cases hcrc.symm.trans hc
    · rw [hbytes]
      exact hunsealed.zeros
    · obtain ⟨p, hp, hoffset, hwidth⟩ := hunsealed.crcField
      exact ⟨p.report, hunresolved ▸ List.mem_map_of_mem hp, hoffset, hwidth⟩
    · obtain ⟨p, hp, hoffset, hinside⟩ := hunsealed.body
      exact ⟨p.report, hunresolved ▸ List.mem_map_of_mem hp, hoffset, hlaid.size ▸ hinside⟩

/-! The second section holds the sum of the first one, which is known only after the layout. The
checksum covers it all the same. -/

def summedCalls : List Call :=
  [.newCell .offset none false, .newCell .offset none false, .newCell (.int .u8) none true,
    .tryMap 2 (.int .i64) .ok]

def summedStore : Store := summedCalls.foldl (fun s call => call.run.after s) {}

def summedBuilder : Snapshot.Builder :=
  let sum (bytes : Bytes) : Datum := .int (Digest.sum8 bytes).toNat
  { version := 7
    sections := #[⟨"data", ⟨[.mark 0, .direct [1, 2] {}, .mark 1, .postProcess ⟨0, 1, sum, 2⟩]⟩⟩,
      ⟨"sum", ⟨[.deferred (.int .u8) 3 none]⟩⟩] }

open Snapshot in
theorem snapshot_header_round_trip_summed :
    ∃ snap t header, summedBuilder.build .strict summedStore = .ok snap t ∧
      snap.bytes.drop 20 = [1, 2, 3] ∧ snap.crc = some 0xADAD ∧
      Header.parse snap.bytes = .ok header ∧ header.version = 7 ∧ header.headerSize = 20 ∧
      header.sectionOffsets = snap.sections.map (·.offset) ∧ Tiles 20 23 snap.sections ∧
      header.crc = 0xADAD ∧ header.verify snap.bytes = true := by
  have hrun : (match summedBuilder.build .strict summedStore with
      | .ok snap _ =>
        decide (snap.bytes.drop 20 = [1, 2, 3] ∧ snap.crc = some 0xADAD ∧ snap.size = 23)
      | .error .. => false) = true := by decide +kernel
  cases hbuild : summedBuilder.build .strict summedStore with
  | error e t => simp [hbuild] at hrun
  | ok snap t =>
    simp only [hbuild, decide_eq_true_eq] at hrun
    have hbefore : Run {} summedCalls summedStore :=
      .cons trivial (.cons trivial (.cons trivial (.cons (show 2 < _ by decide +kernel) (.nil _))))
    have hwithin : summedBuilder.Within summedStore.cells.size := by
      have hsize : summedStore.cells.size = 4 := by decide +kernel
      simp [summedBuilder, Builder.Within, Region.Within, Segment.WithinAll, Segment.Within,
        Entry.Within, hsize]
    obtain ⟨header, hparse, hversion, hheader, -, hoffsets, -, htiles, hsealed, -⟩ :=
      snapshot_header_round_trip hbefore hwithin hbuild
    obtain ⟨-, hcrc, hverify⟩ := hsealed _ hrun.2.1
    have hsize : header.headerSize = 20 := hheader
    rw [hsize, hrun.2.2] at htiles
    exact ⟨snap, t, header, rfl, hrun.1, hrun.2.1, hparse, hversion, hsize, hoffsets, htiles, hcrc,
      hverify⟩

end Backpatch
