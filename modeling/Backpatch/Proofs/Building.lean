import Mathlib
import Backpatch.Proofs.Operations

/-!
# Building a snapshot as steps

The region of a snapshot refers to cells that exist, so building it is plain like any flattening.
-/

namespace Backpatch

open Store Failable

theorem IntFormat.encode_natCast {f : IntFormat} (hs : f.signed = false) (hb : f.bigEndian = false)
    (n : Nat) : f.encode n = if n < Bytes.wordCount f.width then .ok (Bytes.littleEndian f.width n)
      else .error (.valueOutOfRange (toString (n : Int)) f.name) := by
  have hle : f.least = 0 := by simp [IntFormat.least, Word.least, hs]
  have hge : f.greatest = (Bytes.wordCount f.width : Int) - 1 := by
    cases f with
    | u8 | u16le | u32le | u64le => rfl
    | i8 | i16le | i32le | i64le => simp [IntFormat.signed] at hs
    | u16be | u32be => simp [IntFormat.bigEndian] at hb
  unfold IntFormat.encode
  by_cases hn : n < Bytes.wordCount f.width
  · have hmod : ((n : Int) % (Bytes.wordCount f.width : Nat)).toNat = n := by
      rw [Int.emod_eq_of_lt (by omega) (by omega)]
      rfl
    rw [if_pos (by omega), if_pos hn]
    simp [hb, Bytes.twosComplement, hmod]
  · rw [if_neg (by omega), if_neg hn]

/-- The move notes something, makes a cell or an image, or lets a lasting callback wait. -/
def Move.Prepares : Move → Prop
  | .journal .. | .create .. | .attach .. | .newImage => True
  | .watch _ a => a.Lasting
  | _ => False

theorem Move.Prepares.plain {m : Move} (h : m.Prepares) : m.Plain := by
  cases m with
  | journal | create | attach | newImage => trivial
  | watch => exact h
  | _ => exact h.elim

theorem Move.Creates.prepares {m : Move} (h : m.Creates) : m.Prepares := by
  cases m <;> trivial

namespace Snapshot.Builder

variable {s : Store} {b : Builder} {n : Nat}

def References.Within (n : Nat) (refs : References) : Prop :=
  refs.endOfHeader < n ∧ refs.endOfImage < n ∧ refs.crcField < n ∧
    ∀ p ∈ refs.bounds, p.1 < n ∧ p.2 < n

theorem steps_newCell (kind : Kind) (value : Option Datum) (derived : Bool) (s : Store) :
    Steps Move.Creates s (s.addCell { kind, value, derived }) :=
  .quiet (m := .create kind value derived) trivial trivial rfl

/-- The start and the end of a section. -/
def newBounds : Op (CellId × CellId) := do
  return (← Store.newCell .offset none false, ← Store.newCell .offset none true)

theorem steps_newReferences (n : Nat) : Steps Move.Creates s ((newReferences n).after s) ∧
    ∀ refs t, newReferences n s = .ok refs t → refs.Within t.cells.size := by
  let s₁ := s.addCell { kind := .offset }
  let s₂ := s₁.addCell { kind := .offset }
  let s₃ := s₂.addCell { kind := .int .i64 }
  have h₃ : Steps Move.Creates s s₃ :=
    ((steps_newCell ..).trans (steps_newCell ..)).trans (steps_newCell ..)
  have loop := Steps.mapM (s := s₃) (P := Move.Creates) (f := fun _ => newBounds)
    (G := fun p t => p.1 < t.cells.size ∧ p.2 < t.cells.size) (l := List.range n)
    (fun _ _ t _ => (steps_newCell ..).trans (steps_newCell ..))
    (fun _ _ t p u _ h => by
      cases h
      simp)
    (fun p t u htu h => ⟨h.1.trans_le htu.grows.cells, h.2.trans_le htu.grows.cells⟩)
  have hrun : newReferences n s = (do
      let bounds ← (List.range n).mapM fun _ => newBounds
      return ⟨s.cells.size, s₁.cells.size, s₂.cells.size, bounds⟩ : Op References) s₃ := rfl
  constructor
  · unfold after
    rw [hrun]
    exact h₃.trans (loop.1.bind fun _ t _ _ => .refl t)
  · intro refs t h
    rw [hrun] at h
    obtain ⟨bounds, u, hb, h⟩ := bind_eq_ok.1 h
    cases h
    have hsize := loop.1.grows.cells
    rw [after_of_ok hb] at hsize
    simp only [s₁, s₂, s₃, size_addCell] at hsize
    refine ⟨show s.cells.size < _ by omega, show s₁.cells.size < _ by simp [s₁]; omega,
      show s₂.cells.size < _ by simp [s₁, s₂]; omega, loop.2 bounds t hb⟩

/-- A field with a known number. -/
def knownField (f : IntFormat) (n : Nat) (label : String) : Segment :=
  .direct (Bytes.littleEndian f.width n)
    ((Format.fixed (.int f)).describe (some (.int n)) (some label))

def fixedSegments (b : Builder) (headerSize imageSize crc : CellId) : List Segment :=
  [knownField .u32le magic "magic", knownField .u16le b.version.toNat "version",
    .deferred word headerSize (some "header size"),
    .deferred (.int .u32le) imageSize (some "bytecode size"),
    .deferred word crc (some "crc"),
    knownField .u16le b.sections.size "section count"]

theorem writeField_known {r : Region} {f : IntFormat} (hs : f.signed = false)
    (hb : f.bigEndian = false) (n : Nat) (label : String) :
    r.writeField (.int f) (.known (.int n)) (some label) =
      if n < Bytes.wordCount f.width then .ok (r.push (knownField f n label))
      else .error (.valueOutOfRange (toString (n : Int)) f.name) := by
  simp only [Region.writeField, Region.write, Format.encode, FixedFormat.encode,
    IntFormat.encode_natCast hs hb]
  split_ifs <;> rfl

theorem fixedFields_run (b : Builder) (headerSize imageSize crc : CellId) :
    b.fixedFields headerSize imageSize crc =
      if b.sections.size < 65536 then .ok ⟨b.fixedSegments headerSize imageSize crc⟩
      else .error (.valueOutOfRange (toString (b.sections.size : Int)) "U16Le") := by
  have hv : b.version.toNat < Bytes.wordCount IntFormat.u16le.width := b.version.toNat_lt
  unfold fixedFields word
  rw [writeField_known rfl rfl, if_pos (by decide)]
  simp only [Bind.bind, Except.bind]
  rw [writeField_known rfl rfl, if_pos hv]
  simp only [Region.writeField.eq_2]
  rw [writeField_known rfl rfl]
  rfl

/-- The segments of a snapshot, given the cells of the words in its header. -/
def segments (b : Builder) (refs : References) (headerSize imageSize : CellId)
    (offsets : List CellId) : List Segment :=
  b.fixedSegments headerSize imageSize refs.crcField ++
    List.zipWith (fun part c => Segment.deferred word c (some part.name)) b.sections.toList
      offsets ++
    .mark refs.endOfHeader :: (List.zipWith body b.sections.toList refs.bounds).flatten ++
    [.mark refs.endOfImage]

theorem region_eq_ok {refs : References} {r : Region} {t : Store} (h : b.region refs s = .ok r t) :
    ∃ headerSize imageSize offsets u v,
      Store.signedOffset refs.endOfHeader s = .ok headerSize u ∧
      Store.signedOffset refs.endOfImage u = .ok imageSize v ∧
      b.sections.size < 65536 ∧
      (refs.bounds.mapM fun p => Store.signedOffset p.1) v = .ok offsets t ∧
      r.segments = b.segments refs headerSize imageSize offsets := by
  obtain ⟨headerSize, u, hh, h⟩ := bind_eq_ok.1 h
  obtain ⟨imageSize, v, hi, h⟩ := bind_eq_ok.1 h
  obtain ⟨fixed, w, hf, h⟩ := bind_eq_ok.1 h
  obtain ⟨hfixed, rfl⟩ := ofExcept_eq_ok.1 hf
  obtain ⟨offsets, w, ho, h⟩ := bind_eq_ok.1 h
  cases h
  rw [fixedFields_run] at hfixed
  split_ifs at hfixed with hn
  cases hfixed
  exact ⟨headerSize, imageSize, offsets, u, v, hh, hi, hn, ho, rfl⟩

theorem segments_within {refs : References} {headerSize imageSize : CellId} {offsets : List CellId}
    (hb : b.Within n) (hr : refs.Within n) (hh : headerSize < n) (hi : imageSize < n)
    (ho : ∀ c ∈ offsets, c < n) :
    Segment.WithinAll n (b.segments refs headerSize imageSize offsets) := by
  rw [Segment.withinAll_iff]
  intro segment hs
  simp only [segments, List.mem_append, List.mem_cons, List.mem_flatten, List.not_mem_nil, or_false,
    or_assoc] at hs
  obtain hs | hs | rfl | ⟨l, hl, hs⟩ | rfl := hs
  · simp only [fixedSegments, List.mem_cons, List.not_mem_nil, or_false] at hs
    obtain rfl | rfl | rfl | rfl | rfl | rfl := hs
    · trivial
    · trivial
    · exact hh
    · exact hi
    · exact hr.2.2.1
    · trivial
  · rw [← List.map_uncurry_zip_eq_zipWith] at hs
    obtain ⟨⟨part, c⟩, hp, rfl⟩ := List.mem_map.1 hs
    exact ho c (List.of_mem_zip hp).2
  · exact hr.1
  · rw [← List.map_uncurry_zip_eq_zipWith] at hl
    obtain ⟨⟨part, bounds⟩, hp, rfl⟩ := List.mem_map.1 hl
    obtain ⟨hpart, hbounds⟩ := List.of_mem_zip hp
    have hbound := hr.2.2.2 bounds hbounds
    simp only [Function.uncurry, body, List.mem_cons, List.not_mem_nil, or_false] at hs
    obtain rfl | rfl | rfl := hs
    · exact hbound.1
    · exact hb part (by simpa using hpart)
    · exact hbound.2
  · exact hr.2.1

theorem steps_offsets {bounds : List (CellId × CellId)} (hb : ∀ p ∈ bounds, p.1 < s.cells.size) :
    Steps Move.Creates s ((bounds.mapM fun p => Store.signedOffset p.1).after s) ∧
      ∀ offsets t, (bounds.mapM fun p => Store.signedOffset p.1) s = .ok offsets t →
        ∀ c ∈ offsets, c < t.cells.size :=
  Steps.mapM (G := fun c t => c < t.cells.size)
    (fun p hp t ht => steps_tryMap ((hb p hp).trans_le ht.grows.cells) ..)
    (fun p _ t c u _ h => by
      obtain ⟨rfl, hsize⟩ := tryMap_eq_ok h
      exact hsize ▸ Nat.lt_succ_self _)
    (fun c t u htu h => h.trans_le htu.grows.cells)

theorem steps_region {refs : References} (hr : refs.Within s.cells.size) :
    Steps Move.Creates s ((b.region refs).after s) := by
  refine Steps.bind (steps_tryMap hr.1 ..) fun _ u _ hu => ?_
  refine Steps.bind (steps_tryMap (hr.2.1.trans_le hu.grows.cells) ..) fun _ v _ hv => ?_
  refine Steps.bind (by rw [after_ofExcept]; exact .refl v) fun _ w _ hw => ?_
  have hsw := (hu.trans hv).trans hw
  exact (steps_offsets fun p hp =>
    (hr.2.2.2 p hp).1.trans_le hsw.grows.cells).1.bind fun _ t _ _ => .refl t

theorem References.Within.mono {refs : References} {m : Nat} (h : refs.Within n) (hn : n ≤ m) :
    refs.Within m :=
  ⟨h.1.trans_le hn, h.2.1.trans_le hn, h.2.2.1.trans_le hn,
    fun p hp => ⟨(h.2.2.2 p hp).1.trans_le hn, (h.2.2.2 p hp).2.trans_le hn⟩⟩

theorem Within.mono {m : Nat} (h : b.Within n) (hn : n ≤ m) : b.Within m :=
  fun part hp => Segment.WithinAll.mono (h part hp) hn

theorem region_within {refs : References} {r : Region} {t : Store} (h : b.region refs s = .ok r t)
    (hr : refs.Within s.cells.size) (hb : b.Within s.cells.size) : r.Within t.cells.size := by
  obtain ⟨headerSize, imageSize, offsets, u, v, hh, hi, -, ho, hseg⟩ := region_eq_ok h
  have hu : Steps Move.Creates s u := after_of_ok hh ▸ steps_tryMap hr.1 ..
  have hv : Steps Move.Creates u v :=
    after_of_ok hi ▸ steps_tryMap (hr.2.1.trans_le hu.grows.cells) ..
  have hsv := (hu.trans hv).grows.cells
  obtain ⟨hsteps, hoffsets⟩ := steps_offsets (s := v) fun p hp => (hr.2.2.2 p hp).1.trans_le hsv
  rw [after_of_ok ho] at hsteps
  have hvt := hsteps.grows.cells
  obtain ⟨rfl, hhsize⟩ := tryMap_eq_ok hh
  obtain ⟨rfl, hisize⟩ := tryMap_eq_ok hi
  rw [Region.Within, hseg]
  exact segments_within (hb.mono (hsv.trans hvt)) (hr.mono (hsv.trans hvt))
    (show s.cells.size < _ by omega) (show u.cells.size < _ by omega) (hoffsets offsets t ho)

/-- The checksum of the body. -/
def checksumEntry (refs : References) (crc : CellId) : Entry :=
  ⟨refs.endOfHeader, refs.endOfImage, fun bs => .int (Digest.crc16 bs).toNat, crc⟩

/-- The store with a new cell for the checksum, which is passed on to the header. -/
def withChecksum (refs : References) (s : Store) : Store :=
  (s.newDerived (.int .u16) none).enqueue s.cells.size (.act (.forward (.cell refs.crcField)))

/-- Adding the checksum always succeeds. -/
theorem checksum_run (refs : References) (r : Region) (s : Store) :
    (do
      let (crc, r) ← r.postProcess refs.endOfHeader refs.endOfImage (.int .u16) fun bs =>
        .int (Digest.crc16 bs).toNat
      discard (Store.onResolve crc (.act (.forward (.cell refs.crcField))))
      return (refs, crc, r) : Op (References × CellId × Region)) s =
    .ok (refs, s.cells.size, r.push (.postProcess (checksumEntry refs s.cells.size)))
      (withChecksum refs s) := by
  have hpending : (s.newDerived (.int .u16) none).value? s.cells.size = none := by
    simp [value?_newDerived]
  have hnew : (s.addCell { kind := .int .u16, derived := true }) =
    s.newDerived (.int .u16) none := rfl
  simp [Region.postProcess, onResolve, hnew, hpending, checksumEntry, withChecksum]

theorem prepare_eq_ok {refs : References} {crc : CellId} {r : Region} {t : Store}
    (h : b.prepare s = .ok (refs, crc, r) t) :
    ∃ u v r', newReferences b.sections.size s = .ok refs u ∧ b.region refs u = .ok r' v ∧
      crc = v.cells.size ∧ r = r'.push (.postProcess (checksumEntry refs crc)) ∧
      t = withChecksum refs v := by
  obtain ⟨refs', u, hrefs, h⟩ := bind_eq_ok.1 h
  obtain ⟨r', v, hr, h⟩ := bind_eq_ok.1 h
  cases (checksum_run refs' r' v).symm.trans h
  exact ⟨u, v, r', hrefs, hr, rfl, rfl, rfl⟩

theorem steps_withChecksum {refs : References} (hc : refs.crcField < s.cells.size) :
    Steps Move.Prepares s (withChecksum refs s) := by
  have hnew := (steps_newCell (.int .u16) none true s).mono fun _ => Move.Creates.prepares
  refine hnew.trans (.quiet (m := .watch s.cells.size (.forward (.cell refs.crcField))) trivial
    ⟨by simp, ?_, ?_⟩ rfl)
  · simp [value?_addCell]
  · exact Nat.lt_of_lt_of_le hc (by simp)

theorem prepare_prepares (b : Builder) (s : Store) :
    Steps Move.Prepares s (b.prepare.after s) := by
  refine Steps.bind ((steps_newReferences _).1.mono fun _ => Move.Creates.prepares)
    fun refs u hrefs hu => ?_
  have hr := (steps_newReferences _).2 refs u hrefs
  refine Steps.bind ((steps_region hr).mono fun _ => Move.Creates.prepares) fun r v _ hv => ?_
  rw [after_of_ok (checksum_run refs r v)]
  exact steps_withChecksum (hr.2.2.1.trans_le hv.grows.cells)

theorem steps_prepare (b : Builder) (s : Store) : Steps Move.Plain s (b.prepare.after s) :=
  (prepare_prepares b s).mono fun _ => Move.Prepares.plain

theorem prepare_within {refs : References} {crc : CellId} {r : Region} {t : Store}
    (h : b.prepare s = .ok (refs, crc, r) t) (hb : b.Within s.cells.size) :
    r.Within t.cells.size := by
  obtain ⟨u, v, r', hrefs, hr, rfl, rfl, rfl⟩ := prepare_eq_ok h
  have hu := (steps_newReferences (s := s) b.sections.size).1.grows.cells
  rw [after_of_ok hrefs] at hu
  have hwithin := (steps_newReferences _).2 refs u hrefs
  have huv : Steps Move.Creates u v := after_of_ok hr ▸ steps_region hwithin
  have hsize : (withChecksum refs v).cells.size = v.cells.size + 1 := by simp [withChecksum]
  have hv := region_within hr hwithin (hb.mono hu)
  have hrefs' := hwithin.mono (huv.grows.cells.trans (Nat.le_succ _))
  rw [Region.Within, Segment.withinAll_iff] at hv ⊢
  intro segment hs
  obtain hs | hs := List.mem_append.1 hs
  · exact (hv segment hs).mono (by omega)
  · obtain rfl := List.mem_singleton.1 hs
    rw [hsize]
    exact ⟨hrefs'.1, hrefs'.2.1, Nat.lt_succ_self _⟩

theorem steps_collect (b : Builder) (config : FlattenConfig) (refs : References) (crc : CellId)
    (i : ImageId) (summary : FlattenSummary) (s : Store) :
    Steps Move.Prepares s ((b.collect config refs crc i summary).after s) := by
  have loop := Steps.mapM (s := s) (P := Move.Prepares) (G := fun _ _ => True)
    (f := fun p : PendingSection × CellId × CellId => sectionInfo p.1 p.2)
    (l := b.sections.toList.zip refs.bounds)
    (fun p _ t _ => by
      simp only [sectionInfo, after_bind, get_run]
      split <;> exact .refl t)
    (fun _ _ _ _ _ _ _ => trivial) (fun _ _ _ _ _ => trivial)
  refine loop.1.bind fun sections t _ ht => ?_
  simp only [after_bind, get_run]
  split_ifs
  · exact .refl t
  · exact Steps.bind (steps_emit _ fun _ _ _ => trivial) fun _ u _ _ => .refl u

/-- A snapshot is written into an image of its own. -/
theorem build_flattens (config : FlattenConfig) (h : Valid s []) (hb : b.Within s.cells.size) :
    ∃ i, s.images.size ≤ i ∧
      Steps (fun m => m.Prepares ∨ m.Flattens i) s ((b.build config).after s) := by
  have hprepare := prepare_prepares b s
  refine ⟨(b.prepare.after s).images.size, hprepare.grows.images, ?_⟩
  refine Steps.bind (hprepare.mono fun _ => .inl) fun (refs, crc, r) t ht hst => ?_
  rw [after_of_ok ht]
  refine Steps.bind (x := Store.newImage) (.quiet (m := .newImage) (.inl trivial) trivial rfl)
    fun i u hu htu => ?_
  obtain ⟨rfl, rfl⟩ : t.images.size = i ∧ { t with images := t.images.push {} } = u := by
    simpa [Store.newImage, modifyGet, MonadStateOf.modifyGet, EStateM.modifyGet] using hu
  have hw : r.Within t.cells.size := prepare_within ht hb
  refine Steps.bind ((Region.flattenObserved_flattens config _ (htu.valid (hst.valid h)) (by simp)
    hw).mono fun _ hm => Or.inr hm) fun summary v _ _ => ?_
  exact (steps_collect ..).mono fun _ => .inl

end Snapshot.Builder

end Backpatch
