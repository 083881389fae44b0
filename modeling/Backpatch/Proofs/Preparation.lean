import Mathlib
import Backpatch.Proofs.Building
import Backpatch.Proofs.Forwarding

/-!
# The forward references of a snapshot

A builder makes its own cells before it lays anything out. Counted from the first one, they are: the
ends of header and image, the checksum field, the start and the end of each section, the sizes of
header and image, the offsets of the sections, and the checksum. Nothing else refers to them.
-/

namespace Backpatch

open Store Failable

variable {s t : Store} {lo hi : Nat}

/-! ## Cells that were not there before -/

theorem Action.Within.spares {a : Action} (h : a.Within lo) : a.Spares lo hi := by
  have target : ∀ t : Target, t.Within lo → t.Spares lo hi := by
    intro t ht
    cases t with
    | cell c => exact .inl ht
    | named => trivial
  induction a with
  | done | log | fail | unsubscribe => trivial
  | forward t | resolve t | confirm t | unresolve t => exact target t h
  | watch t a ih => exact ⟨target t h.1, ih h.2⟩
  | andThen a b iha ihb => exact ⟨iha h.1, ihb h.2⟩

theorem Subscriber.Sound.spares {sub : Subscriber} {c : CellId} (h : sub.Sound s c) :
    sub.Spares s.cells.size hi := by
  cases sub with
  | derive => exact .inl h.1
  | follow => exact ⟨.inl h.1, fun v inner hi => .inl (h.2.2 v inner hi)⟩
  | minus => exact ⟨.inl h.1, .inl h.2.2⟩
  | patch => trivial
  | act => exact Action.Within.spares h

/-- New cells are reserved as long as no one else gets to know them. -/
theorem Valid.reserved (hv : Valid s []) (ho : Only (s.cells.size ≤ ·) s t) :
    Reserved s.cells.size t.cells.size t where
  size := le_rfl
  names := ho.names ▸ fun p hp => .inl (hv.names p hp)
  subscriptions := ho.subscriptions ▸ fun p hp => .inl (hv.subscriptions p hp)
  queues c hc q hq := by
    obtain hc | hc := hc
    · rw [ho.cells c (Nat.not_le.2 hc)] at hq
      exact (hv.queues c q hq).spares
    · simp [cell_of_size_le t c hc] at hq

theorem Only.addCell (cell : Cell) : Only (s.cells.size ≤ ·) s (s.addCell cell) where
  cells c hc := by rw [cell_addCell, if_neg (Nat.ne_of_lt (Nat.not_le.1 hc))]
  fields _ _ hp _ := ⟨hp, rfl⟩
  size := by simp
  names := rfl
  subscriptions := rfl

/-- The later store has some more cells, for which nothing waits. -/
structure Fresh (s t : Store) : Prop extends Only (s.cells.size ≤ ·) s t where
  idle : ∀ c : Nat, s.cells.size ≤ c → c < t.cells.size → Idle t c

theorem Fresh.refl (s : Store) : Fresh s s :=
  ⟨⟨.refl s, le_rfl, rfl, rfl⟩, fun _ h h' => absurd h' (Nat.not_lt.2 h)⟩

theorem Fresh.addCell (kind : Kind) (derived : Bool) : Fresh s (s.addCell { kind, derived }) where
  toOnly := .addCell _
  idle c hlo hhi := by
    obtain rfl : c = s.cells.size := Nat.le_antisymm (Nat.le_of_lt_succ (by simpa using hhi)) hlo
    simp [Idle, value?, cell_addCell]

theorem Fresh.trans {u : Store} (h : Fresh s t) (g : Fresh t u) : Fresh s u where
  toOnly := h.toOnly.trans (g.toOnly.mono fun _ hc => h.size.trans hc)
  idle c hlo hhi := by
    obtain hc | hc := Nat.lt_or_ge c t.cells.size
    · exact (h.idle c hlo hc).same g.toSame (Nat.not_le.2 hc)
    · exact g.idle c hc hhi

/-- A cell that takes over the offset of an idle one is new. -/
theorem Idle.signedOffset {c : CellId} (h : Idle s c) (hc : c < s.cells.size) :
    ∃ t, Store.signedOffset c s = .ok s.cells.size t ∧ t.cells.size = s.cells.size + 1 ∧
      Only (fun x => x = c ∨ s.cells.size ≤ x) s t ∧ PassesOn t c s.cells.size ∧
      Idle t s.cells.size := by
  have hrun : Store.signedOffset c s = .ok s.cells.size ((s.newDerived (.int .i64) none).enqueue c
      (.derive s.cells.size Datum.signedOffset)) := by
    rw [Store.signedOffset, tryMap_run, h.1]
  have hadd : Only (fun x => x = c ∨ s.cells.size ≤ x) s (s.newDerived (.int .i64) none) :=
    (Only.addCell _).mono fun _ => .inr
  have hidle : Idle (s.newDerived (.int .i64) none) c := h.same (Only.addCell _).toSame
    (Nat.not_le.2 hc)
  have hnew : Idle (s.newDerived (.int .i64) none) s.cells.size :=
    (Fresh.addCell ..).idle _ le_rfl (by simp)
  refine ⟨_, hrun, by simp, ?_, ⟨?_, ((s.newDerived (.int .i64) none).cell c).next, ?_⟩, ?_⟩
  · exact hadd.trans ((Only.enqueue c _).mono fun _ => .inl)
  · rw [value?_enqueue]
    exact hidle.1
  · rw [cell_enqueue, if_pos ⟨rfl, hc.trans (by simp)⟩, Cell.push, hidle.2]
    rfl
  · rw [Idle, value?_enqueue, cell_enqueue, if_neg fun h => Nat.ne_of_lt hc h.1.symm]
    exact hnew

namespace Snapshot.Builder

/-! ## Counting the cells -/

/-- Pairs of successive cells, `n` of them, from `c` on. -/
def boundsFrom (c : Nat) : Nat → List (CellId × CellId)
  | 0 => []
  | n + 1 => (c, c + 1) :: boundsFrom (c + 2) n

/-- The forward references of a snapshot with `n` sections, counted from `m` on. -/
def referencesFrom (m n : Nat) : References := ⟨m, m + 1, m + 2, boundsFrom (m + 3) n⟩

theorem newBounds_mapM {α : Type} (l : List α) (s : Store) :
    ∃ t, (l.mapM fun _ => newBounds) s = .ok (boundsFrom s.cells.size l.length) t ∧
      t.cells.size = s.cells.size + 2 * l.length ∧ Fresh s t := by
  induction l generalizing s with
  | nil => exact ⟨s, rfl, rfl, .refl s⟩
  | cons x l ih =>
    let u := (s.addCell { kind := .offset }).addCell { kind := .offset, derived := true }
    have hsize : u.cells.size = s.cells.size + 2 := by simp [u]
    obtain ⟨t, hrun, hsize', hut⟩ := ih u
    refine ⟨t, ?_, by simp [hsize', hsize]; omega,
      ((Fresh.addCell ..).trans (.addCell ..)).trans hut⟩
    have hnew : newBounds s = .ok (s.cells.size, s.cells.size + 1) u := by simp [newBounds, u]
    rw [List.mapM_cons, bind_run, hnew]
    simp only [bind_run, hrun, pure_run, hsize]
    rfl

theorem newReferences_run (n : Nat) (s : Store) :
    ∃ t, newReferences n s = .ok (referencesFrom s.cells.size n) t ∧
      t.cells.size = s.cells.size + 3 + 2 * n ∧ Fresh s t ∧
      (t.cell (s.cells.size + 2)).derived = false := by
  let u := ((s.addCell { kind := .offset }).addCell { kind := .offset }).addCell
    { kind := .int .i64 }
  have hsize : u.cells.size = s.cells.size + 3 := by simp [u]
  obtain ⟨t, hrun, hsize', hut⟩ := newBounds_mapM (List.range n) u
  rw [List.length_range] at hrun hsize'
  refine ⟨t, ?_, by omega,
    (((Fresh.addCell ..).trans (.addCell ..)).trans (.addCell ..)).trans hut, ?_⟩
  · have hbounds : newReferences n s = (do
        let bounds ← (List.range n).mapM fun _ => newBounds
        return ⟨s.cells.size, s.cells.size + 1, s.cells.size + 2, bounds⟩ : Op References) u := by
      simp [newReferences, u, newBounds]
    rw [hbounds, bind_run, hrun, hsize]
    rfl
  · rw [hut.cells _ (by omega)]
    simp [u, cell_addCell]

/-- The offsets of the sections are taken over by new cells. -/
theorem signedOffset_mapM (n : Nat) {c : Nat} {s : Store} (hc : c + 2 * n ≤ s.cells.size)
    (hidle : ∀ k < n, Idle s (c + 2 * k)) :
    ∃ t, ((boundsFrom c n).mapM fun p => Store.signedOffset p.1) s =
        .ok (List.range' s.cells.size n) t ∧
      t.cells.size = s.cells.size + n ∧
      Only (fun x => (∃ k < n, x = c + 2 * k) ∨ s.cells.size ≤ x) s t ∧
      (∀ k < n, PassesOn t (c + 2 * k) (s.cells.size + k)) ∧
      ∀ k < n, Idle t (s.cells.size + k) := by
  induction n generalizing c s with
  | zero => exact ⟨s, rfl, rfl, ⟨.refl s, le_rfl, rfl, rfl⟩, by simp, by simp⟩
  | succ n ih =>
    have hlt : c < s.cells.size := by omega
    have hfirst : Idle s c := hidle 0 (by omega)
    obtain ⟨u, hrun, hsize, hsu, hpass, hnew⟩ := hfirst.signedOffset hlt
    obtain ⟨t, hrun', hsize', hut, hpass', hidle'⟩ := ih (c := c + 2) (s := u) (by omega)
      fun k hk => by
        have := hidle (k + 1) (by omega)
        rw [show c + 2 + 2 * k = c + 2 * (k + 1) by omega]
        exact this.same hsu.toSame (by omega)
    refine ⟨t, ?_, by omega, ?_, fun k hk => ?_, fun k hk => ?_⟩
    · rw [boundsFrom, List.mapM_cons, bind_run, hrun]
      simp only [bind_run, hrun', pure_run, hsize]
      rfl
    · refine (hsu.mono fun x hx => ?_).trans (hut.mono fun x hx => ?_)
      · exact hx.imp_left fun hx => ⟨0, by omega, hx⟩
      · obtain ⟨k, hk, rfl⟩ | hx := hx
        · exact .inl ⟨k + 1, by omega, by omega⟩
        · exact .inr (by omega)
    · cases k with
      | zero => exact hpass.same hut.toSame (by omega)
      | succ k =>
        have := hpass' k (by omega)
        rwa [hsize, show c + 2 + 2 * k = c + 2 * (k + 1) by omega,
          show s.cells.size + 1 + k = s.cells.size + (k + 1) by omega] at this
    · cases k with
      | zero => exact hnew.same hut.toSame (by omega)
      | succ k =>
        have := hidle' k (by omega)
        rwa [hsize, show s.cells.size + 1 + k = s.cells.size + (k + 1) by omega] at this

/-! ## A prepared store -/

/-- The words in the header of a snapshot with `n` sections refer to cells from `m` on, which wait
to be laid out. -/
structure Referenced (m n : Nat) (s : Store) : Prop where
  header : PassesOn s m (m + 3 + 2 * n)
  image : PassesOn s (m + 1) (m + 4 + 2 * n)
  starts : ∀ k < n, PassesOn s (m + 3 + 2 * k) (m + 5 + 2 * n + k)
  stops : ∀ k < n, Idle s (m + 4 + 2 * k)
  headerSize : Idle s (m + 3 + 2 * n)
  imageSize : Idle s (m + 4 + 2 * n)
  offsets : ∀ k < n, Idle s (m + 5 + 2 * n + k)
  crcField : Idle s (m + 2)
  given : (s.cell (m + 2)).derived = false

/-- All cells of a snapshot with `n` sections are ready to be laid out. -/
structure Prepared (m n : Nat) (s : Store) : Prop extends Referenced m n s where
  size : s.cells.size = m + 6 + 3 * n
  crc : s.value? (m + 5 + 3 * n) = none ∧
    ∃ id, (s.cell (m + 5 + 3 * n)).queue = [(id, .act (.forward (.cell (m + 2))))]

theorem Referenced.same {C : Nat → Prop} {m n : Nat} {s t : Store} (h : Referenced m n s)
    (hs : Same C s t) (hC : ∀ c < m + 5 + 3 * n, C c) : Referenced m n t where
  header := h.header.same hs (hC _ (by omega))
  image := h.image.same hs (hC _ (by omega))
  starts k hk := (h.starts k hk).same hs (hC _ (by omega))
  stops k hk := (h.stops k hk).same hs (hC _ (by omega))
  headerSize := h.headerSize.same hs (hC _ (by omega))
  imageSize := h.imageSize.same hs (hC _ (by omega))
  offsets k hk := (h.offsets k hk).same hs (hC _ (by omega))
  crcField := h.crcField.same hs (hC _ (by omega))
  given := hs.cells (m + 2) (hC _ (by omega)) ▸ h.given

/-- Making the region of a snapshot refers its header to the new cells. -/
theorem region_referenced {b : Builder} {m : Nat} {r : Region} {s t : Store}
    (hsize : s.cells.size = m + 3 + 2 * b.sections.size)
    (hidle : ∀ c : Nat, m ≤ c → c < m + 3 + 2 * b.sections.size → Idle s c)
    (hgiven : (s.cell (m + 2)).derived = false)
    (h : b.region (referencesFrom m b.sections.size) s = .ok r t) :
    b.sections.size < 65536 ∧ t.cells.size = m + 5 + 3 * b.sections.size ∧
    r.segments = b.segments (referencesFrom m b.sections.size) (m + 3 + 2 * b.sections.size)
      (m + 4 + 2 * b.sections.size)
      (List.range' (m + 5 + 2 * b.sections.size) b.sections.size) ∧
    Referenced m b.sections.size t ∧ Only (m ≤ ·) s t := by
  obtain ⟨headerSize, imageSize, offsets, s₁, s₂, hh, hi, hcount, ho, hseg⟩ := region_eq_ok h
  generalize b.sections.size = n at *
  -- The sizes of header and image
  have hlt : m < s.cells.size := by omega
  obtain ⟨_, hrun₁, hsize₁, honly₁, hpass₁, hidle₁⟩ :=
    (hidle m le_rfl (by omega)).signedOffset hlt
  cases hrun₁.symm.trans hh
  have hlt₁ : m + 1 < s₁.cells.size := by omega
  obtain ⟨_, hrun₂, hsize₂, honly₂, hpass₂, hidle₂⟩ :=
    ((hidle (m + 1) (by omega) (by omega)).same honly₁.toSame (by omega)).signedOffset hlt₁
  cases hrun₂.symm.trans hi
  have hkeep : Same (fun c => m + 2 ≤ c ∧ c < m + 3 + 2 * n) s s₂ :=
    (honly₁.toSame.mono fun c hc => by omega).trans (honly₂.toSame.mono fun c hc => by omega)
  -- The offsets of the sections
  obtain ⟨_, hrun₃, hsize₃, honly₃, hpass₃, hidle₃⟩ := signedOffset_mapM n (c := m + 3) (s := s₂)
    (by omega) fun k hk => (hidle _ (by omega) (by omega)).same hkeep (by omega)
  cases hrun₃.symm.trans ho
  have hsize₁' : s₁.cells.size = m + 4 + 2 * n := by omega
  have hsize₂' : s₂.cells.size = m + 5 + 2 * n := by omega
  rw [hsize] at hpass₁ hidle₁
  rw [hsize₁'] at hpass₂ hidle₂
  rw [hsize₂'] at hpass₃ hidle₃
  have hsame : Same (fun c => c < m + 5 + 2 * n ∧ ∀ k < n, c ≠ m + 3 + 2 * k) s₂ t := by
    refine honly₃.toSame.mono fun c hc => ?_
    rintro (⟨k, hk, rfl⟩ | hx)
    · exact hc.2 k hk rfl
    · omega
  refine ⟨hcount, by omega, by rw [hseg, hsize, hsize₁', hsize₂'], ?_, ?_⟩
  · exact {
      header := (hpass₁.same honly₂.toSame (by omega)).same hsame ⟨by omega, fun _ _ => by omega⟩
      image := hpass₂.same hsame ⟨by omega, fun _ _ => by omega⟩
      starts := hpass₃
      stops := fun k hk => ((hidle (m + 4 + 2 * k) (by omega) (by omega)).same hkeep
        (by omega)).same hsame ⟨by omega, fun _ _ => by omega⟩
      headerSize := (hidle₁.same honly₂.toSame (by omega)).same hsame
        ⟨by omega, fun _ _ => by omega⟩
      imageSize := hidle₂.same hsame ⟨by omega, fun _ _ => by omega⟩
      offsets := hidle₃
      crcField := ((hidle (m + 2) (by omega) (by omega)).same hkeep (by omega)).same hsame
        ⟨by omega, fun _ _ => by omega⟩
      given := by
        rw [hsame.cells _ ⟨by omega, fun _ _ => by omega⟩, hkeep.cells _ (by omega)]
        exact hgiven }
  · exact ((honly₁.mono fun c hc => by omega).trans (honly₂.mono fun c hc => by omega)).trans
      (honly₃.mono fun c hc => by omega)

theorem withChecksum_only (refs : References) (s : Store) :
    Only (s.cells.size ≤ ·) s (withChecksum refs s) :=
  (Only.addCell _).trans ((Only.enqueue _ _).mono fun _ hc => hc.ge)

theorem withChecksum_crc (refs : References) (s : Store) :
    (withChecksum refs s).value? s.cells.size = none ∧
      ∃ id, ((withChecksum refs s).cell s.cells.size).queue =
        [(id, .act (.forward (.cell refs.crcField)))] := by
  constructor
  · simp [withChecksum, value?_newDerived]
  · rw [withChecksum, cell_enqueue, if_pos ⟨rfl, by simp⟩, newDerived, cell_addCell, if_pos rfl]
    exact ⟨1, rfl⟩

/-- The store after preparation, and the segments to be laid out. -/
theorem prepare_prepared {b : Builder} {refs : References} {crc : CellId} {r : Region} {s t : Store}
    (h : b.prepare s = .ok (refs, crc, r) t) :
    refs = referencesFrom s.cells.size b.sections.size ∧
    crc = s.cells.size + 5 + 3 * b.sections.size ∧ b.sections.size < 65536 ∧
    r.segments = b.segments refs (s.cells.size + 3 + 2 * b.sections.size)
      (s.cells.size + 4 + 2 * b.sections.size)
      (List.range' (s.cells.size + 5 + 2 * b.sections.size) b.sections.size) ++
        [.postProcess (checksumEntry refs crc)] ∧
    Prepared s.cells.size b.sections.size t ∧ Only (s.cells.size ≤ ·) s t := by
  obtain ⟨u, v, r', hrefs, hregion, rfl, rfl, rfl⟩ := prepare_eq_ok h
  obtain ⟨_, hrun, hsize, hfresh, hgiven⟩ := newReferences_run b.sections.size s
  cases hrun.symm.trans hrefs
  obtain ⟨hcount, hv, hseg, hreferenced, honly⟩ := region_referenced hsize
    (fun c hlo hhi => hfresh.idle c hlo (hsize ▸ hhi)) hgiven hregion
  have hvt := withChecksum_only (referencesFrom s.cells.size b.sections.size) v
  have hcrc := withChecksum_crc (referencesFrom s.cells.size b.sections.size) v
  rw [hv] at hcrc
  refine ⟨rfl, hv, hcount, by rw [Region.push, hseg], ?_, ?_⟩
  · refine ⟨hreferenced.same hvt.toSame fun c hc => by omega, ?_, hcrc⟩
    simp [withChecksum, hv]
    omega
  · exact (hfresh.toOnly.trans honly).trans (hvt.mono fun c hc => by omega)

end Snapshot.Builder

end Backpatch
