import Mathlib
import Backpatch.Instruction.ShortCall
import Backpatch.Proofs.Atomicity
import Backpatch.Proofs.Integers
import Backpatch.Proofs.Tickets

/-!
# Short-call tables

A table gets one entry after another, in place (`ShortCallTable.put`). What could be refused is
looked at first, so an entry goes in as a whole or not at all. The cells for the addresses of the
functions and for the offsets of the entries are derived; no caller holds them, so they have no
values but those of their sources (`Carried`), whatever else the caller does (`Made`). Strict
flattening that succeeds then shows the table where its region stands, three bytes for each entry,
and the cells for offsets agree with it (`Placed`).
-/

namespace Backpatch

open Store Failable Instruction

/-! ## Parts of a region -/

section Parts

variable {s u : Store} {i : ImageId} {first last : FieldId} {p a : Nat}
  {code segments front back : List Segment}

/-- A part of code that stands somewhere stands behind what is in front of it. -/
theorem Segment.Stands.part (h : Stands (front ++ code ++ back) p a segments) :
    Stands code (p + sizeAll front) a segments := by
  generalize hwhole : front ++ code ++ back = whole at h
  induction h with
  | here before behind hp =>
    have hsplit : before ++ whole ++ behind = (before ++ front) ++ code ++ (back ++ behind) := by
      simp [← hwhole]
    rw [hsplit]
    exact .here _ _ (by rw [sizeAll_append, hp, Nat.add_assoc])
  | nested before behind _ ih => exact .nested before behind ih

theorem Segment.Stands.placed (h : Stands code p a segments)
    (hp : PlacedAll s i first last a segments) : PlacedAll s i first last p code := by
  induction h with
  | here front back hoffset =>
    rw [List.append_assoc] at hp
    rw [hoffset]
    exact (placedAll_append.1 (placedAll_append.1 hp).2).1
  | nested front back _ ih => exact ih (placedAll_append.1 hp).2.1

/-- Code in a finished region has its content in the image. -/
theorem Region.Finished.content {r : Region} (h : r.Finished i a first last u)
    (hstands : Segment.Stands code p a r.segments) :
    Segment.contentAll u code = some ((u.image i).slice p (Segment.sizeAll code)) :=
  (hstands.placed h.placed).content h.filled h.patched

end Parts

namespace Instruction.ShortCallTable

/-! ## Adding in place -/

/-- A change of the region of a table. -/
def onRegion (f : Region → Except Error Region) (t : ShortCallTable) :
    Except Error ShortCallTable :=
  (f t.region).map fun r => { t with region := r }

/-- Appends an entry to a table in place, one piece after another. -/
def put (function : CellId) (argc : UInt8) : Failable (ShortCallTable × Store) Nat := do
  let index := (← get).1.count
  if maxEntries ≤ index then
    throw (.valueOutOfRange (toString index) "ShortCallTable")
  let address ← beside (Store.signedOffset function)
  beside (check .u16le (.deferred address))
  change (onRegion fun r =>
    r.writeField (.int .u16le) (.deferred address) (some "short call function"))
  change (onRegion fun r => r.writeField (.int .u8) (number argc) (some "short call argc"))
  change fun t => .ok { t with count := index + 1 }
  return index

/-- The cell is pending, or its value fits in two bytes. -/
def Takes (s : Store) (function : CellId) : Prop :=
  ∀ v, s.value? function = some v → ∃ n : Nat, n < 65536 ∧ v = .int n

/-- An entry of the table: the function, the number of its arguments, and the cell that holds the
address of the function as a signed number. -/
structure Row where
  function : CellId
  argc : UInt8
  address : CellId

def Row.segments (row : Row) : List Segment :=
  [.deferred (.int .u16le) row.address (some "short call function"),
    .direct [row.argc]
      ((Format.fixed (.int .u8)).describe (some (.int row.argc.toNat)) (some "short call argc"))]

/-- The table with one row more. -/
def extend (t : ShortCallTable) (row : Row) : ShortCallTable :=
  ⟨⟨t.region.segments ++ row.segments⟩, t.start, t.count + 1⟩

theorem encode_word_natCast {n : Nat} (hn : n < 65536) :
    FixedFormat.encode (.int .u16le) (.int n) = .ok (Bytes.littleEndian 2 n) := by
  have hword : n < Bytes.wordCount IntFormat.u16le.width := hn
  exact (IntFormat.encode_natCast rfl rfl n).trans (if_pos hword)

/-- What fits in two bytes is a number below `65536`, the least byte first. -/
theorem encode_word {v : Datum} {bs : Bytes} :
    FixedFormat.encode (.int .u16le) v = .ok bs ↔
      ∃ n : Nat, n < 65536 ∧ v = .int n ∧ bs = Bytes.littleEndian 2 n := by
  constructor
  · intro h
    cases v with
    | int z =>
      obtain ⟨hle, hlt⟩ : 0 ≤ z ∧ z < 2 ^ 16 := (IntFormat.encode_eq_ok_iff_holds.1 h).1
      obtain ⟨n, rfl⟩ := Int.eq_ofNat_of_zero_le hle
      have hn : n < 65536 := by omega
      exact ⟨n, hn, rfl, Except.ok.inj (h.symm.trans (encode_word_natCast hn))⟩
    | _ => cases h
  · rintro ⟨n, hn, rfl, rfl⟩
    exact encode_word_natCast hn

theorem signedOffset_word {n : Nat} (hn : n < 65536) :
    Datum.signedOffset (.int n) = .ok (.int n) := by
  have hleast : IntKind.i64.least ≤ 0 := by decide
  have hgreatest : 65535 ≤ IntKind.i64.greatest := by decide
  have hheld : IntKind.i64.holds n = true := by
    simp only [IntKind.holds, Bool.and_eq_true, decide_eq_true_eq]
    omega
  simp [Datum.signedOffset, hheld]

/-- Whether a payload with a known value is refused depends on the value. -/
theorem check_known {format : IntFormat} {c : CellId} {v : Datum} {s : Store}
    (h : s.value? c = some v) : check format (.deferred c) s =
      match FixedFormat.encode (.int format) v with
      | .ok _ => .ok () s
      | .error e => .error e s := by
  cases he : FixedFormat.encode (.int format) v with
  | ok bs => simp [check, h, he]
  | error e => simp [check, h, he]

/-- The address of a function is refused exactly if its value does not fit, and then no cell has
changed. -/
theorem address_outcome (function : CellId) (s : Store) :
    (¬ Takes s function ∧ ∃ e, signedOffset function s = .error e s) ∨
    (¬ Takes s function ∧ ∃ e c s', signedOffset function s = .ok c s' ∧
      check .u16le (.deferred c) s' = .error e s' ∧ Kept s s') ∨
    (Takes s function ∧ ∃ s', signedOffset function s = .ok s.cells.size s' ∧
      check .u16le (.deferred s.cells.size) s' = .ok () s') := by
  simp only [signedOffset, tryMap_run]
  cases hv : s.value? function with
  | none =>
    have htakes : Takes s function := by
      intro v hsome
      cases hv.symm.trans hsome
    exact .inr (.inr ⟨htakes, _, rfl, check_pending (by simp [value?_newDerived])⟩)
  | some v =>
    cases hd : Datum.signedOffset v with
    | error e =>
      simp only [hd]
      refine .inl ⟨fun htakes => ?_, e, rfl⟩
      obtain ⟨n, hn, rfl⟩ := htakes v hv
      cases (signedOffset_word hn).symm.trans hd
    | ok w =>
      obtain rfl := Datum.signedOffset_eq_ok hd
      have hnew : (s.newDerived (.int .i64) (some w)).value? s.cells.size = some w := by
        rw [value?_newDerived, if_pos rfl]
      simp only [hd]
      cases he : FixedFormat.encode (.int .u16le) w with
      | error e =>
        refine .inr (.inl ⟨fun htakes => ?_, e, _, _, rfl, ?_, kept_addCell s _⟩)
        · obtain ⟨n, hn, rfl⟩ := htakes w hv
          cases (encode_word_natCast hn).symm.trans he
        · simp only [check_known hnew, he]
      | ok bs =>
        refine .inr (.inr ⟨fun x hx => ?_, _, rfl, ?_⟩)
        · cases hv.symm.trans hx
          obtain ⟨n, hn, rfl, -⟩ := encode_word.1 he
          exact ⟨n, hn, rfl⟩
        · simp only [check_known hnew, he]

/-- Adding in place and adding to a copy come to the same. -/
theorem put_outcome (t : ShortCallTable) (function : CellId) (argc : UInt8) (s : Store) :
    (¬ (t.count < maxEntries ∧ Takes s function) ∧ ∃ e s',
      put function argc (t, s) = .error e (t, s') ∧ t.add function argc s = .error e s' ∧
      Kept s s' ∧ (s' = s ∨ s' = (signedOffset function).after s)) ∨
    (t.count < maxEntries ∧ Takes s function) ∧ ∃ s',
      put function argc (t, s) = .ok t.count (t.extend ⟨function, argc, s.cells.size⟩, s') ∧
      t.add function argc s = .ok (t.count, t.extend ⟨function, argc, s.cells.size⟩) s' ∧
      signedOffset function s = .ok s.cells.size s' := by
  by_cases hfull : maxEntries ≤ t.count
  · refine .inl ⟨fun h => absurd h.1 (Nat.not_lt.2 hfull), ?_⟩
    refine ⟨.valueOutOfRange (toString t.count) "ShortCallTable", s, ?_, ?_, .refl s, .inl rfl⟩
    · simp [put, hfull]
    · simp [add, hfull]
  · rcases address_outcome function s with ⟨hno, e, ha⟩ | ⟨hno, e, c, s', ha, hcheck, hkept⟩ |
      ⟨htakes, s', ha, hcheck⟩
    · refine .inl ⟨fun h => hno h.2, e, s, ?_, ?_, .refl s, .inl rfl⟩
      · simp [put, hfull, beside_error ha]
      · simp [add, hfull, ha]
    · refine .inl ⟨fun h => hno h.2, e, s', ?_, ?_, hkept, .inr (after_of_ok ha).symm⟩
      · simp [put, hfull, beside_ok ha, beside_error hcheck]
      · simp [add, hfull, ha, hcheck]
    · have haddress : t.region.writeField (.int .u16le) (.deferred s.cells.size)
          (some "short call function") = .ok (t.region.push
            (.deferred (.int .u16le) s.cells.size (some "short call function"))) := rfl
      have hargc : ∀ r : Region, r.writeField (.int .u8) (number argc) (some "short call argc") =
          .ok (r.push (.direct [argc] ((Format.fixed (.int .u8)).describe (some (.int argc.toNat))
            (some "short call argc")))) :=
        fun r => writeField_of_encode (Link.toOption_eq_some.1 (content_number (s := {}) argc)) r _
      refine .inr ⟨⟨Nat.lt_of_not_le hfull, htakes⟩, s', ?_, ?_, ha⟩
      · simp [put, hfull, beside_ok ha, beside_ok hcheck, change, onRegion, haddress, hargc,
          Except.map, extend, Row.segments, Region.push]
      · simp [add, hfull, ha, hcheck, haddress, hargc, extend, Row.segments, Region.push]

/-! ## Offsets of entries -/

/-- A cell for the offset of an entry: which entry, and the number under which the cell waits for
the start of the table. -/
structure EntryOffset where
  index : Nat
  cell : CellId
  number : Nat

/-- The offset of an entry, from the one of the table. -/
def offsetOf (index : Nat) (start : Datum) : Except Error Datum :=
  .ok (start.advance (index * entrySize))

theorem offsetOf_int (index p : Nat) :
    offsetOf index (.int p) = .ok (.int (p + 3 * index : Nat)) := by
  simp [offsetOf, Datum.advance, entrySize, Nat.mul_comm]

theorem entryOffset_eq_ok {t : ShortCallTable} {index : Nat} {c : CellId} {s s' : Store} :
    t.entryOffset index s = .ok (some c) s' ↔
      index < t.count ∧ tryMap t.start .offset (offsetOf index) s = .ok c s' := by
  by_cases hle : t.count ≤ index
  · simp [entryOffset, hle, Nat.not_lt.2 hle]
  · have hmap : Store.map t.start .offset (Datum.advance (index * entrySize)) s =
      tryMap t.start .offset (offsetOf index) s := rfl
    have hlt := Nat.lt_of_not_le hle
    cases hrun : tryMap t.start .offset (offsetOf index) s with
    | ok => simp [entryOffset, hle, hlt, hmap.trans hrun]
    | error => simp [entryOffset, hle, hlt, hmap.trans hrun]

/-- The cells of the table exist wherever its entries do. -/
theorem entryOffset_isOk {t : ShortCallTable} {index : Nat} (h : index < t.count) (s : Store) :
    ∃ c s', t.entryOffset index s = .ok (some c) s' := by
  rcases tryMap_outcome t.start .offset (offsetOf index) s with ⟨e, herror, -⟩ | ⟨s', hok, -⟩
  · rw [tryMap_run] at herror
    cases hv : s.value? t.start <;> simp [hv, offsetOf] at herror
  · exact ⟨_, s', entryOffset_eq_ok.2 ⟨h, hok⟩⟩

/-- When the start of the table is known, so is the offset of an entry. -/
theorem entryOffset_known {t : ShortCallTable} {index p : Nat} {s : Store} (h : index < t.count)
    (hstart : s.value? t.start = some (.int p)) : ∃ c s', t.entryOffset index s = .ok (some c) s' ∧
      s'.value? c = some (.int (p + 3 * index : Nat)) := by
  obtain ⟨c, s', hentry⟩ := entryOffset_isOk h s
  refine ⟨c, s', hentry, ?_⟩
  have hmap := (entryOffset_eq_ok.1 hentry).2
  rw [tryMap_run] at hmap
  simp only [hstart, offsetOf_int] at hmap
  cases hmap
  rw [value?_newDerived, if_pos rfl]

/-! ## What is known about the cells of a table -/

/-- The caller holds the start of the table, but neither the cells for the addresses of its
functions nor those for the offsets of its entries; these have no values but those derived from
their sources, and the tickets of the latter are still good. -/
structure Carried (held : List CellId) (s : Store) (start : CellId) (rows : List Row)
    (offsets : List EntryOffset) : Prop where
  holding : Holding held s
  numbered : Numbered s
  startHeld : start ∈ held
  addresses : ∀ row ∈ rows,
    (Link.derive row.function Datum.signedOffset).Guarded (· ∈ held) s [] row.address
  derivedByTicket : ∀ o ∈ offsets, DerivedByTicket ⟨start, o.number⟩ o.cell (offsetOf o.index) s []
  offsets : ∀ o ∈ offsets, (Link.derive start (offsetOf o.index)).Guarded (· ∈ held) s [] o.cell

namespace Carried

variable {held extra : List CellId} {s s' : Store} {start : CellId} {rows : List Row}
  {offsets : List EntryOffset}

theorem after_use (h : Carried held s start rows offsets) (use : Use) (ha : use.Admissible s)
    (hl : use.Lasting) (hm : use.Marks (· ∈ held))
    (hleaves : ∀ o ∈ offsets, use.Leaves ⟨start, o.number⟩) :
    Carried (use.hands s ++ held) (use.run.after s) start rows offsets where
  holding := h.holding.step use ha hl hm
  numbered := use.numbered h.holding.lasting.toValid h.numbered ha
  startHeld := List.mem_append_right _ h.startHeld
  addresses row hrow := h.holding.guarded_held use ha hl hm (h.addresses row hrow)
  derivedByTicket o ho :=
    (h.derivedByTicket o ho).after_use (fun _ => ⟨_, rfl⟩) h.numbered use ha hl (hleaves o ho)
  offsets o ho := h.holding.guarded_held use ha hl hm (h.offsets o ho)

/-- A cell that is not handed out is not held. -/
theorem forget (h : Carried (extra ++ held) s start rows offsets) (hstart : start ∈ held) :
    Carried held s start rows offsets where
  holding := ⟨h.holding.lasting, fun c hc => h.holding.exist c (List.mem_append_right _ hc)⟩
  numbered := h.numbered
  startHeld := hstart
  addresses row hrow := (h.addresses row hrow).extend fun _ hc => .inl (List.mem_append_right _ hc)
  derivedByTicket := h.derivedByTicket
  offsets o ho := (h.offsets o ho).extend fun _ hc => .inl (List.mem_append_right _ hc)

theorem after_tryMap (h : Carried held s start rows offsets) {source : CellId}
    (hc : source < s.cells.size) (kind : Kind) (f : Datum → Except Error Datum) :
    Carried held ((tryMap source kind f).after s) start rows offsets := by
  have huse := h.after_use (.call (.tryMap source kind f)) hc trivial trivial fun _ _ => trivial
  rw [Use.run, Call.run, after_discard] at huse
  exact huse.forget h.startHeld

theorem fresh (h : Carried held s start rows offsets) : s.cells.size ∉ held :=
  fun hc => lt_irrefl _ (h.holding.exist _ hc)

theorem add_row (h : Carried held s start rows offsets) {function address : CellId} (argc : UInt8)
    (hc : function < s.cells.size) (ha : signedOffset function s = .ok address s') :
    Carried held s' start (rows ++ [⟨function, argc, address⟩]) offsets := by
  have hnext := h.after_tryMap hc (.int .i64) Datum.signedOffset
  have hafter : (tryMap function (.int .i64) Datum.signedOffset).after s = s' := after_of_ok ha
  rw [hafter] at hnext
  have hnew := (tryMap_sourced h.holding.lasting hc h.fresh ha).guarded
  refine { hnext with addresses := ?_ }
  intro row hrow
  rcases List.mem_append.1 hrow with hrow | hrow
  · exact hnext.addresses row hrow
  · obtain rfl := List.mem_singleton.1 hrow
    exact hnew

theorem add_offset (h : Carried held s start rows offsets) {index : Nat} {c : CellId}
    (hsecret : ∀ p ∈ s.subscriptions, p.2 ≠ ⟨start, (s.cell start).next⟩)
    (hc : tryMap start .offset (offsetOf index) s = .ok c s') :
    Carried held s' start rows (offsets ++ [⟨index, c, (s.cell start).next⟩]) := by
  have hstart := h.holding.exist start h.startHeld
  have hnext := h.after_tryMap hstart .offset (offsetOf index)
  rw [after_of_ok hc] at hnext
  have hticket := DerivedByTicket.of_tryMap h.holding.lasting hstart hsecret hc
  have hnew := (tryMap_sourced h.holding.lasting hstart h.fresh hc).guarded
  refine { hnext with derivedByTicket := ?_, offsets := ?_ }
  · intro o ho
    rcases List.mem_append.1 ho with ho | ho
    · exact hnext.derivedByTicket o ho
    · obtain rfl := List.mem_singleton.1 ho
      exact hticket
  · intro o ho
    rcases List.mem_append.1 ho with ho | ho
    · exact hnext.offsets o ho
    · obtain rfl := List.mem_singleton.1 ho
      exact hnew

end Carried

/-! ## How a table comes about -/

/-- A caller has made the table `t`, after any program, and has added entries to it, made cells for
their offsets and used the library otherwise, in any order. `entries` are the functions that were
added and `returned` the indices that came back; entries may have been refused in between. The
caller does not hold the cells of `offsets`, and no one else has their tickets. -/
inductive Made : List CellId → Store → ShortCallTable → List (CellId × UInt8) → List Nat →
    List EntryOffset → Prop where
  | new {before held s₀ s t} (hbefore : Program [] {} before held s₀)
      (hl : ∀ use ∈ before, use.Lasting) (h : ShortCallTable.new s₀ = .ok t s) :
      Made (t.start :: held) s t [] [] []
  | use {held s t entries returned offsets} (h : Made held s t entries returned offsets) (use : Use)
      (ha : use.Admissible s) (hl : use.Lasting) (hm : use.Marks (· ∈ held))
      (hleaves : ∀ o ∈ offsets, use.Leaves ⟨t.start, o.number⟩) :
      Made (use.hands s ++ held) (use.run.after s) t entries returned offsets
  | add {held s t entries returned offsets function argc index s' t'}
      (h : Made held s t entries returned offsets) (hf : function < s.cells.size)
      (hadd : t.add function argc s = .ok (index, t') s') :
      Made held s' t' (entries ++ [(function, argc)]) (returned ++ [index]) offsets
  | refuse {held s t entries returned offsets function argc e s'}
      (h : Made held s t entries returned offsets) (hf : function < s.cells.size)
      (hadd : t.add function argc s = .error e s') : Made held s' t entries returned offsets
  | entry {held s t entries returned offsets index c s'}
      (h : Made held s t entries returned offsets)
      (hsecret : ∀ p ∈ s.subscriptions, p.2 ≠ ⟨t.start, (s.cell t.start).next⟩)
      (hentry : t.entryOffset index s = .ok (some c) s') :
      Made held s' t entries returned (offsets ++ [⟨index, c, (s.cell t.start).next⟩])

/-- The table holds the rows, and these are the entries that were added. -/
structure Represents (t : ShortCallTable) (rows : List Row) (entries : List (CellId × UInt8))
    (returned : List Nat) : Prop where
  segments : t.region.segments = .mark t.start :: rows.flatMap Row.segments
  shown : rows.map (fun row => (row.function, row.argc)) = entries
  count : t.count = entries.length
  full : entries.length ≤ maxEntries
  indices : returned = List.range entries.length

theorem Represents.extend {t : ShortCallTable} {rows : List Row} {entries : List (CellId × UInt8)}
    {returned : List Nat} (h : Represents t rows entries returned) (hlt : t.count < maxEntries)
    (row : Row) : Represents (t.extend row) (rows ++ [row])
      (entries ++ [(row.function, row.argc)]) (returned ++ [t.count]) where
  segments := by simp [ShortCallTable.extend, h.segments]
  shown := by simp [h.shown]
  count := by simp [ShortCallTable.extend, h.count]
  full := by
    have := h.count
    simp only [List.length_append, List.length_singleton]
    omega
  indices := by simp [h.indices, h.count, List.range_succ]

variable {held : List CellId} {s : Store} {t : ShortCallTable} {entries : List (CellId × UInt8)}
  {returned : List Nat} {offsets : List EntryOffset}

theorem Made.rows (h : Made held s t entries returned offsets) :
    ∃ rows, Represents t rows entries returned ∧ Carried held s t.start rows offsets := by
  induction h with
  | @new before held s₀ s t hbefore hl h =>
    have hs₀ := hbefore.holding .empty hl
    have hs := hs₀.step (.call (.newCell .offset none true)) trivial trivial trivial
    have hn := hbefore.numbered .empty hl .empty
    have hn' := Use.numbered (.call (.newCell .offset none true)) hs₀.lasting.toValid hn trivial
    cases h
    refine ⟨[], ⟨rfl, rfl, rfl, Nat.zero_le _, rfl⟩, ?_⟩
    exact ⟨hs, hn', .head _, by simp, by simp, by simp⟩
  | use h use ha hl hm hleaves ih =>
    obtain ⟨rows, hrows, hcarried⟩ := ih
    exact ⟨rows, hrows, hcarried.after_use use ha hl hm hleaves⟩
  | @add held s t entries returned offsets function argc index s' t' h hf hadd ih =>
    obtain ⟨rows, hrows, hcarried⟩ := ih
    rcases put_outcome t function argc s with ⟨-, e, s'', -, hno, -⟩ | ⟨⟨hlt, -⟩, s'', -, hyes, ha⟩
    · cases hno.symm.trans hadd
    · cases hyes.symm.trans hadd
      exact ⟨_, hrows.extend hlt ⟨function, argc, s.cells.size⟩, hcarried.add_row argc hf ha⟩
  | @refuse held s t entries returned offsets function argc e s' h hf hadd ih =>
    obtain ⟨rows, hrows, hcarried⟩ := ih
    rcases put_outcome t function argc s with ⟨-, e', s'', -, hno, -, hsame⟩ | ⟨-, s'', -, hyes, -⟩
    · cases hno.symm.trans hadd
      rcases hsame with rfl | rfl
      · exact ⟨rows, hrows, hcarried⟩
      · exact ⟨rows, hrows, hcarried.after_tryMap hf ..⟩
    · cases hyes.symm.trans hadd
  | entry h hsecret hentry ih =>
    obtain ⟨rows, hrows, hcarried⟩ := ih
    exact ⟨rows, hrows, hcarried.add_offset hsecret (entryOffset_eq_ok.1 hentry).2⟩

theorem Made.exist (h : Made held s t entries returned offsets) {c : CellId} (hc : c ∈ held) :
    c < s.cells.size := by
  obtain ⟨rows, -, hcarried⟩ := h.rows
  exact hcarried.holding.exist c hc

/-! ## Where a table stands -/

theorem Row.sizeAll_segments (row : Row) : Segment.sizeAll row.segments = entrySize := rfl

theorem sizeAll_rows (rows : List Row) :
    Segment.sizeAll (rows.flatMap Row.segments) = rows.length * entrySize := by
  induction rows with
  | nil => rfl
  | cons row rows ih =>
    rw [List.flatMap_cons, Segment.sizeAll_append, ih, row.sizeAll_segments, List.length_cons,
      Nat.succ_mul, Nat.add_comm]

/-- Three bytes for each entry, in the order in which the entries were added. -/
theorem Represents.stands {rows : List Row} {row : Row} {index p a : Nat} {segments : List Segment}
    (h : Represents t rows entries returned) (hrow : rows[index]? = some row)
    (hstands : Segment.Stands t.region.segments p a segments) :
    Segment.Stands row.segments (p + index * entrySize) a segments := by
  obtain ⟨front, back, rfl, rfl⟩ : ∃ front back, rows = front ++ row :: back ∧
      front.length = index := by
    obtain ⟨hlt, rfl⟩ := List.getElem?_eq_some_iff.1 hrow
    refine ⟨rows.take index, rows.drop (index + 1), ?_, List.length_take_of_le hlt.le⟩
    rw [← List.drop_eq_getElem_cons hlt, List.take_append_drop]
  have hcode : t.region.segments = (.mark t.start :: front.flatMap Row.segments) ++ row.segments ++
      back.flatMap Row.segments := by
    simp [h.segments]
  have hsize : Segment.sizeAll (.mark t.start :: front.flatMap Row.segments) =
      front.length * entrySize := by
    simp [Segment.sizeAll, Segment.size, sizeAll_rows]
  rw [hcode] at hstands
  rw [← hsize]
  exact hstands.part

theorem Represents.sizeAll_segments {rows : List Row} (h : Represents t rows entries returned) :
    Segment.sizeAll t.region.segments = t.size := by
  simp [h.segments, Segment.sizeAll, Segment.size, sizeAll_rows, size, h.count, ← h.shown]

/-- The region of a table can be laid out: all its cells exist, and it marks a cell that is held. -/
theorem Represents.region_within {rows : List Row} (h : Represents t rows entries returned)
    (hc : Carried held s t.start rows offsets) :
    Segment.WithinAll s.cells.size t.region.segments ∧
      Segment.SettlesAll (· ∈ held) t.region.segments := by
  rw [Segment.withinAll_iff, Segment.settlesAll_iff, h.segments, ← forall₂_and]
  intro x hx
  rcases List.mem_cons.1 hx with rfl | hx
  · exact ⟨hc.holding.exist _ hc.startHeld, hc.startHeld⟩
  · obtain ⟨row, hrow, hx⟩ := List.mem_flatMap.1 hx
    simp only [Row.segments, List.mem_cons, List.not_mem_nil, or_false] at hx
    rcases hx with rfl | rfl
    · exact ⟨(hc.addresses row hrow).exist, trivial⟩
    · exact ⟨trivial, trivial⟩

theorem Row.content {row : Row} {u : Store} {bs : Bytes}
    (h : Segment.contentAll u row.segments = some bs) :
    ∃ n : Nat, n < 65536 ∧ u.value? row.address = some (.int n) ∧
      bs = Bytes.littleEndian 2 n ++ [row.argc] := by
  obtain ⟨b₁, b₂, h₁, h₂, rfl⟩ := Segment.contentAll_cons h
  cases h₂
  obtain ⟨v, hv, hencode⟩ := Option.bind_eq_some_iff.1 h₁
  obtain ⟨n, hn, rfl, rfl⟩ := encode_word.1 (Link.toOption_eq_some.1 hencode)
  exact ⟨n, hn, hv, rfl⟩

/-- The image `i` shows the table at the offset `p`: it takes as many bytes as its size says, each
entry shows the address of its function and the number of arguments, and the cells for offsets,
those that are made from now on too, hold the offsets of their entries. -/
structure Placed (t : ShortCallTable) (entries : List (CellId × UInt8))
    (offsets : List EntryOffset) (i : ImageId) (p : Nat) (u : Store) : Prop where
  start : u.value? t.start = some (.int p)
  occupies : ((u.image i).slice p t.size).length = t.size
  entry : ∀ index function argc, entries[index]? = some (function, argc) →
    ∃ n : Nat, n < 65536 ∧ u.value? function = some (.int n) ∧
      (u.image i).slice (p + 3 * index) 3 = Bytes.littleEndian 2 n ++ [argc]
  offset : ∀ o ∈ offsets, u.value? o.cell = some (.int (p + 3 * o.index : Nat))
  later : ∀ index < entries.length, ∃ c u', t.entryOffset index u = .ok (some c) u' ∧
    u'.value? c = some (.int (p + 3 * index : Nat))

theorem Represents.placed {rows : List Row} {r : Region} {i : ImageId} {p : Nat} {u : Store}
    (h : Represents t rows entries returned) (hc : Carried held s t.start rows offsets)
    (hr : Renders held r i s u)
    (hstands : Segment.Stands t.region.segments p (s.image i).size r.segments) :
    Placed t entries offsets i p u := by
  obtain ⟨first, last, hfinished⟩ := hr.finished hc.holding
  have hmark : (t.start, p) ∈ r.marks (s.image i).size := by
    apply hstands.marks_subset
    rw [h.segments]
    exact .head _
  have hstart := hfinished.marks _ hmark
  refine ⟨hstart, ?_, ?_, ?_, ?_⟩
  · rw [← h.sizeAll_segments]
    exact Segment.length_contentAll (hfinished.content hstands)
  · intro index function argc hentry
    rw [← h.shown, List.getElem?_map] at hentry
    obtain ⟨row, hrow, heq⟩ := Option.map_eq_some_iff.1 hentry
    cases heq
    obtain ⟨n, hn, hv, hbytes⟩ := Row.content (hfinished.content (h.stands hrow hstands))
    have hguarded := hr.guarded hc.holding (hc.addresses row (List.mem_of_getElem? hrow))
    obtain ⟨x, hx, hsigned⟩ := Link.value_derive.1 (hguarded.value _ hv)
    obtain rfl := Datum.signedOffset_eq_ok hsigned
    refine ⟨n, hn, hx, ?_⟩
    rwa [Row.sizeAll_segments, entrySize, Nat.mul_comm] at hbytes
  · intro o ho
    obtain ⟨w, hw⟩ := (hc.derivedByTicket o ho).rendered (fun _ => ⟨_, rfl⟩) hc.holding hr hmark
    have hguarded := hr.guarded hc.holding (hc.offsets o ho)
    obtain ⟨x, hx, hoffset⟩ := Link.value_derive.1 (hguarded.value _ hw)
    cases hstart.symm.trans hx
    cases (offsetOf_int o.index p).symm.trans hoffset
    exact hw
  · exact fun index hindex => entryOffset_known (h.count ▸ hindex) hstart

/-- A table that was made in any way, by a caller who takes no value back. The entries that went in
got the indices from `0` on, and there are at most `256` of them. Adding an entry in place does what
adding it to a copy does, it succeeds exactly if there is room and the address fits or is open, and
if it fails the table and all cells are as before. There are offsets for the entries of the table
and no others. Wherever the segments of the table stand in a region that is strictly flattened with
success, the table starts there. -/
theorem short_call_table_placement (h : Made held s t entries returned offsets) :
    returned = List.range entries.length ∧ entries.length ≤ 256 ∧
    (∀ function argc, put function argc (t, s) = commit (·.add function argc) (t, s) ∧
      ((∃ index t' s', put function argc (t, s) = .ok index (t', s')) ↔
        entries.length < 256 ∧ Takes s function) ∧
      ∀ e t' s', put function argc (t, s) = .error e (t', s') → t' = t ∧ Kept s s') ∧
    (∀ index, (∃ c s', t.entryOffset index s = .ok (some c) s') ↔ index < entries.length) ∧
    t.size = 3 * entries.length ∧ Segment.sizeAll t.region.segments = t.size ∧
    ∀ r i p u, Renders held r i s u →
      Segment.Stands t.region.segments p (s.image i).size r.segments →
      Placed t entries offsets i p u := by
  obtain ⟨rows, hrows, hcarried⟩ := h.rows
  refine ⟨hrows.indices, hrows.full, ?_, ?_, ?_, hrows.sizeAll_segments, ?_⟩
  · intro function argc
    rw [← hrows.count]
    rcases put_outcome t function argc s with ⟨hno, e, s', hput, hadd, hkept, -⟩ |
      ⟨hyes, s', hput, hadd, -⟩
    · refine ⟨by simp only [hput, commit, hadd], ⟨?_, fun hyes => absurd hyes hno⟩, ?_⟩
      · rintro ⟨index, t', s'', hok⟩
        cases hput.symm.trans hok
      · intro e' t' s'' herror
        cases hput.symm.trans herror
        exact ⟨rfl, hkept⟩
    · refine ⟨by simp only [hput, commit, hadd], ⟨fun _ => hyes, fun _ => ⟨_, _, _, hput⟩⟩, ?_⟩
      intro e' t' s'' herror
      cases hput.symm.trans herror
  · intro index
    rw [← hrows.count]
    constructor
    · rintro ⟨c, s', hentry⟩
      exact (entryOffset_eq_ok.1 hentry).1
    · exact fun hindex => entryOffset_isOk hindex s
  · rw [size, hrows.count, entrySize, Nat.mul_comm]
  · intro r i p u hr hstands
    exact hrows.placed hcarried hr hstands

/-! Two entries for a function that is placed between layout and finalization, with one in between
that is refused. -/

def lateTableUses : List Use :=
  [.call (.newCell .offset none false), .call (.newCell .offset (some (.int 70000)) false),
    .call .newImage]

def lateTableRegion (t : ShortCallTable) : Region :=
  ⟨[.direct [1, 2] {}, .nested (t.region.segments ++ [.direct [9] {}])]⟩

/-- Goes on whether the operation fails or not. -/
def refused {α : Type} (x : Op α) : Op Bool := fun s =>
  match x s with
  | .ok _ s' => .ok false s'
  | .error _ s' => .ok true s'

theorem refused_eq_true {α : Type} {x : Op α} {s s' : Store} (h : refused x s = .ok true s') :
    ∃ e, x s = .error e s' := by
  unfold refused at h
  cases hx : x s with
  | ok a u => simp [hx] at h
  | error e u =>
    simp only [hx] at h
    cases h
    exact ⟨e, rfl⟩

def lateTable : Op (ShortCallTable × Option CellId × Bool × Store × Store × Layout) := do
  let t ← ShortCallTable.new
  let (_, t) ← t.add 0 2
  let no ← refused (t.add 1 1)
  let (_, t) ← t.add 0 3
  let s ← get
  let c ← t.entryOffset 1
  let s' ← get
  let l ← (lateTableRegion t).layoutObserved 0 .silent
  Store.resolve 0 (.int 0x1234)
  discard (l.finalizeObserved .strict .silent)
  return (t, c, no, s, s', l)

theorem short_call_table_placement_late :
    ∃ held s t c n r u, Made held s t [(0, 2), (0, 3)] [0, 1] [⟨1, c, n⟩] ∧
      Renders held r 0 s u ∧ Segment.Stands t.region.segments 2 0 r.segments ∧
      (u.image 0).bytes = [1, 2, 0x34, 0x12, 2, 0x34, 0x12, 3, 9] ∧
      Placed t [(0, 2), (0, 3)] [⟨1, c, n⟩] 0 2 u := by
  have hrun : (match lateTable (runUses lateTableUses {}) with
      | .ok (_, c, no, s, s', _) u => decide (c.isSome ∧ no = true ∧ s.subscriptions = [] ∧
          0 < s'.images.size ∧ (s'.image 0).size = 0 ∧
          (u.image 0).bytes = [1, 2, 0x34, 0x12, 2, 0x34, 0x12, 3, 9])
      | .error .. => false) = true := by decide +kernel
  have hbefore : Program [] {} lateTableUses [1, 0] (runUses lateTableUses {}) :=
    .cons trivial trivial (.cons trivial trivial (.cons trivial trivial (.nil _ _)))
  have hlasting : ∀ use ∈ lateTableUses, use.Lasting := by
    simp [lateTableUses, Use.Lasting, Call.Lasting]
  cases hlate : lateTable (runUses lateTableUses {}) with
  | error e u => simp [hlate] at hrun
  | ok result u =>
    obtain ⟨t₀, s₁, hnew, hrest⟩ := bind_eq_ok.1 hlate
    obtain ⟨⟨i₁, t₁⟩, s₂, hadd₁, hrest⟩ := bind_eq_ok.1 hrest
    obtain ⟨no, s₃, hno, hrest⟩ := bind_eq_ok.1 hrest
    obtain ⟨⟨i₂, t₂⟩, s₄, hadd₂, hrest⟩ := bind_eq_ok.1 hrest
    obtain ⟨_, _, hget, hrest⟩ := bind_eq_ok.1 hrest
    cases hget
    obtain ⟨c, s₅, hentry, hrest⟩ := bind_eq_ok.1 hrest
    obtain ⟨_, _, hget, hrest⟩ := bind_eq_ok.1 hrest
    cases hget
    obtain ⟨l, s₆, hlayout, hrest⟩ := bind_eq_ok.1 hrest
    obtain ⟨_, s₇, hresolve, hrest⟩ := bind_eq_ok.1 hrest
    obtain ⟨_, s₈, hfinal, hrest⟩ := bind_eq_ok.1 hrest
    cases hrest
    obtain ⟨summary, s₉, hfinalize, hdone⟩ := bind_eq_ok.1 hfinal
    cases hdone
    simp only [hlate, decide_eq_true_eq] at hrun
    obtain ⟨hsome, rfl, hnames, hi, hempty, hbytes⟩ := hrun
    obtain ⟨c, rfl⟩ := Option.isSome_iff_exists.1 hsome
    have hmade₁ := Made.new hbefore hlasting hnew
    have hmade₂ := hmade₁.add (hmade₁.exist (by simp)) hadd₁
    obtain ⟨e, hadd⟩ := refused_eq_true hno
    have hmade₃ := hmade₂.refuse (hmade₂.exist (by simp)) hadd
    have hmade₄ := hmade₃.add (hmade₃.exist (by simp)) hadd₂
    have hmade := hmade₄.entry (by simp [hnames]) hentry
    obtain ⟨hreturned, -, -, -, -, -, hplaced⟩ := short_call_table_placement hmade
    obtain ⟨rfl, rfl⟩ : i₁ = 0 ∧ i₂ = 1 := by simpa [List.range_succ] using hreturned
    obtain ⟨rows, hrows, hcarried⟩ := hmade.rows
    obtain ⟨hwithin, hsettles⟩ := hrows.region_within hcarried
    have hw : (lateTableRegion t₂).Within s₅.cells.size :=
      ⟨trivial, Segment.withinAll_append.2 ⟨hwithin, trivial, trivial⟩, trivial⟩
    have hm : Segment.SettlesAll (· ∈ [t₀.start, 1, 0]) (lateTableRegion t₂).segments := by
      refine ⟨trivial, Segment.settlesAll_iff.2 fun x hx => ?_, trivial⟩
      rcases List.mem_append.1 hx with hx | hx
      · exact Segment.settlesAll_iff.1 hsettles x hx
      · obtain rfl := List.mem_singleton.1 hx
        trivial
    have hlaid : Steps Move.Plain s₅ s₆ := after_of_ok hlayout ▸
      Region.steps_layoutObserved .silent hcarried.holding.lasting.toValid hi hw
    have hbetween : Program [t₀.start, 1, 0] s₆ [.call (.resolve 0 (.int 0x1234))]
        [t₀.start, 1, 0] s₇ := by
      refine .cons ((hmade.exist (by simp)).trans_le hlaid.grows.cells) trivial ?_
      rw [Use.run, Call.run, after_of_ok hresolve]
      exact .nil _ _
    have hrenders := Renders.finalize hi hw hm hlayout hbetween
      (by simp [Use.Lasting, Call.Lasting, Use.Overwrites, Call.Overwrites]) rfl hfinalize
    have hstands : Segment.Stands t₂.region.segments 2 0 (lateTableRegion t₂).segments :=
      .nested [.direct [1, 2] {}] [] (.here [] [.direct [9] {}] rfl)
    refine ⟨_, s₅, t₂, c, _, lateTableRegion t₂, u, hmade, hrenders, hstands, hbytes,
      hplaced _ _ _ _ hrenders ?_⟩
    rwa [hempty]

/-! What a caller can do to the offset of an entry: mark its cell, so that a first flattening gives
it the offset of the mark and fails, and a second one succeeds; or take its subscriber back, with a
number that was given out for another cell. -/

def oneEntry : Op (ShortCallTable × CellId) := do
  let t ← ShortCallTable.new
  let function ← Store.newCell .offset (some (.int 7)) false
  let (_, t) ← t.add function 1
  return (t, (← t.entryOffset 0).getD 0)

def markedEntry : Op (ShortCallTable × CellId) := do
  let (t, c) ← oneEntry
  let r : Region := ⟨[.mark c, .direct [1, 2] {}, .nested t.region.segments]⟩
  discard (refused (r.flatten (← Store.newImage) .strict))
  discard (r.flatten (← Store.newImage) .strict)
  return (t, c)

def strayNumber : Op (ShortCallTable × CellId) := do
  let other ← Store.newCell .offset none false
  let number ← Store.onResolve other (.act .done)
  let (t, c) ← oneEntry
  discard (Store.unsubscribe t.start number)
  discard (t.region.flatten (← Store.newImage) .strict)
  return (t, c)

/-- The cell for the offset of the only entry does not hold the offset of the table, though that was
strictly flattened with success. -/
theorem entry_offset_astray :
    (∃ t c u, markedEntry {} = .ok (t, c) u ∧ (u.image 1).bytes = [1, 2, 7, 0, 1] ∧
      u.value? t.start = some (.int 2) ∧ u.value? c = some (.int 0)) ∧
    ∃ t c u, strayNumber {} = .ok (t, c) u ∧ (u.image 0).bytes = [7, 0, 1] ∧
      u.value? t.start = some (.int 0) ∧ u.value? c = none := by
  have hmarked : (match markedEntry {} with
      | .ok (t, c) u => decide ((u.image 1).bytes = [1, 2, 7, 0, 1] ∧
          u.value? t.start = some (.int 2) ∧ u.value? c = some (.int 0))
      | .error .. => false) = true := by decide +kernel
  have hstray : (match strayNumber {} with
      | .ok (t, c) u => decide ((u.image 0).bytes = [7, 0, 1] ∧
          u.value? t.start = some (.int 0) ∧ u.value? c = none)
      | .error .. => false) = true := by decide +kernel
  constructor
  · cases hrun : markedEntry {} with
    | error e u => simp [hrun] at hmarked
    | ok result u =>
      simp only [hrun, decide_eq_true_eq] at hmarked
      exact ⟨result.1, result.2, u, rfl, hmarked⟩
  · cases hrun : strayNumber {} with
    | error e u => simp [hrun] at hstray
    | ok result u =>
      simp only [hrun, decide_eq_true_eq] at hstray
      exact ⟨result.1, result.2, u, rfl, hstray⟩

end Instruction.ShortCallTable

end Backpatch
