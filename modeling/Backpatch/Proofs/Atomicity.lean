import Mathlib
import Backpatch.Proofs.Branches
import Backpatch.Proofs.Decoding
import Backpatch.Proofs.Emission
import Backpatch.Proofs.Fidelity

/-!
# Instructions are written whole or not at all

A writer appends an instruction to a region in place, piece by piece (`Instruction.put`). Whatever
could be refused is looked at before the first piece, so the pieces that follow always go in:
writing in place does what `Region.writeInstruction` does with a copy of the region, and a failure
leaves the region as it was (`put_outcome`). Cells are made before the checks, but none that existed
gets a value or a subscriber from an instruction that fails.
-/

namespace Backpatch

open Store Failable

/-! ## Changes in place -/

namespace Failable

variable {σ α : Type} {x : Op α} {d : σ} {s t : Store} {e : Error}

/-- An operation on the store, beside a document that it leaves alone. -/
def beside (x : Op α) : Failable (σ × Store) α := fun d =>
  match x d.2 with
  | .ok a t => .ok a (d.1, t)
  | .error e t => .error e (d.1, t)

/-- A change of the document in place. One that is refused leaves it as it was. -/
def change (f : σ → Except Error σ) : Failable (σ × Store) Unit := fun d =>
  match f d.1 with
  | .ok new => .ok () (new, d.2)
  | .error e => .error e d

/-- Puts the document that an operation makes in the place of the old one, if it succeeds. -/
def commit (make : σ → Op (α × σ)) : Failable (σ × Store) α := fun d =>
  match make d.1 d.2 with
  | .ok (a, new) t => .ok a (new, t)
  | .error e t => .error e (d.1, t)

theorem beside_ok {a : α} (h : x s = .ok a t) : beside x (d, s) = .ok a (d, t) := by
  simp only [beside, h]

theorem beside_error (h : x s = .error e t) : beside x (d, s) = .error e (d, t) := by
  simp only [beside, h]

end Failable

namespace Instruction

/-! ## A writer in place -/

/-- The byte of an entry on a page. -/
def putByte {α : Type} [Table α] (page : UInt8) (sub : α) : Failable (Region × Store) Unit :=
  change fun r => r.writeField .nibbles (.known (.nibbles page (Table.nibble sub)))
    (some (Table.name sub))

/-- The byte of an entry and its payload, which is looked at first. -/
def putPaged {α : Type} [Table α] (page : Opcode) (sub : α) (format : IntFormat)
    (payload : FieldValue) (label : Option String) : Failable (Region × Store) Unit := do
  beside (check format payload)
  putByte page.nibble sub
  change fun r => r.writeField (.int format) payload label

/-- A jump over a distance, with a mark behind it. -/
def putRelative {α : Type} [Table α] (page : Opcode) (sub : α) (format : IntFormat)
    (target : CellId) : Failable (Region × Store) Unit := do
  let stop ← beside (Store.newCell .offset none false)
  let payload ← beside (distance target stop)
  putPaged page sub format (.deferred payload) (some "relative")
  change fun r => .ok (r.mark stop)

/-- Appends an instruction to a region in place, one piece after another. -/
def put : Instruction → Failable (Region × Store) Unit
  | .op opcode operand =>
    change fun r => r.writeField .nibbles (.known (.nibbles opcode.nibble operand))
      (some opcode.name)
  | .ex1 sub => putByte Opcode.extended1.nibble sub
  | .ex2 sub payload => putPaged .extended2 sub .u8 payload none
  | .ex2Signed sub payload => putPaged .extended2 sub .i8 payload none
  | .ex3 sub payload => putPaged .extended3 sub .u16le payload none
  | .ex3Signed sub payload => putPaged .extended3 sub .i16le payload none
  | .label target => change fun r => .ok (r.mark target)
  | .branch8 target => putRelative .extended2 Page2.branch1 .i8 target
  | .jump8 target => putRelative .extended2 Page2.jump1 .i8 target
  | .branch16 target => putRelative .extended3 Page3.branch2 .i16le target
  | .jump16 target => putRelative .extended3 Page3.jump2 .i16le target
  | .callShort index =>
    change fun r => r.writeField .nibbles (.known (.nibbles Opcode.call1.nibble index))
      (some Opcode.call1.name)
  | .callShort8 index => putPaged .extended2 Page2.call2 .u8 (number index) none
  | .callGeneral target argc => do
    let address ← beside (Store.signedOffset target)
    beside (check .u16le (.deferred address))
    putPaged .extended2 Page2.call3 .u8 (number argc) none
    change fun r => r.writeField (.int .u16le) (.deferred address) (some "call target")

end Instruction

open Instruction

/-! ## Pieces -/

section Pieces

variable {r r' : Region} {s t : Store} {format : FixedFormat} {value : FieldValue}
  {label : Option String} {e : Error}

/-- A field is one segment more, the same whatever stands in front of it. -/
theorem Region.writeField_eq_ok :
    r.writeField format value label = .ok r' ↔ ∃ segment, r' = r.push segment ∧
      Region.writeField {} format value label = .ok ⟨[segment]⟩ := by
  cases value with
  | known v =>
    simp only [Region.writeField, Region.write, Format.encode]
    cases format.encode v with
    | error e =>
      constructor
      · intro h
        cases h
      · rintro ⟨segment, -, h⟩
        cases h
    | ok bs =>
      constructor
      · intro h
        cases h
        exact ⟨_, rfl, rfl⟩
      · rintro ⟨segment, rfl, h⟩
        cases h
        rfl
  | deferred c =>
    constructor
    · intro h
      cases h
      exact ⟨_, rfl, rfl⟩
    · rintro ⟨segment, rfl, h⟩
      cases h
      rfl

/-- Two nibbles that fit are one byte. -/
theorem writeField_nibbles {high low : UInt8}
    (h : Region.writeField {} .nibbles (.known (.nibbles high low)) label = .ok r) :
    ∃ note, r = ⟨[.direct [high * 16 + low] note]⟩ := by
  simp only [Region.writeField, Region.write, Format.encode, FixedFormat.encode] at h
  split_ifs at h
  · cases h
    exact ⟨_, rfl⟩
  · cases h

/-- A value that can be encoded is written as its bytes. -/
theorem writeField_of_encode {v : Datum} {bs : Bytes} (h : format.encode v = .ok bs) (r : Region)
    (label : Option String) : r.writeField format (.known v) label =
      .ok (r.push (.direct bs ((Format.fixed format).describe (some v) label))) := by
  simp only [Region.writeField, Region.write, Format.encode, h]
  rfl

theorem writeByte_ok {α : Type} [Table α] [Table.Lawful α] (r : Region) (page : Opcode) (sub : α) :
    ∃ note, r.writeField .nibbles (.known (.nibbles page.nibble (Table.nibble sub)))
        (some (Table.name sub)) =
      .ok (r.push (.direct [page.nibble * 16 + Table.nibble sub] note)) := by
  have hhigh : page.nibble < 16 := Table.Lawful.nibble_lt page
  have hlow := Table.Lawful.nibble_lt sub
  exact ⟨_, writeField_of_encode (by simp [FixedFormat.encode, hhigh, hlow]) ..⟩

/-- What passes the check can be written. -/
theorem writeField_of_check {format : IntFormat} (h : check format value s = .ok () t)
    (r : Region) (label : Option String) :
    ∃ segment, r.writeField (.int format) value label = .ok (r.push segment) := by
  cases value with
  | known v =>
    cases he : FixedFormat.encode (.int format) v with
    | error e => simp [check, he] at h
    | ok bs => exact ⟨_, writeField_of_encode he ..⟩
  | deferred c => exact ⟨_, rfl⟩

theorem check_store {format : IntFormat} (h : check format value s = .ok () t) : t = s :=
  (after_of_ok h).symm.trans (after_check ..)

theorem check_store_error {format : IntFormat} (h : check format value s = .error e t) : t = s :=
  (after_of_error h).symm.trans (after_check ..)

/-- A cell that waits passes the check. -/
theorem check_pending {format : IntFormat} {c : CellId} (h : s.value? c = none) :
    check format (.deferred c) s = .ok () s := by
  simp [check, h]

theorem number_segment (argc : UInt8) (label : Option String) :
    ∃ note, Region.writeField {} (.int .u8) (number argc) label = .ok ⟨[.direct [argc] note]⟩ := by
  have he : FixedFormat.encode (.int .u8) (.int argc.toNat) = .ok [argc] :=
    Link.toOption_eq_some.1 (content_number (s := {}) argc)
  exact ⟨_, writeField_of_encode he ..⟩

/-- The byte of an entry and its payload go in together, unless the payload is refused. -/
theorem paged_outcome {α : Type} [Table α] [Table.Lawful α] (r : Region) (page : Opcode) (sub : α)
    (format : IntFormat) (payload : FieldValue) (label : Option String) (s : Store) :
    (∃ e, check format payload s = .error e s ∧
      putPaged page sub format payload label (r, s) = .error e (r, s) ∧
      writePaged r page sub format payload label s = .error e s) ∨
    ∃ note segment, Region.writeField {} (.int format) payload label = .ok ⟨[segment]⟩ ∧
      putPaged page sub format payload label (r, s) = .ok () (⟨r.segments ++
        [.direct [page.nibble * 16 + Table.nibble sub] note, segment]⟩, s) ∧
      writePaged r page sub format payload label s = .ok ⟨r.segments ++
        [.direct [page.nibble * 16 + Table.nibble sub] note, segment]⟩ s := by
  cases hcheck : check format payload s with
  | error e t =>
    obtain rfl := check_store_error hcheck
    refine .inl ⟨e, rfl, ?_, ?_⟩
    · simp only [putPaged, bind_run, beside_error hcheck]
    · simp only [writePaged, bind_run, hcheck]
  | ok _ t =>
    obtain rfl := check_store hcheck
    obtain ⟨note, hbyte⟩ := writeByte_ok r page sub
    obtain ⟨segment, hpayload⟩ := writeField_of_check hcheck
      (r.push (.direct [page.nibble * 16 + Table.nibble sub] note)) label
    obtain ⟨_, hpush, hsegment⟩ := Region.writeField_eq_ok.1 hpayload
    have hboth : (r.push (.direct [page.nibble * 16 + Table.nibble sub] note)).push segment =
        ⟨r.segments ++ [.direct [page.nibble * 16 + Table.nibble sub] note, segment]⟩ := by
      simp [Region.push]
    obtain rfl : segment = _ := by simpa [Region.push] using hpush
    refine .inr ⟨note, segment, hsegment, ?_, ?_⟩
    · rw [← hboth]
      simp only [putPaged, putByte, bind_run, beside_ok hcheck, change, hbyte, hpayload]
    · rw [← hboth]
      simp only [writePaged, writeByte, bind_run, hcheck, hbyte, hpayload, ofExcept_ok_run]

end Pieces

/-! ## Cells that an instruction makes -/

section Cells

variable {s t : Store} {source stop : CellId}

/-- The cells of `s` are in `t` as they were, and so are the images. -/
structure Store.Kept (s t : Store) : Prop where
  cells : ∀ c < s.cells.size, t.cell c = s.cell c
  images : t.images = s.images

theorem Store.Kept.refl (s : Store) : Kept s s := ⟨fun _ _ => rfl, rfl⟩

theorem Store.kept_addCell (s : Store) (cell : Cell) : Kept s (s.addCell cell) :=
  ⟨fun c hc => by rw [cell_addCell, if_neg (Nat.ne_of_lt hc)], rfl⟩

/-- A derivation is refused only if its source has a value, and then nothing was made. -/
theorem tryMap_outcome (source : CellId) (kind : Kind) (f : Datum → Except Error Datum)
    (s : Store) :
    (∃ e, tryMap source kind f s = .error e s ∧ s.value? source ≠ none) ∨
    ∃ t, tryMap source kind f s = .ok s.cells.size t ∧ t.cells.size = s.cells.size + 1 ∧
      (s.value? source ≠ none → Kept s t) ∧
      (s.value? source = none → t.value? s.cells.size = none) ∧
      ∀ c < s.cells.size, t.value? c = s.value? c := by
  have hold : ∀ value, ∀ c < s.cells.size, (s.newDerived kind value).value? c = s.value? c :=
    fun value c hc => by rw [value?_newDerived, if_neg (Nat.ne_of_lt hc)]
  rw [tryMap_run]
  cases hv : s.value? source with
  | none =>
    refine .inr ⟨_, rfl, by simp, fun h => absurd rfl h, fun _ => ?_, fun c hc => ?_⟩
    · simp [value?_newDerived]
    · rw [value?_enqueue, hold none c hc]
  | some v =>
    cases hf : f v with
    | error e =>
      simp only [hf]
      exact .inl ⟨e, rfl, by simp⟩
    | ok w =>
      simp only [hf]
      exact .inr ⟨_, rfl, by simp, fun _ => kept_addCell s _, by simp, hold (some w)⟩

theorem tryMap_pending (kind : Kind) (f : Datum → Except Error Datum)
    (h : s.value? source = none) :
    ∃ t, tryMap source kind f s = .ok s.cells.size t ∧ t.cells.size = s.cells.size + 1 ∧
      t.value? s.cells.size = none ∧ ∀ c < s.cells.size, t.value? c = s.value? c := by
  obtain ⟨e, -, hne⟩ | ⟨t, hrun, hsize, -, hnone, hold⟩ := tryMap_outcome source kind f s
  · exact absurd h hne
  · exact ⟨t, hrun, hsize, hnone h, hold⟩

/-- A distance to an end that is not known yet is refused only for its target, before anything is
made; otherwise it waits. -/
theorem distance_outcome (target : CellId) (hstop : stop < s.cells.size)
    (hpending : s.value? stop = none) :
    (∃ e, distance target stop s = .error e s) ∨
    ∃ payload t, distance target stop s = .ok payload t ∧ s.cells.size ≤ payload ∧
      t.value? payload = none := by
  obtain ⟨e, ha, -⟩ | ⟨s₁, ha, hsize₁, -, -, hold₁⟩ :=
    tryMap_outcome target (.int .i64) Datum.signedOffset s
  · refine .inl ⟨e, ?_⟩
    simp only [distance, signedOffset, bind_run, ha]
  · obtain ⟨s₂, hb, hsize₂, hnone₂, hold₂⟩ := tryMap_pending (.int .i64)
      Datum.signedOffset ((hold₁ stop hstop).trans hpending)
    refine .inr ?_
    simp only [distance, signedOffset, bind_run, ha, hb, subtract, valueOf_run]
    cases s₂.value? s.cells.size with
    | none =>
      refine ⟨_, _, rfl, by omega, ?_⟩
      change ((s₂.newDerived (.int .i64) none).enqueue _ _).value? _ = none
      rw [value?_enqueue, value?_newDerived, if_pos rfl]
    | some v =>
      -- The distance follows the difference, which waits for the end.
      obtain ⟨s₃, hd, hsize₃, hnone₃, -⟩ := tryMap_pending (.int .i64)
        (Datum.difference .i64 v) hnone₂
      obtain ⟨s₄, hfollow, -, hnone₄, -⟩ := tryMap_pending (s₃.kind s₂.cells.size)
        .ok hnone₃
      refine ⟨s₃.cells.size, s₄, ?_, by omega, hnone₄⟩
      simp only [hd, follow, bind_run, kindOf_run, hfollow]

end Cells

/-! ## Whole instructions -/

/-- Known bytes, one by one. -/
def Segment.spelled (front : List (UInt8 × Note)) : List Segment :=
  front.map fun b => .direct [b.1] b.2

namespace Instruction

/-- The bytes in front of the payload: the one of the instruction, and with a general call the
number of arguments. -/
def lead : Instruction → Bytes
  | .op opcode operand => [opcode.nibble * 16 + operand]
  | .ex1 sub => [Opcode.extended1.nibble * 16 + sub.nibble]
  | .ex2 sub _ | .ex2Signed sub _ => [Opcode.extended2.nibble * 16 + sub.nibble]
  | .ex3 sub _ | .ex3Signed sub _ => [Opcode.extended3.nibble * 16 + sub.nibble]
  | .label _ => []
  | .branch8 _ => [Opcode.extended2.nibble * 16 + Page2.branch1.nibble]
  | .jump8 _ => [Opcode.extended2.nibble * 16 + Page2.jump1.nibble]
  | .branch16 _ => [Opcode.extended3.nibble * 16 + Page3.branch2.nibble]
  | .jump16 _ => [Opcode.extended3.nibble * 16 + Page3.jump2.nibble]
  | .callShort index => [Opcode.call1.nibble * 16 + index]
  | .callShort8 _ => [Opcode.extended2.nibble * 16 + Page2.call2.nibble]
  | .callGeneral _ argc => [Opcode.extended2.nibble * 16 + Page2.call3.nibble, argc]

/-- The format of the payload and what it is written from. Distances and addresses go through cells
that are made for them. -/
inductive Carries (s : Store) : Instruction → IntFormat → FieldValue → Prop where
  | ex2 (sub v) : Carries s (.ex2 sub v) .u8 v
  | ex2Signed (sub v) : Carries s (.ex2Signed sub v) .i8 v
  | ex3 (sub v) : Carries s (.ex3 sub v) .u16le v
  | ex3Signed (sub v) : Carries s (.ex3Signed sub v) .i16le v
  | branch8 (target) {c} (hc : s.cells.size ≤ c) : Carries s (.branch8 target) .i8 (.deferred c)
  | jump8 (target) {c} (hc : s.cells.size ≤ c) : Carries s (.jump8 target) .i8 (.deferred c)
  | branch16 (target) {c} (hc : s.cells.size ≤ c) :
      Carries s (.branch16 target) .i16le (.deferred c)
  | jump16 (target) {c} (hc : s.cells.size ≤ c) : Carries s (.jump16 target) .i16le (.deferred c)
  | callShort8 (index) : Carries s (.callShort8 index) .u8 (number index)
  | callGeneral (target argc) {c} (hc : s.cells.size ≤ c) :
      Carries s (.callGeneral target argc) .u16le (.deferred c)

/-- The cells that are marked behind the instruction, if `stop` is the one for its end. -/
def stops (stop : CellId) : Instruction → List CellId
  | .branch8 _ | .jump8 _ | .branch16 _ | .jump16 _ => [stop]
  | .label target => [target]
  | .op .. | .ex1 _ | .ex2 .. | .ex2Signed .. | .ex3 .. | .ex3Signed .. | .callShort _
  | .callShort8 _ | .callGeneral .. => []

/-- The segments of an instruction that is written in the store `s`: the bytes in front, one field
for the payload if there is one, and the marks behind it. -/
def Whole (s : Store) (x : Instruction) (code : List Segment) : Prop :=
  ∃ (front : List (UInt8 × Note)) (field : List Segment),
    code = Segment.spelled front ++ field ++ (x.stops s.cells.size).map .mark ∧
    front.map Prod.fst = x.lead ∧
    ((field = [] ∧ ∀ format v, ¬ x.Carries s format v) ∨
      ∃ format v label, x.Carries s format v ∧
        Region.writeField {} (.int format) v label = .ok ⟨field⟩)

end Instruction

section Outcomes

variable {r : Region} {s : Store} {p : Failable (Region × Store) Unit} {w : Region → Op Region}
  {Q : List Segment → Prop}

/-- Writing in place and writing a copy come to the same: a failure after which the region and all
cells are as before, or the region with some code appended. -/
def Instruction.Outcome (p : Failable (Region × Store) Unit) (w : Region → Op Region) (r : Region)
    (s : Store) (Q : List Segment → Prop) : Prop :=
  (∃ e t, p (r, s) = .error e (r, t) ∧ w r s = .error e t ∧ Kept s t) ∨
    ∃ code t, p (r, s) = .ok () (⟨r.segments ++ code⟩, t) ∧ w r s = .ok ⟨r.segments ++ code⟩ t ∧
      Q code

theorem nibbles_outcome {high low : UInt8} {label : Option String}
    (hQ : ∀ note, Q [.direct [high * 16 + low] note]) :
    Outcome (change fun r => r.writeField .nibbles (.known (.nibbles high low)) label)
      (fun r => Failable.ofExcept (r.writeField .nibbles (.known (.nibbles high low)) label)) r s
      Q := by
  cases h : r.writeField .nibbles (.known (.nibbles high low)) label with
  | error e =>
    refine .inl ⟨e, s, ?_, ?_, .refl s⟩
    · simp only [change, h]
    · simp only [h, ofExcept_error_run]
  | ok r' =>
    obtain ⟨segment, rfl, hsegment⟩ := Region.writeField_eq_ok.1 h
    obtain ⟨note, hnote⟩ := writeField_nibbles hsegment
    cases hnote
    refine .inr ⟨_, s, ?_, ?_, hQ note⟩
    · simp only [change, h]
      rfl
    · simp only [h, ofExcept_ok_run]
      rfl

theorem Instruction.Outcome.paged {α : Type} [Table α] [Table.Lawful α] {page : Opcode} {sub : α}
    {format : IntFormat} {payload : FieldValue} {label : Option String}
    (hQ : ∀ note segment, Region.writeField {} (.int format) payload label = .ok ⟨[segment]⟩ →
      Q [.direct [page.nibble * 16 + Table.nibble sub] note, segment]) :
    Outcome (putPaged page sub format payload label)
      (fun r => writePaged r page sub format payload label) r s Q := by
  obtain ⟨e, -, hput, hwrite⟩ | ⟨note, segment, hsegment, hput, hwrite⟩ :=
    paged_outcome r page sub format payload label s
  · exact .inl ⟨e, s, hput, hwrite, .refl s⟩
  · exact .inr ⟨_, s, hput, hwrite, hQ note segment hsegment⟩

theorem Instruction.Outcome.relative {α : Type} [Table α] [Table.Lawful α] {page : Opcode} {sub : α}
    {format : IntFormat} {target : CellId}
    (hQ : ∀ note payload label, s.cells.size ≤ payload →
      Q [.direct [page.nibble * 16 + Table.nibble sub] note, .deferred (.int format) payload label,
        .mark s.cells.size]) :
    Outcome (putRelative page sub format target)
      (fun r => writeRelative r page sub format target) r s Q := by
  have hnone : (s.addCell { kind := .offset }).value? s.cells.size = none := by
    simp [value?_addCell]
  have hstop : newCell .offset none false s =
    .ok s.cells.size (s.addCell { kind := .offset }) := rfl
  obtain ⟨e, hd⟩ | ⟨payload, t, hd, hle, hpending⟩ :=
    distance_outcome target (by simp [addCell]) hnone
  · refine .inl ⟨e, s.addCell { kind := .offset }, ?_, ?_, kept_addCell s _⟩
    · simp only [putRelative, bind_run, beside_ok hstop, beside_error hd]
    · simp only [writeRelative, bind_run, hstop, hd]
  · obtain ⟨e, hcheck, -⟩ | ⟨note, segment, hsegment, hput, hwrite⟩ :=
      paged_outcome r page sub format (.deferred payload) (some "relative") t
    · rw [check_pending hpending] at hcheck
      cases hcheck
    · cases hsegment
      simp only [addCell, Array.size_push] at hle
      refine .inr ⟨_, t, ?_, ?_, hQ note payload (some "relative") (by omega)⟩
      · simp only [putRelative, bind_run, beside_ok hstop, beside_ok hd, hput, change]
        simp [Region.mark, Region.push]
      · simp only [writeRelative, bind_run, hstop, hd, hwrite]
        simp [Region.mark, Region.push]

/-- The address of a call is looked at before its byte is written. -/
theorem call_outcome {target : CellId} {argc : UInt8}
    (hQ : ∀ note note' label, Q [.direct [Opcode.extended2.nibble * 16 + Page2.call3.nibble] note,
      .direct [argc] note', .deferred (.int .u16le) s.cells.size label]) :
    Outcome (put (.callGeneral target argc)) (·.writeInstruction (.callGeneral target argc)) r s
      Q := by
  obtain ⟨e, ha, -⟩ | ⟨t, ha, -, hkept, hnone, -⟩ :=
    tryMap_outcome target (.int .i64) Datum.signedOffset s
  · refine .inl ⟨e, s, ?_, ?_, .refl s⟩
    · simp only [put, signedOffset, bind_run, beside_error ha]
    · simp only [Region.writeInstruction, signedOffset, bind_run, ha]
  · cases hcheck : check .u16le (.deferred s.cells.size) t with
    | error e t' =>
      obtain rfl := check_store_error hcheck
      -- An address that waits is not refused, so the target has a value.
      have hvalue : s.value? target ≠ none := by
        intro hv
        rw [check_pending (hnone hv)] at hcheck
        cases hcheck
      refine .inl ⟨e, t', ?_, ?_, hkept hvalue⟩
      · simp only [put, signedOffset, bind_run, beside_ok ha, beside_error hcheck]
      · simp only [Region.writeInstruction, signedOffset, bind_run, ha, hcheck]
    | ok _ t' =>
      obtain rfl := check_store hcheck
      obtain ⟨note', hargc⟩ := number_segment argc none
      obtain ⟨e, hrefused, -⟩ | ⟨note, segment, hsegment, hput, hwrite⟩ :=
        paged_outcome r .extended2 Page2.call3 .u8 (number argc) none t'
      · rw [check_run (content_number argc)] at hrefused
        cases hrefused
      · obtain rfl : segment = .direct [argc] note' := by
          simpa using hsegment.symm.trans hargc
        refine .inr ⟨_, t', ?_, ?_, hQ note note' (some "call target")⟩
        · simp only [put, signedOffset, bind_run, beside_ok ha, beside_ok hcheck, hput, change]
          simp [Region.writeField, Region.push, Table.nibble]
        · simp only [Region.writeInstruction, signedOffset, bind_run, ha, hcheck, hwrite]
          simp [Region.writeField, Region.push, Table.nibble]

end Outcomes

/-- Every instruction is written whole, or leaves everything as it was. -/
theorem Instruction.put_outcome (x : Instruction) (r : Region) (s : Store) :
    Outcome (put x) (·.writeInstruction x) r s (x.Whole s) := by
  cases x with
  | op opcode operand =>
    refine nibbles_outcome fun note => ⟨[(_, note)], [], rfl, rfl, .inl ⟨rfl, fun _ _ h => ?_⟩⟩
    cases h
  | callShort index =>
    refine nibbles_outcome fun note => ⟨[(_, note)], [], rfl, rfl, .inl ⟨rfl, fun _ _ h => ?_⟩⟩
    cases h
  | ex1 sub =>
    refine nibbles_outcome fun note => ⟨[(_, note)], [], rfl, rfl, .inl ⟨rfl, fun _ _ h => ?_⟩⟩
    cases h
  | ex2 sub v =>
    exact .paged fun note segment h =>
      ⟨[(_, note)], [segment], rfl, rfl, .inr ⟨_, _, _, .ex2 sub v, h⟩⟩
  | ex2Signed sub v =>
    exact .paged fun note segment h =>
      ⟨[(_, note)], [segment], rfl, rfl, .inr ⟨_, _, _, .ex2Signed sub v, h⟩⟩
  | ex3 sub v =>
    exact .paged fun note segment h =>
      ⟨[(_, note)], [segment], rfl, rfl, .inr ⟨_, _, _, .ex3 sub v, h⟩⟩
  | ex3Signed sub v =>
    exact .paged fun note segment h =>
      ⟨[(_, note)], [segment], rfl, rfl, .inr ⟨_, _, _, .ex3Signed sub v, h⟩⟩
  | label target =>
    refine .inr ⟨[.mark target], s, rfl, rfl, [], [], rfl, rfl, .inl ⟨rfl, fun _ _ h => ?_⟩⟩
    cases h
  | branch8 target =>
    exact .relative fun note payload label h =>
      ⟨[(_, note)], [_], rfl, rfl, .inr ⟨_, _, label, .branch8 target h, rfl⟩⟩
  | jump8 target =>
    exact .relative fun note payload label h =>
      ⟨[(_, note)], [_], rfl, rfl, .inr ⟨_, _, label, .jump8 target h, rfl⟩⟩
  | branch16 target =>
    exact .relative fun note payload label h =>
      ⟨[(_, note)], [_], rfl, rfl, .inr ⟨_, _, label, .branch16 target h, rfl⟩⟩
  | jump16 target =>
    exact .relative fun note payload label h =>
      ⟨[(_, note)], [_], rfl, rfl, .inr ⟨_, _, label, .jump16 target h, rfl⟩⟩
  | callShort8 index =>
    exact .paged fun note segment h =>
      ⟨[(_, note)], [segment], rfl, rfl, .inr ⟨_, _, _, .callShort8 index, h⟩⟩
  | callGeneral target argc =>
    exact call_outcome fun note note' label =>
      ⟨[(_, note), (_, note')], [_], rfl, rfl,
        .inr ⟨_, _, label, .callGeneral target argc le_rfl, rfl⟩⟩

/-! ## Code in an image -/

section Emission

variable {i : ImageId} {n p a : Nat} {s t : Store} {code segments : List Segment}

theorem emitAll_emits (h : emitAll i segments s = .ok () t) : Emits i segments s t := by
  induction segments generalizing s with
  | nil =>
    cases h
    rfl
  | cons segment rest ih =>
    obtain ⟨_, u, hu, h⟩ := bind_eq_ok.1 h
    exact ⟨u, ⟨u, u.log, u.trace, u.reports, hu, rfl⟩, ih h⟩

/-- Wherever code stands in a region, its turn comes when the image has grown to its offset. -/
theorem Segment.Stands.turn (h : Stands code p a segments) (ha : a = (s.image i).size)
    (he : Emits i segments s t) (hv : Valid s []) (hi : i < s.images.size) (hn : n ≤ s.cells.size)
    (hw : Segment.WithinAll n segments) :
    ∃ u v, Steps (Move.Writes i n) s u ∧ (u.image i).size = p ∧ Emits i code u v ∧
      Segment.WithinAll n code ∧ Steps (Move.Writes i n) v t := by
  induction h generalizing s t with
  | here front back hp =>
    obtain ⟨hwithin, hback⟩ := Segment.withinAll_append.1 hw
    obtain ⟨hfront, hcode⟩ := Segment.withinAll_append.1 hwithin
    obtain ⟨v, hv', ht⟩ := Emits.append he
    obtain ⟨u, hu, hv'⟩ := Emits.append hv'
    have hsu := hu.steps hv hi hn hfront
    have huv := hv'.steps (hsu.valid hv) (hi.trans_le hsu.grows.images) (hn.trans hsu.grows.cells)
      hcode
    have hsv := hsu.trans huv
    refine ⟨u, v, hsu, ?_, hv', hcode, ht.steps (hsv.valid hv) (hi.trans_le hsv.grows.images)
      (hn.trans hsv.grows.cells) hback⟩
    rw [hu.emission.size hv hi (hfront.mono hn), hp, ha]
  | nested front back _ ih =>
    obtain ⟨hfront, hinner, hback⟩ := Segment.withinAll_append.1 hw
    obtain ⟨u, hu, v, ⟨v', log, trace, reports, hrun, rfl⟩, ht⟩ := Emits.append he
    have hsu := hu.steps hv hi hn hfront
    have hiu := hi.trans_le hsu.grows.images
    have huv : Steps (Move.Writes i n) u v' :=
      after_of_ok hrun ▸ steps_emitSegment (hsu.valid hv) hiu (hn.trans hsu.grows.cells) hinner
    have hnote : Steps (Move.Writes i n) v' { v' with log, trace, reports } :=
      .quiet (m := .journal log trace reports) trivial trivial rfl
    have hsv := hsu.trans (huv.trans hnote)
    have hoffset := hu.emission.size hv hi (hfront.mono hn)
    obtain ⟨x, y, hux, hsize, hxy, hcode, hyv⟩ := ih (by rw [hoffset, ha]) (emitAll_emits hrun)
      (hsu.valid hv) hiu (hn.trans hsu.grows.cells) hinner
    exact ⟨x, y, hsu.trans hux, hsize, hxy, hcode, hyv.trans (hnote.trans (ht.steps (hsv.valid hv)
      (hi.trans_le hsv.grows.images) (hn.trans hsv.grows.cells) hback))⟩

/-- Known bytes are added to the image, and nothing else happens. -/
theorem Emits.spelled {front : List (UInt8 × Note)} (h : Emits i (Segment.spelled front) s t)
    (hi : i < s.images.size) :
    (t.image i).bytes = (s.image i).bytes ++ front.map Prod.fst ∧
      t.placeholders = s.placeholders ∧ t.images.size = s.images.size ∧
      ∀ c, t.value? c = s.value? c := by
  induction front generalizing s with
  | nil =>
    obtain rfl := h
    simp
  | cons b front ih =>
    obtain ⟨_, ⟨u, log, trace, reports, hrun, rfl⟩, h⟩ := h
    cases hrun
    obtain ⟨hbytes, hplaceholders, himages, hvalues⟩ := ih h (by simpa using hi)
    refine ⟨?_, hplaceholders, himages.trans (by simp), hvalues⟩
    rw [hbytes]
    change ((s.modifyImage i _).image i).bytes ++ _ = _
    rw [image_modifyImage, if_pos ⟨rfl, hi⟩, Image.bytes_append, List.append_assoc]
    rfl

end Emission

section Flattening

variable {i : ImageId} {p : Nat} {s u z : Store} {r : Region} {l : Layout} {observer : Observer}
  {config : FlattenConfig} {front : List (UInt8 × Note)} {rest : List Segment}

theorem Move.Writes.flattens {n : Nat} {m : Move} (h : m.Writes i n) : m.Flattens i := by
  cases m with
  | place => exact h.1
  | append => exact h
  | journal | settle => trivial
  | _ => exact h.elim

theorem Fixed.flattens {a : Nat} {bs : Bytes} (h : Fixed s i a bs)
    (hst : Steps (Move.Flattens i) s u) : Fixed u i a bs :=
  hst.preserve (F := fun t => Fixed t i a bs)
    (fun hm hr hfixed => hfixed.step hr fun _ _ _ htask => hm _ htask) h

/-- A layout grows the image by the size of the region. -/
theorem Region.layoutObserved_size (hv : Valid s []) (hi : i < s.images.size)
    (hw : r.Within s.cells.size) (h : r.layoutObserved i observer s = .ok l u) :
    (u.image i).size = (s.image i).size + r.size := by
  have hs : Steps (Move.Writes i 0) s ((emit
    (.flattening r.segments.length (s.image i).size)).after s) := steps_emit _ fun _ _ _ => trivial
  exact (emitObserved_emits (layoutObserved_eq_ok h).1).emission.size (hs.valid hv) hi hw

theorem Region.layoutObserved_entries (hv : Valid s []) (hi : i < s.images.size)
    (hw : r.Within s.cells.size) (h : r.layoutObserved i observer s = .ok l u) :
    ∀ e ∈ l.entries, e.Within u.cells.size := by
  have hsu : Steps (Move.Flattens i) s u :=
    after_of_ok h ▸ r.layoutObserved_flattens observer hv hi hw
  obtain ⟨-, rfl⟩ := Region.layoutObserved_eq_ok h
  exact fun e he => (Segment.WithinAll.entries hw e he).mono hsu.grows.cells

/-- After a layout that succeeds, flattening goes on from it. -/
theorem Region.flattenObserved_after (hv : Valid s []) (hi : i < s.images.size)
    (hw : r.Within s.cells.size) (h : r.layoutObserved i observer s = .ok l u) :
    Steps (Move.Flattens i) u ((r.flattenObserved i config observer).after s) := by
  have hsu : Steps (Move.Flattens i) s u :=
    after_of_ok h ▸ r.layoutObserved_flattens observer hv hi hw
  have hentries := layoutObserved_entries hv hi hw h
  rw [Region.flattenObserved, after_bind, h]
  refine Steps.bind ((l.finalizeObserved_finalizes config observer (hsu.valid hv) hentries).mono
    fun _ hm => hm.flattens i) fun _ t _ _ => ?_
  exact Steps.bind (steps_emit _ fun _ _ _ => trivial) fun _ t _ _ => .refl t

/-- The turn of code that starts with known bytes: they are written at its offset, then the rest. -/
theorem Region.layoutObserved_turn (hv : Valid s []) (hi : i < s.images.size)
    (hw : r.Within s.cells.size) (h : r.layoutObserved i observer s = .ok l u)
    (hstands : Segment.Stands (Segment.spelled front ++ rest) p (s.image i).size r.segments) :
    ∃ v w, Steps (Move.Flattens i) s v ∧ (v.image i).size = p + front.length ∧
      Fixed v i p (front.map Prod.fst) ∧ Emits i rest v w ∧
      Segment.WithinAll s.cells.size rest ∧ Steps (Move.Flattens i) w u := by
  obtain ⟨hemit, -⟩ := Region.layoutObserved_eq_ok h
  have hs : Steps (Move.Flattens i) s ((emit
    (.flattening r.segments.length (s.image i).size)).after s) := steps_emit _ fun _ _ _ => trivial
  have hsame : (s.image i).size = (((emit
    (.flattening r.segments.length (s.image i).size)).after s).image i).size := rfl
  obtain ⟨x, w, hsx, hsize, hcode, hwithin, hwu⟩ :=
    hstands.turn hsame (emitObserved_emits hemit) (hs.valid hv) hi hs.grows.cells hw
  obtain ⟨v, hfront, hrest⟩ := Emits.append hcode
  obtain ⟨hwfront, hwrest⟩ := Segment.withinAll_append.1 hwithin
  have hsx := hs.trans (hsx.mono fun _ => Move.Writes.flattens)
  have hix := hi.trans_le hsx.grows.images
  obtain ⟨hbytes, hplaceholders, himages, -⟩ := hfront.spelled hix
  have hxv := (hfront.steps (hsx.valid hv) hix hsx.grows.cells hwfront).mono
    fun _ => Move.Writes.flattens
  have hsv := hsx.trans hxv
  have hend : (v.image i).size = p + front.length := by
    rw [← Image.length_bytes, hbytes, List.length_append, List.length_map, Image.length_bytes,
      hsize]
  refine ⟨v, w, hsv, hend, ⟨?_, ?_, ?_⟩, hrest, hwrest, hwu.mono fun _ => Move.Writes.flattens⟩
  · rw [List.length_map, hend]
  · rw [Image.slice, hbytes, ← hsize, ← Image.length_bytes, List.drop_left, List.take_length]
  · intro f q hq hqi
    rw [hplaceholders] at hq
    exact .inr (hsize ▸ hqi ▸ ((hsx.valid hv).fields f q hq).2.2)

/-- Known bytes stand where the code does, also after finalization. -/
theorem Region.flattenObserved_spelled (hv : Valid s []) (hi : i < s.images.size)
    (hw : r.Within s.cells.size) (h : r.layoutObserved i observer s = .ok l u)
    (hstands : Segment.Stands (Segment.spelled front ++ rest) p (s.image i).size r.segments) :
    Fixed ((r.flattenObserved i config observer).after s) i p (front.map Prod.fst) := by
  obtain ⟨v, w, hsv, -, hfixed, hrest, hwrest, hwu⟩ := layoutObserved_turn hv hi hw h hstands
  have hvw : Steps (Move.Flattens i) v w := (hrest.steps (hsv.valid hv)
    (hi.trans_le hsv.grows.images) hsv.grows.cells hwrest).mono fun _ => Move.Writes.flattens
  exact hfixed.flattens (hvw.trans (hwu.trans (flattenObserved_after hv hi hw h)))

/-- A field that the layout still lists is zero. -/
theorem Region.flattenObserved_blank {x : UnresolvedField} (hv : Valid s [])
    (hi : i < s.images.size) (hw : r.Within s.cells.size)
    (h : r.layoutObserved i observer s = .ok l u)
    (hx : x ∈ l.pendingFields ((r.flattenObserved i config observer).after s)) :
    (((r.flattenObserved i config observer).after s).image i).slice x.offset x.width =
      List.replicate x.width 0 := by
  have hst := r.flattenObserved_flattens config observer hv hi hw
  have hfirst : l.first = s.placeholders.size := by
    obtain ⟨-, rfl⟩ := Region.layoutObserved_eq_ok h
    rfl
  obtain ⟨q, hq, rfl⟩ := List.mem_map.1 hx
  obtain ⟨f, hf, -, hfield, hpatched⟩ := Layout.mem_pending.1 hq
  have hblank := (BlankFrom.start s).steps hst (fun _ hm => Ledger.indirect_of_flattens hm) hv f q
    (hfirst ▸ hf) hfield hpatched
  rw [Ledger.image_eq hst (hfirst ▸ hf) hfield] at hblank
  exact hblank

theorem Steps.pending {P : Move → Prop} {a b : Store} {c : CellId} (h : Steps P a b)
    (hP : ∀ m, P m → m.Lasting) (ha : Lasting a []) (hc : b.value? c = none) :
    a.value? c = none := by
  cases hv : a.value? c with
  | none => rfl
  | some v => cases hc.symm.trans (h.value?_eq hP ha hv)

/-- A field that is patched has the value of its cell, so one without a value is not. -/
theorem Filled.not_patched {first f : FieldId} {q : Placeholder} (h : Filled s i first)
    (hf : first ≤ f) (hq : s.placeholders[f]? = some q) (hqi : q.image = i)
    (hc : s.value? q.cell = none) : q.patched = false := by
  rw [Bool.eq_false_iff]
  intro hpatched
  obtain ⟨v, bs, hv, -⟩ := h f q hf hq hqi hpatched
  cases hc.symm.trans hv

/-- Where values last, a field whose cell has no value in the end is still listed. -/
theorem Region.flattenObserved_listed {format : FixedFormat} {c : CellId} {label : Option String}
    (hl : Lasting s []) (hi : i < s.images.size) (hw : r.Within s.cells.size)
    (h : r.layoutObserved i observer s = .ok l u)
    (hstands : Segment.Stands (Segment.spelled front ++ .deferred format c label :: rest) p
      (s.image i).size r.segments)
    (hc : ((r.flattenObserved i config observer).after s).value? c = none) :
    ∃ x ∈ l.pendingFields ((r.flattenObserved i config observer).after s),
      x.offset = p + front.length ∧ x.width = format.width := by
  obtain ⟨v, w, hsv, hsize, -, ⟨v', hfield, hrest⟩, ⟨hwfield, hwrest⟩, hwu⟩ :=
    layoutObserved_turn hl.toValid hi hw h hstands
  have hvv' : Steps (Move.Flattens i) v v' := (hfield.steps (hsv.valid hl.toValid)
    (hi.trans_le hsv.grows.images) hsv.grows.cells hwfield).mono fun _ => Move.Writes.flattens
  have hsv' := hsv.trans hvv'
  have hv'w : Steps (Move.Flattens i) v' w := (hrest.steps (hsv'.valid hl.toValid)
    (hi.trans_le hsv'.grows.images) hsv'.grows.cells hwrest).mono fun _ => Move.Writes.flattens
  have hv'u := hv'w.trans hwu
  have hv'z : Steps (Move.Flattens i) v' ((r.flattenObserved i config observer).after s) :=
    hv'u.trans (flattenObserved_after hl.toValid hi hw h)
  have hsz := hsv'.trans hv'z
  obtain ⟨-, rfl⟩ := Region.layoutObserved_eq_ok h
  have hpending : v.value? c = none := (hvv'.trans hv'z).pending (fun _ hm => hm.plain.lasting)
    (hsv.lasting (fun _ hm => hm.plain.lasting) hl) hc
  obtain ⟨_, log, trace, reports, hrun, rfl⟩ := hfield
  simp only [emitSegment, bind_run, valueOf_run, hpending, place_run] at hrun
  cases hrun
  have hplaced : (v.placed c i format label).placeholders[v.placeholders.size]? =
      some (v.nextPlaceholder c i format label) := by simp [placed]
  obtain ⟨b, hb⟩ := hv'z.grows.fields _ _ hplaced
  have hfilled : Filled ((r.flattenObserved i config observer).after s) i s.placeholders.size := by
    refine Filled.keep hl (hsz.mono fun _ hm => hm.plain.keeps i) fun f p hf hp => ?_
    exact absurd (Array.getElem?_eq_some_iff.1 hp).1 (Nat.not_lt.2 hf)
  refine ⟨_, List.mem_map_of_mem (Layout.mem_pending.2 ⟨v.placeholders.size,
    hsv.grows.placeholders, ?_, hb, ?_⟩), hsize, rfl⟩
  · exact Nat.lt_of_lt_of_le (by simp [placed]) hv'u.grows.placeholders
  · exact hfilled.not_patched hsv.grows.placeholders hb rfl hc

end Flattening

/-! ## Pending payloads -/

/-- A region that has the code at the offset `p` is flattened from the store `s` to `z`, with
success or not, and got as far as the layout `l`. -/
structure Segment.Flattened (code : List Segment) (p : Nat) (i : ImageId) (s : Store) (l : Layout)
    (z : Store) : Prop where
  valid : Valid s []
  image : i < s.images.size
  run : ∃ (r : Region) (config : FlattenConfig) (observer : Observer) (u : Store),
    r.Within s.cells.size ∧ Stands code p (s.image i).size r.segments ∧
      r.layoutObserved i observer s = .ok l u ∧ z = (r.flattenObserved i config observer).after s

/-- What code with the bytes `lead` in front of its field leaves in an image. -/
structure Segment.Leads (lead : Bytes) (code : List Segment) : Prop where
  /-- If the field is pending when its turn comes, zeros are written behind the bytes. -/
  emits : ∀ format c label, .deferred format c label ∈ code →
    ∃ before behind, code = before ++ .deferred format c label :: behind ∧
      ∀ i s, i < s.images.size → s.value? c = none →
        ∃ t, emitAll i (before ++ [.deferred format c label]) s = .ok () t ∧
          (t.image i).bytes = (s.image i).bytes ++ lead ++ List.replicate format.width 0
  /-- Wherever the code is flattened, it starts with the bytes. -/
  front : ∀ p i s l z, Flattened code p i s l z → (z.image i).slice p lead.length = lead
  /-- The field behind them is zero as long as the layout reports it as pending. -/
  blank : ∀ p i s l z format c label, Flattened code p i s l z → .deferred format c label ∈ code →
    (∃ x ∈ l.pendingFields z, x.offset = p + lead.length ∧ x.width = format.width) →
    (z.image i).slice (p + lead.length) format.width = List.replicate format.width 0
  /-- It is reported if its cell has no value in the end and no callback takes values back. -/
  listed : ∀ p i s l z format c label, Flattened code p i s l z → Lasting s [] →
    .deferred format c label ∈ code → z.value? c = none →
    ∃ x ∈ l.pendingFields z, x.offset = p + lead.length ∧ x.width = format.width

section Payloads

variable {x : Instruction} {s : Store} {code : List Segment}

/-- A field of an instruction stands right behind its bytes. -/
theorem Instruction.Whole.split {format : FixedFormat} {c : CellId} {label : Option String}
    (h : x.Whole s code) (hmem : .deferred format c label ∈ code) :
    ∃ front behind, code = Segment.spelled front ++ .deferred format c label :: behind ∧
      front.map Prod.fst = x.lead := by
  obtain ⟨front, field, rfl, hlead, hfield⟩ := h
  obtain hmem | hmem := List.mem_append.1 hmem
  · obtain hmem | hmem := List.mem_append.1 hmem
    · obtain ⟨_, -, hdirect⟩ := List.mem_map.1 hmem
      cases hdirect
    · obtain ⟨rfl, -⟩ | ⟨_, v, _, -, hwrite⟩ := hfield
      · cases hmem
      · obtain ⟨segment, hpush, -⟩ := Region.writeField_eq_ok.1 hwrite
        obtain rfl : field = [segment] := congrArg Region.segments hpush
        obtain rfl := List.mem_singleton.1 hmem
        refine ⟨front, (x.stops s.cells.size).map .mark, ?_, hlead⟩
        rw [List.append_assoc, List.singleton_append]
  · obtain ⟨_, -, hmark⟩ := List.mem_map.1 hmem
    cases hmark

theorem emitAll_pending {i : ImageId} {format : FixedFormat} {c : CellId} {label : Option String}
    (front : List (UInt8 × Note)) (hi : i < s.images.size) (hc : s.value? c = none) :
    ∃ t, emitAll i (Segment.spelled front ++ [.deferred format c label]) s = .ok () t ∧
      (t.image i).bytes =
        (s.image i).bytes ++ front.map Prod.fst ++ List.replicate format.width 0 := by
  induction front generalizing s with
  | nil =>
    refine ⟨s.placed c i format label, ?_, ?_⟩
    · simp [Segment.spelled, emitAll, emitSegment, hc, place_run]
    · change ((s.modifyImage i _).image i).bytes = _
      rw [image_modifyImage, if_pos ⟨rfl, hi⟩, Image.bytes_append, List.map_nil, List.append_nil]
      rfl
  | cons b front ih =>
    obtain ⟨t, ht, hbytes⟩ := ih (s := s.modifyImage i (·.append [b.1] b.2)) (by simpa using hi) hc
    refine ⟨t, ht, ?_⟩
    rw [hbytes, image_modifyImage, if_pos ⟨rfl, hi⟩, Image.bytes_append]
    simp

theorem Instruction.Whole.leads (h : x.Whole s code) : Segment.Leads x.lead code where
  emits format c label hmem := by
    obtain ⟨front, behind, hcode, hlead⟩ := h.split hmem
    rw [← hlead]
    exact ⟨_, behind, hcode, fun i s hi hc => emitAll_pending front hi hc⟩
  front p i s l z hz := by
    obtain ⟨hv, hi, r, config, observer, u, hw, hstands, hlayout, rfl⟩ := hz
    obtain ⟨front, field, rfl, hlead, -⟩ := h
    rw [List.append_assoc] at hstands
    rw [← hlead]
    exact (Region.flattenObserved_spelled hv hi hw hlayout hstands).bytes
  blank p i s l z format c label hz _ hx := by
    obtain ⟨hv, hi, r, config, observer, u, hw, -, hlayout, rfl⟩ := hz
    obtain ⟨x, hx, hoffset, hwidth⟩ := hx
    rw [← hoffset, ← hwidth]
    exact Region.flattenObserved_blank hv hi hw hlayout hx
  listed p i s l z format c label hz hl hmem hc := by
    obtain ⟨-, hi, r, config, observer, u, hw, hstands, hlayout, rfl⟩ := hz
    obtain ⟨front, behind, rfl, hlead⟩ := h.split hmem
    rw [← hlead, List.length_map]
    exact Region.flattenObserved_listed hl hi hw hlayout hstands hc

end Payloads

/-- Writing an instruction in place does what writing it to a copy does. If it fails, the region and
all cells are as before. If it succeeds, the region has grown by the whole instruction, and whenever
that is flattened with its payload pending, zeros stand in its place behind the first bytes. -/
theorem instruction_write_atomic (x : Instruction) (r : Region) (s : Store) :
    put x (r, s) = commit (fun r => do return ((), ← r.writeInstruction x)) (r, s) ∧
    (∀ e r' t, put x (r, s) = .error e (r', t) → r' = r ∧ Kept s t) ∧
    ∀ r' t, put x (r, s) = .ok () (r', t) →
      ∃ code, r'.segments = r.segments ++ code ∧ x.Whole s code ∧ Segment.Leads x.lead code := by
  obtain ⟨e, t, hput, hwrite, hkept⟩ | ⟨code, t, hput, hwrite, hwhole⟩ := put_outcome x r s
  · refine ⟨?_, ?_, ?_⟩
    · simp only [hput, commit, bind_run, hwrite]
    · intro e' r' t' h
      cases hput.symm.trans h
      exact ⟨rfl, hkept⟩
    · intro r' t' h
      cases hput.symm.trans h
  · refine ⟨?_, ?_, ?_⟩
    · simp only [hput, commit, bind_run, hwrite, pure_run]
    · intro e' r' t' h
      cases hput.symm.trans h
    · intro r' t' h
      cases hput.symm.trans h
      exact ⟨code, rfl, hwhole, hwhole.leads⟩

/-! A jump to a label that is never placed, in a part of a region, and a call to a function that
stands too far away. -/

def openJumpCalls : List Call :=
  [.newCell .offset none false, .newCell .offset (some (.int 70000)) false, .newImage]

def openJumpStore : Store := openJumpCalls.foldl (fun s call => call.run.after s) {}

def openJumpRegion (r : Region) : Region :=
  ⟨[.direct [1, 2] {}, .nested (r.segments ++ [.direct [9] {}])]⟩

def openJump : Op (Region × Store × Layout) := do
  let r ← Region.writeInstruction {} (.jump16 0)
  let s ← get
  return (r, s, ← (openJumpRegion r).layoutObserved 0 .silent)

theorem instruction_write_atomic_open :
    (∃ e t, put (.callGeneral 1 3) ({}, openJumpStore) = .error e ({}, t) ∧ Kept openJumpStore t) ∧
    ∃ r s l z, put (.jump16 0) ({}, openJumpStore) = .ok () (r, s) ∧
      Segment.Flattened r.segments 2 0 s l z ∧ (z.image 0).bytes = [1, 2, 0x81, 0, 0, 9] ∧
      (z.image 0).slice 2 1 = [0x81] ∧ (z.image 0).slice 3 2 = [0, 0] := by
  have hrun : (match openJump openJumpStore with
      | .ok (r, s, _) _ =>
        let z := ((openJumpRegion r).flattenObserved 0 .quiet .silent).after s
        decide ((z.image 0).bytes = [1, 2, 0x81, 0, 0, 9] ∧ 0 < s.images.size ∧
          (s.image 0).size = 0 ∧ ∀ c ∈ Segment.fieldCells r.segments, z.value? c = none)
      | .error .. => false) = true := by decide +kernel
  have hrefused : (match put (.callGeneral 1 3) ({}, openJumpStore) with
      | .ok .. => false
      | .error .. => true) = true := by decide +kernel
  have hlasting : Lasting openJumpStore [] := by
    have hbefore : Run {} openJumpCalls openJumpStore :=
      .cons trivial (.cons trivial (.cons trivial (.nil _)))
    exact hbefore.lasting Lasting.empty (by simp [openJumpCalls, Call.Lasting])
  have hw : (Instruction.jump16 0).Within openJumpStore.cells.size := show 0 < _ by decide +kernel
  refine ⟨?_, ?_⟩
  · cases hput : put (.callGeneral 1 3) ({}, openJumpStore) with
    | ok a d => simp [hput] at hrefused
    | error e d =>
      obtain ⟨hsame, hkept⟩ :=
        (instruction_write_atomic (.callGeneral 1 3) {} openJumpStore).2.1 e d.1 d.2 hput
      exact ⟨e, d.2, by rw [← hsame], hkept⟩
  · cases hjump : openJump openJumpStore with
    | error e t => simp [hjump] at hrun
    | ok result u =>
      obtain ⟨r, s, hwrite, hrest⟩ := bind_eq_ok.1 hjump
      obtain ⟨_, _, hget, hrest⟩ := bind_eq_ok.1 hrest
      cases hget
      obtain ⟨l, t, hlayout, hrest⟩ := bind_eq_ok.1 hrest
      cases hrest
      simp only [hjump, decide_eq_true_eq] at hrun
      obtain ⟨hbytes, hi, hempty, hpending⟩ := hrun
      obtain ⟨hcommit, -, hok⟩ := instruction_write_atomic (.jump16 0) {} openJumpStore
      have hput : put (.jump16 0) ({}, openJumpStore) = .ok () (r, s) := by
        simp only [hcommit, commit, bind_run, hwrite, pure_run]
      obtain ⟨-, bytes, note, payload, label, -, hsegments, a, b, -, -, hpayload⟩ :=
        writeInstruction_relative (M := fun _ => False) rfl hlasting hw (by simp) hwrite
      obtain ⟨code, hcode, -, hleads⟩ := hok r s hput
      obtain rfl : r.segments = code := hcode
      have hsteps : Steps Move.Creates openJumpStore s :=
        after_of_ok hwrite ▸ steps_writeInstruction {} hw
      have hl := hsteps.lasting (fun _ hm => hm.plain.lasting) hlasting
      have hstop : openJumpStore.cells.size < s.cells.size :=
        after_of_ok hwrite ▸ Nat.lt_of_lt_of_le (by simp)
          (steps_writeRelative {} Opcode.extended3 Page3.jump2 .i16le hw).grows.cells
      have hflat : Segment.Flattened r.segments 2 0 s l
          (((openJumpRegion r).flattenObserved 0 .quiet .silent).after s) := by
        refine ⟨hl.toValid, hi, openJumpRegion r, .quiet, .silent, u, ?_, ?_, hlayout, rfl⟩
        · simp only [openJumpRegion, hsegments]
          exact ⟨trivial, ⟨trivial, hpayload.exist, hstop, trivial, trivial⟩, trivial⟩
        · rw [hempty]
          exact .nested [.direct [1, 2] {}] [] (.here [] [.direct [9] {}] rfl)
      have hmem : Segment.deferred (.int .i16le) payload label ∈ r.segments := by simp [hsegments]
      have hnone := hpending payload (by simp [hsegments, Segment.fieldCells])
      exact ⟨r, s, l, _, hput, hflat, hbytes, hleads.front _ _ _ _ _ hflat,
        hleads.blank _ _ _ _ _ _ _ _ hflat hmem
          (hleads.listed _ _ _ _ _ _ _ _ hflat hl hmem hnone)⟩

end Backpatch
