import Mathlib
import Backpatch.Instruction
import Backpatch.Proofs.Appending
import Backpatch.Proofs.Sources

/-!
# Instruction streams

The first byte of an instruction names an entry of a table (`Head`), and with it the number of bytes
that follow. So the bytes of an instruction are never the beginning of another one, and a stream of
instructions can be taken apart in one way only. Instructions whose arguments are known are written
and flattened without fail, and what they write is their `Code`.
-/

namespace Backpatch

open Store Failable

namespace Instruction

/-- Every entry of the table is found by its nibble. -/
class Table.Lawful (α : Type) [Table α] : Prop where
  nibble_lt : ∀ a : α, Table.nibble a < 16
  ofNibble?_nibble : ∀ a : α, Table.ofNibble? α (Table.nibble a) = some a

instance : Table.Lawful Opcode where
  nibble_lt a := by cases a <;> decide
  ofNibble?_nibble a := by cases a <;> rfl

instance : Table.Lawful Page1 where
  nibble_lt a := by cases a <;> decide
  ofNibble?_nibble a := by cases a <;> rfl

instance : Table.Lawful Page2 where
  nibble_lt a := by cases a <;> decide
  ofNibble?_nibble a := by cases a <;> rfl

instance : Table.Lawful Page3 where
  nibble_lt a := by cases a <;> decide
  ofNibble?_nibble a := by cases a <;> rfl

open Table.Lawful

/-- Whether the opcode leads to a page of its own. -/
def Opcode.isPage : Opcode → Bool
  | .extended1 | .extended2 | .extended3 => true
  | _ => false

/-- What the first byte of an instruction says. -/
inductive Head where
  | op (opcode : Opcode) (plain : opcode.isPage = false) (operand : Fin 16)
  | ex1 (sub : Page1)
  | ex2 (sub : Page2)
  | ex3 (sub : Page3)
deriving DecidableEq

namespace Head

def high : Head → UInt8
  | op opcode _ _ => opcode.nibble
  | ex1 _ => Opcode.extended1.nibble
  | ex2 _ => Opcode.extended2.nibble
  | ex3 _ => Opcode.extended3.nibble

def low : Head → UInt8
  | op _ _ operand => UInt8.ofNat operand
  | ex1 sub => sub.nibble
  | ex2 sub => sub.nibble
  | ex3 sub => sub.nibble

def byte (h : Head) : UInt8 := h.high * 16 + h.low

/-- The number of bytes that follow the first one. -/
def width : Head → Nat
  | op .. | ex1 _ => 0
  | ex2 sub => if sub = .call3 then 3 else 1
  | ex3 _ => 2

/-- The entry that two nibbles name, if they are not free. -/
def ofNibbles? (high low : UInt8) : Option Head := do
  let opcode ← Table.ofNibble? Opcode high
  if h : opcode.isPage = false then
    return .op opcode h ⟨low.toNat % 16, Nat.mod_lt _ (by decide)⟩
  match opcode with
  | .extended1 => ex1 <$> Table.ofNibble? Page1 low
  | .extended2 => ex2 <$> Table.ofNibble? Page2 low
  | _ => ex3 <$> Table.ofNibble? Page3 low

theorem high_lt (h : Head) : h.high < 16 := by
  cases h with
  | op opcode => exact nibble_lt opcode
  | ex1 => exact nibble_lt Opcode.extended1
  | ex2 => exact nibble_lt Opcode.extended2
  | ex3 => exact nibble_lt Opcode.extended3

theorem low_lt (h : Head) : h.low < 16 := by
  cases h with
  | op opcode plain operand =>
    rw [low, UInt8.lt_iff_toNat_lt, UInt8.toNat_ofNat']
    exact (Nat.mod_le ..).trans_lt operand.isLt
  | ex1 sub => exact nibble_lt sub
  | ex2 sub => exact nibble_lt sub
  | ex3 sub => exact nibble_lt sub

theorem byte_div_mod (h : Head) : h.byte / 16 = h.high ∧ h.byte % 16 = h.low := by
  have hhigh := UInt8.lt_iff_toNat_lt.1 h.high_lt
  have hlow := UInt8.lt_iff_toNat_lt.1 h.low_lt
  have hbyte : h.byte.toNat = h.high.toNat * 16 + h.low.toNat := by
    rw [byte, UInt8.toNat_add, UInt8.toNat_mul]
    change (_ * 16 % 256 + _) % 256 = _
    change _ < 16 at hhigh hlow
    omega
  change _ < 16 at hhigh hlow
  constructor
  · rw [← UInt8.toNat_inj, UInt8.toNat_div, hbyte]
    change _ / 16 = _
    omega
  · rw [← UInt8.toNat_inj, UInt8.toNat_mod, hbyte]
    change _ % 16 = _
    omega

/-- The nibbles of the first byte tell which entry it was made for. -/
theorem ofNibbles?_high_low (h : Head) : ofNibbles? h.high h.low = some h := by
  cases h with
  | op opcode plain operand =>
    have hopcode : Table.ofNibble? Opcode opcode.nibble = some opcode := ofNibble?_nibble opcode
    simp [ofNibbles?, high, low, hopcode, plain, Nat.mod_eq_of_lt operand.isLt]
  | ex1 sub =>
    change ex1 <$> Table.ofNibble? Page1 (Table.nibble sub) = _
    rw [ofNibble?_nibble]
    rfl
  | ex2 sub =>
    change ex2 <$> Table.ofNibble? Page2 (Table.nibble sub) = _
    rw [ofNibble?_nibble]
    rfl
  | ex3 sub =>
    change ex3 <$> Table.ofNibble? Page3 (Table.nibble sub) = _
    rw [ofNibble?_nibble]
    rfl

theorem byte_injective : Function.Injective byte := by
  intro h k hbyte
  have hhigh : h.high = k.high := by rw [← h.byte_div_mod.1, hbyte, k.byte_div_mod.1]
  have hlow : h.low = k.low := by rw [← h.byte_div_mod.2, hbyte, k.byte_div_mod.2]
  have hsome := h.ofNibbles?_high_low
  rw [hhigh, hlow, ofNibbles?_high_low] at hsome
  exact (Option.some.inj hsome).symm

end Head

/-- The number of bytes of an instruction that starts with `b`. -/
def lengthFrom (b : UInt8) : Nat :=
  if b / 16 = 7 then if b % 16 = 6 then 4 else 2 else if b / 16 = 8 then 3 else 1

theorem Head.lengthFrom_byte (h : Head) : lengthFrom h.byte = h.width + 1 := by
  rw [lengthFrom, h.byte_div_mod.1, h.byte_div_mod.2]
  cases h with
  | op opcode plain operand =>
    cases opcode with
    | extended1 | extended2 | extended3 => cases plain
    | _ => rfl
  | ex1 => rfl
  | ex2 sub => cases sub <;> rfl
  | ex3 => rfl

/-- An instruction as a reader of its bytes sees it. -/
structure Code where
  head : Head
  payload : Bytes
deriving DecidableEq

namespace Code

/-- The payload has the length that the first byte announces. -/
def Fits (c : Code) : Prop := c.payload.length = c.head.width

def bytes (c : Code) : Bytes := c.head.byte :: c.payload

theorem Fits.length_bytes {c : Code} (h : c.Fits) : c.bytes.length = lengthFrom c.head.byte := by
  rw [bytes, List.length_cons, h, Head.lengthFrom_byte]

/-- The bytes of one instruction are not the beginning of another. -/
theorem Fits.append_inj {c d : Code} {xs ys : Bytes} (hc : c.Fits) (hd : d.Fits)
    (h : c.bytes ++ xs = d.bytes ++ ys) : c = d ∧ xs = ys := by
  obtain ⟨head, payload⟩ := c
  obtain ⟨head', payload'⟩ := d
  obtain ⟨hbyte, hrest⟩ := List.cons.inj h
  obtain rfl := Head.byte_injective hbyte
  obtain ⟨rfl, rfl⟩ := List.append_inj hrest (hc.trans hd.symm)
  exact ⟨rfl, rfl⟩

/-- A stream of instructions is taken apart in one way only. -/
theorem eq_of_flatMap_bytes {cs ds : List Code} (hcs : ∀ c ∈ cs, c.Fits) (hds : ∀ d ∈ ds, d.Fits)
    (h : cs.flatMap bytes = ds.flatMap bytes) : cs = ds := by
  induction cs generalizing ds with
  | nil =>
    cases ds with
    | nil => rfl
    | cons d ds => cases h
  | cons c cs ih =>
    cases ds with
    | nil => cases h
    | cons d ds =>
      obtain ⟨rfl, hrest⟩ := (hcs c (.head _)).append_inj (hds d (.head _)) h
      rw [ih (fun x hx => hcs x (.tail _ hx)) (fun x hx => hds x (.tail _ hx)) hrest]

end Code

end Instruction

open Instruction Link

/-! ## Instructions with known arguments -/

/-- The bytes of a field, if its value is known and fits. -/
def FieldValue.content (s : Store) (format : FixedFormat) : FieldValue → Option Bytes
  | .known v => (format.encode v).toOption
  | .deferred c => (s.value? c).bind fun v => (format.encode v).toOption

namespace Instruction

/-- An opcode that leads to no page, with an operand that fits into a nibble. -/
def plainCode? (opcode : Opcode) (operand : UInt8) : Option Code :=
  if h : opcode.isPage = false ∧ operand.toNat < 16 then
    some ⟨.op opcode h.1 ⟨operand.toNat, h.2⟩, []⟩
  else none

/-- An entry of a page with a payload that is known and fits. -/
def pagedCode? (s : Store) (head : Head) (format : IntFormat) (payload : FieldValue) :
    Option Code :=
  (payload.content s (.int format)).map (⟨head, ·⟩)

/-- The entry of the general call has a payload of its own, and is not written this way. -/
def shortCode? (s : Store) (sub : Page2) (format : IntFormat) (payload : FieldValue) :
    Option Code :=
  if sub = .call3 then none else pagedCode? s (.ex2 sub) format payload

/-- A call has the number of its arguments and the address of its target. -/
def callCode? (s : Store) (target : CellId) (argc : UInt8) : Option Code := do
  let address ← (Datum.signedOffset (← s.value? target)).toOption
  let bytes ← (FixedFormat.encode (.int .u16le) address).toOption
  return ⟨.ex2 .call3, argc :: bytes⟩

/-- The code of an instruction whose arguments are known and in range. A distance depends on the
place of the instruction, so instructions with one have no code of their own. -/
def code? (s : Store) : Instruction → Option Code
  | .op opcode operand => plainCode? opcode operand
  | .ex1 sub => some ⟨.ex1 sub, []⟩
  | .ex2 sub payload => shortCode? s sub .u8 payload
  | .ex2Signed sub payload => shortCode? s sub .i8 payload
  | .ex3 sub payload => pagedCode? s (.ex3 sub) .u16le payload
  | .ex3Signed sub payload => pagedCode? s (.ex3 sub) .i16le payload
  | .callShort index => plainCode? .call1 index
  | .callShort8 index => shortCode? s .call2 .u8 (number index)
  | .callGeneral target argc => callCode? s target argc
  | .label _ | .branch8 _ | .jump8 _ | .branch16 _ | .jump16 _ => none

end Instruction

section Writing

variable {s t : Store} {r r' r'' : Region} {bs cs : Bytes}

theorem FieldValue.content_mono {format : FixedFormat} {value : FieldValue} (ht : t.Knows s)
    (h : value.content s format = some bs) : value.content t format = some bs := by
  cases value with
  | known v => exact h
  | deferred c =>
    obtain ⟨v, hv, h⟩ := Option.bind_eq_some_iff.1 h
    exact Option.bind_eq_some_iff.2 ⟨v, ht c v hv, h⟩

theorem FieldValue.length_content {format : FixedFormat} {value : FieldValue}
    (h : value.content s format = some bs) : bs.length = format.width := by
  cases value with
  | known v => exact FixedFormat.length_encode (toOption_eq_some.1 h)
  | deferred c =>
    obtain ⟨v, -, h⟩ := Option.bind_eq_some_iff.1 h
    exact FixedFormat.length_encode (toOption_eq_some.1 h)

theorem plainCode?_eq_some {opcode : Opcode} {operand : UInt8} {c : Code}
    (h : plainCode? opcode operand = some c) :
    c.payload = [] ∧ c.head.width = 0 ∧ c.head.high = opcode.nibble ∧ c.head.low = operand := by
  unfold plainCode? at h
  split_ifs at h with hin
  obtain rfl := Option.some.inj h
  exact ⟨rfl, rfl, rfl, by simp [Head.low]⟩

theorem pagedCode?_eq_some {head : Head} {format : IntFormat} {payload : FieldValue} {c : Code} :
    pagedCode? s head format payload = some c ↔
      c.head = head ∧ payload.content s (.int format) = some c.payload := by
  rw [pagedCode?, Option.map_eq_some_iff]
  constructor
  · rintro ⟨bs, hbs, rfl⟩
    exact ⟨rfl, hbs⟩
  · rintro ⟨rfl, hbs⟩
    exact ⟨c.payload, hbs, rfl⟩

theorem shortCode?_eq_some {sub : Page2} {format : IntFormat} {payload : FieldValue} {c : Code} :
    shortCode? s sub format payload = some c ↔
      sub ≠ .call3 ∧ pagedCode? s (.ex2 sub) format payload = some c := by
  grind [shortCode?]

theorem callCode?_eq_some {target : CellId} {argc : UInt8} {c : Code} :
    callCode? s target argc = some c ↔
      ∃ v w bs, s.value? target = some v ∧ Datum.signedOffset v = .ok w ∧
        FixedFormat.encode (.int .u16le) w = .ok bs ∧ c = ⟨.ex2 .call3, argc :: bs⟩ := by
  simp only [callCode?, Option.bind_eq_bind, Option.bind_eq_some_iff, toOption_eq_some,
    Option.pure_def, Option.some.injEq]
  grind

theorem Instruction.code?_mono {x : Instruction} {c : Code} (ht : t.Knows s)
    (h : x.code? s = some c) : x.code? t = some c := by
  have hpaged : ∀ {head format payload}, pagedCode? s head format payload = some c →
      pagedCode? t head format payload = some c := by
    intro head format payload h
    obtain ⟨hhead, hcontent⟩ := pagedCode?_eq_some.1 h
    exact pagedCode?_eq_some.2 ⟨hhead, FieldValue.content_mono ht hcontent⟩
  have hshort : ∀ {sub format payload}, shortCode? s sub format payload = some c →
      shortCode? t sub format payload = some c := by
    intro sub format payload h
    obtain ⟨hsub, h⟩ := shortCode?_eq_some.1 h
    exact shortCode?_eq_some.2 ⟨hsub, hpaged h⟩
  cases x with
  | op | ex1 | callShort => exact h
  | ex2 | ex2Signed | callShort8 => exact hshort h
  | ex3 | ex3Signed => exact hpaged h
  | callGeneral target argc =>
    obtain ⟨v, w, bs, hv, h⟩ := callCode?_eq_some.1 h
    exact callCode?_eq_some.2 ⟨v, w, bs, ht target v hv, h⟩
  | label | branch8 | jump8 | branch16 | jump16 => cases h

/-- The region goes on from `r` to `r'` with inert segments whose content is known. -/
def Region.Continues (s : Store) (r : Region) (bs : Bytes) (r' : Region) : Prop :=
  ∃ segments, r'.segments = r.segments ++ segments ∧ Segment.InertAll segments ∧
    Segment.contentAll s segments = some bs

theorem Segment.inertAll_append {xs ys : List Segment} (hxs : InertAll xs) (hys : InertAll ys) :
    InertAll (xs ++ ys) := by
  induction xs with
  | nil => exact hys
  | cons x xs ih => exact ⟨hxs.1, ih hxs.2⟩

theorem Segment.contentAll_append {xs ys : List Segment} (hxs : contentAll s xs = some bs)
    (hys : contentAll s ys = some cs) : contentAll s (xs ++ ys) = some (bs ++ cs) := by
  induction xs generalizing bs with
  | nil =>
    cases hxs
    exact hys
  | cons x xs ih =>
    obtain ⟨b₁, b₂, h₁, h₂, rfl⟩ := contentAll_cons hxs
    rw [List.cons_append, contentAll, h₁, ih h₂, List.append_assoc]
    rfl

namespace Region.Continues

theorem refl (s : Store) (r : Region) : Continues s r [] r := ⟨[], by simp, trivial, rfl⟩

theorem trans (h : Continues s r bs r') (g : Continues s r' cs r'') :
    Continues s r (bs ++ cs) r'' := by
  obtain ⟨xs, hxs, hinert, hbs⟩ := h
  obtain ⟨ys, hys, hinert', hcs⟩ := g
  exact ⟨xs ++ ys, by rw [hys, hxs, List.append_assoc], Segment.inertAll_append hinert hinert',
    Segment.contentAll_append hbs hcs⟩

theorem mono (ht : t.Knows s) (h : Continues s r bs r') : Continues t r bs r' := by
  obtain ⟨xs, hxs, hinert, hbs⟩ := h
  exact ⟨xs, hxs, hinert, Segment.contentAll_mono ht hbs⟩

theorem writeField {format : FixedFormat} {value : FieldValue} (r : Region) (label : Option String)
    (h : value.content s format = some bs) :
    ∃ r', r.writeField format value label = .ok r' ∧ Continues s r bs r' := by
  cases value with
  | known v =>
    have he : format.encode v = .ok bs := toOption_eq_some.1 h
    refine ⟨r.push (.direct bs ((Format.fixed format).describe (some v) label)), ?_, ?_⟩
    · simp only [Region.writeField, write, Format.encode, he]
      rfl
    · exact ⟨_, rfl, ⟨trivial, trivial⟩, by simp [Segment.contentAll, Segment.content]⟩
  | deferred c =>
    refine ⟨_, rfl, _, rfl, ⟨trivial, trivial⟩, ?_⟩
    have hcontent : (Segment.deferred format c label).content s = some bs := h
    simp [Segment.contentAll, hcontent]

end Region.Continues

theorem check_run {format : IntFormat} {payload : FieldValue}
    (h : payload.content s (.int format) = some bs) : check format payload s = .ok () s := by
  cases payload with
  | known v =>
    have he : FixedFormat.encode (.int format) v = .ok bs := toOption_eq_some.1 h
    simp [check, he]
  | deferred c =>
    obtain ⟨v, hv, h⟩ := Option.bind_eq_some_iff.1 h
    have he : FixedFormat.encode (.int format) v = .ok bs := toOption_eq_some.1 h
    simp [check, hv, he]

/-- The nibbles of an entry fit into its byte. -/
theorem Instruction.Head.content_nibbles (h : Head) :
    FieldValue.content s .nibbles (.known (.nibbles h.high h.low)) = some [h.byte] := by
  simp [FieldValue.content, FixedFormat.encode, h.high_lt, h.low_lt, Except.toOption, byte]

/-- The byte of an entry and its payload, one after the other. -/
theorem writePaged_continues {α : Type} [Table α] {head : Head} {page : Opcode} {sub : α}
    {format : IntFormat} {payload : FieldValue} (r : Region) (label : Option String)
    (hpage : page.nibble = head.high) (hsub : Table.nibble sub = head.low)
    (hpayload : payload.content s (.int format) = some bs) :
    ∃ r', writePaged r page sub format payload label s = .ok r' s ∧
      Region.Continues s r (head.byte :: bs) r' := by
  obtain ⟨r₁, hr₁, hfirst⟩ := Region.Continues.writeField r (some (Table.name sub))
    (head.content_nibbles (s := s))
  obtain ⟨r₂, hr₂, hsecond⟩ := Region.Continues.writeField r₁ label hpayload
  refine ⟨r₂, ?_, hfirst.trans hsecond⟩
  have hbyte : writeByte r page.nibble sub s = .ok r₁ s := by
    rw [writeByte, hpage, hsub, hr₁, ofExcept_ok_run]
  simp only [writePaged, bind_run, check_run hpayload, hbyte, hr₂, ofExcept_ok_run]

theorem plainCode?_writes {opcode : Opcode} {operand : UInt8} {c : Code} (r : Region)
    (label : Option String) (h : plainCode? opcode operand = some c) :
    ∃ r', r.writeField .nibbles (.known (.nibbles opcode.nibble operand)) label = .ok r' ∧
      Region.Continues s r c.bytes r' := by
  obtain ⟨hpayload, -, hhigh, hlow⟩ := plainCode?_eq_some h
  rw [Code.bytes, hpayload, ← hhigh, ← hlow]
  exact Region.Continues.writeField r label c.head.content_nibbles

theorem content_number (argc : UInt8) :
    (number argc).content s (.int .u8) = some [argc] := by
  have hlt : argc.toNat < Bytes.wordCount IntFormat.u8.width := argc.toNat_lt
  have hencode : IntFormat.encode .u8 argc.toNat = .ok [argc] := by
    rw [IntFormat.encode_natCast rfl rfl, if_pos hlt]
    simp [Bytes.littleEndian, IntFormat.width]
  simp [number, FieldValue.content, FixedFormat.encode, hencode, Except.toOption]

theorem pagedCode?_writes {α : Type} [Table α] {head : Head} {format : IntFormat}
    {payload : FieldValue} {c : Code} (r : Region) (page : Opcode) (sub : α)
    (hpage : page.nibble = head.high) (hsub : Table.nibble sub = head.low)
    (h : pagedCode? s head format payload = some c) :
    ∃ r', writePaged r page sub format payload none s = .ok r' s ∧
      Region.Continues s r c.bytes r' := by
  obtain ⟨rfl, hcontent⟩ := pagedCode?_eq_some.1 h
  exact writePaged_continues r none hpage hsub hcontent

theorem callCode?_writes {target : CellId} {argc : UInt8} {c : Code} (r : Region)
    (h : callCode? s target argc = some c) :
    ∃ r' t, r.writeInstruction (.callGeneral target argc) s = .ok r' t ∧ t.Knows s ∧
      Region.Continues t r c.bytes r' := by
  obtain ⟨v, w, bs, hv, hw, hbs, rfl⟩ := callCode?_eq_some.1 h
  let t := s.newDerived (.int .i64) (some w)
  have hknows : t.Knows s := fun _ _ hc => value?_newDerived_of_some s _ _ hc
  have haddress : signedOffset target s = .ok s.cells.size t := by
    simp only [signedOffset, tryMap_run, hv, hw]
    rfl
  have hcontent : (FieldValue.deferred s.cells.size).content t (.int .u16le) = some bs := by
    refine Option.bind_eq_some_iff.2 ⟨w, ?_, toOption_eq_some.2 hbs⟩
    simp [t, value?_newDerived]
  have hargc : pagedCode? t (.ex2 .call3) .u8 (number argc) = some ⟨.ex2 .call3, [argc]⟩ :=
    pagedCode?_eq_some.2 ⟨rfl, content_number argc⟩
  obtain ⟨r₁, hr₁, hfirst⟩ := pagedCode?_writes r .extended2 Page2.call3 rfl rfl hargc
  obtain ⟨r₂, hr₂, hsecond⟩ := Region.Continues.writeField r₁ (some "call target") hcontent
  refine ⟨r₂, t, ?_, hknows, hfirst.trans hsecond⟩
  simp only [Region.writeInstruction, bind_run, haddress, check_run hcontent, hr₁, hr₂,
    ofExcept_ok_run]

/-- An instruction with known arguments is written, and the region goes on with its code. -/
theorem Region.writeInstruction_continues {x : Instruction} {c : Code} (r : Region)
    (h : x.code? s = some c) :
    ∃ r' t, r.writeInstruction x s = .ok r' t ∧ t.Knows s ∧ Continues t r c.bytes r' := by
  have hsame : s.Knows s := fun _ _ hv => hv
  cases x with
  | op opcode operand =>
    obtain ⟨r', hr', hcont⟩ := plainCode?_writes r (some opcode.name) h
    exact ⟨r', s, ofExcept_eq_ok.2 ⟨hr', rfl⟩, hsame, hcont⟩
  | callShort index =>
    obtain ⟨r', hr', hcont⟩ := plainCode?_writes r (some Opcode.call1.name) h
    exact ⟨r', s, ofExcept_eq_ok.2 ⟨hr', rfl⟩, hsame, hcont⟩
  | ex1 sub =>
    obtain rfl := Option.some.inj h
    obtain ⟨r', hr', hcont⟩ := Continues.writeField r (some (Table.name sub))
      (Head.content_nibbles (s := s) (.ex1 sub))
    exact ⟨r', s, ofExcept_eq_ok.2 ⟨hr', rfl⟩, hsame, hcont⟩
  | ex2 sub payload | ex2Signed sub payload =>
    obtain ⟨r', hr', hcont⟩ :=
      pagedCode?_writes r .extended2 sub rfl rfl (shortCode?_eq_some.1 h).2
    exact ⟨r', s, hr', hsame, hcont⟩
  | callShort8 index =>
    obtain ⟨r', hr', hcont⟩ :=
      pagedCode?_writes r .extended2 Page2.call2 rfl rfl (shortCode?_eq_some.1 h).2
    exact ⟨r', s, hr', hsame, hcont⟩
  | ex3 sub payload | ex3Signed sub payload =>
    obtain ⟨r', hr', hcont⟩ := pagedCode?_writes r .extended3 sub rfl rfl h
    exact ⟨r', s, hr', hsame, hcont⟩
  | callGeneral target argc => exact callCode?_writes r h
  | label | branch8 | jump8 | branch16 | jump16 => cases h

theorem Instruction.code?_fits {x : Instruction} {c : Code} (h : x.code? s = some c) : c.Fits := by
  have hpaged : ∀ {head format payload}, pagedCode? s head format payload = some c →
      head.width = format.width → c.Fits := by
    intro head format payload h hwidth
    obtain ⟨rfl, hcontent⟩ := pagedCode?_eq_some.1 h
    exact (FieldValue.length_content hcontent).trans hwidth.symm
  have hshort : ∀ {sub format payload}, shortCode? s sub format payload = some c →
      format.width = 1 → c.Fits := by
    intro sub format payload h hwidth
    obtain ⟨hsub, h⟩ := shortCode?_eq_some.1 h
    exact hpaged h (by rw [Head.width, if_neg hsub, hwidth])
  cases x with
  | op | callShort =>
    obtain ⟨hpayload, hwidth, -⟩ := plainCode?_eq_some h
    rw [Code.Fits, hpayload, hwidth]
    rfl
  | ex1 =>
    obtain rfl := Option.some.inj h
    rfl
  | ex2 | ex2Signed | callShort8 => exact hshort h rfl
  | ex3 | ex3Signed => exact hpaged h rfl
  | callGeneral target argc =>
    obtain ⟨v, w, bs, -, -, hbs, rfl⟩ := callCode?_eq_some.1 h
    rw [Code.Fits, List.length_cons, FixedFormat.length_encode hbs]
    rfl
  | label | branch8 | jump8 | branch16 | jump16 => cases h

/-- Instructions with known arguments are written one after the other, with their codes. -/
theorem Region.foldlM_writeInstruction {xs : List Instruction} (r : Region)
    (h : ∀ x ∈ xs, (x.code? s).isSome) :
    ∃ r' t, xs.foldlM Region.writeInstruction r s = .ok r' t ∧
      Continues t r ((xs.filterMap (code? s)).flatMap Code.bytes) r' ∧ t.Knows s := by
  induction xs generalizing r s with
  | nil => exact ⟨r, s, rfl, .refl s r, fun _ _ hv => hv⟩
  | cons x xs ih =>
    obtain ⟨c, hx⟩ := Option.isSome_iff_exists.1 (h x (.head _))
    obtain ⟨r₁, s₁, hr₁, hknows₁, hfirst⟩ := r.writeInstruction_continues hx
    -- The cells that writing adds change nothing about the instructions to come.
    have hcode : ∀ y ∈ xs, y.code? s₁ = y.code? s := by
      intro y hy
      obtain ⟨d, hd⟩ := Option.isSome_iff_exists.1 (h y (.tail _ hy))
      rw [hd, code?_mono hknows₁ hd]
    obtain ⟨r₂, t, hr₂, hrest, hknows₂⟩ := ih r₁ fun y hy => hcode y hy ▸ h y (.tail _ hy)
    refine ⟨r₂, t, ?_, ?_, fun c v hv => hknows₂ c v (hknows₁ c v hv)⟩
    · rw [List.foldlM_cons, bind_run, hr₁]
      exact hr₂
    · rw [List.filterMap_cons_some hx, List.flatMap_cons]
      rw [List.filterMap_congr hcode] at hrest
      exact (hfirst.mono hknows₂).trans hrest

end Writing

/-- Writes instructions one after the other, and flattens them. -/
def assemble (xs : List Instruction) (config : FlattenConfig) : Op Bytes := do
  let r ← xs.foldlM Region.writeInstruction {}
  r.toBytes config

theorem assemble_run {s : Store} {xs : List Instruction} (config : FlattenConfig)
    (h : ∀ x ∈ xs, (x.code? s).isSome) :
    ∃ t, assemble xs config s = .ok ((xs.filterMap (code? s)).flatMap Code.bytes) t := by
  obtain ⟨r, u, hr, ⟨segments, hsegments, hinert, hcontent⟩, -⟩ :=
    Region.foldlM_writeInstruction {} h
  obtain rfl : r.segments = segments := hsegments
  obtain ⟨t, ht⟩ := Region.toBytes_of_inert config hinert hcontent
  exact ⟨t, bind_eq_ok.2 ⟨r, u, hr, ht⟩⟩

/-- Instructions with known arguments are written and flattened to their codes, one after the other.
If the bytes of two streams are equal, so are their codes, place by place: their opcodes, entries
or operands, and payloads. Every instruction has the length that its first byte announces. -/
theorem instructions_uniquely_decodable {s t : Store} {xs ys : List Instruction}
    (hxs : ∀ x ∈ xs, (x.code? s).isSome) (hys : ∀ y ∈ ys, (y.code? t).isSome)
    (config config' : FlattenConfig) :
    ∃ bytes bytes' s' t', assemble xs config s = .ok bytes s' ∧
      assemble ys config' t = .ok bytes' t' ∧
      bytes = (xs.filterMap (code? s)).flatMap Code.bytes ∧
      bytes' = (ys.filterMap (code? t)).flatMap Code.bytes ∧
      (bytes = bytes' → xs.length = ys.length ∧ xs.map (code? s) = ys.map (code? t)) ∧
      ∀ x ∈ xs, ∃ c first rest u, x.code? s = some c ∧ c.bytes = first :: rest ∧
        assemble [x] config s = .ok c.bytes u ∧ c.bytes.length = lengthFrom first := by
  have hmap : ∀ {s : Store} {xs : List Instruction}, (∀ x ∈ xs, (x.code? s).isSome) →
      xs.map (code? s) = (xs.filterMap (code? s)).map some := by
    intro s xs hxs
    rw [List.map_filterMap_some_eq_filter_map_isSome, List.filter_eq_self.2]
    intro c hc
    obtain ⟨x, hx, rfl⟩ := List.mem_map.1 hc
    exact hxs x hx
  have hfits : ∀ {s : Store} {xs : List Instruction}, ∀ c ∈ xs.filterMap (code? s), c.Fits := by
    intro s xs c hc
    obtain ⟨x, -, hx⟩ := List.mem_filterMap.1 hc
    exact code?_fits hx
  obtain ⟨s', hs'⟩ := assemble_run config hxs
  obtain ⟨t', ht'⟩ := assemble_run config' hys
  refine ⟨_, _, s', t', hs', ht', rfl, rfl, fun heq => ?_, fun x hx => ?_⟩
  · have hcodes : xs.map (code? s) = ys.map (code? t) := by
      rw [hmap hxs, hmap hys, Code.eq_of_flatMap_bytes hfits hfits heq]
    exact ⟨by simpa using congrArg List.length hcodes, hcodes⟩
  · obtain ⟨c, hc⟩ := Option.isSome_iff_exists.1 (hxs x hx)
    have hone : ∀ y ∈ [x], (y.code? s).isSome := by simp [hc]
    obtain ⟨u, hu⟩ := assemble_run config hone
    rw [List.filterMap_cons_some hc, List.filterMap_nil, List.flatMap_singleton] at hu
    exact ⟨c, c.head.byte, c.payload, u, hc, rfl, hu, (code?_fits hc).length_bytes⟩

/-! Two streams with the same bytes: what one writes as unsigned, the other writes as signed. The
payloads look like first bytes of calls. -/

def streamStore : Store where
  cells := #[{ kind := .offset, value := some (.int 0x7678) },
    { kind := .int .i64, value := some (.int (-138)) }]

def unsignedStream : List Instruction :=
  [.op .loadVar1 5, .ex2 .storeArg (.known (.int 0x76)), .callGeneral 0 0x76, .ex1 .pop,
    .ex3 .loadLiteral (.known (.int 0xFF76)), .callShort 7]

def signedStream : List Instruction :=
  [.op .loadVar1 5, .ex2Signed .storeArg (.known (.int 0x76)), .callGeneral 0 0x76, .ex1 .pop,
    .ex3Signed .loadLiteral (.deferred 1), .op .call1 7]

theorem instructions_uniquely_decodable_signed :
    (∀ x ∈ unsignedStream, (x.code? streamStore).isSome) ∧
    (∀ x ∈ signedStream, (x.code? streamStore).isSome) ∧
    ∃ s t, assemble unsignedStream .strict streamStore =
        .ok [0x15, 0x71, 0x76, 0x76, 0x76, 0x78, 0x76, 0x67, 0x82, 0x76, 0xFF, 0x47] s ∧
      assemble signedStream .quiet streamStore =
        .ok [0x15, 0x71, 0x76, 0x76, 0x76, 0x78, 0x76, 0x67, 0x82, 0x76, 0xFF, 0x47] t ∧
      unsignedStream.map (code? streamStore) = signedStream.map (code? streamStore) := by
  have hxs : ∀ x ∈ unsignedStream, (x.code? streamStore).isSome := by decide +kernel
  have hys : ∀ x ∈ signedStream, (x.code? streamStore).isSome := by decide +kernel
  refine ⟨hxs, hys, ?_⟩
  obtain ⟨bytes, bytes', s, t, hs, ht, hbytes, hbytes', hcodes, -⟩ :=
    instructions_uniquely_decodable hxs hys .strict .quiet
  obtain rfl : bytes = [0x15, 0x71, 0x76, 0x76, 0x76, 0x78, 0x76, 0x67, 0x82, 0x76, 0xFF, 0x47] :=
    hbytes.trans (by decide +kernel)
  obtain rfl : bytes' = [0x15, 0x71, 0x76, 0x76, 0x76, 0x78, 0x76, 0x67, 0x82, 0x76, 0xFF, 0x47] :=
    hbytes'.trans (by decide +kernel)
  exact ⟨s, t, hs, ht, (hcodes rfl).2⟩

end Backpatch
