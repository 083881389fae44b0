import Mathlib
import Backpatch.Snapshot.Header

/-!
# Reading headers

`Header.encode` writes the words of a header one after another. A reader `Reads` some bytes as a
value if it does so in front of any other bytes; readers that follow each other read what is joined.
So the header in front of a body is read back as it was.
-/

namespace Backpatch

theorem Bytes.toNat_littleEndian (width n : Nat) :
    toNat (littleEndian width n) = n % wordCount width := by
  induction width generalizing n with
  | zero => simp [littleEndian, toNat, wordCount, Nat.mod_one]
  | succ width ih =>
    have hmod : n % wordCount (width + 1) = n % 256 + 256 * (n / 256 % wordCount width) := by
      rw [wordCount, Nat.pow_eq, Nat.pow_succ', Nat.mod_mul]
      rfl
    rw [littleEndian, toNat, ih, UInt8.toNat_ofNat', hmod]

namespace Snapshot

/-- The reader takes the bytes off and returns `a`, whatever comes behind them. -/
def Reads {α : Type} (r : Reader α) (bs : Bytes) (a : α) : Prop :=
  ∀ offset rest size,
    r ⟨offset, bs ++ rest, size⟩ = .ok (a, ⟨offset + bs.length, rest, size⟩)

namespace Reads

variable {α β : Type}

theorem pure (a : α) : Reads (Pure.pure a) [] a := fun _ _ _ => rfl

theorem bind {x : Reader α} {f : α → Reader β} {bs cs : Bytes} {a : α} {b : β} (hx : Reads x bs a)
    (hf : Reads (f a) cs b) : Reads (x >>= f) (bs ++ cs) b := by
  intro offset rest size
  change (x ⟨offset, _, size⟩).bind (fun p => f p.1 p.2) = _
  rw [List.append_assoc, hx offset (cs ++ rest) size]
  change f a _ = _
  rw [hf, List.length_append, Nat.add_assoc]

theorem word {width n : Nat} (hn : n < Bytes.wordCount width) :
    Reads (readWord width) (Bytes.littleEndian width n) n := by
  intro offset rest size
  have htake : (Bytes.littleEndian width n ++ rest).take width = Bytes.littleEndian width n :=
    List.take_left' (by simp)
  have hdrop : (Bytes.littleEndian width n ++ rest).drop width = rest :=
    List.drop_left' (by simp)
  simp [readWord, htake, hdrop, Bytes.toNat_littleEndian, Nat.mod_eq_of_lt hn]

theorem words {w : Nat} {ns : List Nat} (hns : ∀ n ∈ ns, n < Bytes.wordCount w) :
    Reads (readWords w ns.length) (ns.flatMap (Bytes.littleEndian w)) ns := by
  induction ns with
  | nil => exact pure []
  | cons n ns ih =>
    have hrest := (ih fun m hm => hns m (.tail _ hm)).bind
      (f := fun ns => Pure.pure (n :: ns)) (pure (n :: ns))
    rw [List.append_nil] at hrest
    exact (word (hns n (.head _))).bind hrest

end Reads

namespace Header

/-- The words of a header. -/
def encode (h : Header) : Bytes :=
  Bytes.littleEndian 4 magic ++ (Bytes.littleEndian 2 h.version ++
    (Bytes.littleEndian 2 h.headerSize ++ (Bytes.littleEndian 4 h.imageSize ++
      (Bytes.littleEndian 2 h.crc ++ (Bytes.littleEndian 2 h.sectionOffsets.length ++
        h.sectionOffsets.flatMap (Bytes.littleEndian 2))))))

/-- The words of a header have their widths, and the sizes agree. -/
structure Fits (h : Header) (available : Nat) : Prop where
  version : h.version < 65536
  headerSize : h.headerSize = fixedHeaderSize + 2 * h.sectionOffsets.length
  headerFits : h.headerSize < 65536
  imageSize : h.imageSize ≤ available
  imageFits : h.imageSize < 4294967296
  body : h.headerSize ≤ h.imageSize
  crc : h.crc < 65536
  sectionOffsets : ∀ n ∈ h.sectionOffsets, n < 65536

theorem reads_encode {h : Header} {available : Nat} (hf : h.Fits available) :
    Reads (read available) h.encode h := by
  have hcount : h.sectionOffsets.length < 65536 := by
    have := hf.headerSize
    have := hf.headerFits
    omega
  refine .bind (.word (by decide)) ?_
  rw [if_neg (by simp)]
  refine .bind (.word hf.version) (.bind (.word hf.headerFits) (.bind (.word hf.imageFits)
    (.bind (.word hf.crc) (.bind (.word hcount) ?_))))
  have hsize := hf.headerSize
  have himage : ¬ (h.imageSize > available ∨
      h.imageSize < fixedHeaderSize + 2 * h.sectionOffsets.length) := by
    have := hf.imageSize
    have := hf.body
    omega
  dsimp only
  rw [if_neg (by simpa using hsize), if_neg himage]
  have htable := (Reads.words (w := 2) hf.sectionOffsets).bind
    (f := fun offsets => pure (⟨h.version, h.headerSize, h.imageSize, h.crc, offsets⟩ : Header))
    (Reads.pure h)
  rwa [List.append_nil] at htable

/-- A header in front of a body is read back. -/
theorem parse_encode {h : Header} {body : Bytes} (hf : h.Fits (h.encode ++ body).length) :
    parse (h.encode ++ body) = .ok h := by
  have hread := reads_encode hf 0 body (h.encode ++ body).length
  change (·.1) <$> read (h.encode ++ body).length ⟨0, h.encode ++ body, _⟩ = _
  rw [hread]
  rfl

theorem verify_of_crc {h : Header} {data : Bytes} (himage : h.imageSize = data.length)
    (hheader : h.headerSize ≤ data.length)
    (hcrc : h.crc = (Digest.crc16 (data.drop h.headerSize)).toNat) : h.verify data = true := by
  rw [verify, body?, himage, if_pos ⟨hheader, le_rfl⟩, List.take_length]
  simp [hcrc]

end Header

end Snapshot

end Backpatch
