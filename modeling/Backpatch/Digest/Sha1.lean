import Backpatch.Digest.Blocks

/-!
# SHA-1

The digest of twenty bytes, and an identifier made of its first eight.
-/

namespace Backpatch.Digest.Sha1

structure State where
  a : UInt32
  b : UInt32
  c : UInt32
  d : UInt32
  e : UInt32

def start : State := ⟨0x67452301, 0xEFCDAB89, 0x98BADCFE, 0x10325476, 0xC3D2E1F0⟩

def State.add (s t : State) : State :=
  ⟨s.a + t.a, s.b + t.b, s.c + t.c, s.d + t.d, s.e + t.e⟩

/-- The eighty words of a block's schedule. -/
def schedule (block : Array UInt32) : Array UInt32 :=
  (List.range' 16 64).foldl (fun w i =>
    w.push (rotateLeft
      (w.getD (i - 3) 0 ^^^ w.getD (i - 8) 0 ^^^ w.getD (i - 14) 0 ^^^ w.getD (i - 16) 0) 1)) block

def mix (i : Nat) (b c d : UInt32) : UInt32 :=
  if i < 20 then (b &&& c) ||| (~~~b &&& d)
  else if i < 40 then b ^^^ c ^^^ d
  else if i < 60 then (b &&& c) ||| (b &&& d) ||| (c &&& d)
  else b ^^^ c ^^^ d

def constant (i : Nat) : UInt32 :=
  if i < 20 then 0x5A827999
  else if i < 40 then 0x6ED9EBA1
  else if i < 60 then 0x8F1BBCDC
  else 0xCA62C1D6

def round (w : Array UInt32) (s : State) (i : Nat) : State :=
  let t := rotateLeft s.a 5 + mix i s.b s.c s.d + s.e + constant i + w.getD i 0
  ⟨t, s.a, rotateLeft s.b 30, s.c, s.d⟩

def compress (s : State) (block : Array UInt32) : State :=
  s.add ((List.range 80).foldl (round (schedule block)) s)

end Sha1

def sha1 (bs : Bytes) : Bytes :=
  let padded := pad bs (Bytes.littleEndian 8 (8 * bs.length)).reverse
  let s := (wordBlocks bigWord padded).foldl Sha1.compress Sha1.start
  [s.a, s.b, s.c, s.d, s.e].flatMap fun x => (Bytes.littleEndian 4 x.toNat).reverse

/-- The first eight bytes of the digest as a little-endian number. -/
def sha1Id (bs : Bytes) : Nat :=
  Bytes.toNat ((sha1 bs).take 8)

end Backpatch.Digest
