import Backpatch.Bytes

/-!
# Padded messages

Message digests read their input in blocks of sixteen 32-bit words. The message is closed by a
bit, filled up with zeros, and ends in its length in bits.
-/

namespace Backpatch.Digest

def blockSize : Nat := 64

/-- The message with its padding; `lengthField` holds the length in the digest's byte order. -/
def pad (bs lengthField : Bytes) : Bytes :=
  let zeros := (blockSize - (bs.length + 1 + lengthField.length) % blockSize) % blockSize
  bs ++ 0x80 :: List.replicate zeros 0 ++ lengthField

/-- The first `count` blocks. -/
def blocks : Nat → Bytes → List Bytes
  | 0, _ => []
  | count + 1, bs => bs.take blockSize :: blocks count (bs.drop blockSize)

/-- The words of a block, four bytes each, read by `word`. -/
def words (word : Bytes → UInt32) : Nat → Bytes → List UInt32
  | 0, _ => []
  | count + 1, bs => word (bs.take 4) :: words word count (bs.drop 4)

def littleWord (bs : Bytes) : UInt32 := UInt32.ofNat (Bytes.toNat bs)

def bigWord (bs : Bytes) : UInt32 := littleWord bs.reverse

/-- The padded message as blocks of sixteen words. -/
def wordBlocks (word : Bytes → UInt32) (padded : Bytes) : List (Array UInt32) :=
  (blocks (padded.length / blockSize) padded).map fun b => (words word 16 b).toArray

def rotateLeft (x : UInt32) (n : UInt32) : UInt32 :=
  (x <<< n) ||| (x >>> (32 - n))

end Backpatch.Digest
