import HolyGrail.Bytes

/-!
# HolyGrail.Bloom

The catalog bloom filter (`bloom.rs`): a split-block filter over murmur3
hashes, probed in memory before a file is opened.  The two 32-bit hashes of a
key select a block and one bit in each of its eight words.
-/

namespace HolyGrail

/-! ## murmur3 -/

def rotateLeft (x r : UInt32) : UInt32 := (x <<< r) ||| (x >>> (32 - r))

/-- The scrambling of one four-byte word, or of the tail. -/
def mixK1 (k1 : UInt32) : UInt32 := rotateLeft (k1 * 0xcc9e2d51) 15 * 0x1b873593

/-- The block loop: whole four-byte words, little-endian, and the tail left
over. -/
def murmur3Blocks : UInt32 → Bytes → UInt32 × Bytes
  | h1, b0 :: b1 :: b2 :: b3 :: rest =>
      let k1 := UInt32.ofNat (leNat [b0, b1, b2, b3])
      murmur3Blocks (rotateLeft (h1 ^^^ mixK1 k1) 13 * 5 + 0xe6546b64) rest
  | h1, tail => (h1, tail)

/-- The tail of one to three bytes; an empty tail mixes nothing in. -/
def murmur3Tail (h1 : UInt32) (tail : Bytes) : UInt32 :=
  if tail = [] then h1 else h1 ^^^ mixK1 (UInt32.ofNat (leNat tail))

/-- The final avalanche. -/
def fmix32 (h1 : UInt32) : UInt32 :=
  let h1 := (h1 ^^^ (h1 >>> 16)) * 0x85ebca6b
  let h1 := (h1 ^^^ (h1 >>> 13)) * 0xc2b2ae35
  h1 ^^^ (h1 >>> 16)

def murmur3X86 (data : Bytes) (seed : UInt32) : UInt32 :=
  let (h1, tail) := murmur3Blocks seed data
  fmix32 (murmur3Tail h1 tail ^^^ UInt32.ofNat data.length)

/-- A reference value of murmur3 x86-32: the ASCII string `hello`, seed 0. -/
example : murmur3X86 [104, 101, 108, 108, 111] 0 = 0x248bfa47 := by decide

/-! ## the filter -/

/-- `SBBF_SALT`. -/
def sbbfSalt : List UInt32 :=
  [0x47b6137b, 0x44974d91, 0x8824ad5b, 0xa2b7289d, 0x705495c7, 0x2df1424c, 0x9efc4947, 0x5c6bfb31]

def wordsPerBlock : Nat := 8

structure CatalogBloom where
  words : List UInt32
  numBlocks : Nat
  deriving DecidableEq, Repr

/-- The 64-bit hash the filter is keyed on. -/
def hash64 (key : Bytes) : UInt64 :=
  ((murmur3X86 key 0).toUInt64 <<< 32) ||| (murmur3X86 key 0x9747b28c).toUInt64

/-- Multiply-shift on the upper 32 bits of the hash. -/
def blockIndex (hash : UInt64) (numBlocks : Nat) : Nat :=
  (((hash >>> 32) * UInt64.ofNat numBlocks) >>> 32).toNat

/-- One bit in each word of a block. -/
def computeMask (key : UInt32) : List UInt32 :=
  sbbfSalt.map fun salt => (1 : UInt32) <<< ((key * salt) >>> 27)

/-- `false` means the key is definitely not in the file. -/
def CatalogBloom.mightContain (bloom : CatalogBloom) (key : Bytes) : Bool :=
  let hash := hash64 key
  let block := blockIndex hash bloom.numBlocks
  let mask := computeMask hash.toUInt32
  (List.range wordsPerBlock).all fun i =>
    match bloom.words[block * wordsPerBlock + i]?, mask[i]? with
    | some w, some m => w &&& m == m
    | _, _ => false

end HolyGrail
