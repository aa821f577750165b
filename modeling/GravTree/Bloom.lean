import GravTree.Types

/-!
# Bloom filters

`src/bloom.cpp`: two 64-bit base hashes of the key, combined into as many probe
positions as the filter has hash functions.

The constructor sizes the filter in floating point. The model takes that
computation as a parameter: a `Sizing` maps the expected number of entries to the
bit count and the number of hash functions.
-/

namespace GravTree

/-- What `BloomFilter`'s constructor computes from `expected_entries`: the bit
count and the number of hash functions. -/
abbrev Sizing := Nat → Nat × Nat

/-- `BloomFilter`. -/
structure BloomFilter where
  bits : List UInt8
  numHashFuncs : Nat

namespace BloomFilter

/-- `memcpy` of at most eight little-endian bytes into a `uint64_t`. -/
def word (bs : List UInt8) : UInt64 :=
  bs.foldr (fun b acc => (acc <<< 8) ||| b.toUInt64) 0

def rotl (x : UInt64) (r : UInt64) : UInt64 := (x <<< r) ||| (x >>> (64 - r))

/-- `fmix64`. -/
def fmix64 (k : UInt64) : UInt64 :=
  let k := k ^^^ (k >>> 33)
  let k := k * 0xff51afd7ed558ccd
  let k := k ^^^ (k >>> 33)
  let k := k * 0xc4ceb9fe1a85ec53
  k ^^^ (k >>> 33)

def c1 : UInt64 := 0x87c37b91114253d5

def c2 : UInt64 := 0x4cf5ad432745937f

/-- One 16-byte block of the MurmurHash3 body. -/
def mixBlock (h : UInt64 × UInt64) (block : List UInt8) : UInt64 × UInt64 :=
  let k1 := rotl (word (block.take 8) * c1) 31 * c2
  let h1 := rotl (h.1 ^^^ k1) 27 + h.2
  let h1 := h1 * 5 + 0x52dce729
  let k2 := rotl (word ((block.drop 8).take 8) * c2) 33 * c1
  let h2 := rotl (h.2 ^^^ k2) 31 + h1
  (h1, h2 * 5 + 0x38495ab5)

/-- The tail: bytes 8 to 14 go to the second hash, bytes 0 to 7 to the first. -/
def mixTail (h : UInt64 × UInt64) (tail : List UInt8) : UInt64 × UInt64 :=
  let h2 := if 9 ≤ tail.length then h.2 ^^^ (rotl (word (tail.drop 8) * c2) 33 * c1) else h.2
  let h1 := if 1 ≤ tail.length then h.1 ^^^ (rotl (word (tail.take 8) * c1) 31 * c2) else h.1
  (h1, h2)

/-- `base_hashes`. -/
def baseHashes (key : Bytes) : UInt64 × UInt64 :=
  let bytes := key.toList
  let nblocks := bytes.length / 16
  let h := (List.range nblocks).foldl
    (fun h i => mixBlock h ((bytes.drop (16 * i)).take 16)) (0x9368f2a5c3b1d4e7, 0x1a2b3c4d5e6f7890)
  let (h1, h2) := mixTail h (bytes.drop (16 * nblocks))
  let h1 := h1 ^^^ UInt64.ofNat bytes.length
  let h2 := h2 ^^^ UInt64.ofNat bytes.length
  let h1 := h1 + h2
  let h2 := h2 + h1
  let h1 := fmix64 h1
  let h2 := fmix64 h2
  let h1 := h1 + h2
  (h1, h2 + h1)

/-- `bit_count`, a `size_t`. -/
def bitCount (f : BloomFilter) : Nat := f.bits.length * 8 % 2 ^ 64

/-- `nth_hash`, in 64-bit arithmetic. -/
def nthHash (f : BloomFilter) (h : UInt64 × UInt64) (i : Nat) : Nat :=
  (h.1 + UInt64.ofNat i * h.2).toNat % f.bitCount

/-- `set_bit`. -/
def setBit (f : BloomFilter) (pos : Nat) : BloomFilter :=
  { f with bits := f.bits.modify (pos / 8) (· ||| ((1 : UInt8) <<< UInt8.ofNat (pos % 8))) }

/-- `get_bit`. -/
def getBit (f : BloomFilter) (pos : Nat) : Bool :=
  ((f.bits.getD (pos / 8) 0) >>> UInt8.ofNat (pos % 8)) &&& 1 == 1

/-- The empty filter for an expected number of entries. -/
def new (sizing : Sizing) (expected : Nat) : BloomFilter :=
  let (m, k) := sizing (max expected 1)
  { bits := List.replicate (m / 8) 0, numHashFuncs := k }

/-- `add`. -/
def add (f : BloomFilter) (key : Bytes) : BloomFilter :=
  (List.range f.numHashFuncs).foldl (fun g i => g.setBit (g.nthHash (baseHashes key) i)) f

/-- `might_contain`. -/
def mightContain (f : BloomFilter) (key : Bytes) : Bool :=
  (List.range f.numHashFuncs).all fun i => f.getBit (f.nthHash (baseHashes key) i)

end BloomFilter

end GravTree
