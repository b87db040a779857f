import SteleDb.Storage.Record

/-!
# The Bloom filter over business keys

One filter serves the spill summaries of the validity index and the sealed segments.  The bit
array is kept as one natural number.  `KeyBloom.maybeContains_of_mem` is what every reader relies
on: a filter never denies a key it was built over.
-/

namespace SteleDb

/-- Number of bit probes for a key. -/
def bloomHashes : ℕ := 4

/-- Bits for a key when the caller does not say. -/
def defaultBitsPerKey : ℕ := 12

/-- FNV-1a over `bytes` from `seed`, in `u64` arithmetic. -/
def fnv1a (seed : ℕ) (bytes : Bytes) : ℕ :=
  bytes.foldl (fun h b => (h ^^^ b.val) * 0x00000100000001b3 % 2 ^ 64) seed

/-- The bit positions of a key under `mask`, by double hashing of two seeds; the stride is made
odd so that it never degenerates to one bit. -/
def bitPositions (mask : ℕ) (bytes : Bytes) : List ℕ :=
  let h1 := fnv1a 0xcbf29ce484222325 bytes
  let h2 := fnv1a 0x9e3779b97f4a7c15 bytes ||| 1
  (List.range bloomHashes).map fun i => ((h1 + i * h2) % 2 ^ 64) &&& mask

/-- A Bloom filter: its bits and the mask that brings a hash into their range. -/
structure KeyBloom where
  /-- The bit array. -/
  bits : ℕ
  /-- `bit_count - 1`. -/
  mask : ℕ
  deriving DecidableEq, Repr

namespace KeyBloom

/-- Number of bits of a filter over `n` keys: a power of two, at least 512. -/
def bitCount (bitsPerKey n : ℕ) : ℕ :=
  max (Nat.nextPowerOfTwo (min (n * max bitsPerKey 1) (2 ^ 64 - 1))) 512

/-- Set the bits of one key. -/
def addKey (mask bits : ℕ) (key : Bytes) : ℕ :=
  (bitPositions mask key).foldl (fun acc p => acc ||| 2 ^ p) bits

/-- The filter over `keys`. -/
def build (bitsPerKey : ℕ) (keys : List Bytes) : KeyBloom :=
  let mask := bitCount bitsPerKey keys.length - 1
  { bits := keys.foldl (addKey mask) 0, mask }

/-- Every bit of the key is set; `false` proves that the key was not inserted. -/
def maybeContains (f : KeyBloom) (key : Bytes) : Bool :=
  (bitPositions f.mask key).all fun p => f.bits.testBit p

theorem testBit_setAll (ps : List ℕ) (bits q : ℕ) :
    (ps.foldl (fun acc p => acc ||| 2 ^ p) bits).testBit q =
      (bits.testBit q || decide (q ∈ ps)) := by
  induction ps generalizing bits with
  | nil => simp
  | cons p ps ih =>
    rw [List.foldl_cons, ih, Nat.testBit_or, Nat.testBit_two_pow, Bool.or_assoc]
    simp only [List.mem_cons, Bool.decide_or, eq_comm]

theorem testBit_addKey_of_testBit {mask bits : ℕ} {key : Bytes} {q : ℕ}
    (h : bits.testBit q = true) : (addKey mask bits key).testBit q = true := by
  rw [addKey, testBit_setAll, h, Bool.true_or]

theorem testBit_build_of_testBit {mask : ℕ} {keys : List Bytes} {bits q : ℕ}
    (h : bits.testBit q = true) : (keys.foldl (addKey mask) bits).testBit q = true := by
  induction keys generalizing bits with
  | nil => exact h
  | cons k keys ih => exact ih (testBit_addKey_of_testBit h)

theorem testBit_build {mask : ℕ} {keys : List Bytes} {key : Bytes} (hk : key ∈ keys) {q : ℕ}
    (hq : q ∈ bitPositions mask key) (bits : ℕ) :
    (keys.foldl (addKey mask) bits).testBit q = true := by
  induction keys generalizing bits with
  | nil => cases hk
  | cons k keys ih =>
    rw [List.foldl_cons]
    rcases List.mem_cons.1 hk with rfl | hk
    · apply testBit_build_of_testBit
      rw [addKey, testBit_setAll, decide_eq_true hq, Bool.or_true]
    · exact ih hk _

/-- **No false negatives**: a filter admits every key it was built over. -/
theorem maybeContains_of_mem (bitsPerKey : ℕ) {keys : List Bytes} {key : Bytes}
    (hk : key ∈ keys) : (build bitsPerKey keys).maybeContains key = true := by
  simp only [maybeContains, build, List.all_eq_true]
  exact fun q hq => testBit_build hk hq 0

end KeyBloom

end SteleDb
