import Mathlib.Data.Nat.Log
import SteleDb.Lib.BitWords
import SteleDb.Lib.Chunks
import SteleDb.Lib.LittleEndian
import SteleDb.Storage.Bloom

/-!
# The Bloom filter of a segment

The filter as the source keeps it: an array of 64-bit words and the mask that brings a hash into
their range.  It is written into the footer of a segment and read back from there by a decoder that
checks every size again.

`BloomWords.build_eq` says what the words of a filter are, `BloomWords.decode_encode` that the
decoder reads back the filter that was written, and `BloomWords.maybeContains_eq` that its answers
are those of the filter kept as one number.
-/

namespace SteleDb

open Chunks BitWords

/-- `usize::next_power_of_two`, which wraps to zero past the largest power. -/
def nextPowerOfTwo64 (n : ℕ) : ℕ := if n ≤ 2 ^ 63 then 2 ^ Nat.clog 2 n else 0

/-- `u64::is_power_of_two`. -/
def isPowerOfTwo64 (n : ℕ) : Bool := 2 ^ n.log2 = n

/-- A Bloom filter as it is stored. -/
structure BloomWords where
  /-- The bit array. -/
  bits : List (BitVec 64)
  /-- `bit_count - 1`. -/
  mask : ℕ
  deriving DecidableEq

/-- Why bytes are not a filter. -/
inductive BloomError where
  | malformed (what : String)
  deriving DecidableEq, Repr

namespace BloomWords

/-- Number of bits of a filter over `n` keys. -/
def bitCount (bitsPerKey n : ℕ) : ℕ :=
  max (nextPowerOfTwo64 (min (n * max bitsPerKey 1) (2 ^ 64 - 1))) 512

/-- The filter over `keys`; `none` if a bit lies outside the words. -/
def build (bitsPerKey : ℕ) (keys : List Bytes) : Option BloomWords := do
  let bitCount := bitCount bitsPerKey keys.length
  let mask := bitCount - 1
  let bits ← keys.foldlM (fun bits key => (bitPositions mask key).foldlM setBit bits)
    (List.replicate (bitCount / 64) 0#64)
  some ⟨bits, mask⟩

/-- Whether every one of the bits is set; `none` if one lies outside the words. -/
def allSet (bits : List (BitVec 64)) : List ℕ → Option Bool
  | [] => some true
  | pos :: rest => do
    let set ← getBit bits pos
    if set then allSet bits rest else some false

/-- Every bit of the key is set; `false` proves that the key was not inserted. -/
def maybeContains (f : BloomWords) (key : Bytes) : Option Bool :=
  allSet f.bits (bitPositions f.mask key)

/-- The bytes of a filter: the number of probes, the number of words, the words; `none` if the
number of words does not fit 32 bits. -/
def encode (f : BloomWords) : Option Bytes :=
  if f.bits.length < 2 ^ 32 then
    some ([4] ++ (leBytes 4 f.bits.length ++ f.bits.flatMap fun word => leBytes 8 word.toNat))
  else none

/-- The filter that bytes start with, and how many bytes it takes. -/
def decode (bytes : Bytes) : Except BloomError (BloomWords × ℕ) :=
  match bytes with
  | [] => .error (.malformed "missing probe count")
  | hashes :: rest =>
    if hashes.val ≠ bloomHashes then .error (.malformed "unsupported probe count")
    else if rest.length < 4 then .error (.malformed "missing word count")
    else
      let wordCount := leNat (rest.take 4)
      if wordCount = 0 then .error (.malformed "zero word count")
      else
        let bitCount := min (wordCount * 64) (2 ^ 64 - 1)
        if ¬isPowerOfTwo64 bitCount then .error (.malformed "bit count is not a power of two")
        else
          let wordsEnd := 1 + 4 + wordCount * 8
          if bytes.length < wordsEnd then .error (.malformed "truncated bit words")
          else
            let wordBytes := (bytes.take wordsEnd).drop (1 + 4)
            let bits := (exactChunks 8 wordBytes).map fun w => BitVec.ofNat 64 (leNat w)
            .ok (⟨bits, bitCount - 1⟩, wordsEnd)

/-! ### Sizes -/

/-- The number of bits is a power of two of at least eight words. -/
theorem bitCount_eq_two_pow (bitsPerKey n : ℕ) : ∃ k, 9 ≤ k ∧ bitCount bitsPerKey n = 2 ^ k := by
  have h512 : (512 : ℕ) = 2 ^ 9 := by norm_num
  have hpow : nextPowerOfTwo64 (min (n * max bitsPerKey 1) (2 ^ 64 - 1)) = 0 ∨
      ∃ j, nextPowerOfTwo64 (min (n * max bitsPerKey 1) (2 ^ 64 - 1)) = 2 ^ j := by
    unfold nextPowerOfTwo64
    split_ifs
    · exact .inr ⟨_, rfl⟩
    · exact .inl rfl
  rw [bitCount, h512]
  rcases hpow with hzero | ⟨j, hj⟩
  · exact ⟨9, le_rfl, by rw [hzero, Nat.zero_max]⟩
  · rw [hj]
    rcases le_total j 9 with hle | hle
    · exact ⟨9, le_rfl, Nat.max_eq_right (Nat.pow_le_pow_right (by decide) hle)⟩
    · exact ⟨j, hle, Nat.max_eq_left (Nat.pow_le_pow_right (by decide) hle)⟩

theorem bitCount_div_mul (bitsPerKey n : ℕ) :
    64 * (bitCount bitsPerKey n / 64) = bitCount bitsPerKey n := by
  obtain ⟨k, hk, hpow⟩ := bitCount_eq_two_pow bitsPerKey n
  have hdvd : 64 ∣ 2 ^ k := Nat.pow_dvd_pow 2 (show 6 ≤ k by omega)
  rw [hpow, Nat.mul_div_cancel' hdvd]

/-- A masked position is one of the bits. -/
theorem lt_of_mem_bitPositions {k p : ℕ} {key : Bytes} (h : p ∈ bitPositions (2 ^ k - 1) key) :
    p < 2 ^ k := by
  obtain ⟨i, -, rfl⟩ := List.mem_map.1 h
  rw [Nat.and_two_pow_sub_one_eq_mod]
  exact Nat.mod_lt _ (Nat.two_pow_pos k)

/-! ### What the words hold -/

/-- The words of a filter: its bits are those of its keys. -/
structure Holds (f : BloomWords) (bitCount : ℕ) (keys : List Bytes) : Prop where
  mask : f.mask = bitCount - 1
  length : 64 * f.bits.length = bitCount
  bits : ∀ q < bitCount,
    getBit f.bits q = some (decide (∃ key ∈ keys, q ∈ bitPositions (bitCount - 1) key))

theorem foldlM_setBit {k : ℕ} {bits : List (BitVec 64)} (hlen : 64 * bits.length = 2 ^ k)
    (keys : List Bytes) :
    ∃ bits', keys.foldlM (fun bits key => (bitPositions (2 ^ k - 1) key).foldlM setBit bits) bits =
        some bits' ∧ bits'.length = bits.length ∧
      ∀ q, getBit bits' q = (getBit bits q).map fun b =>
        b || decide (∃ key ∈ keys, q ∈ bitPositions (2 ^ k - 1) key) := by
  induction keys generalizing bits with
  | nil =>
    refine ⟨bits, rfl, rfl, fun q => ?_⟩
    simp
  | cons key keys ih =>
    obtain ⟨mid, hmid, hlenMid, hbitsMid⟩ := setBits (by decide) (bitPositions (2 ^ k - 1) key)
      fun p hp => (lt_of_mem_bitPositions hp).trans_eq hlen.symm
    obtain ⟨bits', hrun, hlen', hbits'⟩ := ih (by rw [hlenMid, hlen])
    refine ⟨bits', ?_, hlen'.trans hlenMid, fun q => ?_⟩
    · rw [List.foldlM_cons, hmid]
      exact hrun
    · rw [hbits', hbitsMid, Option.map_map]
      congr 1
      funext b
      simp [Bool.or_assoc]

/-- The builder stays within the words, and sets the bits of its keys and no others. -/
theorem build_eq (bitsPerKey : ℕ) (keys : List Bytes) :
    ∃ f, build bitsPerKey keys = some f ∧ f.Holds (bitCount bitsPerKey keys.length) keys := by
  obtain ⟨k, hk, hpow⟩ := bitCount_eq_two_pow bitsPerKey keys.length
  have hwords := bitCount_div_mul bitsPerKey keys.length
  rw [hpow] at hwords
  obtain ⟨bits, hrun, hlen, hbits⟩ := foldlM_setBit
    (show 64 * (List.replicate (2 ^ k / 64) 0#64).length = 2 ^ k by
      rw [List.length_replicate, hwords]) keys
  refine ⟨⟨bits, 2 ^ k - 1⟩, ?_, ?_⟩
  · simp only [build, hpow, hrun, Option.bind_eq_bind, Option.bind_some]
  · rw [hpow]
    refine ⟨rfl, by rw [hlen, List.length_replicate, hwords], fun q hq => ?_⟩
    rw [hbits, getBit_replicate (by decide) (hq.trans_eq hwords.symm), Option.map_some,
      Bool.false_or]

/-- Probes within the words find out whether all of them are set. -/
theorem allSet_eq {bits : List (BitVec 64)} {ps : List ℕ}
    (h : ∀ p ∈ ps, ∃ b, getBit bits p = some b) :
    allSet bits ps = some (ps.all fun p => (getBit bits p).getD false) := by
  induction ps with
  | nil => rfl
  | cons p ps ih =>
    obtain ⟨b, hb⟩ := h p List.mem_cons_self
    have hrest := ih fun p' hp' => h p' (List.mem_cons_of_mem p hp')
    cases b <;> simp [allSet, hb, hrest]

variable {f : BloomWords} {n : ℕ} {keys : List Bytes}

/-- A probe finds its bits, and finds all of them set for a key of the filter. -/
theorem Holds.maybeContains {k : ℕ} (h : f.Holds (2 ^ k) keys) {key : Bytes} (hkey : key ∈ keys) :
    f.maybeContains key = some true := by
  have hbit : ∀ p ∈ bitPositions f.mask key, getBit f.bits p = some true := by
    intro p hp
    rw [h.mask] at hp
    rw [h.bits p (lt_of_mem_bitPositions hp)]
    exact congrArg some (decide_eq_true ⟨key, hkey, hp⟩)
  rw [BloomWords.maybeContains, allSet_eq fun p hp => ⟨true, hbit p hp⟩, Option.some.injEq,
    List.all_eq_true]
  intro p hp
  rw [hbit p hp]
  rfl

/-! ### Written and read back -/

theorem isPowerOfTwo64_two_pow (k : ℕ) : isPowerOfTwo64 (2 ^ k) = true := by
  rw [isPowerOfTwo64, Nat.log2_two_pow, decide_eq_true rfl]

theorem flatMap_exact (bits : List (BitVec 64)) :
    (exactChunks 8 (bits.flatMap fun word => leBytes 8 word.toNat)).map
      (fun w => BitVec.ofNat 64 (leNat w)) = bits := by
  induction bits with
  | nil => rfl
  | cons x bits ih =>
    have hx : x.toNat < 256 ^ 8 := x.isLt
    rw [List.flatMap_cons, exactChunks_chunk_append (by decide) (length_leBytes 8 x.toNat),
      List.map_cons, ih, leNat_leBytes hx, BitVec.ofNat_toNat, BitVec.setWidth_eq]

theorem length_flatMap_words (bits : List (BitVec 64)) :
    (bits.flatMap fun word => leBytes 8 word.toNat).length = bits.length * 8 := by
  induction bits with
  | nil => rfl
  | cons x bits ih =>
    rw [List.flatMap_cons, List.length_append, ih, length_leBytes, List.length_cons]
    omega

/-- **A filter that is written is read back**, whatever follows it. -/
theorem Holds.decode_encode {k : ℕ} (h : f.Holds (2 ^ k) keys) {bytes : Bytes}
    (henc : f.encode = some bytes) (rest : Bytes) :
    decode (bytes ++ rest) = .ok (f, bytes.length) := by
  rw [encode] at henc
  split_ifs at henc with hlen
  cases henc
  obtain ⟨words, hwords⟩ :
      ∃ words, words = f.bits.flatMap fun word => leBytes 8 word.toNat := ⟨_, rfl⟩
  have hwordsLen : words.length = f.bits.length * 8 := by rw [hwords, length_flatMap_words]
  have hlength := h.length
  have htwo := Nat.two_pow_pos k
  have hcount : leNat ((leBytes 4 f.bits.length ++ (words ++ rest)).take 4) = f.bits.length := by
    rw [List.take_left' (length_leBytes 4 _), leNat_leBytes hlen]
  have hbitCount : min (f.bits.length * 64) (2 ^ 64 - 1) = 2 ^ k := by omega
  have hheader : ([4] ++ leBytes 4 f.bits.length : Bytes).length = 1 + 4 := by
    rw [List.length_append, List.length_singleton, length_leBytes]
  have hsplit : [4] ++ (leBytes 4 f.bits.length ++ words) ++ rest =
      [4] ++ leBytes 4 f.bits.length ++ words ++ rest := by
    simp only [List.append_assoc]
  have hend : ([4] ++ leBytes 4 f.bits.length ++ words : Bytes).length =
      1 + 4 + f.bits.length * 8 := by
    rw [List.length_append, hheader, hwordsLen]
  have hslice : (([4] ++ (leBytes 4 f.bits.length ++ words) ++ rest).take
      (1 + 4 + f.bits.length * 8)).drop (1 + 4) = words := by
    rw [hsplit, List.take_left' hend, List.drop_left' hheader]
  have hshort : ¬([4] ++ (leBytes 4 f.bits.length ++ words) ++ rest).length <
      1 + 4 + f.bits.length * 8 := by
    rw [hsplit, List.length_append, hend]
    omega
  have hread : (exactChunks 8 words).map (fun w => BitVec.ofNat 64 (leNat w)) = f.bits := by
    rw [hwords, flatMap_exact]
  have hcons : [4] ++ (leBytes 4 f.bits.length ++ words) ++ rest =
      4 :: (leBytes 4 f.bits.length ++ (words ++ rest)) := by
    simp only [List.append_assoc, List.cons_append, List.nil_append]
  have hrest : ¬(leBytes 4 f.bits.length ++ (words ++ rest)).length < 4 := by
    rw [List.length_append, length_leBytes]
    omega
  have hprobes : ¬(4 : Fin 256).val ≠ bloomHashes := by decide
  have hzero : ¬f.bits.length = 0 := by omega
  have hpower : ¬¬isPowerOfTwo64 (2 ^ k) = true := not_not.2 (isPowerOfTwo64_two_pow k)
  have htotal : ([4] ++ (leBytes 4 f.bits.length ++ words) : Bytes).length =
      1 + 4 + f.bits.length * 8 := by
    rw [← List.append_assoc, hend]
  rw [← hwords, htotal]
  rw [hcons] at hslice hshort ⊢
  simp only [decode, if_neg hprobes, if_neg hrest, hcount, if_neg hzero, hbitCount, if_neg hpower,
    if_neg hshort, hslice, hread]
  rw [← h.mask]

/-- The filter of the footer, if there is one, admits the key. -/
def mightContainKey (bloom : Option BloomWords) (key : Bytes) : Option Bool :=
  match bloom with
  | none => some true
  | some f => f.maybeContains key

/-- **No false negatives.**  A filter can be built over any keys with any number of bits for a key,
and finds every one of them.  It can be written iff it has fewer than `2 ^ 32` words, and then what
is read back finds every one of them. -/
theorem finds_every_key (bitsPerKey : ℕ) (keys : List Bytes) :
    ∃ f, build bitsPerKey keys = some f ∧
      (∀ key ∈ keys, f.maybeContains key = some true) ∧
      ((∃ bytes, f.encode = some bytes) ↔ bitCount bitsPerKey keys.length < 2 ^ 38) ∧
      ∀ bytes rest, f.encode = some bytes →
        ∃ g, decode (bytes ++ rest) = .ok (g, bytes.length) ∧
          ∀ key ∈ keys, mightContainKey (some g) key = some true := by
  obtain ⟨f, hf, hholds⟩ := build_eq bitsPerKey keys
  obtain ⟨k, hk, hpow⟩ := bitCount_eq_two_pow bitsPerKey keys.length
  rw [hpow] at hholds ⊢
  refine ⟨f, hf, fun key => hholds.maybeContains, ?_, fun bytes rest henc => ?_⟩
  · have hlength := hholds.length
    constructor
    · rintro ⟨bytes, henc⟩
      rw [encode] at henc
      split_ifs at henc with hlen
      omega
    · intro hlt
      exact ⟨_, if_pos (by omega)⟩
  · exact ⟨f, hholds.decode_encode henc rest, fun key => hholds.maybeContains⟩

/-- One key at `2 ^ 38` bits for a key: the filter has too many words to be written. -/
theorem not_written_huge :
    ¬∀ (bitsPerKey : ℕ) (keys : List Bytes), ∃ f, build bitsPerKey keys = some f ∧
      ∃ bytes g n, f.encode = some bytes ∧ decode bytes = .ok (g, n) ∧
        ∀ key ∈ keys, mightContainKey (some g) key = some true := by
  intro h
  obtain ⟨f, hf, bytes, g, n, henc, -⟩ := h (2 ^ 38) [[]]
  obtain ⟨f', hf', hholds⟩ := build_eq (2 ^ 38) [[]]
  obtain rfl : f' = f := Option.some.inj (hf'.symm.trans hf)
  have hcount : 2 ^ 38 ≤ bitCount (2 ^ 38) [([] : Bytes)].length := by
    have hle : 2 ^ 38 ≤ 2 ^ Nat.clog 2 (2 ^ 38) := Nat.le_pow_clog (by decide) _
    have hmin : min (1 * max (2 ^ 38) 1) (2 ^ 64 - 1) = 2 ^ 38 := by decide
    rw [bitCount, List.length_singleton, hmin, nextPowerOfTwo64, if_pos (by decide)]
    exact hle.trans (le_max_left _ _)
  have hlength := hholds.length
  rw [encode] at henc
  split_ifs at henc with hlen
  omega

/-! ### The filter kept as one number -/

/-- The same filter with its bits as one number. -/
def toKeyBloom (f : BloomWords) : KeyBloom := ⟨BitWords.toNat f.bits, f.mask⟩

/-- The answers are those of the filter kept as one number. -/
theorem Holds.maybeContains_eq {k : ℕ} (h : f.Holds (2 ^ k) keys) (key : Bytes) :
    f.maybeContains key = some (f.toKeyBloom.maybeContains key) := by
  have hbits : ∀ p ∈ bitPositions f.mask key, ∃ b, getBit f.bits p = some b := by
    intro p hp
    rw [h.mask] at hp
    exact ⟨_, h.bits p (lt_of_mem_bitPositions hp)⟩
  rw [BloomWords.maybeContains, allSet_eq hbits, KeyBloom.maybeContains]
  simp only [toKeyBloom, testBit_toNat (by decide : 0 < 64)]

end BloomWords

end SteleDb
