import SteleDb.Storage.Checksum
import SteleDb.Lib.Crc

/-!
# The CRC32C kernel

Eight bytes at a time from eight tables is the division by the Castagnoli polynomial, bit by bit.

* `crcTables_eq` : a table holds what shifting its index gives;
* `crcUpdate_eq_foldl` : the kernel is the one-table loop, wherever the blocks of eight end;
* `crc32c_eq_bits`, `toPoly_crc32c` : the checksum is the reflected remainder of the message;
* `crc32c_agrees` : the kernel, its references and the incremental digest.
-/

open Polynomial

namespace SteleDb

/-! ### The references -/

/-- The Castagnoli polynomial. -/
def crcPoly : BitVec 32 := 0x1EDC6F41

/-- The bits of a message, each byte from its lowest. -/
def messageBits (bytes : Bytes) : List Bool :=
  bytes.flatMap fun b => (List.range 8).map b.val.testBit

/-- CRC32C bit by bit: the message divided by the polynomial, from a register of ones, the remainder
reflected and complemented. -/
def crc32cBits (bytes : Bytes) : BitVec 32 :=
  ~~~ ((messageBits bytes).foldl (Crc.divide crcPoly) (~~~ 0)).reverse

/-- One byte from one table. -/
def crcByte (crc : BitVec 32) (b : Fin 256) : BitVec 32 :=
  crcTable ((crc ^^^ BitVec.ofNat 32 b.val) &&& 0xFF) ^^^ (crc >>> 8)

/-- The historical byte-at-a-time implementation. -/
def crc32cReference (bytes : Bytes) : BitVec 32 := ~~~ bytes.foldl crcByte (~~~ 0)

/-! ### The incremental digest -/

/-- The running CRC. -/
structure Crc32c where
  /-- The register, from all ones on, not yet complemented. -/
  crc : BitVec 32

namespace Crc32c

/-- No bytes folded in yet. -/
def new : Crc32c := ⟨~~~ 0⟩

/-- Fold `bytes` into the running CRC. -/
def update (state : Crc32c) (bytes : Bytes) : Crc32c := ⟨crcUpdate state.crc bytes⟩

/-- The CRC32C of everything folded in so far. -/
def finish (state : Crc32c) : BitVec 32 := ~~~ state.crc

end Crc32c

/-! ### The tables -/

theorem reverse_crcPoly : crcPoly.reverse = crcPolyReflected := by decide +kernel

theorem crcShift_eq (crc : BitVec 32) : crcShift crc = Crc.shift crcPolyReflected crc := by
  have hbit : (crc &&& 1 = 0) = (crc.getLsbD 0 = false) := by
    have hone : crc &&& 1 = BitVec.setWidth 32 (BitVec.ofBool (crc.getLsbD 0)) :=
      BitVec.and_one_eq_setWidth_ofBool_getLsbD
    rw [hone]
    cases crc.getLsbD 0 <;> simp
  unfold crcShift Crc.shift
  simp only [hbit]
  cases crc.getLsbD 0 <;> rfl

theorem crcShift_eq_shift : crcShift = Crc.shift crcPolyReflected := funext crcShift_eq

/-- Eight shifts are one step of a table. -/
theorem iterate_crcShift_split (m : ℕ) (crc : BitVec 32) :
    crcShift^[m + 8] crc = crcShift^[m + 8] (crc &&& 0xFF) ^^^ crcShift^[m] (crc >>> 8) := by
  rw [crcShift_eq_shift]
  exact Crc.iterate_shift_split 8 m crc

theorem iterate_crcShift_xor (n : ℕ) (a b : BitVec 32) :
    crcShift^[n] (a ^^^ b) = crcShift^[n] a ^^^ crcShift^[n] b := by
  rw [crcShift_eq_shift]
  exact Crc.iterate_shift_xor n a b

/-- **A table** holds what shifting its index gives. -/
theorem crcTables_eq (k : ℕ) (i : BitVec 32) : crcTables k i = crcShift^[8 * k + 8] i := by
  induction k with
  | zero => rfl
  | succ k ih =>
    have hstep := iterate_crcShift_split 0 (crcShift^[8 * k + 8] i)
    rw [Nat.zero_add, Function.iterate_zero_apply] at hstep
    rw [crcTables, ih, crcTable, BitVec.xor_comm, ← hstep, ← Function.iterate_add_apply]
    congr 1
    omega

/-- Four tables take a word. -/
theorem crcTables_word (k : ℕ) (crc : BitVec 32) :
    crcTables (k + 3) (crc &&& 0xFF) ^^^ crcTables (k + 2) ((crc >>> 8) &&& 0xFF) ^^^
      crcTables (k + 1) ((crc >>> 16) &&& 0xFF) ^^^ crcTables k (crc >>> 24) =
    crcShift^[8 * k + 32] crc := by
  have h₂₄ : crc >>> 24 = crc >>> 8 >>> 8 >>> 8 := by
    rw [← BitVec.shiftRight_add, ← BitVec.shiftRight_add]
  have h₁₆ : crc >>> 16 = crc >>> 8 >>> 8 := by rw [← BitVec.shiftRight_add]
  have hfirst := iterate_crcShift_split (8 * k + 24) crc
  have hsecond := iterate_crcShift_split (8 * k + 16) (crc >>> 8)
  have hthird := iterate_crcShift_split (8 * k + 8) (crc >>> 8 >>> 8)
  rw [show 8 * k + 32 = 8 * k + 24 + 8 by omega, hfirst, show 8 * k + 24 = 8 * k + 16 + 8 by omega,
    hsecond, show 8 * k + 16 = 8 * k + 8 + 8 by omega, hthird, h₁₆, h₂₄]
  simp only [crcTables_eq, Nat.mul_add, Nat.add_assoc, BitVec.xor_assoc]

/-- A byte has eight bits. -/
theorem testBit_byte (b : Fin 256) {i : ℕ} (h : 8 ≤ i) : b.val.testBit i = false := by
  refine Nat.testBit_lt_two_pow ?_
  calc b.val < 2 ^ 8 := b.isLt
    _ ≤ 2 ^ i := Nat.pow_le_pow_right (by omega) h

/-! ### Bytes and words -/

/-- A byte is eight shifts of the register that it was added to. -/
theorem crcByte_eq (crc : BitVec 32) (b : Fin 256) :
    crcByte crc b = crcShift^[8] (crc ^^^ BitVec.ofNat 32 b.val) := by
  have hb : (BitVec.ofNat 32 b.val) >>> 8 = 0 := by
    refine BitVec.eq_of_getLsbD_eq fun i hi => ?_
    rw [BitVec.getLsbD_ushiftRight, BitVec.getLsbD_ofNat, testBit_byte b (by omega)]
    simp
  have hstep := iterate_crcShift_split 0 (crc ^^^ BitVec.ofNat 32 b.val)
  rw [Nat.zero_add, Function.iterate_zero_apply, BitVec.ushiftRight_xor_distrib, hb] at hstep
  rw [hstep, crcByte, crcTable]
  exact congrArg _ BitVec.xor_zero.symm

/-- A word is its first byte, and the others one byte up. -/
theorem leWord_cons (b : Fin 256) (bytes : Bytes) :
    leWord (b :: bytes) = BitVec.ofNat 32 b.val ^^^ (leWord bytes <<< 8) := by
  have hsum (j : ℕ) : (leNat (b :: bytes)).testBit j =
      if j < 8 then b.val.testBit j else (leNat bytes).testBit (j - 8) := by
    rw [leNat, Nat.add_comm]
    exact Nat.testBit_two_pow_mul_add (leNat bytes) (i := 8) b.isLt j
  refine BitVec.eq_of_getLsbD_eq fun i hi => ?_
  simp only [leWord, BitVec.getLsbD_ofNat, BitVec.getLsbD_xor, BitVec.getLsbD_shiftLeft, hsum,
    hi, decide_true, Bool.true_and]
  by_cases hlow : i < 8
  · simp [hlow]
  · have hi' : i - 8 < 32 := by omega
    simp [hlow, hi', testBit_byte b (Nat.le_of_not_lt hlow)]

/-- Up to four bytes, one at a time, are shifts of the word that they make. -/
theorem foldl_crcByte_eq_word {bytes : Bytes} (h : bytes.length ≤ 4) (crc : BitVec 32) :
    bytes.foldl crcByte crc = crcShift^[8 * bytes.length] (crc ^^^ leWord bytes) := by
  induction bytes generalizing crc with
  | nil => exact BitVec.xor_zero.symm
  | cons b bytes ih =>
    have hlen : bytes.length ≤ 3 := Nat.le_of_succ_le_succ h
    -- the other bytes fit above the first, and come down in its eight shifts
    have hdown : crcShift^[8] (leWord bytes <<< 8) = leWord bytes := by
      rw [crcShift_eq_shift]
      refine Crc.iterate_shift_shiftLeft fun i hi => ?_
      have hlt : leNat bytes < 2 ^ i := by
        calc leNat bytes < 256 ^ bytes.length := leNat_lt bytes
          _ ≤ 256 ^ 3 := Nat.pow_le_pow_right (by omega) hlen
          _ = 2 ^ 24 := by norm_num
          _ ≤ 2 ^ i := Nat.pow_le_pow_right (by omega) (by omega)
      rw [leWord, BitVec.getLsbD_ofNat, Nat.testBit_lt_two_pow hlt, Bool.and_false]
    rw [List.foldl_cons, ih (by omega), crcByte_eq, leWord_cons, ← BitVec.xor_assoc,
      List.length_cons, Nat.mul_succ, Function.iterate_add_apply,
      iterate_crcShift_xor 8 (crc ^^^ BitVec.ofNat 32 b.val), hdown]

/-- **The kernel** is the one-table loop. -/
theorem crcUpdate_eq_foldl (crc : BitVec 32) (bytes : Bytes) :
    crcUpdate crc bytes = bytes.foldl crcByte crc := by
  induction crc, bytes using crcUpdate.induct with
  | case1 crc b₀ b₁ b₂ b₃ b₄ b₅ b₆ b₇ rest low high ih =>
    -- the block is two words: the register goes into the first, which shifts on under the second
    have hblock : [b₀, b₁, b₂, b₃, b₄, b₅, b₆, b₇].foldl crcByte crc =
        crcShift^[64] low ^^^ crcShift^[32] high := by
      have hlow : [b₀, b₁, b₂, b₃].foldl crcByte crc =
          crcShift^[32] (crc ^^^ leWord [b₀, b₁, b₂, b₃]) := foldl_crcByte_eq_word le_rfl crc
      have hhigh : [b₄, b₅, b₆, b₇].foldl crcByte ([b₀, b₁, b₂, b₃].foldl crcByte crc) =
          crcShift^[32] ([b₀, b₁, b₂, b₃].foldl crcByte crc ^^^ high) :=
        foldl_crcByte_eq_word le_rfl _
      rw [← List.foldl_append, hlow, iterate_crcShift_xor, ← Function.iterate_add_apply,
        BitVec.xor_comm crc] at hhigh
      exact hhigh
    rw [← crcTables_word 4 low, ← crcTables_word 0 high, ← BitVec.xor_assoc, ← BitVec.xor_assoc,
      ← BitVec.xor_assoc] at hblock
    calc crcUpdate crc (b₀ :: b₁ :: b₂ :: b₃ :: b₄ :: b₅ :: b₆ :: b₇ :: rest)
      _ = rest.foldl crcByte _ := by rw [crcUpdate, ih]
      _ = rest.foldl crcByte ([b₀, b₁, b₂, b₃, b₄, b₅, b₆, b₇].foldl crcByte crc) := by rw [hblock]
      _ = (b₀ :: b₁ :: b₂ :: b₃ :: b₄ :: b₅ :: b₆ :: b₇ :: rest).foldl crcByte crc := rfl
  | case2 crc rest hrest =>
    rw [crcUpdate]
    · rfl
    · exact hrest

/-- The one-table loop is the reflected division. -/
theorem foldl_crcByte_eq_feed (crc : BitVec 32) (bytes : Bytes) :
    bytes.foldl crcByte crc = (messageBits bytes).foldl (Crc.feed crcPolyReflected) crc := by
  induction bytes generalizing crc with
  | nil => rfl
  | cons b bytes ih =>
    have hbyte : ((List.range 8).map b.val.testBit).foldl (Crc.feed crcPolyReflected) crc =
        crcByte crc b := by
      rw [Crc.foldl_feed_bits (n := 8) b.isLt (by omega), crcByte_eq, crcShift_eq_shift]
    rw [List.foldl_cons, ih, ← hbyte, messageBits, messageBits, List.flatMap_cons,
      List.foldl_append]

/-! ### The checksum -/

theorem crc32c_eq_reference (bytes : Bytes) : crc32c bytes = crc32cReference bytes := by
  rw [crc32c, crcUpdate_eq_foldl, crc32cReference]

/-- **The checksum** is the division bit by bit. -/
theorem crc32c_eq_bits (bytes : Bytes) : crc32c bytes = crc32cBits bytes := by
  have hones : (~~~ 0 : BitVec 32).reverse = ~~~ 0 := by decide +kernel
  rw [crc32c_eq_reference, crc32cReference, foldl_crcByte_eq_feed, crc32cBits,
    Crc.reverse_foldl_divide, reverse_crcPoly, hones]

/-- Complemented and reflected, it is the remainder of the message below a register of ones. -/
theorem toPoly_crc32c (bytes : Bytes) :
    Crc.toPoly (~~~ crc32c bytes).reverse =
      (Crc.toPoly (~~~ 0 : BitVec 32) * X ^ (messageBits bytes).length +
        Crc.message (messageBits bytes) * X ^ 32) %ₘ Crc.generator crcPoly := by
  rw [crc32c_eq_bits, crc32cBits, BitVec.not_not, BitVec.reverse_reverse_eq,
    Crc.toPoly_foldl_divide]

/-- Pieces fold in as what they make together. -/
theorem Crc32c.foldl_update (state : Crc32c) (pieces : List Bytes) :
    pieces.foldl Crc32c.update state = state.update pieces.flatten := by
  induction pieces generalizing state with
  | nil => rfl
  | cons piece pieces ih =>
    rw [List.foldl_cons, ih]
    simp only [Crc32c.update, crcUpdate_eq_foldl, List.flatten_cons, List.foldl_append]

/-- **The CRC32C fast path** agrees with its definition bit by bit and byte by byte, and with the
digest of the bytes in pieces, whatever the pieces. -/
theorem crc32c_agrees :
    (∀ bytes, crc32c bytes = crc32cBits bytes ∧ crc32c bytes = crc32cReference bytes) ∧
      ∀ pieces : List Bytes,
        (pieces.foldl Crc32c.update Crc32c.new).finish = crc32c pieces.flatten := by
  refine ⟨fun bytes => ⟨crc32c_eq_bits bytes, crc32c_eq_reference bytes⟩, fun pieces => ?_⟩
  rw [Crc32c.foldl_update]
  rfl

end SteleDb
