import Mathlib.Data.List.Basic
import Mathlib.Data.Nat.Bitwise
import Mathlib.Tactic.Ring

/-!
# Bit arrays kept in words

A bit array is a list of words of `w` bits; bit `pos` is bit `pos % w` of word `pos / w`.  Access
past the last word fails.
-/

namespace BitWords

variable {w : ℕ} {words words' : List (BitVec w)} {pos q : ℕ}

/-- Bit `pos`; `none` past the last word. -/
def getBit (words : List (BitVec w)) (pos : ℕ) : Option Bool :=
  words[pos / w]?.map fun x => x &&& (1#w <<< (pos % w)) != 0#w

/-- Set bit `pos`; `none` past the last word. -/
def setBit (words : List (BitVec w)) (pos : ℕ) : Option (List (BitVec w)) :=
  words[pos / w]?.map fun x => words.set (pos / w) (x ||| (1#w <<< (pos % w)))

/-- A masked word is not zero iff the bit is set. -/
theorem and_bit_ne_zero (x : BitVec w) {i : ℕ} (hi : i < w) :
    (x &&& (1#w <<< i) != 0#w) = x.getLsbD i := by
  rw [Bool.eq_iff_iff, bne_iff_ne, ne_eq, BitVec.eq_of_getLsbD_eq_iff]
  constructor
  · intro h
    push Not at h
    obtain ⟨j, hj, hbit⟩ := h
    by_cases hji : j = i
    · subst hji
      simpa [hj] using hbit
    · have hlow : j < i ∨ j - i ≠ 0 := by omega
      rcases hlow with hlow | hlow <;> simp [hj, hlow] at hbit
  · intro h hall
    have hbit := hall i hi
    rw [BitVec.getLsbD_and, h] at hbit
    simp [hi] at hbit

theorem getBit_eq (hw : 0 < w) (words : List (BitVec w)) (pos : ℕ) :
    getBit words pos = words[pos / w]?.map fun x => x.getLsbD (pos % w) := by
  unfold getBit
  congr 1
  funext x
  exact and_bit_ne_zero x (Nat.mod_lt pos hw)

theorem div_lt_length (hpos : pos < w * words.length) : pos / w < words.length :=
  Nat.div_lt_of_lt_mul hpos

theorem length_setBit (h : setBit words pos = some words') : words'.length = words.length := by
  obtain ⟨x, -, rfl⟩ := Option.map_eq_some_iff.1 h
  exact List.length_set

/-- A bit within the words can be set. -/
theorem setBit_of_lt (hpos : pos < w * words.length) :
    ∃ words', setBit words pos = some words' := by
  rw [setBit, List.getElem?_eq_getElem (div_lt_length hpos)]
  exact ⟨_, rfl⟩

/-- Setting a bit sets that bit and no other. -/
theorem getBit_setBit (hw : 0 < w) (h : setBit words pos = some words') (q : ℕ) :
    getBit words' q = (getBit words q).map fun b => b || decide (q = pos) := by
  obtain ⟨x, hx, rfl⟩ := Option.map_eq_some_iff.1 h
  obtain ⟨hlt, rfl⟩ := List.getElem?_eq_some_iff.1 hx
  rw [getBit_eq hw, getBit_eq hw, List.getElem?_set]
  by_cases hword : pos / w = q / w
  · rw [if_pos hword, if_pos hlt, ← hword, List.getElem?_eq_getElem hlt]
    have hbit : (1#w <<< (pos % w)).getLsbD (q % w) = decide (q = pos) := by
      have hpos := Nat.div_add_mod pos w
      have hq := Nat.div_add_mod q w
      have hqw := Nat.mod_lt q hw
      have hpw := Nat.mod_lt pos hw
      rw [hword] at hpos
      rw [BitVec.getLsbD_shiftLeft, Bool.eq_iff_iff]
      by_cases heq : q = pos
      · subst heq
        simp [hqw, hw]
      · have hlow : q % w < pos % w ∨ q % w - pos % w ≠ 0 := by omega
        rcases hlow with hlow | hlow
        · simp [heq, hlow]
        · simp [heq, hlow]
    simp only [Option.map_some, BitVec.getLsbD_or, hbit]
  · rw [if_neg hword]
    have hne : q ≠ pos := fun heq => hword (by rw [heq])
    simp only [hne, decide_false, Bool.or_false, Option.map_id']

/-- Setting bits within the words succeeds, and what is set is what was set and these. -/
theorem setBits (hw : 0 < w) (ps : List ℕ) (hps : ∀ p ∈ ps, p < w * words.length) :
    ∃ words', ps.foldlM setBit words = some words' ∧ words'.length = words.length ∧
      ∀ q, getBit words' q = (getBit words q).map fun b => b || decide (q ∈ ps) := by
  induction ps generalizing words with
  | nil =>
    refine ⟨words, rfl, rfl, fun q => ?_⟩
    simp
  | cons p ps ih =>
    obtain ⟨mid, hmid⟩ := setBit_of_lt (hps p List.mem_cons_self)
    have hlen := length_setBit hmid
    obtain ⟨words', hrun, hlen', hbits⟩ := @ih mid fun p' hp' => by
      rw [hlen]
      exact hps p' (List.mem_cons_of_mem p hp')
    refine ⟨words', ?_, hlen'.trans hlen, fun q => ?_⟩
    · rw [List.foldlM_cons, hmid]
      exact hrun
    · rw [hbits, getBit_setBit hw hmid, Option.map_map]
      congr 1
      funext b
      simp [Bool.or_assoc]

/-- A bit of fresh words is clear. -/
theorem getBit_replicate (hw : 0 < w) {n : ℕ} (hq : q < w * n) :
    getBit (List.replicate n 0#w) q = some false := by
  have hlt : q / w < n := Nat.div_lt_of_lt_mul hq
  rw [getBit_eq hw, List.getElem?_replicate, if_pos hlt]
  simp

/-- The words put together as one number. -/
def toNat : List (BitVec w) → ℕ
  | [] => 0
  | x :: words => 2 ^ w * toNat words + x.toNat

/-- The bits of the number are those of the words. -/
theorem testBit_toNat (hw : 0 < w) (words : List (BitVec w)) (q : ℕ) :
    (toNat words).testBit q = (getBit words q).getD false := by
  induction words generalizing q with
  | nil => simp [toNat, getBit]
  | cons x words ih =>
    rw [toNat, Nat.testBit_two_pow_mul_add _ x.isLt, ih, getBit_eq hw, getBit_eq hw]
    by_cases hq : q < w
    · simp [hq, Nat.div_eq_of_lt hq, Nat.mod_eq_of_lt hq, BitVec.getElem_eq_testBit_toNat]
    · have hqw : w ≤ q := Nat.le_of_not_lt hq
      rw [if_neg hq, Nat.div_eq_sub_div hw hqw, List.getElem?_cons_succ, ← Nat.mod_eq_sub_mod hqw]

end BitWords
