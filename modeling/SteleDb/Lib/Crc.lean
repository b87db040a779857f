import Mathlib.Algebra.Polynomial.Div
import Mathlib.Algebra.CharP.Two
import Mathlib.Algebra.Field.ZMod
import Mathlib.Tactic.LinearCombination

/-!
# Cyclic redundancy checks

The remainder of a message modulo a polynomial over two elements, `w` bits of register at a time.
`Crc.divide` takes one bit of the message, the highest power first; `Crc.shift` is the same on a
reflected register, where the division goes down.

* `Crc.toPoly_foldl_divide` : the register is the remainder of the message;
* `Crc.reverse_foldl_divide` : the reflected register takes the same bits;
* `Crc.iterate_shift_xor`, `Crc.iterate_shift_split` : shifting is linear, and the high bits of a
  register only move down until they reach the end.  These are what a table is built from;
* `Crc.foldl_feed_ne_of_burst` : messages that differ within the width of the register leave
  different registers.
-/

open Polynomial

namespace Crc

variable {w : ℕ} {poly : BitVec w}

/-! ### The division, highest power first -/

/-- One bit of the division. -/
def divide (poly reg : BitVec w) (bit : Bool) : BitVec w :=
  if reg.msb ^^ bit then (reg <<< 1) ^^^ poly else reg <<< 1

/-- The polynomial that a register holds. -/
noncomputable def toPoly (reg : BitVec w) : (ZMod 2)[X] :=
  ∑ i ∈ Finset.range w, if reg.getLsbD i then X ^ i else 0

/-- The polynomial of a message, highest power first. -/
noncomputable def message : List Bool → (ZMod 2)[X] :=
  List.foldl (fun p bit => X * p + if bit then 1 else 0) 0

/-- The generator: the power that the register has no room for, and the polynomial. -/
noncomputable def generator (poly : BitVec w) : (ZMod 2)[X] := X ^ w + toPoly poly

theorem toPoly_xor (a b : BitVec w) : toPoly (a ^^^ b) = toPoly a + toPoly b := by
  unfold toPoly
  rw [← Finset.sum_add_distrib]
  refine Finset.sum_congr rfl fun i _ => ?_
  rw [BitVec.getLsbD_xor]
  cases a.getLsbD i <;> cases b.getLsbD i <;> simp [CharTwo.add_self_eq_zero]

theorem degree_toPoly_lt (reg : BitVec w) : (toPoly reg).degree < w := by
  refine (degree_sum_le _ _).trans_lt ((Finset.sup_lt_iff (by simp)).2 fun i hi => ?_)
  have hi : i < w := Finset.mem_range.1 hi
  split
  · rw [degree_X_pow]
    exact_mod_cast hi
  · simp

theorem monic_generator (poly : BitVec w) : (generator poly).Monic :=
  monic_X_pow_add (degree_toPoly_lt poly)

theorem degree_generator (poly : BitVec w) : (generator poly).degree = w :=
  (degree_add_eq_left_of_degree_lt (by simpa using degree_toPoly_lt poly)).trans (degree_X_pow w)

/-- One place up: the highest bit leaves the register. -/
theorem toPoly_shiftLeft (reg : BitVec w) :
    X * toPoly reg = toPoly (reg <<< 1) + if reg.msb then X ^ w else 0 := by
  cases w with
  | zero => simp [toPoly, BitVec.eq_nil reg]
  | succ n =>
    unfold toPoly
    rw [Finset.sum_range_succ, Finset.sum_range_succ', mul_add, Finset.mul_sum]
    congr 1
    · simp only [BitVec.getLsbD_shiftLeft, Nat.zero_lt_one, decide_true, Bool.not_true,
        Bool.and_false, Bool.false_and, Bool.false_eq_true, if_false, add_zero]
      refine Finset.sum_congr rfl fun i hi => ?_
      have hi : i + 1 < n + 1 := by simpa using Finset.mem_range.1 hi
      simp [hi, mul_ite, pow_succ']
    · rw [BitVec.msb_eq_getLsbD_last, Nat.add_sub_cancel]
      simp [mul_ite, pow_succ']

/-- One bit: the register moves up, takes the bit at the power that leaves it, and loses the
generator if that power is there. -/
theorem toPoly_divide (reg : BitVec w) (bit : Bool) :
    toPoly (divide poly reg bit) =
      X * toPoly reg + (if bit then X ^ w else 0) +
        if reg.msb ^^ bit then generator poly else 0 := by
  have hself : X ^ w + X ^ w = (0 : (ZMod 2)[X]) := CharTwo.add_self_eq_zero _
  rw [toPoly_shiftLeft, divide]
  cases reg.msb <;> cases bit <;> simp only [Bool.false_xor, Bool.true_xor, Bool.not_true,
    Bool.not_false, Bool.false_eq_true, if_true, if_false, add_zero, toPoly_xor, generator]
  · linear_combination (-1 : (ZMod 2)[X]) * hself
  · linear_combination (-1 : (ZMod 2)[X]) * hself
  · linear_combination (-1 : (ZMod 2)[X]) * hself

/-- **The register is the remainder** of the message at the powers above it, and of what it held
before the message. -/
theorem toPoly_foldl_divide (reg : BitVec w) (bits : List Bool) :
    toPoly (bits.foldl (divide poly) reg) =
      (toPoly reg * X ^ bits.length + message bits * X ^ w) %ₘ generator poly := by
  obtain ⟨q, hq⟩ : generator poly ∣ (toPoly reg * X ^ bits.length + message bits * X ^ w) -
      toPoly (bits.foldl (divide poly) reg) := by
    induction bits using List.reverseRecOn with
    | nil => simp [message]
    | append_singleton bits bit ih =>
      obtain ⟨q, hq⟩ := ih
      refine ⟨X * q - if (bits.foldl (divide poly) reg).msb ^^ bit then 1 else 0, ?_⟩
      have hmsg : message (bits ++ [bit]) = X * message bits + if bit then 1 else 0 := by
        simp [message]
      rw [List.foldl_append, List.foldl_cons, List.foldl_nil, toPoly_divide, hmsg,
        List.length_append, List.length_singleton, pow_succ]
      cases bit <;> cases (bits.foldl (divide poly) reg).msb <;>
        simp only [Bool.xor_false, Bool.xor_true, Bool.not_true, Bool.not_false, if_true,
          Bool.false_eq_true, if_false] <;>
        linear_combination (X : (ZMod 2)[X]) * hq
  refine (div_modByMonic_unique q _ (monic_generator poly) ⟨?_, ?_⟩).2.symm
  · linear_combination -hq
  · rw [degree_generator]
    exact degree_toPoly_lt _

/-! ### The reflected register -/

/-- One place of a reflected register. -/
def shift (poly reg : BitVec w) : BitVec w :=
  if reg.getLsbD 0 then (reg >>> 1) ^^^ poly else reg >>> 1

theorem reverse_xor (a b : BitVec w) : (a ^^^ b).reverse = a.reverse ^^^ b.reverse := by
  refine BitVec.eq_of_getLsbD_eq fun i hi => ?_
  simp only [BitVec.getLsbD_xor, BitVec.getLsbD_reverse, BitVec.getMsbD_xor]

theorem reverse_shiftLeft_one (reg : BitVec w) : (reg <<< 1).reverse = reg.reverse >>> 1 := by
  refine BitVec.eq_of_getLsbD_eq fun i hi => ?_
  rw [BitVec.getLsbD_ushiftRight, BitVec.getLsbD_reverse, BitVec.getLsbD_reverse,
    BitVec.getMsbD_shiftLeft, Nat.add_comm]

/-- One bit, which a reflected register takes in its lowest place. -/
def feed (poly reg : BitVec w) (bit : Bool) : BitVec w :=
  shift poly (reg ^^^ BitVec.setWidth w (BitVec.ofBool bit))

theorem reverse_divide (reg : BitVec w) (bit : Bool) :
    (divide poly reg bit).reverse = feed poly.reverse reg.reverse bit := by
  have hlow : (reg.reverse ^^^ BitVec.setWidth w (BitVec.ofBool bit)) >>> 1 =
      reg.reverse >>> 1 := by
    refine BitVec.eq_of_getLsbD_eq fun i hi => ?_
    have hbit : (BitVec.ofBool bit).getLsbD (1 + i) = false := BitVec.getLsbD_of_ge _ _ (by omega)
    simp only [BitVec.getLsbD_ushiftRight, BitVec.getLsbD_xor, BitVec.getLsbD_setWidth, hbit,
      Bool.and_false, Bool.xor_false]
  cases w with
  | zero => exact (BitVec.eq_nil _).trans (BitVec.eq_nil _).symm
  | succ n =>
    have hbit : (reg.reverse ^^^ BitVec.setWidth (n + 1) (BitVec.ofBool bit)).getLsbD 0 =
        (reg.msb ^^ bit) := by
      rw [BitVec.getLsbD_xor, BitVec.getLsbD_reverse, BitVec.getLsbD_setWidth]
      cases bit <;> simp [BitVec.msb]
    rw [feed, shift, hlow, hbit, divide]
    by_cases hmsb : (reg.msb ^^ bit) = true
    · rw [if_pos hmsb, if_pos hmsb, reverse_xor, reverse_shiftLeft_one]
    · rw [if_neg hmsb, if_neg hmsb, reverse_shiftLeft_one]

/-- **The reflected register** takes the same bits. -/
theorem reverse_foldl_divide (reg : BitVec w) (bits : List Bool) :
    (bits.foldl (divide poly) reg).reverse = bits.foldl (feed poly.reverse) reg.reverse := by
  induction bits generalizing reg with
  | nil => rfl
  | cons bit bits ih => rw [List.foldl_cons, List.foldl_cons, ih, reverse_divide]

/-! ### Shifting is linear -/

theorem shift_xor (a b : BitVec w) : shift poly (a ^^^ b) = shift poly a ^^^ shift poly b := by
  have hpoly (x y : BitVec w) : x ^^^ poly ^^^ (y ^^^ poly) = x ^^^ y := by
    rw [BitVec.xor_assoc x poly, BitVec.xor_comm y, ← BitVec.xor_assoc poly poly, BitVec.xor_self,
      BitVec.zero_xor]
  simp only [shift, BitVec.getLsbD_xor, BitVec.ushiftRight_xor_distrib]
  cases a.getLsbD 0 <;> cases b.getLsbD 0 <;>
    simp only [Bool.false_xor, Bool.true_xor, Bool.not_true, Bool.not_false, if_true,
      Bool.false_eq_true, if_false, hpoly]
  · exact BitVec.xor_assoc _ _ _
  · rw [BitVec.xor_assoc, BitVec.xor_comm (b >>> 1), BitVec.xor_assoc]

theorem iterate_shift_xor (n : ℕ) (a b : BitVec w) :
    (shift poly)^[n] (a ^^^ b) = (shift poly)^[n] a ^^^ (shift poly)^[n] b := by
  induction n generalizing a b with
  | zero => rfl
  | succ n ih => rw [Function.iterate_succ_apply, shift_xor, ih]; rfl

/-- Low bits that are clear let the others move down. -/
theorem iterate_shift_of_low {n : ℕ} {a : BitVec w} (h : ∀ i < n, a.getLsbD i = false) :
    (shift poly)^[n] a = a >>> n := by
  induction n with
  | zero => exact (BitVec.ushiftRight_zero a).symm
  | succ n ih =>
    have hbit : (a >>> n).getLsbD 0 = false := by
      rw [BitVec.getLsbD_ushiftRight, Nat.add_zero]
      exact h n n.lt_succ_self
    rw [Function.iterate_succ_apply', ih fun i hi => h i (by omega), shift, hbit,
      if_neg (by simp), BitVec.shiftRight_add]

/-- What is moved up, and fits, comes down again. -/
theorem iterate_shift_shiftLeft {n : ℕ} {a : BitVec w} (h : ∀ i, w ≤ i + n → a.getLsbD i = false) :
    (shift poly)^[n] (a <<< n) = a := by
  rw [iterate_shift_of_low fun i hi => by simp [hi]]
  refine BitVec.eq_of_getLsbD_eq fun i hi => ?_
  rw [BitVec.getLsbD_ushiftRight, BitVec.getLsbD_shiftLeft, Nat.add_sub_cancel_left]
  by_cases hlt : n + i < w
  · simp [hlt]
  · simp [h i (by omega)]

/-- The bits of a number, the lowest first, are fed at once. -/
theorem foldl_feed_bits {n v : ℕ} (hv : v < 2 ^ n) (hn : n ≤ w) (reg : BitVec w) :
    ((List.range n).map v.testBit).foldl (feed poly) reg =
      (shift poly)^[n] (reg ^^^ BitVec.ofNat w v) := by
  induction n generalizing v reg with
  | zero =>
    obtain rfl : v = 0 := by simpa using hv
    exact BitVec.xor_zero.symm
  | succ n ih =>
    have hhalf : v / 2 < 2 ^ n := by omega
    have hrest : (List.range n).map (v.testBit ∘ Nat.succ) = (List.range n).map (v / 2).testBit :=
      List.map_congr_left fun i _ => Nat.testBit_succ v i
    -- the lowest bit, and the number above it one place up
    have hv : BitVec.ofNat w v = BitVec.setWidth w (BitVec.ofBool (v.testBit 0)) ^^^
        (BitVec.ofNat w (v / 2) <<< 1) := by
      refine BitVec.eq_of_getLsbD_eq fun i hi => ?_
      cases i with
      | zero =>
        rw [BitVec.getLsbD_ofNat, BitVec.getLsbD_xor, BitVec.getLsbD_setWidth,
          BitVec.getLsbD_shiftLeft]
        cases v.testBit 0 <;> simp [hi]
      | succ i =>
        have hi' : i < w := by omega
        rw [BitVec.getLsbD_ofNat, Nat.testBit_succ, BitVec.getLsbD_xor, BitVec.getLsbD_setWidth,
          BitVec.getLsbD_shiftLeft, Nat.add_sub_cancel, BitVec.getLsbD_ofNat,
          BitVec.getLsbD_of_ge _ _ (by omega)]
        simp [hi, hi']
    have hdown : (shift poly)^[1] (BitVec.ofNat w (v / 2) <<< 1) = BitVec.ofNat w (v / 2) := by
      refine iterate_shift_shiftLeft fun i hi => ?_
      rw [BitVec.getLsbD_ofNat, Nat.testBit_lt_two_pow (hhalf.trans_le ?_), Bool.and_false]
      exact Nat.pow_le_pow_right (by omega) (by omega)
    rw [List.range_succ_eq_map, List.map_cons, List.map_map, hrest, List.foldl_cons,
      ih hhalf (by omega), Function.iterate_succ_apply, hv, ← BitVec.xor_assoc, shift_xor,
      ← Function.iterate_one (shift poly), hdown, Function.iterate_one]
    rfl

/-- **A table's step**: the low bits are divided, the others only move down. -/
theorem iterate_shift_split (n m : ℕ) (a : BitVec w) :
    (shift poly)^[m + n] a =
      (shift poly)^[m + n] (a &&& BitVec.ofNat w (2 ^ n - 1)) ^^^ (shift poly)^[m] (a >>> n) := by
  set mask := BitVec.ofNat w (2 ^ n - 1)
  have hmask (i : ℕ) : mask.getLsbD i = (decide (i < w) && decide (i < n)) := by
    rw [BitVec.getLsbD_ofNat, Nat.testBit_two_pow_sub_one]
  have hsplit : a = (a &&& mask) ^^^ (a &&& ~~~mask) := by
    refine BitVec.eq_of_getLsbD_eq fun i hi => ?_
    simp only [BitVec.getLsbD_xor, BitVec.getLsbD_and, BitVec.getLsbD_not, hi, decide_true,
      Bool.true_and]
    cases a.getLsbD i <;> cases mask.getLsbD i <;> rfl
  have hhigh : (shift poly)^[n] (a &&& ~~~mask) = a >>> n := by
    rw [iterate_shift_of_low]
    · refine BitVec.eq_of_getLsbD_eq fun i hi => ?_
      rw [BitVec.getLsbD_ushiftRight, BitVec.getLsbD_ushiftRight, BitVec.getLsbD_and,
        BitVec.getLsbD_not, hmask]
      by_cases hw : n + i < w
      · simp [hw]
      · simp [BitVec.getLsbD_of_ge a (n + i) (by omega)]
    · intro i hi
      rw [BitVec.getLsbD_and, BitVec.getLsbD_not, hmask]
      simp [hi]
  conv_lhs => rw [hsplit, iterate_shift_xor]
  rw [Function.iterate_add_apply _ m n (a &&& ~~~mask), hhigh]

/-! ### Bursts -/

section Burst

variable (hpoly : poly.msb = true)

include hpoly

/-- A place down loses nothing: the highest bit shows whether the polynomial was added. -/
theorem shift_eq_zero {a : BitVec w} (h : shift poly a = 0#w) : a = 0#w := by
  have htop : (a >>> 1).msb = false := by
    rw [BitVec.msb_ushiftRight]
    simp
  rw [shift] at h
  split_ifs at h with hbit
  · have heq : a >>> 1 = poly := BitVec.xor_eq_zero_iff.1 h
    rw [heq, hpoly] at htop
    cases htop
  · refine BitVec.eq_of_getLsbD_eq fun i hi => ?_
    cases i with
    | zero => simpa using hbit
    | succ i =>
      have hlow : (a >>> 1).getLsbD i = false := by
        rw [h]
        simp
      rw [BitVec.getLsbD_ushiftRight, Nat.add_comm] at hlow
      simpa using hlow

theorem shift_injective : Function.Injective (shift poly) := by
  intro a b h
  have hzero : shift poly (a ^^^ b) = 0#w := by
    rw [shift_xor, h, BitVec.xor_self]
  exact BitVec.xor_eq_zero_iff.1 (shift_eq_zero hpoly hzero)

/-- The same bits keep two registers apart. -/
theorem foldl_feed_injective (bits : List Bool) :
    Function.Injective fun reg : BitVec w => bits.foldl (feed poly) reg := by
  induction bits with
  | nil => exact fun _ _ h => h
  | cons bit bits ih =>
    intro a b h
    have hfeed : feed poly a bit = feed poly b bit := ih h
    exact (BitVec.xor_left_inj _).1 (shift_injective hpoly hfeed)

/-- As many bits as the register has, or fewer, are found in it again. -/
theorem eq_of_foldl_feed {mid mid' : List Bool} (hlen : mid.length = mid'.length)
    (hw : mid.length ≤ w) {reg : BitVec w}
    (h : mid.foldl (feed poly) reg = mid'.foldl (feed poly) reg) : mid = mid' := by
  have hbits : ∀ l : List Bool, l.length = mid.length →
      ∃ v < 2 ^ mid.length, l = (List.range mid.length).map v.testBit := by
    intro l hl
    refine ⟨Nat.ofBits fun i : Fin mid.length => l.get (i.cast hl.symm),
      Nat.ofBits_lt_two_pow _, ?_⟩
    refine List.ext_getElem (by simp [hl]) fun i hi _ => ?_
    have hi' : i < mid.length := hl ▸ hi
    rw [List.getElem_map, List.getElem_range, Nat.testBit_ofBits_lt _ _ hi']
    rfl
  obtain ⟨v, hv, hmid⟩ := hbits mid rfl
  obtain ⟨v', hv', hmid'⟩ := hbits mid' hlen.symm
  rw [hmid, hmid', foldl_feed_bits hv hw, foldl_feed_bits hv' hw] at h
  -- the register takes the number of the bits in one piece
  have hinj := (shift_injective hpoly).iterate mid.length h
  have hval := congrArg BitVec.toNat ((BitVec.xor_right_inj _).1 hinj)
  have hpow : 2 ^ mid.length ≤ 2 ^ w := Nat.pow_le_pow_right (by omega) hw
  rw [BitVec.toNat_ofNat, BitVec.toNat_ofNat, Nat.mod_eq_of_lt (by omega),
    Nat.mod_eq_of_lt (by omega)] at hval
  rw [hmid, hmid', hval]

/-- **A burst** no longer than the register changes it: messages of one length that differ, and only
within `w` places. -/
theorem foldl_feed_ne_of_burst {bits bits' : List Bool} (hlen : bits.length = bits'.length)
    (hne : bits ≠ bits') {i : ℕ} (hout : ∀ j, j < i ∨ i + w ≤ j → bits[j]? = bits'[j]?)
    (reg : BitVec w) : bits.foldl (feed poly) reg ≠ bits'.foldl (feed poly) reg := by
  intro h
  have hbefore : bits.take i = bits'.take i := by
    refine List.ext_getElem? fun j => ?_
    by_cases hj : j < i
    · rw [List.getElem?_take_of_lt hj, List.getElem?_take_of_lt hj, hout j (.inl hj)]
    · rw [List.getElem?_take_eq_none (by omega), List.getElem?_take_eq_none (by omega)]
  have hafter : bits.drop (i + w) = bits'.drop (i + w) := by
    refine List.ext_getElem? fun j => ?_
    rw [List.getElem?_drop, List.getElem?_drop, hout _ (.inr (by omega))]
  have hsplit : ∀ l : List Bool, l.take i ++ ((l.drop i).take w ++ l.drop (i + w)) = l := by
    intro l
    rw [← List.drop_drop, List.take_append_drop, List.take_append_drop]
  rw [← hsplit bits, ← hsplit bits', hbefore, hafter, List.foldl_append, List.foldl_append,
    List.foldl_append, List.foldl_append] at h
  have hmid : (bits.drop i).take w = (bits'.drop i).take w :=
    eq_of_foldl_feed hpoly (by simp [hlen]) (by simp) (foldl_feed_injective hpoly _ h)
  rw [← hsplit bits, ← hsplit bits', hbefore, hafter, hmid] at hne
  exact hne rfl

end Burst

end Crc
