import Mathlib.Data.Nat.Basic
import Mathlib.Data.Fin.Basic
import Mathlib.Algebra.Order.Group.Nat
import Mathlib.Algebra.Order.Ring.Nat
import Mathlib.Tactic.Ring

/-!
# Little-endian integers

Fixed-width unsigned integers as bytes, least significant first, and back.
-/

namespace SteleDb

/-- The low `k` bytes of `n`, least significant first. -/
def leBytes : ℕ → ℕ → List (Fin 256)
  | 0, _ => []
  | k + 1, n => ⟨n % 256, Nat.mod_lt n (by decide)⟩ :: leBytes k (n / 256)

/-- The number that bytes spell, least significant first. -/
def leNat : List (Fin 256) → ℕ
  | [] => 0
  | b :: bs => b.val + 256 * leNat bs

@[simp] theorem length_leBytes (k n : ℕ) : (leBytes k n).length = k := by
  induction k generalizing n with
  | zero => rfl
  | succ k ih => rw [leBytes, List.length_cons, ih]

theorem leNat_leBytes_mod (k n : ℕ) : leNat (leBytes k n) = n % 256 ^ k := by
  induction k generalizing n with
  | zero => rw [leBytes, leNat, pow_zero, Nat.mod_one]
  | succ k ih =>
    rw [leBytes, leNat, ih, pow_succ, Nat.mul_comm (256 ^ k) 256, Nat.mod_mul]

/-- Bytes read back as the number they were made from. -/
theorem leNat_leBytes {k n : ℕ} (h : n < 256 ^ k) : leNat (leBytes k n) = n := by
  rw [leNat_leBytes_mod, Nat.mod_eq_of_lt h]

theorem leNat_lt (bs : List (Fin 256)) : leNat bs < 256 ^ bs.length := by
  induction bs with
  | nil => exact Nat.one_pos
  | cons b bs ih =>
    have hb : b.val < 256 := b.isLt
    have hstep : 256 * (leNat bs + 1) ≤ 256 * 256 ^ bs.length := Nat.mul_le_mul_left _ ih
    rw [leNat, List.length_cons, pow_succ, Nat.mul_comm (256 ^ bs.length)]
    omega

/-- Bytes are those of the number that they spell. -/
theorem leBytes_leNat (bs : List (Fin 256)) : leBytes bs.length (leNat bs) = bs := by
  induction bs with
  | nil => rfl
  | cons b bs ih =>
    have hb : b.val < 256 := b.isLt
    have hmod : (b.val + 256 * leNat bs) % 256 = b.val := by omega
    have hdiv : (b.val + 256 * leNat bs) / 256 = leNat bs := by omega
    simp only [leNat, List.length_cons, leBytes, hmod, hdiv, ih]

/-- Bytes that start with a magic of four bytes and a length in four bytes. -/
theorem header_fields {magic bytes : List (Fin 256)} {len : ℕ} (hmagic : magic.length = 4)
    (hlen : len < 2 ^ 32) (h : bytes.take 8 = magic ++ leBytes 4 len) :
    bytes.take 4 = magic ∧ leNat ((bytes.drop 4).take 4) = len := by
  constructor
  · rw [show bytes.take 4 = (bytes.take 8).take 4 by simp [List.take_take], h,
      List.take_left' hmagic]
  · rw [show (bytes.drop 4).take 4 = (bytes.take 8).drop 4 by rw [List.drop_take], h,
      List.drop_left' hmagic, leNat_leBytes hlen]

end SteleDb
