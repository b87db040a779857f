import Mathlib
import SteleDb.Lib.Words

/-!
# Decimal numbers

The digits of a number as ASCII, padded to a width, and the number that digits spell.

* `digitsValue_padded` : a number is read back from its digits, whatever their padding;
* `padRight_trimRight` : zeros that were trimmed are put back;
* `digitsValue_fraction` : digits after a point, cut to a width, are a fraction rounded down.
-/

namespace SteleDb

/-- The digits of a number. -/
def decimal (n : ℕ) : List (Fin 256) :=
  if n = 0 then [48] else (Nat.digits 10 n).reverse.map fun d => Fin.ofNat 256 (48 + d)

theorem foldl_digits (digits : List ℕ) (h : ∀ d ∈ digits, d < 10) :
    (digits.reverse.map fun d => Fin.ofNat 256 (48 + d)).foldl
      (fun (acc : ℕ) b => 10 * acc + (b.val - 48)) 0 = Nat.ofDigits 10 digits := by
  rw [List.foldl_map, List.foldl_reverse]
  induction digits with
  | nil => rfl
  | cons d digits ih =>
    have hd := h d List.mem_cons_self
    rw [List.foldr_cons, ih fun e he => h e (List.mem_cons_of_mem _ he), Nat.ofDigits_cons]
    simp only [Fin.ofNat]
    omega

theorem mem_decimal {n : ℕ} {b : Fin 256} (h : b ∈ decimal n) : 48 ≤ b ∧ b ≤ 57 := by
  rw [decimal] at h
  split_ifs at h with hn
  · rw [List.mem_singleton.1 h]
    decide
  · obtain ⟨d, hd, rfl⟩ := List.mem_map.1 h
    have hlt := Nat.digits_lt_base (by norm_num) (List.mem_reverse.1 hd)
    rw [Fin.le_def, Fin.le_def]
    simp only [Fin.ofNat]
    omega

theorem decimal_ne_nil (n : ℕ) : decimal n ≠ [] := by
  rw [decimal]
  split_ifs with hn
  · simp
  · simp [Nat.digits_ne_nil_iff_ne_zero.2 hn]

/-- The number that digits spell. -/
def digitsValue (text : List (Fin 256)) : ℕ :=
  text.foldl (fun (acc : ℕ) b => 10 * acc + (b.val - 48)) 0

/-- The text is not empty and has digits only. -/
def allDigits (text : List (Fin 256)) : Bool := text ≠ [] ∧ ∀ b ∈ text, 48 ≤ b ∧ b ≤ 57

theorem allDigits_iff {text : List (Fin 256)} :
    allDigits text = true ↔ text ≠ [] ∧ ∀ b ∈ text, 48 ≤ b ∧ b ≤ 57 := decide_eq_true_iff

theorem allDigits_decimal (n : ℕ) : allDigits (decimal n) = true :=
  allDigits_iff.2 ⟨decimal_ne_nil n, fun _ => mem_decimal⟩

theorem digitsValue_decimal (n : ℕ) : digitsValue (decimal n) = n := by
  rw [digitsValue, decimal]
  split_ifs with hn
  · rw [hn]
    rfl
  · rw [foldl_digits _ fun d hd => Nat.digits_lt_base (by norm_num) hd, Nat.ofDigits_digits]

/-- The digits of a number, with zeros in front up to a width. -/
def padded (width n : ℕ) : List (Fin 256) :=
  List.replicate (width - (decimal n).length) 48 ++ decimal n

theorem digitsValue_padded (width n : ℕ) : digitsValue (padded width n) = n := by
  have hzeros : ∀ k, (List.replicate k (48 : Fin 256)).foldl
      (fun (acc : ℕ) b => 10 * acc + (b.val - 48)) 0 = 0 := by
    intro k
    induction k with
    | zero => rfl
    | succ k ih => exact ih
  rw [padded, digitsValue, List.foldl_append, hzeros]
  exact digitsValue_decimal n

theorem mem_padded {width n : ℕ} {b : Fin 256} (h : b ∈ padded width n) : 48 ≤ b ∧ b ≤ 57 := by
  rcases List.mem_append.1 h with hzero | hdigit
  · rw [List.eq_of_mem_replicate hzero]
    decide
  · exact mem_decimal hdigit

theorem allDigits_padded (width n : ℕ) : allDigits (padded width n) = true :=
  allDigits_iff.2 ⟨fun h => decimal_ne_nil n (List.append_eq_nil_iff.1 h).2, fun _ => mem_padded⟩

theorem length_decimal_le {width n : ℕ} (hw : 0 < width) (h : n < 10 ^ width) :
    (decimal n).length ≤ width := by
  rw [decimal]
  split_ifs with hn
  · exact hw
  · rw [List.length_map, List.length_reverse]
    exact (Nat.digits_length_le_iff (by norm_num) n).2 h

theorem length_padded {width n : ℕ} (hw : 0 < width) (h : n < 10 ^ width) :
    (padded width n).length = width := by
  have hle := length_decimal_le hw h
  rw [padded, List.length_append, List.length_replicate]
  omega

theorem le_length_padded (width n : ℕ) : width ≤ (padded width n).length := by
  rw [padded, List.length_append, List.length_replicate]
  omega

theorem foldl_digit_append (acc : ℕ) (text : List (Fin 256)) :
    text.foldl (fun (acc : ℕ) b => 10 * acc + (b.val - 48)) acc =
      acc * 10 ^ text.length + digitsValue text := by
  induction text generalizing acc with
  | nil => simp [digitsValue]
  | cons b text ih =>
    rw [digitsValue, List.foldl_cons, List.foldl_cons, ih, ih (10 * 0 + (b.val - 48)),
      List.length_cons, pow_succ]
    ring

theorem digitsValue_append (text text' : List (Fin 256)) :
    digitsValue (text ++ text') = digitsValue text * 10 ^ text'.length + digitsValue text' := by
  rw [digitsValue, List.foldl_append, foldl_digit_append]
  rfl

theorem digitsValue_replicate (k : ℕ) : digitsValue (List.replicate k 48) = 0 := by
  induction k with
  | zero => rfl
  | succ k ih => exact ih

theorem digitsValue_lt {text : List (Fin 256)} (h : ∀ b ∈ text, 48 ≤ b ∧ b ≤ 57) :
    digitsValue text < 10 ^ text.length := by
  induction text using List.reverseRecOn with
  | nil => decide
  | append_singleton text b ih =>
    have hb : b.val - 48 ≤ 9 := by
      have hrange := h b (by simp)
      omega
    have hlt := ih fun c hc => h c (List.mem_append_left _ hc)
    have hone : digitsValue [b] = b.val - 48 := by simp [digitsValue]
    rw [digitsValue_append, List.length_append, List.length_singleton, hone, pow_one, pow_succ]
    omega

/-! ### Zeros at the end -/

/-- The text without the zeros at its end. -/
def trimRight (text : List (Fin 256)) : List (Fin 256) :=
  (text.reverse.dropWhile (· = 48)).reverse

/-- The text with zeros at its end up to a width. -/
def padRight (width : ℕ) (text : List (Fin 256)) : List (Fin 256) :=
  text ++ List.replicate (width - text.length) 48

theorem trimRight_append (text : List (Fin 256)) :
    ∃ k, text = trimRight text ++ List.replicate k 48 := by
  have hsplit := List.takeWhile_append_dropWhile (p := fun b => decide (b = (48 : Fin 256)))
      (l := text.reverse)
  refine ⟨(text.reverse.takeWhile (· = 48)).length, ?_⟩
  have hzeros : text.reverse.takeWhile (· = 48) =
      List.replicate (text.reverse.takeWhile (· = 48)).length 48 := by
    refine List.eq_replicate_iff.2 ⟨rfl, fun b hb => ?_⟩
    have htrue := List.mem_takeWhile_imp hb
    exact of_decide_eq_true htrue
  rw [trimRight, ← List.reverse_replicate, ← hzeros, ← List.reverse_append, hsplit,
    List.reverse_reverse]

/-- Zeros that were trimmed are put back. -/
theorem padRight_trimRight {width : ℕ} {text : List (Fin 256)} (h : text.length = width) :
    padRight width (trimRight text) = text := by
  obtain ⟨k, hk⟩ := trimRight_append text
  have hlen : text.length = (trimRight text).length + k := by
    conv_lhs => rw [hk]
    rw [List.length_append, List.length_replicate]
  rw [padRight, ← h, hlen, Nat.add_sub_cancel_left]
  exact hk.symm

theorem mem_of_mem_trimRight {text : List (Fin 256)} {b : Fin 256} (h : b ∈ trimRight text) :
    b ∈ text := by
  obtain ⟨k, hk⟩ := trimRight_append text
  rw [hk]
  exact List.mem_append_left _ h

theorem trimRight_ne_nil {text : List (Fin 256)} {b : Fin 256} (h : b ∈ text) (hb : b ≠ 48) :
    trimRight text ≠ [] := by
  intro hnil
  obtain ⟨k, hk⟩ := trimRight_append text
  rw [hnil, List.nil_append] at hk
  rw [hk] at h
  exact hb (List.eq_of_mem_replicate h)

/-- Digits after the point, cut or filled up to a width, are the fraction rounded down. -/
theorem digitsValue_fraction {text : List (Fin 256)} (h : ∀ b ∈ text, 48 ≤ b ∧ b ≤ 57)
    (width : ℕ) : digitsValue (padRight width (text.take width)) =
      digitsValue text * 10 ^ width / 10 ^ text.length := by
  rw [padRight, digitsValue_append, digitsValue_replicate, List.length_replicate, add_zero]
  by_cases hlen : text.length ≤ width
  · obtain ⟨k, rfl⟩ := Nat.exists_eq_add_of_le hlen
    rw [List.take_of_length_le hlen, Nat.add_sub_cancel_left, pow_add, ← mul_assoc,
      mul_right_comm, Nat.mul_div_cancel _ (by positivity)]
  · have htake : (text.take width).length = width := by
      rw [List.length_take]
      omega
    have hcut : text.length = (text.drop width).length + width := by
      rw [List.length_drop]
      omega
    have hrest : digitsValue (text.drop width) < 10 ^ (text.drop width).length :=
      digitsValue_lt fun b hb => h b (List.mem_of_mem_drop hb)
    have hsplit := digitsValue_append (text.take width) (text.drop width)
    rw [List.take_append_drop] at hsplit
    rw [htake, Nat.sub_self, pow_zero, mul_one, hsplit, hcut, pow_add,
      Nat.mul_div_mul_right _ _ (by positivity), Nat.mul_comm, Nat.mul_add_div (by positivity),
      Nat.div_eq_of_lt hrest, add_zero]

end SteleDb
