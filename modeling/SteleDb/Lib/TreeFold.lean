import Mathlib.Data.Nat.Log

/-!
# Combining a list in a balanced tree

`treeFold f` combines the elements of a list pairwise, and the results again, until one is left.  A
property of the result is a property of all elements (`treeFold_forall`), or of one of them
(`treeFold_exists`), if it is so for two; the value under an associative operation is that of the
chain (`treeFold_foldl`); and the tree is no deeper than the logarithm of the length
(`treeFold_depth`).
-/

namespace TreeFold

variable {β : Type*} (f : β → β → β)

/-- One round: neighbours are combined, an odd element at the end is kept. -/
def pairUp : List β → List β
  | [] => []
  | [x] => [x]
  | x :: y :: rest => f x y :: pairUp rest

/-- Rounds until at most one element is left; as many rounds as there are elements are enough. -/
def rounds : ℕ → List β → List β
  | 0, l => l
  | n + 1, l => if l.length ≤ 1 then l else rounds n (pairUp f l)

/-- Combine a list, unless it is empty. -/
def treeFold (l : List β) : Option β := (rounds f l.length l).head?

variable {f}

theorem length_pairUp (l : List β) : (pairUp f l).length = (l.length + 1) / 2 := by
  induction l using pairUp.induct with
  | case1 => simp [pairUp]
  | case2 x => simp [pairUp]
  | case3 x y rest ih =>
    rw [pairUp, List.length_cons, ih, List.length_cons, List.length_cons]
    omega

theorem forall_pairUp {p : β → Prop} (h : ∀ x y, p (f x y) ↔ p x ∧ p y) (l : List β) :
    (∀ z ∈ pairUp f l, p z) ↔ ∀ z ∈ l, p z := by
  induction l using pairUp.induct with
  | case1 => exact Iff.rfl
  | case2 x => exact Iff.rfl
  | case3 x y rest ih =>
    rw [pairUp, List.forall_mem_cons, ih, h, List.forall_mem_cons, List.forall_mem_cons, and_assoc]

theorem forall_rounds {p : β → Prop} (h : ∀ x y, p (f x y) ↔ p x ∧ p y) (n : ℕ) (l : List β) :
    (∀ z ∈ rounds f n l, p z) ↔ ∀ z ∈ l, p z := by
  induction n generalizing l with
  | zero => exact Iff.rfl
  | succ n ih =>
    rw [rounds]
    by_cases hl : l.length ≤ 1
    · rw [if_pos hl]
    · rw [if_neg hl, ih, forall_pairUp h]

theorem length_rounds {n : ℕ} {l : List β} (h : l.length ≤ n) : (rounds f n l).length ≤ 1 := by
  induction n generalizing l with
  | zero => exact h.trans (Nat.zero_le 1)
  | succ n ih =>
    rw [rounds]
    by_cases hl : l.length ≤ 1
    · rwa [if_pos hl]
    · rw [if_neg hl]
      refine ih ?_
      rw [length_pairUp]
      omega

theorem rounds_ne_nil {n : ℕ} {l : List β} (h : l ≠ []) : rounds f n l ≠ [] := by
  induction n generalizing l with
  | zero => exact h
  | succ n ih =>
    rw [rounds]
    by_cases hl : l.length ≤ 1
    · rwa [if_pos hl]
    · rw [if_neg hl]
      refine ih fun hnil => ?_
      have hlen := length_pairUp (f := f) l
      rw [hnil, List.length_nil] at hlen
      omega

/-- The rounds end with one element, unless there is none. -/
theorem rounds_eq {l : List β} {t : β} (h : treeFold f l = some t) : rounds f l.length l = [t] := by
  have hlen := length_rounds (f := f) (le_refl l.length)
  rw [treeFold] at h
  match hr : rounds f l.length l with
  | [] => simp [hr] at h
  | [x] => simpa [hr] using h
  | x :: y :: rest => simp [hr] at hlen

theorem treeFold_eq_none {l : List β} : treeFold f l = none ↔ l = [] := by
  rw [treeFold, List.head?_eq_none_iff]
  constructor
  · intro h
    by_contra hl
    exact rounds_ne_nil hl h
  · rintro rfl
    rfl

/-- What holds of a pair if of both holds of the tree if of all. -/
theorem treeFold_forall {p : β → Prop} (h : ∀ x y, p (f x y) ↔ p x ∧ p y) {l : List β} {t : β}
    (ht : treeFold f l = some t) : p t ↔ ∀ z ∈ l, p z := by
  rw [← forall_rounds h l.length l, rounds_eq ht]
  simp

/-- What holds of a pair if of one of the two holds of the tree if of one. -/
theorem treeFold_exists {p : β → Prop} (h : ∀ x y, p (f x y) ↔ p x ∨ p y) {l : List β} {t : β}
    (ht : treeFold f l = some t) : p t ↔ ∃ z ∈ l, p z := by
  have hnot := treeFold_forall (p := fun z => ¬p z) (fun x y => by rw [h, not_or]) ht
  rw [← not_iff_not, hnot]
  push Not
  exact Iff.rfl

section Fold

variable {γ : Type*} {m : γ → γ → γ} (ev : β → γ)

theorem foldl_pairUp (hm : ∀ a b c, m (m a b) c = m a (m b c))
    (hev : ∀ x y, ev (f x y) = m (ev x) (ev y)) (l : List β) (a : γ) :
    ((pairUp f l).map ev).foldl m a = (l.map ev).foldl m a := by
  induction l using pairUp.induct generalizing a with
  | case1 => rfl
  | case2 x => rfl
  | case3 x y rest ih =>
    simp only [pairUp, List.map_cons, List.foldl_cons]
    rw [ih, hev, hm]

/-- The value of the tree under an associative operation is that of the chain. -/
theorem treeFold_foldl (hm : ∀ a b c, m (m a b) c = m a (m b c))
    (hev : ∀ x y, ev (f x y) = m (ev x) (ev y)) {x : β} {l : List β} {t : β}
    (ht : treeFold f (x :: l) = some t) : ev t = (l.map ev).foldl m (ev x) := by
  have hrounds : ∀ (n : ℕ) (x : β) (l : List β), ∃ y l', rounds f n (x :: l) = y :: l' ∧
      (l'.map ev).foldl m (ev y) = (l.map ev).foldl m (ev x) := by
    intro n
    induction n with
    | zero => exact fun x l => ⟨x, l, rfl, rfl⟩
    | succ n ih =>
      intro x l
      rw [rounds]
      match l with
      | [] => exact ⟨x, [], rfl, rfl⟩
      | y :: l =>
        rw [if_neg (by simp), pairUp]
        obtain ⟨z, l', hr, hfold⟩ := ih (f x y) (pairUp f l)
        refine ⟨z, l', hr, ?_⟩
        rw [hfold, foldl_pairUp ev hm hev, hev, List.map_cons, List.foldl_cons]
  obtain ⟨y, l', hr, hfold⟩ := hrounds (x :: l).length x l
  rw [rounds_eq ht] at hr
  cases hr
  exact hfold

end Fold

/-- **The depth is logarithmic**, if a pair is one deeper than the deeper of the two. -/
theorem treeFold_depth {d : β → ℕ} (h : ∀ x y, d (f x y) ≤ max (d x) (d y) + 1) {l : List β} {k : ℕ}
    (hl : ∀ z ∈ l, d z ≤ k) {t : β} (ht : treeFold f l = some t) :
    d t ≤ Nat.clog 2 l.length + k := by
  have hpair : ∀ (l : List β) k, (∀ z ∈ l, d z ≤ k) → ∀ z ∈ pairUp f l, d z ≤ k + 1 := by
    intro l
    induction l using pairUp.induct with
    | case1 => simp [pairUp]
    | case2 x =>
      intro k hl z hz
      exact (hl z hz).trans (Nat.le_succ k)
    | case3 x y rest ih =>
      intro k hl
      simp only [List.forall_mem_cons] at hl
      rw [pairUp, List.forall_mem_cons]
      have := h x y
      have := max_le hl.1 hl.2.1
      exact ⟨by omega, ih k hl.2.2⟩
  -- each round halves the list
  have hrounds : ∀ (n : ℕ) (l : List β) k, (∀ z ∈ l, d z ≤ k) →
      ∀ z ∈ rounds f n l, d z ≤ Nat.clog 2 l.length + k := by
    intro n
    induction n with
    | zero =>
      intro l k hl z hz
      exact (hl z hz).trans (Nat.le_add_left ..)
    | succ n ih =>
      intro l k hl z hz
      rw [rounds] at hz
      by_cases hlen : l.length ≤ 1
      · rw [if_pos hlen] at hz
        exact (hl z hz).trans (Nat.le_add_left ..)
      · rw [if_neg hlen] at hz
        have hround := ih (pairUp f l) (k + 1) (hpair l k hl) z hz
        rw [length_pairUp] at hround
        rw [Nat.clog_of_two_le Nat.one_lt_two (by omega),
          show (l.length + 2 - 1) / 2 = (l.length + 1) / 2 by omega]
        omega
  exact hrounds l.length l k hl t (by rw [rounds_eq ht]; exact List.mem_singleton.2 rfl)

end TreeFold
