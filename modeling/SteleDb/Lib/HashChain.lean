import Mathlib.Data.List.Basic
import Mathlib.Data.List.Induction

/-!
# Hash chains

A chain is a list of links, each of which carries the digest of the link before it; the first one
carries a digest `z` that stands for the empty chain.  If the digests of the links at hand are
distinct and none of them is `z`, the digest of the last link determines the chain
(`Linked.eq_of_head_eq`), and so does every link the part of the chain in front of it
(`Linked.eq_of_kept`).
-/

namespace HashChain

variable {α δ : Type*} (prev hash : α → δ)

/-- The digest of the last link, `z` if there is none. -/
def head (z : δ) (l : List α) : δ := l.foldl (fun _ x => hash x) z

/-- Every link carries the digest of the one before it. -/
def Linked (z : δ) : List α → Prop
  | [] => True
  | x :: l => prev x = z ∧ Linked (hash x) l

/-- The links have distinct digests, none of which is `z`. -/
structure Faithful (z : δ) (l : List α) : Prop where
  inj : ∀ x ∈ l, ∀ y ∈ l, hash x = hash y → x = y
  ne : ∀ x ∈ l, hash x ≠ z

variable {prev hash} {z : δ} {l l' : List α}

theorem Faithful.mono (h : Faithful hash z l) (hsub : ∀ x ∈ l', x ∈ l) : Faithful hash z l' :=
  ⟨fun x hx y hy => h.inj x (hsub x hx) y (hsub y hy), fun x hx => h.ne x (hsub x hx)⟩

@[simp] theorem head_nil : head hash z [] = z := rfl

@[simp] theorem head_append_singleton (x : α) : head hash z (l ++ [x]) = hash x := by
  simp [head]

theorem linked_append : Linked prev hash z (l ++ l') ↔
    Linked prev hash z l ∧ Linked prev hash (head hash z l) l' := by
  induction l generalizing z with
  | nil => simp [Linked]
  | cons x l ih => rw [List.cons_append, Linked, Linked, ih, and_assoc]; rfl

/-- **The last digest determines the chain.** -/
theorem Linked.eq_of_head_eq (h : Linked prev hash z l) (h' : Linked prev hash z l')
    (hf : Faithful hash z (l ++ l')) (heq : head hash z l = head hash z l') : l = l' := by
  induction l using List.reverseRecOn generalizing l' with
  | nil =>
    cases l' using List.reverseRecOn with
    | nil => rfl
    | append_singleton l' y =>
      rw [head_append_singleton] at heq
      exact absurd heq.symm (hf.ne y (by simp))
  | append_singleton l x ih =>
    cases l' using List.reverseRecOn with
    | nil =>
      rw [head_append_singleton] at heq
      exact absurd heq (hf.ne x (by simp))
    | append_singleton l' y =>
      rw [head_append_singleton, head_append_singleton] at heq
      obtain rfl := hf.inj x (by simp) y (by simp) heq
      -- the last links carry the same digest, so the chains before them end in the same digest
      obtain ⟨hl, hx⟩ := linked_append.1 h
      obtain ⟨hl', hx'⟩ := linked_append.1 h'
      have hprev : head hash z l = head hash z l' := hx.1.symm.trans hx'.1
      rw [ih hl hl' (hf.mono fun w hw => ?_) hprev]
      rcases List.mem_append.1 hw with hw | hw <;> simp [hw]

/-- **A link determines the chain in front of it.** -/
theorem Linked.eq_of_kept {a b c d : List α} {x : α} (h : Linked prev hash z (c ++ x :: d))
    (h' : Linked prev hash z (a ++ x :: b)) (hf : Faithful hash z (c ++ a)) : a = c := by
  obtain ⟨hc, hx, -⟩ := linked_append.1 h
  obtain ⟨ha, hx', -⟩ := linked_append.1 h'
  exact (hc.eq_of_head_eq ha hf (hx.symm.trans hx')).symm

end HashChain
