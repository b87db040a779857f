import Mathlib.Data.List.Basic

/-!
# Self-delimiting codes

A code is self-delimiting on a set of values if a code word, followed by anything, determines its
value and what follows: no code word continues to another one's (`SelfDelimiting.eq_of_isPrefix`).
Such codes compose: a field, then fields that depend on it (`SelfDelimiting.andThen`), and a list of
words whose number is known (`SelfDelimiting.list`).
-/

namespace PrefixCode

variable {α β γ : Type*} {enc : α → List β} {V : α → Prop}

/-- A code word and what follows it are determined by the two together. -/
def SelfDelimiting (enc : α → List β) (V : α → Prop) : Prop :=
  ∀ a b l l', V a → V b → enc a ++ l = enc b ++ l' → a = b ∧ l = l'

/-- Words of one length that determine their values. -/
theorem SelfDelimiting.of_length {n : ℕ} (hlen : ∀ a, V a → (enc a).length = n)
    (hinj : ∀ a b, V a → V b → enc a = enc b → a = b) : SelfDelimiting enc V := by
  intro a b l l' ha hb h
  obtain ⟨hword, hrest⟩ := List.append_inj h (by rw [hlen a ha, hlen b hb])
  exact ⟨hinj a b ha hb hword, hrest⟩

/-- The same code on fewer values. -/
theorem SelfDelimiting.mono {V' : α → Prop} (h : SelfDelimiting enc V) (hV : ∀ a, V' a → V a) :
    SelfDelimiting enc V' := fun a b l l' ha hb => h a b l l' (hV a ha) (hV b hb)

/-- A field `g` of the value, then a code for the values that agree on it. -/
theorem SelfDelimiting.andThen {g : γ → α} {encf : γ → List β} {W : γ → Prop}
    (h : SelfDelimiting enc V) (hV : ∀ c, W c → V (g c))
    (hf : ∀ a, SelfDelimiting encf fun c => W c ∧ g c = a) :
    SelfDelimiting (fun c => enc (g c) ++ encf c) W := by
  intro c d l l' hc hd heq
  rw [List.append_assoc, List.append_assoc] at heq
  obtain ⟨hg, hrest⟩ := h _ _ _ _ (hV c hc) (hV d hd) heq
  exact hf (g c) c d l l' ⟨hc, rfl⟩ ⟨hd, hg.symm⟩ hrest

/-- A known number of words. -/
theorem SelfDelimiting.list (h : SelfDelimiting enc V) (n : ℕ) :
    SelfDelimiting (fun as : List α => as.flatMap enc) fun as => as.length = n ∧ ∀ a ∈ as, V a := by
  induction n with
  | zero =>
    rintro as bs l l' ⟨ha, -⟩ ⟨hb, -⟩ heq
    obtain rfl := List.length_eq_zero_iff.1 ha
    obtain rfl := List.length_eq_zero_iff.1 hb
    exact ⟨rfl, heq⟩
  | succ n ih =>
    rintro as bs l l' ⟨ha, hVa⟩ ⟨hb, hVb⟩ heq
    obtain ⟨a, as, rfl⟩ := List.exists_cons_of_length_eq_add_one ha
    obtain ⟨b, bs, rfl⟩ := List.exists_cons_of_length_eq_add_one hb
    simp only [List.flatMap_cons, List.append_assoc] at heq
    obtain ⟨rfl, hrest⟩ := h a b _ _ (hVa a List.mem_cons_self) (hVb b List.mem_cons_self) heq
    obtain ⟨rfl, hl⟩ := ih as bs l l'
      ⟨Nat.succ.inj ha, fun x hx => hVa x (List.mem_cons_of_mem _ hx)⟩
      ⟨Nat.succ.inj hb, fun x hx => hVb x (List.mem_cons_of_mem _ hx)⟩ hrest
    exact ⟨rfl, hl⟩

/-- A word that starts another is that word. -/
theorem SelfDelimiting.eq_of_isPrefix (h : SelfDelimiting enc V) {a b : α} (ha : V a) (hb : V b)
    (hle : enc a <+: enc b) : a = b := by
  obtain ⟨l, hl⟩ := hle
  exact (h a b l [] ha hb (by rw [hl, List.append_nil])).1

end PrefixCode
