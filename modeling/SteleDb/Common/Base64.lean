import SteleDb.Lib.Base64

/-!
# The Base64 of authentication

What `b64_decode` accepts is what `b64_encode` writes, with its padding or without it: nothing a
peer sends is repaired.

* `b64Encode_of_b64Groups` : a text without padding that decodes is an encoded text, less its
  padding;
* `b64Decode_eq_some_iff` : the two texts of each byte string;
* `b64_canonical` : the codec, both ways.
-/

namespace SteleDb

/-- A text with its trailing padding removed. -/
def b64Unpadded (text : List (Fin 256)) : List (Fin 256) := text.rdropWhile (· = 61)

/-- The padding that a text of `n` characters lacks. -/
def b64Pad (n : ℕ) : ℕ := (4 - n % 4) % 4

/-- A character has the six bits of one place of the alphabet. -/
theorem b64Char_of_b64Val {c : Fin 256} {v : ℕ} (h : b64Val c = some v) :
    v < 64 ∧ b64Char v = c ∧ c ≠ 61 := by
  have hall : ∀ c : Fin 256, ∀ v ∈ b64Val c, v < 64 ∧ b64Char v = c ∧ c ≠ 61 := by decide +kernel
  exact hall c v h

/-- The first byte of a group is its first character and the high bits of the second. -/
theorem val_first {v₀ v₁ : ℕ} (h₀ : v₀ < 64) (h₁ : v₁ < 64) :
    (Fin.ofNat 256 (v₀ * 4 + v₁ / 16)).val = v₀ * 4 + v₁ / 16 :=
  Nat.mod_eq_of_lt (by omega)

/-- The second drops the bits of its first character that the first byte took. -/
theorem val_second {v₁ v₂ : ℕ} (h₂ : v₂ < 64) :
    (Fin.ofNat 256 (v₁ * 16 + v₂ / 4)).val = v₁ % 16 * 16 + v₂ / 4 := by
  simp only [Fin.ofNat]
  omega

/-- And so does the third. -/
theorem val_third {v₂ v₃ : ℕ} (h₃ : v₃ < 64) :
    (Fin.ofNat 256 (v₂ * 64 + v₃)).val = v₂ % 4 * 64 + v₃ := by
  simp only [Fin.ofNat]
  omega

/-- **A text without padding that decodes** is the encoding of its bytes, less the padding. -/
theorem b64Encode_of_b64Groups {body bytes : List (Fin 256)} (h : b64Groups body = some bytes) :
    b64Encode bytes = body ++ List.replicate (b64Pad body.length) 61 ∧ ∀ c ∈ body, c ≠ 61 := by
  induction body using b64Groups.induct generalizing bytes with
  | case1 =>
    obtain rfl := Option.some.inj h
    exact ⟨rfl, by simp⟩
  | case2 => cases h
  | case3 c₀ c₁ =>
    simp only [b64Groups, Option.bind_eq_bind, Option.bind_eq_some_iff] at h
    obtain ⟨v₀, hv₀, v₁, hv₁, h⟩ := h
    split at h
    · cases h
    · rename_i hbits
      obtain rfl := Option.some.inj h
      obtain ⟨hlt₀, rfl, hne₀⟩ := b64Char_of_b64Val hv₀
      obtain ⟨hlt₁, rfl, hne₁⟩ := b64Char_of_b64Val hv₁
      refine ⟨?_, by simp [hne₀, hne₁]⟩
      -- the bits left over are zero: the byte keeps all that the two characters say
      have e₀ : (v₀ * 4 + v₁ / 16) / 4 = v₀ := by omega
      have e₁ : (v₀ * 4 + v₁ / 16) % 4 * 16 = v₁ := by omega
      rw [b64Encode, val_first hlt₀ hlt₁, e₀, e₁]
      rfl
  | case4 c₀ c₁ c₂ =>
    simp only [b64Groups, Option.bind_eq_bind, Option.bind_eq_some_iff] at h
    obtain ⟨v₀, hv₀, v₁, hv₁, v₂, hv₂, h⟩ := h
    split at h
    · cases h
    · rename_i hbits
      obtain rfl := Option.some.inj h
      obtain ⟨hlt₀, rfl, hne₀⟩ := b64Char_of_b64Val hv₀
      obtain ⟨hlt₁, rfl, hne₁⟩ := b64Char_of_b64Val hv₁
      obtain ⟨hlt₂, rfl, hne₂⟩ := b64Char_of_b64Val hv₂
      refine ⟨?_, by simp [hne₀, hne₁, hne₂]⟩
      have e₀ : (v₀ * 4 + v₁ / 16) / 4 = v₀ := by omega
      have e₁ : (v₀ * 4 + v₁ / 16) % 4 * 16 + (v₁ % 16 * 16 + v₂ / 4) / 16 = v₁ := by omega
      have e₂ : (v₁ % 16 * 16 + v₂ / 4) % 16 * 4 = v₂ := by omega
      rw [b64Encode, val_first hlt₀ hlt₁, val_second hlt₂, e₀, e₁, e₂]
      rfl
  | case5 c₀ c₁ c₂ c₃ text ih =>
    simp only [b64Groups, Option.bind_eq_bind, Option.bind_eq_some_iff] at h
    obtain ⟨v₀, hv₀, v₁, hv₁, v₂, hv₂, v₃, hv₃, rest, hrest, h⟩ := h
    obtain rfl := Option.some.inj h
    obtain ⟨henc, hne⟩ := ih hrest
    obtain ⟨hlt₀, rfl, hne₀⟩ := b64Char_of_b64Val hv₀
    obtain ⟨hlt₁, rfl, hne₁⟩ := b64Char_of_b64Val hv₁
    obtain ⟨hlt₂, rfl, hne₂⟩ := b64Char_of_b64Val hv₂
    obtain ⟨hlt₃, rfl, hne₃⟩ := b64Char_of_b64Val hv₃
    refine ⟨?_, by
      simp only [List.forall_mem_cons]
      exact ⟨hne₀, hne₁, hne₂, hne₃, hne⟩⟩
    have e₀ : (v₀ * 4 + v₁ / 16) / 4 = v₀ := by omega
    have e₁ : (v₀ * 4 + v₁ / 16) % 4 * 16 + (v₁ % 16 * 16 + v₂ / 4) / 16 = v₁ := by omega
    have e₂ : (v₁ % 16 * 16 + v₂ / 4) % 16 * 4 + (v₂ % 4 * 64 + v₃) / 64 = v₂ := by omega
    have e₃ : (v₂ % 4 * 64 + v₃) % 64 = v₃ := by omega
    have hpad : b64Pad (text.length + 1 + 1 + 1 + 1) = b64Pad text.length := by
      unfold b64Pad
      omega
    rw [b64Encode, val_first hlt₀ hlt₁, val_second hlt₂, val_third hlt₃, e₀, e₁, e₂, e₃, henc]
    simp only [List.length_cons, hpad, List.cons_append]

/-- Padding goes, what it follows stays. -/
theorem b64Unpadded_append_replicate {body : List (Fin 256)} (hbody : ∀ c ∈ body, c ≠ 61) (n : ℕ) :
    b64Unpadded (body ++ List.replicate n 61) = body := by
  unfold b64Unpadded
  induction n with
  | zero =>
    rw [List.replicate_zero, List.append_nil, List.rdropWhile_eq_self_iff]
    exact fun hne => by simpa using hbody _ (List.getLast_mem hne)
  | succ n ih =>
    rw [List.replicate_succ', ← List.append_assoc, List.rdropWhile_concat_pos _ _ _ (by simp), ih]

/-- A text that `b64Decode` accepts is one without padding, followed by all of its padding or by
none. -/
theorem b64Decode_cases {text bytes : List (Fin 256)} (h : b64Decode text = some bytes) :
    ∃ body, b64Groups body = some bytes ∧
      (text = body ∨ text = body ++ List.replicate (b64Pad body.length) 61) := by
  unfold b64Decode at h
  simp only at h
  set body := text.takeWhile (· ≠ 61) with hbody
  split at h
  · exact nomatch h
  · rename_i htail
    have htext : body ++ text.dropWhile (· ≠ 61) = text := List.takeWhile_append_dropWhile
    have hdrop : text.drop body.length = text.dropWhile (· ≠ 61) := by
      rw [← htext, List.drop_left, htext]
    have htake : text.take body.length = body := by
      rw [← htext, List.take_left]
    rw [htake] at h
    -- nothing follows the first `=` but `=`
    have hpad : text.dropWhile (· ≠ 61) = List.replicate (text.length - body.length) 61 := by
      refine List.eq_replicate_iff.2 ⟨by rw [← hdrop, List.length_drop], fun c hc => ?_⟩
      rw [hdrop] at htail
      by_contra hne
      exact htail (List.any_eq_true.2 ⟨c, hc, by simpa using hne⟩)
    split at h
    · cases h
    · rename_i hcanonical
      refine ⟨body, h, ?_⟩
      rw [hpad] at htext
      by_cases hzero : text.length - body.length = 0
      · rw [hzero, List.replicate_zero, List.append_nil] at htext
        exact .inl htext.symm
      · have hlen : text.length - body.length = b64Pad body.length := by
          unfold b64Pad
          omega
        rw [hlen] at htext
        exact .inr htext.symm

/-- A text without padding decodes as it is. -/
theorem b64Decode_of_b64Groups {body bytes : List (Fin 256)} (h : b64Groups body = some bytes) :
    b64Decode body = some bytes := by
  have hne := (b64Encode_of_b64Groups h).2
  have htake : body.takeWhile (· ≠ 61) = body :=
    List.takeWhile_eq_self_iff.2 fun c hc => by simpa using hne c hc
  simp only [b64Decode, htake, List.drop_length, List.any_nil, Bool.false_eq_true, if_false,
    Nat.sub_self, Nat.lt_irrefl, false_and, List.take_length, h]

/-- **The two texts** of a byte string: what `b64Encode` writes, padded or not. -/
theorem b64Decode_eq_some_iff {text bytes : List (Fin 256)} :
    b64Decode text = some bytes ↔ text = b64Encode bytes ∨
      text = b64Unpadded (b64Encode bytes) := by
  constructor
  · intro h
    obtain ⟨body, hgroups, htext⟩ := b64Decode_cases h
    obtain ⟨henc, hne⟩ := b64Encode_of_b64Groups hgroups
    rw [henc, b64Unpadded_append_replicate hne]
    exact htext.symm
  · rintro (rfl | rfl)
    · exact b64Decode_b64Encode bytes
    · obtain ⟨body, pad, henc, hbody, -, -, hgroups⟩ := exists_b64Groups bytes
      rw [henc, b64Unpadded_append_replicate fun c hc => (hbody c hc).1]
      exact b64Decode_of_b64Groups hgroups

/-- Of the two, only the padded one fills its last group. -/
theorem eq_b64Encode_of_length {text bytes : List (Fin 256)} (h : b64Decode text = some bytes)
    (hlen : text.length % 4 = 0) : text = b64Encode bytes := by
  obtain ⟨body, hgroups, rfl | rfl⟩ := b64Decode_cases h
  · obtain ⟨henc, -⟩ := b64Encode_of_b64Groups hgroups
    rw [henc, show b64Pad text.length = 0 by unfold b64Pad; omega, List.replicate_zero,
      List.append_nil]
  · exact (b64Encode_of_b64Groups hgroups).1.symm

/-- **Base64 is canonical**: every byte string has its text, padded or not, and a text that decodes
is one of these two, so that no two padded texts decode to the same bytes. -/
theorem b64_canonical :
    (∀ bytes, b64Decode (b64Encode bytes) = some bytes ∧
      b64Decode (b64Unpadded (b64Encode bytes)) = some bytes) ∧
    (∀ text bytes, b64Decode text = some bytes →
      text = b64Encode bytes ∨ text = b64Unpadded (b64Encode bytes)) ∧
    ∀ text text' bytes, text.length % 4 = 0 → text'.length % 4 = 0 →
      b64Decode text = some bytes → b64Decode text' = some bytes → text = text' := by
  refine ⟨fun bytes => ⟨?_, ?_⟩, fun text bytes h => b64Decode_eq_some_iff.1 h,
    fun text text' bytes hlen hlen' h h' => ?_⟩
  · exact b64Decode_b64Encode bytes
  · exact b64Decode_eq_some_iff.2 (.inr rfl)
  · rw [eq_b64Encode_of_length h hlen, eq_b64Encode_of_length h' hlen']

-- "f", padded and not
theorem b64_canonical_f :
    (ascii "Zg" = b64Encode [102] ∨ ascii "Zg" = b64Unpadded (b64Encode [102])) ∧
      ascii "Zg==" = b64Encode [102] :=
  ⟨b64_canonical.2.1 (ascii "Zg") [102] (by decide +kernel),
    b64_canonical.2.2 (ascii "Zg==") (b64Encode [102]) [102] (by decide +kernel)
      (by decide +kernel) (by decide +kernel) (by decide +kernel)⟩

end SteleDb
