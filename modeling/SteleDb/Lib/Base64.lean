import Mathlib
import SteleDb.Lib.Words

/-!
# Base64

The standard alphabet with padding.  The decoder takes padded and unpadded text, and refuses
everything that no encoder writes: an embedded `=`, padding of the wrong length, bits left over.

* `b64Decode_b64Encode` : what is encoded decodes to itself;
* `mem_b64Encode` : an encoded text is ASCII and has no comma.
-/

namespace SteleDb

/-- The characters of a text. -/
def ascii (s : String) : List (Fin 256) := s.toList.map fun c => Fin.ofNat 256 c.toNat

/-- The alphabet. -/
def b64Alphabet : List (Fin 256) :=
  ascii "ABCDEFGHIJKLMNOPQRSTUVWXYZabcdefghijklmnopqrstuvwxyz0123456789+/"

/-- The character of six bits. -/
def b64Char (v : ℕ) : Fin 256 := b64Alphabet[v]?.getD 0

/-- The text of bytes: three bytes are four characters. -/
def b64Encode : List (Fin 256) → List (Fin 256)
  | [] => []
  | [b₀] => [b64Char (b₀ / 4 : ℕ), b64Char (b₀ % 4 * 16 : ℕ), 61, 61]
  | [b₀, b₁] =>
    [b64Char (b₀ / 4 : ℕ), b64Char (b₀ % 4 * 16 + b₁ / 16 : ℕ), b64Char (b₁ % 16 * 4 : ℕ), 61]
  | b₀ :: b₁ :: b₂ :: bytes =>
    b64Char (b₀ / 4 : ℕ) :: b64Char (b₀ % 4 * 16 + b₁ / 16 : ℕ) ::
      b64Char (b₁ % 16 * 4 + b₂ / 64 : ℕ) :: b64Char (b₂ % 64 : ℕ) :: b64Encode bytes

/-- The six bits of a character. -/
def b64Val (c : Fin 256) : Option ℕ :=
  if 65 ≤ c ∧ c ≤ 90 then some (c.val - 65)
  else if 97 ≤ c ∧ c ≤ 122 then some (c.val - 97 + 26)
  else if 48 ≤ c ∧ c ≤ 57 then some (c.val - 48 + 52)
  else if c = 43 then some 62
  else if c = 47 then some 63
  else none

/-- The bytes of a text without padding. -/
def b64Groups : List (Fin 256) → Option (List (Fin 256))
  | [] => some []
  | [_] => none
  | [c₀, c₁] => do
    let v₀ ← b64Val c₀
    let v₁ ← b64Val c₁
    if v₁ % 16 ≠ 0 then none else some [Fin.ofNat 256 (v₀ * 4 + v₁ / 16)]
  | [c₀, c₁, c₂] => do
    let v₀ ← b64Val c₀
    let v₁ ← b64Val c₁
    let v₂ ← b64Val c₂
    if v₂ % 4 ≠ 0 then none
    else some [Fin.ofNat 256 (v₀ * 4 + v₁ / 16), Fin.ofNat 256 (v₁ * 16 + v₂ / 4)]
  | c₀ :: c₁ :: c₂ :: c₃ :: text => do
    let v₀ ← b64Val c₀
    let v₁ ← b64Val c₁
    let v₂ ← b64Val c₂
    let v₃ ← b64Val c₃
    let bytes ← b64Groups text
    some (Fin.ofNat 256 (v₀ * 4 + v₁ / 16) :: Fin.ofNat 256 (v₁ * 16 + v₂ / 4) ::
      Fin.ofNat 256 (v₂ * 64 + v₃) :: bytes)

/-- The bytes of a text, `none` if it is malformed. -/
def b64Decode (text : List (Fin 256)) : Option (List (Fin 256)) :=
  let unpadded := (text.takeWhile (· ≠ 61)).length
  if (text.drop unpadded).any (· ≠ 61) then none
  else
    let pad := text.length - unpadded
    if 0 < pad ∧ (text.length % 4 ≠ 0 ∨ pad ≠ (4 - unpadded % 4) % 4) then none
    else b64Groups (text.take unpadded)

theorem b64Val_b64Char : ∀ v < 64, b64Val (b64Char v) = some v := by
  decide +kernel

/-- The characters of the alphabet are ASCII, and neither `=` nor a comma. -/
theorem b64Char_spec : ∀ v < 64, b64Char v ≠ 61 ∧ b64Char v ≠ 44 ∧ b64Char v < 0x80 := by
  decide +kernel

/-- An encoded text is one without padding, and its padding. -/
theorem exists_b64Groups (bytes : List (Fin 256)) :
    ∃ body pad, b64Encode bytes = body ++ List.replicate pad 61 ∧
      (∀ c ∈ body, c ≠ 61 ∧ c ≠ 44 ∧ c < 0x80) ∧ (body.length + pad) % 4 = 0 ∧ pad ≤ 2 ∧
      b64Groups body = some bytes := by
  induction bytes using b64Encode.induct with
  | case1 => exact ⟨[], 0, rfl, by simp, rfl, by omega, rfl⟩
  | case2 b₀ =>
    have h₀ := b₀.isLt
    have hv₀ : (b₀ / 4 : ℕ) < 64 := by omega
    have hv₁ : (b₀ % 4 * 16 : ℕ) < 64 := by omega
    refine ⟨[b64Char (b₀ / 4 : ℕ), b64Char (b₀ % 4 * 16 : ℕ)], 2, rfl, ?_, by simp, by omega, ?_⟩
    · simp only [List.forall_mem_cons, List.not_mem_nil, false_imp_iff, implies_true, and_true]
      exact ⟨b64Char_spec _ hv₀, b64Char_spec _ hv₁⟩
    · simp only [b64Groups, b64Val_b64Char _ hv₀, b64Val_b64Char _ hv₁, bind, Option.bind]
      rw [if_neg (by omega)]
      simp only [Option.some.injEq, List.cons.injEq, and_true]
      refine Fin.ext ?_
      simp only [Fin.ofNat]
      omega
  | case3 b₀ b₁ =>
    have h₀ := b₀.isLt
    have h₁ := b₁.isLt
    have hv₀ : (b₀ / 4 : ℕ) < 64 := by omega
    have hv₁ : (b₀ % 4 * 16 + b₁ / 16 : ℕ) < 64 := by omega
    have hv₂ : (b₁ % 16 * 4 : ℕ) < 64 := by omega
    refine ⟨[b64Char (b₀ / 4 : ℕ), b64Char (b₀ % 4 * 16 + b₁ / 16 : ℕ),
      b64Char (b₁ % 16 * 4 : ℕ)], 1, rfl, ?_, by simp, by omega, ?_⟩
    · simp only [List.forall_mem_cons, List.not_mem_nil, false_imp_iff, implies_true, and_true]
      exact ⟨b64Char_spec _ hv₀, b64Char_spec _ hv₁, b64Char_spec _ hv₂⟩
    · simp only [b64Groups, b64Val_b64Char _ hv₀, b64Val_b64Char _ hv₁, b64Val_b64Char _ hv₂, bind,
        Option.bind]
      rw [if_neg (by omega)]
      simp only [Option.some.injEq, List.cons.injEq, and_true]
      refine ⟨Fin.ext ?_, Fin.ext ?_⟩ <;>
      · simp only [Fin.ofNat]
        omega
  | case4 b₀ b₁ b₂ bytes ih =>
    obtain ⟨body, pad, henc, hbody, hlen, hpad, hgroups⟩ := ih
    have h₀ := b₀.isLt
    have h₁ := b₁.isLt
    have h₂ := b₂.isLt
    have hv₀ : (b₀ / 4 : ℕ) < 64 := by omega
    have hv₁ : (b₀ % 4 * 16 + b₁ / 16 : ℕ) < 64 := by omega
    have hv₂ : (b₁ % 16 * 4 + b₂ / 64 : ℕ) < 64 := by omega
    have hv₃ : (b₂ % 64 : ℕ) < 64 := by omega
    refine ⟨b64Char (b₀ / 4 : ℕ) :: b64Char (b₀ % 4 * 16 + b₁ / 16 : ℕ) ::
      b64Char (b₁ % 16 * 4 + b₂ / 64 : ℕ) :: b64Char (b₂ % 64 : ℕ) :: body, pad, ?_, ?_, ?_, hpad,
      ?_⟩
    · rw [b64Encode, henc]
      rfl
    · simp only [List.forall_mem_cons]
      exact ⟨b64Char_spec _ hv₀, b64Char_spec _ hv₁, b64Char_spec _ hv₂, b64Char_spec _ hv₃, hbody⟩
    · simp only [List.length_cons]
      omega
    · simp only [b64Groups, b64Val_b64Char _ hv₀, b64Val_b64Char _ hv₁, b64Val_b64Char _ hv₂,
        b64Val_b64Char _ hv₃, hgroups, bind, Option.bind, Option.some.injEq, List.cons.injEq,
        and_true]
      refine ⟨Fin.ext ?_, Fin.ext ?_, Fin.ext ?_⟩ <;>
      · simp only [Fin.ofNat]
        omega

/-- **What is encoded** decodes to itself. -/
theorem b64Decode_b64Encode (bytes : List (Fin 256)) :
    b64Decode (b64Encode bytes) = some bytes := by
  obtain ⟨body, pad, henc, hbody, hlen, hpad, hgroups⟩ := exists_b64Groups bytes
  have htake : (body ++ List.replicate pad 61).takeWhile (· ≠ 61) = body := by
    rw [List.takeWhile_append_of_pos fun c hc => by simpa using (hbody c hc).1]
    cases pad <;> simp [List.replicate_succ]
  rw [henc, b64Decode]
  simp only [htake, List.drop_left, List.take_left, List.length_append, List.length_replicate]
  rw [if_neg (by simp), if_neg (by omega), hgroups]

theorem length_b64Encode (bytes : List (Fin 256)) :
    (b64Encode bytes).length = 4 * ((bytes.length + 2) / 3) := by
  induction bytes using b64Encode.induct with
  | case1 => rfl
  | case2 | case3 => simp [b64Encode]
  | case4 b₀ b₁ b₂ bytes ih =>
    simp only [b64Encode, List.length_cons, ih]
    omega

theorem mem_b64Encode {bytes : List (Fin 256)} {c : Fin 256} (h : c ∈ b64Encode bytes) :
    c ≠ 44 ∧ c < 0x80 := by
  obtain ⟨body, pad, henc, hbody, -⟩ := exists_b64Groups bytes
  rw [henc] at h
  rcases List.mem_append.1 h with h | h
  · exact (hbody c h).2
  · rw [List.eq_of_mem_replicate h]
    decide

end SteleDb
