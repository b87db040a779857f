import Mathlib
import SteleDb.Lib.Words

/-!
# UTF-8

A text is a byte string that is valid UTF-8: a check runs over the bytes and knows how many bytes of
a character are missing.  A text may be cut where a character begins.

* `validUtf8_append`, `validUtf8_of_ascii` : texts from texts;
* `isCharBoundary_after`, `isCharBoundary_before` : where a text may be cut.
-/

namespace SteleDb

/-- Where a check of UTF-8 stands: how many bytes of a character are missing, and the range of the
next one. -/
structure Utf8State where
  /-- How many bytes are missing. -/
  missing : ℕ := 0
  /-- Least value of the next one. -/
  low : Fin 256 := 0x80
  /-- Greatest value of the next one. -/
  high : Fin 256 := 0xBF

/-- The state after one more byte. -/
def Utf8State.step (s : Utf8State) (b : Fin 256) : Option Utf8State :=
  match s.missing with
  | 0 =>
    if b < 0x80 then some {}
    else if 0xC2 ≤ b ∧ b ≤ 0xDF then some { missing := 1 }
    else if b = 0xE0 then some { missing := 2, low := 0xA0 }
    else if b = 0xED then some { missing := 2, high := 0x9F }
    else if 0xE1 ≤ b ∧ b ≤ 0xEF then some { missing := 2 }
    else if b = 0xF0 then some { missing := 3, low := 0x90 }
    else if 0xF1 ≤ b ∧ b ≤ 0xF3 then some { missing := 3 }
    else if b = 0xF4 then some { missing := 3, high := 0x8F }
    else none
  | n + 1 => if s.low ≤ b ∧ b ≤ s.high then some { missing := n } else none

/-- `String::from_utf8` accepts the bytes. -/
def validUtf8 (bytes : List (Fin 256)) : Bool :=
  (bytes.foldlM Utf8State.step {}).any fun s => s.missing = 0

/-- A state that a check can reach: the next byte of an unfinished character is not ASCII, and
between characters there is one state. -/
def Utf8State.Reached (s : Utf8State) : Prop := 0x80 ≤ s.low ∧ (s.missing = 0 → s = {})

theorem Utf8State.step_succ (n : ℕ) (low high b : Fin 256) :
    Utf8State.step ⟨n + 1, low, high⟩ b =
      if low ≤ b ∧ b ≤ high then some { missing := n } else none :=
  rfl

theorem Utf8State.Reached.step {s s' : Utf8State} {b : Fin 256} (h : s.step b = some s') :
    s'.Reached := by
  obtain ⟨missing, low, high⟩ := s
  cases missing with
  | zero =>
    simp only [Utf8State.step] at h
    split_ifs at h <;> cases h <;> exact ⟨by decide, by simp⟩
  | succ n =>
    rw [step_succ] at h
    split_ifs at h
    cases h
    have hlow : (0x80 : Fin 256) ≤ 0x80 := by decide
    refine ⟨hlow, fun hn => ?_⟩
    simp only at hn
    rw [hn]

theorem Utf8State.Reached.foldlM {s s' : Utf8State} {l : List (Fin 256)} (hs : s.Reached)
    (h : l.foldlM Utf8State.step s = some s') : s'.Reached := by
  induction l generalizing s with
  | nil =>
    cases h
    exact hs
  | cons b l ih =>
    rw [List.foldlM_cons, Option.bind_eq_bind, Option.bind_eq_some_iff] at h
    obtain ⟨t, ht, h⟩ := h
    exact ih (Utf8State.Reached.step ht) h

theorem validUtf8_iff {l : List (Fin 256)} :
    validUtf8 l ↔ l.foldlM Utf8State.step {} = some {} := by
  rw [validUtf8]
  constructor
  · intro h
    cases hs : l.foldlM Utf8State.step {} with
    | none => simp [hs] at h
    | some s =>
      have hmissing : s.missing = 0 := by simpa [hs] using h
      have hreached : s.Reached := Utf8State.Reached.foldlM ⟨by decide, fun _ => rfl⟩ hs
      rw [hreached.2 hmissing]
  · intro h
    rw [h]
    rfl

theorem validUtf8_of_ascii {l : List (Fin 256)} (h : ∀ b ∈ l, b < 0x80) : validUtf8 l := by
  have hfold : l.foldlM Utf8State.step {} = some {} := by
    induction l with
    | nil => rfl
    | cons b l ih =>
      have hstep : Utf8State.step {} b = some {} := if_pos (h b List.mem_cons_self)
      rw [List.foldlM_cons, hstep]
      exact ih fun c hc => h c (List.mem_cons_of_mem _ hc)
  rw [validUtf8, hfold]
  rfl

theorem validUtf8_append {l l' : List (Fin 256)} (h : validUtf8 l) (h' : validUtf8 l') :
    validUtf8 (l ++ l') := by
  rw [validUtf8_iff] at h h' ⊢
  rw [List.foldlM_append, h]
  exact h'

/-- A text goes on after an ASCII character with the start of a character. -/
theorem validUtf8_after_ascii {l l' : List (Fin 256)} {a b : Fin 256} (ha : a < 0x80)
    (h : validUtf8 (l ++ a :: b :: l')) : ¬(0x80 ≤ b ∧ b < 0xC0) := by
  rw [validUtf8_iff, List.foldlM_append, Option.bind_eq_bind, Option.bind_eq_some_iff] at h
  obtain ⟨s, hs, h⟩ := h
  have hreached : s.Reached := Utf8State.Reached.foldlM ⟨by decide, fun _ => rfl⟩ hs
  have hzero : s = {} := by
    obtain ⟨missing, low, high⟩ := s
    cases missing with
    | zero => exact hreached.2 rfl
    | succ n =>
      -- an ASCII byte does not continue a character
      have hno : ¬(low ≤ a ∧ a ≤ high) := fun hb =>
        absurd (lt_of_lt_of_le ha hreached.1) (not_lt.2 hb.1)
      rw [List.foldlM_cons, Utf8State.step_succ, if_neg hno] at h
      cases h
  subst hzero
  have hstep : Utf8State.step {} a = some {} := if_pos ha
  rw [List.foldlM_cons, hstep, Option.bind_eq_bind, Option.bind_some, List.foldlM_cons,
    Option.bind_eq_bind, Option.bind_eq_some_iff] at h
  obtain ⟨t, ht, -⟩ := h
  rintro ⟨hb, hb'⟩
  simp only [Utf8State.step] at ht
  split_ifs at ht <;> omega

/-- A text begins or ends at byte `i`. -/
def isCharBoundary (text : List (Fin 256)) (i : ℕ) : Bool :=
  i = 0 ∨ i = text.length ∨ ∃ b ∈ text[i]?, ¬(0x80 ≤ b ∧ b < 0xC0)

theorem isCharBoundary_after {l l' : List (Fin 256)} {a : Fin 256} (ha : a < 0x80)
    (h : validUtf8 (l ++ a :: l')) : isCharBoundary (l ++ a :: l') (l.length + 1) = true := by
  rw [isCharBoundary, decide_eq_true_iff]
  cases l' with
  | nil => exact .inr (.inl (by simp))
  | cons b l' =>
    refine .inr (.inr ⟨b, ?_, validUtf8_after_ascii ha h⟩)
    simp

theorem isCharBoundary_before {l l' : List (Fin 256)} {a : Fin 256} (ha : a < 0x80) :
    isCharBoundary (l ++ a :: l') l.length = true := by
  rw [isCharBoundary, decide_eq_true_iff]
  refine .inr (.inr ⟨a, by simp, fun hb => ?_⟩)
  omega

end SteleDb
