import SteleDb.Lib.Utf8

/-!
# Searching, splitting and trimming texts

A text is cut where a search finds a byte, split at a byte, and trimmed of white space at both ends.
White space is that of Unicode, as its bytes in UTF-8.

* `exists_of_findIdx?`, `splitOn_pair`, `splitOn_triple` : what a search or a split found;
* `validUtf8_trim` : trimming leaves a text.
-/

namespace SteleDb

/-! ### Searching and splitting -/

section

variable {α : Type*}

theorem findIdx?_append_cons {p : α → Bool} {l l' : List α} {a : α} (h : ∀ x ∈ l, p x = false)
    (ha : p a = true) : (l ++ a :: l').findIdx? p = some l.length := by
  rw [List.findIdx?_append, List.findIdx?_eq_none_iff.2 h, List.findIdx?_cons, ha]
  simp

/-- What stands before and after the first element that a search finds. -/
theorem exists_of_findIdx? {p : α → Bool} {l : List α} {i : ℕ} (h : l.findIdx? p = some i) :
    ∃ a, l = l.take i ++ a :: l.drop (i + 1) ∧ l.drop i = a :: l.drop (i + 1) ∧ p a = true ∧
      ∀ x ∈ l.take i, p x = false := by
  obtain ⟨hi, ha, hno⟩ := List.findIdx?_eq_some_iff_getElem.1 h
  have hdrop := List.drop_eq_getElem_cons hi
  refine ⟨l[i], ?_, hdrop, ha, fun x hx => ?_⟩
  · rw [← hdrop, List.take_append_drop]
  · obtain ⟨j, hj, hjx⟩ := List.mem_iff_getElem.1 hx
    rw [List.length_take] at hj
    have hfalse := hno j (by omega)
    rw [List.getElem_take] at hjx
    rw [← hjx]
    exact Bool.eq_false_iff.2 hfalse

variable [DecidableEq α]

/-- The first part of a split, and the rest. -/
theorem splitOn_cons {a : α} {l first : List α} {rest : List (List α)} :
    l.splitOn a = first :: rest ↔ a ∉ first ∧
      ((rest = [] ∧ l = first) ∨ ∃ t, l = first ++ a :: t ∧ t.splitOn a = rest) := by
  constructor
  · intro h
    by_cases hmem : a ∈ l
    · obtain ⟨l, t, rfl, hno⟩ := List.eq_append_cons_of_mem hmem
      rw [List.splitOn_append_cons_self_of_not_mem hno, List.cons.injEq] at h
      obtain ⟨rfl, rfl⟩ := h
      exact ⟨hno, .inr ⟨t, rfl, rfl⟩⟩
    · rw [List.splitOn_eq_singleton hmem, List.cons.injEq] at h
      obtain ⟨rfl, rfl⟩ := h
      exact ⟨hmem, .inl ⟨rfl, rfl⟩⟩
  · rintro ⟨hno, ⟨rfl, rfl⟩ | ⟨t, rfl, rfl⟩⟩
    · exact List.splitOn_eq_singleton hno
    · exact List.splitOn_append_cons_self_of_not_mem hno t

theorem splitOn_ne_nil' {a : α} (l : List α) : ∃ first rest, l.splitOn a = first :: rest := by
  by_cases hmem : a ∈ l
  · obtain ⟨l, t, rfl, hno⟩ := List.eq_append_cons_of_mem hmem
    exact ⟨l, _, List.splitOn_append_cons_self_of_not_mem hno t⟩
  · exact ⟨l, [], List.splitOn_eq_singleton hmem⟩

theorem splitOn_single {a : α} {l x : List α} : l.splitOn a = [x] ↔ l = x ∧ a ∉ x := by
  rw [splitOn_cons]
  constructor
  · rintro ⟨hno, ⟨-, rfl⟩ | ⟨t, rfl, ht⟩⟩
    · exact ⟨rfl, hno⟩
    · obtain ⟨first, rest, h⟩ := splitOn_ne_nil' (a := a) t
      cases ht.symm.trans h
  · rintro ⟨rfl, hno⟩
    exact ⟨hno, .inl ⟨rfl, rfl⟩⟩

theorem splitOn_pair {a : α} {l x y : List α} :
    l.splitOn a = [x, y] ↔ l = x ++ a :: y ∧ a ∉ x ∧ a ∉ y := by
  rw [splitOn_cons]
  constructor
  · rintro ⟨hno, ⟨hnil, -⟩ | ⟨t, rfl, ht⟩⟩
    · cases hnil
    · obtain ⟨rfl, hy⟩ := splitOn_single.1 ht
      exact ⟨rfl, hno, hy⟩
  · rintro ⟨rfl, hx, hy⟩
    exact ⟨hx, .inr ⟨y, rfl, splitOn_single.2 ⟨rfl, hy⟩⟩⟩

theorem splitOn_triple {a : α} {l x y z : List α} :
    l.splitOn a = [x, y, z] ↔ l = x ++ a :: (y ++ a :: z) ∧ a ∉ x ∧ a ∉ y ∧ a ∉ z := by
  rw [splitOn_cons]
  constructor
  · rintro ⟨hno, ⟨hnil, -⟩ | ⟨t, rfl, ht⟩⟩
    · cases hnil
    · obtain ⟨rfl, hy, hz⟩ := splitOn_pair.1 ht
      exact ⟨rfl, hno, hy, hz⟩
  · rintro ⟨rfl, hx, hy, hz⟩
    exact ⟨hx, .inr ⟨_, rfl, splitOn_pair.2 ⟨rfl, hy, hz⟩⟩⟩

end

/-! ### White space -/

/-- The characters of white space. -/
def whiteSpace : List (List (Fin 256)) :=
  [[0x09], [0x0A], [0x0B], [0x0C], [0x0D], [0x20], [0xC2, 0x85], [0xC2, 0xA0], [0xE1, 0x9A, 0x80],
    [0xE2, 0x80, 0x80], [0xE2, 0x80, 0x81], [0xE2, 0x80, 0x82], [0xE2, 0x80, 0x83],
    [0xE2, 0x80, 0x84], [0xE2, 0x80, 0x85], [0xE2, 0x80, 0x86], [0xE2, 0x80, 0x87],
    [0xE2, 0x80, 0x88], [0xE2, 0x80, 0x89], [0xE2, 0x80, 0x8A], [0xE2, 0x80, 0xA8],
    [0xE2, 0x80, 0xA9], [0xE2, 0x80, 0xAF], [0xE2, 0x81, 0x9F], [0xE3, 0x80, 0x80]]

/-- Take words off the front, at most `fuel` of them. -/
def stripWords (words : List (List (Fin 256))) : ℕ → List (Fin 256) → List (Fin 256)
  | 0, text => text
  | fuel + 1, text =>
    match words.find? (·.isPrefixOf text) with
    | some w => stripWords words fuel (text.drop w.length)
    | none => text

/-- `str::trim_start`. -/
def trimStart (text : List (Fin 256)) : List (Fin 256) := stripWords whiteSpace text.length text

/-- `str::trim_end`. -/
def trimEnd (text : List (Fin 256)) : List (Fin 256) :=
  (stripWords (whiteSpace.map List.reverse) text.length text.reverse).reverse

/-- `str::trim`. -/
def trim (text : List (Fin 256)) : List (Fin 256) := trimEnd (trimStart text)

theorem stripWords_of_none {words : List (List (Fin 256))} {text : List (Fin 256)}
    (h : ∀ w ∈ words, ¬w <+: text) (fuel : ℕ) : stripWords words fuel text = text := by
  cases fuel with
  | zero => rfl
  | succ fuel =>
    have hnone : words.find? (·.isPrefixOf text) = none := by
      rw [List.find?_eq_none]
      exact fun w hw hpre => h w hw (List.isPrefixOf_iff_prefix.1 hpre)
    rw [stripWords, hnone]

/-- What is left is the end of the text, behind words. -/
theorem stripWords_spec {P : List (Fin 256) → Prop} {words : List (List (Fin 256))}
    (h : ∀ w ∈ words, ∀ text, P (w ++ text) → P text) (fuel : ℕ) {text : List (Fin 256)}
    (ht : P text) : P (stripWords words fuel text) := by
  induction fuel generalizing text with
  | zero => exact ht
  | succ fuel ih =>
    rw [stripWords]
    cases hf : words.find? (·.isPrefixOf text) with
    | none => exact ht
    | some w =>
      have htrue := List.find?_some hf
      have hpre := List.isPrefixOf_iff_prefix.1 htrue
      refine ih (h w (List.mem_of_find?_eq_some hf) _ ?_)
      rwa [← List.prefix_append_drop hpre]

theorem validUtf8_of_append {l l' : List (Fin 256)} (h : validUtf8 l) (h' : validUtf8 (l ++ l')) :
    validUtf8 l' := by
  rw [validUtf8_iff] at h h' ⊢
  rw [List.foldlM_append, h] at h'
  exact h'

/-- The next byte of an unfinished character is a continuation byte. -/
theorem Utf8State.high_le {s s' : Utf8State} {l : List (Fin 256)} (hs : s.high ≤ 0xBF)
    (h : l.foldlM Utf8State.step s = some s') : s'.high ≤ 0xBF := by
  induction l generalizing s with
  | nil =>
    cases h
    exact hs
  | cons b l ih =>
    rw [List.foldlM_cons, Option.bind_eq_bind, Option.bind_eq_some_iff] at h
    obtain ⟨t, ht, h⟩ := h
    refine ih ?_ h
    obtain ⟨missing, low, high⟩ := s
    cases missing with
    | zero =>
      simp only [Utf8State.step] at ht
      split_ifs at ht <;> cases ht <;> decide
    | succ n =>
      rw [Utf8State.step_succ] at ht
      split_ifs at ht
      cases ht
      exact le_refl (0xBF : Fin 256)

/-- A text in front of the start of a character. -/
theorem validUtf8_before {l l' : List (Fin 256)} {b : Fin 256} (hb : ¬(0x80 ≤ b ∧ b < 0xC0))
    (h : validUtf8 (l ++ b :: l')) : validUtf8 l := by
  rw [validUtf8_iff, List.foldlM_append, Option.bind_eq_bind, Option.bind_eq_some_iff] at h
  obtain ⟨s, hs, h⟩ := h
  have hreached : s.Reached := Utf8State.Reached.foldlM ⟨by decide, fun _ => rfl⟩ hs
  have hhigh : s.high ≤ 0xBF := Utf8State.high_le (by decide) hs
  rw [validUtf8_iff, hs]
  obtain ⟨missing, low, high⟩ := s
  cases missing with
  | zero => rw [hreached.2 rfl]
  | succ n =>
    rw [List.foldlM_cons, Utf8State.step_succ] at h
    by_cases hrange : low ≤ b ∧ b ≤ high
    · have hlow : 0x80 ≤ low := hreached.1
      have hle : high ≤ 0xBF := hhigh
      exact absurd ⟨hlow.trans hrange.1, by omega⟩ hb
    · rw [if_neg hrange] at h
      cases h

/-- **Trimming leaves a text.** -/
theorem validUtf8_trim {text : List (Fin 256)} (h : validUtf8 text) : validUtf8 (trim text) := by
  have hwords : ∀ w ∈ whiteSpace, validUtf8 w := by decide
  have hstart : validUtf8 (trimStart text) := by
    refine stripWords_spec (P := fun t => validUtf8 t) (fun w hw t ht => ?_) _ h
    exact validUtf8_of_append (hwords w hw) ht
  have hheads : ∀ w ∈ whiteSpace, ∃ b t, w = b :: t ∧ ¬(0x80 ≤ b ∧ b < 0xC0) := by
    intro w hw
    have hhead : ∀ w ∈ whiteSpace, w.head?.any fun b => ¬(0x80 ≤ b ∧ b < 0xC0) := by decide
    cases w with
    | nil => exact absurd (hhead [] hw) (by decide)
    | cons b t =>
      have hb := hhead _ hw
      rw [List.head?_cons, Option.any_some, decide_eq_true_iff] at hb
      exact ⟨b, t, rfl, hb⟩
  refine stripWords_spec (P := fun t => validUtf8 t.reverse) (fun w hw t ht => ?_) _
    (by rwa [List.reverse_reverse])
  obtain ⟨v, hv, rfl⟩ := List.mem_map.1 hw
  obtain ⟨b, r, rfl, hb⟩ := hheads v hv
  rw [List.reverse_append, List.reverse_reverse] at ht
  exact validUtf8_before hb ht

/-- A text that begins and ends with other characters is not trimmed. -/
theorem trim_of_ends {text : List (Fin 256)} {a b : Fin 256} (ha : 0x20 < a ∧ a < 0x80)
    (hb : 0x20 < b ∧ b < 0x80) (hhead : text.head? = some a) (hlast : text.getLast? = some b) :
    trim text = text := by
  have hheads : ∀ w ∈ whiteSpace, ∀ c, w.head? = some c → ¬(0x20 < c ∧ c < 0x80) := by
    have hall : ∀ w ∈ whiteSpace, w.head?.all fun c => ¬(0x20 < c ∧ c < 0x80) := by decide
    exact fun w hw c hc => of_decide_eq_true ((Option.all_eq_true _ _).1 (hall w hw) c hc)
  have hlasts : ∀ w ∈ whiteSpace, ∀ c, w.getLast? = some c → ¬(0x20 < c ∧ c < 0x80) := by
    have hall : ∀ w ∈ whiteSpace, w.getLast?.all fun c => ¬(0x20 < c ∧ c < 0x80) := by decide
    exact fun w hw c hc => of_decide_eq_true ((Option.all_eq_true _ _).1 (hall w hw) c hc)
  have hnonempty : ∀ w ∈ whiteSpace, w ≠ [] := by decide
  have hstart : trimStart text = text := by
    refine stripWords_of_none (fun w hw ⟨t, ht⟩ => ?_) _
    obtain ⟨c, r, rfl⟩ := List.exists_cons_of_ne_nil (hnonempty w hw)
    rw [← ht, List.cons_append, List.head?_cons, Option.some.injEq] at hhead
    exact hheads _ hw c rfl (hhead ▸ ha)
  rw [trim, hstart, trimEnd, stripWords_of_none, List.reverse_reverse]
  intro w hw ⟨t, ht⟩
  obtain ⟨v, hv, rfl⟩ := List.mem_map.1 hw
  have hc : v.getLast? = some (v.getLast (hnonempty v hv)) := List.getLast?_eq_some_getLast _
  have htext : text = t.reverse ++ v := by
    rw [← List.reverse_reverse text, ← ht, List.reverse_append, List.reverse_reverse]
  rw [htext, List.getLast?_append, hc, Option.some_or, Option.some.injEq] at hlast
  exact hlasts v hv _ hc (hlast ▸ hb)

/-! ### Case -/

/-- ASCII letters in lower case. -/
def toAsciiLowercase (text : List (Fin 256)) : List (Fin 256) :=
  text.map fun b => if 65 ≤ b ∧ b ≤ 90 then b + 32 else b

end SteleDb
