import SteleDb.Wire.Scram

/-!
# What an exchange proves

Every reader of a client's message has two lemmas: `sound`, what a text that it accepts looks like,
and `complete`, that a text of that form is accepted, and none of them panics on valid UTF-8.

* `authenticate_sound` : a user is returned only for a proof over the messages of this exchange;
* `authenticate_complete` : a client with the password is accepted, and can verify the server;
* `authenticate_calm` : no input makes the exchange panic.
-/

namespace SteleDb

namespace Wire

/-! ### Texts -/

theorem strip_eq_some {pat text rest : Bytes} :
    strip pat text = some rest ↔ text = pat ++ rest := by
  rw [strip]
  constructor
  · intro h
    split_ifs at h with hp
    cases h
    exact (List.prefix_append_drop (List.isPrefixOf_iff_prefix.1 hp))
  · rintro rfl
    rw [if_pos (List.isPrefixOf_iff_prefix.2 (List.prefix_append _ _)), List.drop_left]

/-- A position that a search found: what stands before, and what after. -/
theorem findIdx?_eq_some {text : Bytes} {a : Fin 256} {i : ℕ} :
    text.findIdx? (· = a) = some i ↔ text = text.take i ++ a :: text.drop (i + 1) ∧
      a ∉ text.take i ∧ i < text.length := by
  constructor
  · intro h
    obtain ⟨hi, ha, hno⟩ := List.findIdx?_eq_some_iff_getElem.1 h
    refine ⟨?_, fun hmem => ?_, hi⟩
    · have hdrop := List.drop_eq_getElem_cons hi
      rw [of_decide_eq_true ha] at hdrop
      rw [← hdrop, List.take_append_drop]
    · obtain ⟨j, hj, hja⟩ := List.mem_iff_getElem.1 hmem
      rw [List.length_take] at hj
      have hlt : j < i := by omega
      refine hno j hlt ?_
      rw [List.getElem_take] at hja
      exact decide_eq_true hja
  · rintro ⟨htext, hno, hi⟩
    refine List.findIdx?_eq_some_iff_getElem.2 ⟨hi, ?_, fun j hj hja => ?_⟩
    · have hget : text[i]? = some a := by
        conv_lhs => rw [htext]
        rw [List.getElem?_append_right (by rw [List.length_take]; omega), List.length_take,
          min_eq_left hi.le, Nat.sub_self]
        rfl
      rw [List.getElem?_eq_getElem hi, Option.some.injEq] at hget
      exact decide_eq_true hget
    · refine hno (List.mem_iff_getElem.2 ⟨j, by rw [List.length_take]; omega, ?_⟩)
      rw [List.getElem_take]
      exact of_decide_eq_true hja

theorem findIdx?_append {l l' : Bytes} {a : Fin 256} (h : a ∉ l) :
    (l ++ a :: l').findIdx? (· = a) = some l.length := by
  rw [findIdx?_eq_some, List.take_left, ← List.drop_drop, List.drop_left]
  exact ⟨by simp, h, by simp⟩

theorem splitOnce_eq_some {text l l' : Bytes} :
    splitOnce text = some (l, l') ↔ text = l ++ 44 :: l' ∧ 44 ∉ l := by
  rw [splitOnce]
  constructor
  · intro h
    cases hi : text.findIdx? (· = 44) with
    | none => simp [hi] at h
    | some i =>
      obtain ⟨htext, hno, -⟩ := findIdx?_eq_some.1 hi
      simp only [hi, Option.some.injEq, Prod.mk.injEq] at h
      obtain ⟨rfl, rfl⟩ := h
      exact ⟨htext, hno⟩
  · rintro ⟨rfl, hno⟩
    rw [findIdx?_append hno]
    simp only [List.take_left]
    rw [← List.drop_drop, List.drop_left]
    rfl

/-- The first attribute of a text, and the rest. -/
theorem splitOn_eq_cons {text first : Bytes} {rest : List Bytes} :
    text.splitOn 44 = first :: rest ↔ 44 ∉ first ∧
      ((rest = [] ∧ text = first) ∨ ∃ t, text = first ++ 44 :: t ∧ t.splitOn 44 = rest) := by
  constructor
  · intro h
    by_cases hmem : (44 : Fin 256) ∈ text
    · obtain ⟨l, t, rfl, hno⟩ := List.eq_append_cons_of_mem hmem
      rw [List.splitOn_append_cons_self_of_not_mem hno, List.cons.injEq] at h
      obtain ⟨rfl, rfl⟩ := h
      exact ⟨hno, .inr ⟨t, rfl, rfl⟩⟩
    · rw [List.splitOn_eq_singleton hmem, List.cons.injEq] at h
      obtain ⟨rfl, rfl⟩ := h
      exact ⟨hmem, .inl ⟨rfl, rfl⟩⟩
  · rintro ⟨hno, ⟨rfl, rfl⟩ | ⟨t, rfl, rfl⟩⟩
    · exact List.splitOn_eq_singleton hno
    · exact List.splitOn_append_cons_self_of_not_mem hno t

/-- The attributes behind the ones that are read: none, or a comma and some. -/
def IsTail (tail : Bytes) : Prop := tail = [] ∨ ∃ t, tail = 44 :: t

/-- The first two attributes of a text. -/
theorem splitOn_eq_cons_cons {text first second : Bytes} :
    (∃ rest, text.splitOn 44 = first :: second :: rest) ↔ 44 ∉ first ∧ 44 ∉ second ∧
      ∃ tail, IsTail tail ∧ text = first ++ 44 :: second ++ tail := by
  constructor
  · rintro ⟨rest, h⟩
    obtain ⟨hfirst, ⟨hnil, -⟩ | ⟨t, rfl, ht⟩⟩ := splitOn_eq_cons.1 h
    · cases hnil
    · obtain ⟨hsecond, ⟨-, rfl⟩ | ⟨t', rfl, -⟩⟩ := splitOn_eq_cons.1 ht
      · exact ⟨hfirst, hsecond, [], .inl rfl, (List.append_nil _).symm⟩
      · exact ⟨hfirst, hsecond, 44 :: t', .inr ⟨t', rfl⟩, by simp⟩
  · rintro ⟨hfirst, hsecond, tail, rfl | ⟨t, rfl⟩, rfl⟩
    · refine ⟨[], splitOn_eq_cons.2 ⟨hfirst, .inr ⟨second, by simp, ?_⟩⟩⟩
      exact List.splitOn_eq_singleton hsecond
    · refine ⟨t.splitOn 44, splitOn_eq_cons.2 ⟨hfirst, .inr ⟨second ++ 44 :: t, by simp, ?_⟩⟩⟩
      exact List.splitOn_append_cons_self_of_not_mem hsecond t

theorem rfind_eq_none {b : Fin 256} {pat text : Bytes} (h : b ∉ text) :
    rfind (b :: pat) text = none := by
  induction text with
  | nil => rfl
  | cons x text ih =>
    have hx : b ≠ x := fun heq => h (heq ▸ List.mem_cons_self)
    rw [rfind, ih fun hmem => h (List.mem_cons_of_mem _ hmem)]
    simp [List.isPrefixOf, hx]

/-- The last occurrence is the one that has no first byte of the pattern behind it. -/
theorem rfind_append {b : Fin 256} {pat l l' : Bytes} (h : b ∉ pat ++ l') :
    rfind (b :: pat) (l ++ (b :: pat) ++ l') = some l.length := by
  induction l with
  | nil =>
    rw [List.nil_append, List.cons_append, rfind, rfind_eq_none h]
    rw [← List.cons_append, if_pos (List.isPrefixOf_iff_prefix.2 (List.prefix_append _ _))]
    rfl
  | cons x l ih =>
    rw [List.cons_append, List.cons_append, rfind, ih]
    rfl

theorem rfind_eq_some {pat text : Bytes} {i : ℕ} (h : rfind pat text = some i) :
    text = text.take i ++ pat ++ text.drop (i + pat.length) := by
  induction text generalizing i with
  | nil =>
    rw [rfind] at h
    split_ifs at h with hp
    cases h
    simp [hp]
  | cons x text ih =>
    rw [rfind] at h
    cases hr : rfind pat text with
    | some j =>
      rw [hr] at h
      cases h
      have hj := ih hr
      rw [List.take_succ_cons, Nat.succ_add, List.drop_succ_cons]
      simp only [List.cons_append]
      rw [← hj]
    | none =>
      rw [hr] at h
      simp only at h
      split_ifs at h with hp
      cases h
      rw [List.take_zero, List.nil_append, Nat.zero_add]
      exact List.prefix_append_drop (List.isPrefixOf_iff_prefix.1 hp)

/-! ### The first message -/

theorem bytesTo_eq {bytes : Bytes} {i : ℕ} (h : i ≤ bytes.length) :
    bytesTo bytes i = .ok (bytes.take i) := if_pos h

theorem bytesFrom_eq {bytes : Bytes} {i : ℕ} (h : i ≤ bytes.length) :
    bytesFrom bytes i = .ok (bytes.drop i) := if_pos h

theorem sliceTo_eq {text : Bytes} {i : ℕ} (h : isCharBoundary text i = true) :
    sliceTo text i = .ok (text.take i) := if_pos h

theorem sliceFrom_eq {text : Bytes} {i : ℕ} (h : isCharBoundary text i = true) :
    sliceFrom text i = .ok (text.drop i) := if_pos h

/-- What follows the mechanism in a `SASLInitialResponse`. -/
def initialBody (rest : Bytes) : Except Stop Bytes :=
  if rest.length < 4 then .error (.refused .initialTruncated)
  else if i32OfBeBytes (rest.take 4) < 0 ∨
      i32OfBeBytes (rest.take 4) ≠ min ((rest.drop 4).length : ℤ) (2 ^ 31 - 1) then
    .error (.refused .initialLength)
  else if !validUtf8 (rest.drop 4) then .error (.refused .firstNotUtf8)
  else .ok (rest.drop 4)

theorem parseSaslInitial_eq {mechanism rest : Bytes} (h : 0 ∉ mechanism) :
    parseSaslInitial (mechanism ++ 0 :: rest) =
      if validUtf8 mechanism then (initialBody rest).map (mechanism, ·)
      else .error (.refused .mechanismNotUtf8) := by
  have hlen : mechanism.length + 1 ≤ (mechanism ++ 0 :: rest).length := by simp
  have hdrop : (mechanism ++ 0 :: rest).drop (mechanism.length + 1) = rest := by
    rw [← List.drop_drop, List.drop_left]
    rfl
  rw [parseSaslInitial, findIdx?_append h]
  simp only [bytesTo_eq (Nat.le_of_succ_le hlen), bytesFrom_eq hlen, List.take_left, hdrop, bind,
    Except.bind, initialBody]
  cases validUtf8 mechanism with
  | false => rfl
  | true =>
    simp only [Bool.not_true, Bool.false_eq_true, if_false, if_true]
    split_ifs <;> rfl

theorem parseSaslInitial_of_none {payload : Bytes} (h : 0 ∉ payload) :
    parseSaslInitial payload = .error (.refused .missingMechanism) := by
  have hnone : payload.findIdx? (· = 0) = none := by
    refine List.findIdx?_eq_none_iff.2 fun b hb => decide_eq_false ?_
    rintro rfl
    exact h hb
  rw [parseSaslInitial, hnone]

theorem initialBody_sound {rest raw : Bytes} (h : initialBody rest = .ok raw) :
    ∃ len : Bytes, len.length = 4 ∧ rest = len ++ raw ∧ validUtf8 raw := by
  rw [initialBody] at h
  split_ifs at h with hlen hdeclared hvalid
  cases h
  refine ⟨rest.take 4, ?_, (List.take_append_drop 4 rest).symm, by simpa using hvalid⟩
  rw [List.length_take]
  omega

theorem parseSaslInitial_sound {payload mechanism raw : Bytes}
    (h : parseSaslInitial payload = .ok (mechanism, raw)) :
    ∃ len : Bytes, len.length = 4 ∧ payload = mechanism ++ 0 :: (len ++ raw) ∧ validUtf8 raw := by
  by_cases hmem : (0 : Fin 256) ∈ payload
  · obtain ⟨m, rest, rfl, hno⟩ := List.eq_append_cons_of_mem hmem
    rw [parseSaslInitial_eq hno] at h
    split_ifs at h
    obtain ⟨body, hbody, heq⟩ := exists_of_map_ok h
    cases heq
    obtain ⟨len, hlen, rfl, hvalid⟩ := initialBody_sound hbody
    exact ⟨len, hlen, rfl, hvalid⟩
  · rw [parseSaslInitial_of_none hmem] at h
    cases h

theorem parseSaslInitial_calm (payload : Bytes) : parseSaslInitial payload ≠ .error .panic := by
  by_cases hmem : (0 : Fin 256) ∈ payload
  · obtain ⟨m, rest, rfl, hno⟩ := List.eq_append_cons_of_mem hmem
    rw [parseSaslInitial_eq hno, initialBody]
    split_ifs <;> intro h <;> cases h
  · rw [parseSaslInitial_of_none hmem]
    intro h
    cases h

theorem i32OfBeBytes_beBytes {n : ℕ} (h : n < 2 ^ 31) : i32OfBeBytes (beBytes 4 n) = n := by
  have hfold : (beBytes 4 n).foldl (fun acc b => 256 * acc + b.val) 0 = n := by
    rw [beBytes]
    simp only [leBytes, List.reverse_cons, List.reverse_nil, List.nil_append, List.cons_append,
      List.foldl_cons, List.foldl_nil]
    omega
  rw [i32OfBeBytes, hfold]
  exact if_pos h

theorem parseSaslInitial_complete {mechanism raw : Bytes} (hm : 0 ∉ mechanism)
    (hmu : validUtf8 mechanism) (hu : validUtf8 raw) (hlen : raw.length < 2 ^ 31) :
    parseSaslInitial (mechanism ++ 0 :: (beBytes 4 raw.length ++ raw)) = .ok (mechanism, raw) := by
  have htake : (beBytes 4 raw.length ++ raw).take 4 = beBytes 4 raw.length :=
    List.take_left' (length_beBytes 4 _)
  have hdrop : (beBytes 4 raw.length ++ raw).drop 4 = raw :=
    List.drop_left' (length_beBytes 4 _)
  rw [parseSaslInitial_eq hm, if_pos hmu, initialBody, htake, hdrop, i32OfBeBytes_beBytes hlen]
  rw [if_neg (by simp [length_beBytes]), if_neg (by omega), if_neg (by simp [hu])]
  rfl

/-! ### The gs2 header -/

/-- The text of a flag. -/
def CbindFlag.text : CbindFlag → Bytes
  | notSupported => ascii "n"
  | supportedButUnused => ascii "y"
  | required type => ascii "p=" ++ type

/-- The flag is one that a message can carry: its type has a name without a comma. -/
def CbindFlag.Named : CbindFlag → Prop
  | required type => type ≠ [] ∧ 44 ∉ type
  | _ => True

theorem afterType_eq {type rest : Bytes} (h : 44 ∉ type) :
    afterType (type ++ 44 :: rest) = if type = [] then .error (.refused .malformedFirst)
      else .ok (.required type, 44 :: rest) := by
  have hb : isCharBoundary (type ++ 44 :: rest) type.length = true :=
    isCharBoundary_before (by decide)
  rw [afterType, findIdx?_append h]
  simp only [sliceTo_eq hb, sliceFrom_eq hb, List.take_left, List.drop_left, bind, Except.bind]

theorem afterType_of_none {text : Bytes} (h : 44 ∉ text) :
    afterType text = .error (.refused .malformedFirst) := by
  have hnone : text.findIdx? (· = 44) = none := by
    refine List.findIdx?_eq_none_iff.2 fun b hb => decide_eq_false ?_
    rintro rfl
    exact h hb
  rw [afterType, hnone]

theorem afterType_sound {afterEq text : Bytes} {flag : CbindFlag}
    (h : afterType afterEq = .ok (flag, text)) :
    ∃ type, flag = .required type ∧ afterEq = type ++ text ∧ type ≠ [] ∧ 44 ∉ type := by
  by_cases hmem : (44 : Fin 256) ∈ afterEq
  · obtain ⟨type, rest, rfl, hno⟩ := List.eq_append_cons_of_mem hmem
    rw [afterType_eq hno] at h
    split_ifs at h with hnil
    cases h
    exact ⟨type, rfl, rfl, hnil, hno⟩
  · rw [afterType_of_none hmem] at h
    cases h

theorem afterLetter_sound {raw text : Bytes} {flag f : CbindFlag} {b : Fin 256}
    (hb : raw.head? = some b) (hf : f.text = [b]) (h : afterLetter f raw = .ok (flag, text)) :
    flag = f ∧ raw = f.text ++ text := by
  cases raw with
  | nil => cases hb
  | cons x raw =>
    cases hb
    rw [afterLetter] at h
    split_ifs at h
    cases h
    exact ⟨rfl, by rw [hf]; rfl⟩

theorem parseCbindFlag_sound {raw text : Bytes} {flag : CbindFlag}
    (h : parseCbindFlag raw = .ok (flag, text)) : raw = flag.text ++ text ∧ flag.Named := by
  rw [parseCbindFlag] at h
  split_ifs at h with hn hy hp
  · obtain ⟨rfl, heq⟩ := afterLetter_sound hn rfl h
    exact ⟨heq, trivial⟩
  · obtain ⟨rfl, heq⟩ := afterLetter_sound hy rfl h
    exact ⟨heq, trivial⟩
  · cases hs : strip (ascii "p=") raw with
    | none =>
      rw [hs] at h
      cases h
    | some afterEq =>
      rw [hs] at h
      rw [strip_eq_some] at hs
      obtain ⟨type, rfl, rfl, hnil, hno⟩ := afterType_sound h
      exact ⟨by rw [hs, CbindFlag.text, List.append_assoc], hnil, hno⟩

theorem parseCbindFlag_calm (raw : Bytes) : parseCbindFlag raw ≠ .error .panic := by
  have hletter : ∀ flag, afterLetter flag raw ≠ .error .panic := by
    intro flag h
    rw [afterLetter] at h
    split_ifs at h
    cases h
  rw [parseCbindFlag]
  split_ifs
  · exact hletter _
  · exact hletter _
  · cases strip (ascii "p=") raw with
    | none =>
      intro h
      cases h
    | some afterEq =>
      intro h
      rw [Option.elim_some] at h
      by_cases hmem : (44 : Fin 256) ∈ afterEq
      · obtain ⟨type, rest, rfl, hno⟩ := List.eq_append_cons_of_mem hmem
        rw [afterType_eq hno] at h
        split_ifs at h
        cases h
      · rw [afterType_of_none hmem] at h
        cases h
  · intro h
    cases h

theorem parseCbindFlag_complete {flag : CbindFlag} (h : flag.Named) (rest : Bytes) :
    parseCbindFlag (flag.text ++ 44 :: rest) = .ok (flag, 44 :: rest) := by
  have hletter : ∀ (f : CbindFlag) (b : Fin 256), afterLetter f (b :: 44 :: rest) =
      .ok (f, 44 :: rest) := by
    intro f b
    have hb : isCharBoundary ([b] ++ 44 :: rest) 1 = true := isCharBoundary_before (by decide)
    exact if_pos hb
  cases flag with
  | notSupported =>
    have htext : CbindFlag.text .notSupported ++ 44 :: rest = 110 :: 44 :: rest := rfl
    rw [htext, parseCbindFlag, if_pos List.head?_cons]
    exact hletter _ _
  | supportedButUnused =>
    have htext : CbindFlag.text .supportedButUnused ++ 44 :: rest = 121 :: 44 :: rest := rfl
    rw [htext, parseCbindFlag, if_neg (by simp), if_pos List.head?_cons]
    exact hletter _ _
  | required type =>
    have hstrip : strip (ascii "p=") (ascii "p=" ++ (type ++ 44 :: rest)) =
        some (type ++ 44 :: rest) := strip_eq_some.2 rfl
    rw [CbindFlag.text, List.append_assoc, parseCbindFlag, hstrip, Option.elim_some,
      afterType_eq h.2, if_neg h.1]
    rfl

/-! ### The attributes of a first message -/

/-- The byte is one that a nonce has: printable, and no comma. -/
def IsPrintable (b : Fin 256) : Prop := 0x21 ≤ b ∧ b ≤ 0x7E ∧ b ≠ 44

/-- The text is a first message without its header, and carries the nonce. -/
structure IsBare (bare nonce : Bytes) : Prop where
  form : ∃ name tail, 44 ∉ name ∧ IsTail tail ∧
    bare = ascii "n=" ++ name ++ ascii ",r=" ++ nonce ++ tail
  nonempty : nonce ≠ []
  printable : ∀ b ∈ nonce, IsPrintable b

theorem all_printable {nonce : Bytes} :
    ¬(nonce = [] ∨ !nonce.all (fun b => 0x21 ≤ b ∧ b ≤ 0x7E ∧ b ≠ 44)) ↔
      nonce ≠ [] ∧ ∀ b ∈ nonce, IsPrintable b := by
  simp [IsPrintable]

theorem IsPrintable.ne_comma {b : Fin 256} (h : IsPrintable b) : b ≠ 44 := h.2.2

theorem parseBare_sound {bare nonce : Bytes} (h : parseBare bare = .ok nonce) :
    IsBare bare nonce := by
  obtain ⟨username, attrs, hsplit⟩ := List.exists_cons_of_ne_nil (List.splitOn_ne_nil 44 bare)
  rw [parseBare, hsplit] at h
  simp only at h
  split_ifs at h with hm hn
  have hn : (ascii "n=").isPrefixOf username = true := by simpa using hn
  obtain ⟨name, rfl⟩ := List.isPrefixOf_iff_prefix.1 hn
  cases hr : attrs.head?.bind (strip (ascii "r=")) with
  | none => simp [hr] at h
  | some r =>
    simp only [hr] at h
    split_ifs at h with hp
    cases h
    obtain ⟨second, hsecond, hstrip⟩ := Option.bind_eq_some_iff.1 hr
    obtain ⟨rest, rfl⟩ : ∃ rest, attrs = second :: rest :=
      ⟨attrs.tail, List.eq_cons_of_mem_head? hsecond⟩
    rw [strip_eq_some] at hstrip
    subst hstrip
    obtain ⟨hname, -, tail, htail, rfl⟩ := splitOn_eq_cons_cons.1 ⟨rest, hsplit⟩
    obtain ⟨hnil, hall⟩ := all_printable.1 hp
    refine ⟨⟨name, tail, fun hmem => hname (List.mem_append_right _ hmem), htail, ?_⟩, hnil, hall⟩
    simp [ascii]

theorem parseBare_complete {bare nonce : Bytes} (h : IsBare bare nonce) :
    parseBare bare = .ok nonce := by
  obtain ⟨⟨name, tail, hname, htail, rfl⟩, hnil, hall⟩ := h
  have hsplit : ∃ rest, (ascii "n=" ++ name ++ ascii ",r=" ++ nonce ++ tail).splitOn 44 =
      (ascii "n=" ++ name) :: (ascii "r=" ++ nonce) :: rest := by
    refine splitOn_eq_cons_cons.2 ⟨?_, ?_, tail, htail, by simp [ascii]⟩
    · simpa [ascii] using hname
    · have hnonce : (44 : Fin 256) ∉ nonce := fun hmem => (hall 44 hmem).ne_comma rfl
      simpa [ascii] using hnonce
  obtain ⟨rest, hsplit⟩ := hsplit
  have hstrip : strip (ascii "r=") (ascii "r=" ++ nonce) = some nonce := strip_eq_some.2 rfl
  rw [parseBare, hsplit]
  simp only [List.head?_cons, Option.bind_some, hstrip]
  rw [if_neg (by simp [ascii, List.isPrefixOf]), if_neg (by simp [List.isPrefixOf_iff_prefix]),
    if_neg (all_printable.2 ⟨hnil, hall⟩)]

/-- The gs2 header of a client without an authorization identity. -/
def gs2HeaderOf (flag : CbindFlag) : Bytes := flag.text ++ [44, 44]

/-- The header is a slice between characters. -/
theorem sliceTo_header {header bare : Bytes} (h : validUtf8 (header ++ 44 :: bare)) :
    sliceTo (header ++ 44 :: bare) ((header ++ 44 :: bare).length - bare.length) =
      .ok (header ++ [44]) := by
  have hlen : (header ++ 44 :: bare).length - bare.length = header.length + 1 := by
    simp only [List.length_append, List.length_cons]
    omega
  have hsplit : header ++ 44 :: bare = (header ++ [44]) ++ bare := by simp
  rw [hlen, sliceTo_eq (isCharBoundary_after (by decide) h), hsplit]
  exact congrArg Except.ok (List.take_left' (by simp))

theorem parseClientFirst_of_flag {raw after : Bytes} {flag : CbindFlag}
    (h : parseCbindFlag raw = .ok (flag, after)) :
    parseClientFirst raw = ((strip [44] after).bind splitOnce).elim
      (.error (.refused .malformedFirst)) fun e => readBare raw flag e.1 e.2 := by
  rw [parseClientFirst, h]
  rfl

/-- A text whose flag is read and that goes on with two attributes' commas. -/
theorem exists_header {after : Bytes} {e : Bytes × Bytes}
    (h : (strip [44] after).bind splitOnce = some e) : after = 44 :: (e.1 ++ 44 :: e.2) := by
  obtain ⟨rest, hrest, he⟩ := Option.bind_eq_some_iff.1 h
  rw [strip_eq_some] at hrest
  rw [hrest, (splitOnce_eq_some.1 he).1]
  rfl

theorem parseClientFirst_sound {raw : Bytes} {m : ClientFirst} (hu : validUtf8 raw)
    (h : parseClientFirst raw = .ok m) :
    raw = m.gs2Header ++ m.bare ∧ m.gs2Header = gs2HeaderOf m.cbindFlag ∧ m.cbindFlag.Named ∧
      IsBare m.bare m.nonce := by
  rw [parseClientFirst] at h
  obtain ⟨⟨flag, after⟩, hflag, h⟩ := exists_of_bind_ok h
  obtain ⟨hraw, hnamed⟩ := parseCbindFlag_sound hflag
  cases he : (strip [44] after).bind splitOnce with
  | none =>
    rw [he] at h
    cases h
  | some e =>
    obtain ⟨authzid, bare⟩ := e
    have hafter := exists_header he
    rw [he, Option.elim_some, readBare] at h
    split_ifs at h with hauthzid hlen
    obtain ⟨header, hheader, h⟩ := exists_of_bind_ok h
    obtain ⟨nonce, hnonce, h⟩ := exists_of_bind_ok h
    cases h
    have hnil : authzid = [] := by simpa using hauthzid
    subst hnil hafter
    have hsplit : raw = (flag.text ++ [44]) ++ 44 :: bare := by simp [hraw]
    rw [hsplit] at hu hheader ⊢
    rw [sliceTo_header hu] at hheader
    cases hheader
    exact ⟨by simp, by simp [gs2HeaderOf], hnamed, parseBare_sound (exists_of_mapError_ok hnonce)⟩

theorem parseClientFirst_calm {raw : Bytes} (hu : validUtf8 raw) :
    parseClientFirst raw ≠ .error .panic := by
  intro h
  cases hflag : parseCbindFlag raw with
  | error stop =>
    rw [parseClientFirst, hflag] at h
    cases h
    exact parseCbindFlag_calm raw hflag
  | ok e =>
    obtain ⟨flag, after⟩ := e
    obtain ⟨hraw, -⟩ := parseCbindFlag_sound hflag
    rw [parseClientFirst_of_flag hflag] at h
    cases he : (strip [44] after).bind splitOnce with
    | none =>
      rw [he] at h
      cases h
    | some e =>
      obtain ⟨authzid, bare⟩ := e
      have hafter := exists_header he
      subst hafter
      rw [he, Option.elim_some, readBare] at h
      have hsplit : raw = (flag.text ++ 44 :: authzid) ++ 44 :: bare := by simp [hraw]
      split_ifs at h with hauthzid hlen
      · cases h
      · rw [hsplit] at hlen
        simp only [List.length_append, List.length_cons] at hlen
        omega
      · rw [hsplit] at hu h
        rw [sliceTo_header hu] at h
        cases hbare : parseBare bare with
        | error r =>
          rw [hbare] at h
          cases h
        | ok nonce =>
          rw [hbare] at h
          cases h

theorem parseClientFirst_complete {flag : CbindFlag} {bare nonce : Bytes} (hflag : flag.Named)
    (hbare : IsBare bare nonce) (hu : validUtf8 (gs2HeaderOf flag ++ bare)) :
    parseClientFirst (gs2HeaderOf flag ++ bare) = .ok ⟨gs2HeaderOf flag, flag, bare, nonce⟩ := by
  have hsplit : gs2HeaderOf flag ++ bare = (flag.text ++ [44]) ++ 44 :: bare := by
    simp [gs2HeaderOf]
  have hread : parseCbindFlag (gs2HeaderOf flag ++ bare) = .ok (flag, 44 :: 44 :: bare) := by
    rw [hsplit, List.append_assoc]
    exact parseCbindFlag_complete hflag _
  have he : (strip [44] (44 :: 44 :: bare)).bind splitOnce = some ([], bare) := by
    have hstrip : strip [44] (44 :: 44 :: bare) = some (44 :: bare) := strip_eq_some.2 rfl
    rw [hstrip, Option.bind_some, splitOnce_eq_some]
    exact ⟨rfl, by simp⟩
  rw [parseClientFirst_of_flag hread, he, Option.elim_some, readBare, if_neg (by simp),
    if_neg (by simp)]
  rw [hsplit] at hu ⊢
  rw [sliceTo_header hu, parseBare_complete hbare]
  simp [gs2HeaderOf, bind, Except.bind, Except.mapError]

/-! ### The last message -/

theorem readFinal_sound {withoutProof : Bytes} {proof : Digest} {m : ClientFinal}
    (h : readFinal withoutProof proof = .ok m) :
    m.withoutProof = withoutProof ∧ m.proof = proof ∧ ∃ tail, IsTail tail ∧
      withoutProof = ascii "c=" ++ m.channelBinding ++ ascii ",r=" ++ m.nonce ++ tail := by
  obtain ⟨first, attrs, hsplit⟩ :=
    List.exists_cons_of_ne_nil (List.splitOn_ne_nil 44 withoutProof)
  simp only [readFinal, hsplit, List.head?_cons, List.tail_cons, Option.bind_some] at h
  cases hc : strip (ascii "c=") first with
  | none => simp [hc] at h
  | some channelBinding =>
    cases hn : attrs.head?.bind (strip (ascii "r=")) with
    | none => simp [hc, hn] at h
    | some nonce =>
      simp only [hc, hn] at h
      cases h
      obtain ⟨second, hsecond, hstrip⟩ := Option.bind_eq_some_iff.1 hn
      obtain ⟨rest, rfl⟩ : ∃ rest, attrs = second :: rest :=
        ⟨attrs.tail, List.eq_cons_of_mem_head? hsecond⟩
      rw [strip_eq_some] at hc hstrip
      subst hc hstrip
      obtain ⟨-, -, tail, htail, rfl⟩ := splitOn_eq_cons_cons.1 ⟨rest, hsplit⟩
      exact ⟨rfl, rfl, tail, htail, by simp [ascii]⟩

theorem readFinal_complete {channelBinding nonce tail : Bytes} (hc : 44 ∉ channelBinding)
    (hn : 44 ∉ nonce) (ht : IsTail tail) (proof : Digest) :
    readFinal (ascii "c=" ++ channelBinding ++ ascii ",r=" ++ nonce ++ tail) proof =
      .ok ⟨channelBinding, nonce, ascii "c=" ++ channelBinding ++ ascii ",r=" ++ nonce ++ tail,
        proof⟩ := by
  have hsplit : ∃ rest, (ascii "c=" ++ channelBinding ++ ascii ",r=" ++ nonce ++ tail).splitOn 44 =
      (ascii "c=" ++ channelBinding) :: (ascii "r=" ++ nonce) :: rest := by
    refine splitOn_eq_cons_cons.2 ⟨?_, ?_, tail, ht, by simp [ascii]⟩
    · simpa [ascii] using hc
    · simpa [ascii] using hn
  obtain ⟨rest, hsplit⟩ := hsplit
  have hstripc : strip (ascii "c=") (ascii "c=" ++ channelBinding) = some channelBinding :=
    strip_eq_some.2 rfl
  have hstripr : strip (ascii "r=") (ascii "r=" ++ nonce) = some nonce := strip_eq_some.2 rfl
  simp only [readFinal, hsplit, List.head?_cons, List.tail_cons, Option.bind_some, hstripc, hstripr]

theorem readFinal_calm (withoutProof : Bytes) (proof : Digest) :
    readFinal withoutProof proof ≠ .error .panic := by
  intro h
  rw [readFinal] at h
  cases hc : (withoutProof.splitOn 44).head?.bind (strip (ascii "c=")) with
  | none => simp [hc] at h
  | some channelBinding =>
    cases hn : (withoutProof.splitOn 44).tail.head?.bind (strip (ascii "r=")) with
    | none =>
      simp only [hc, hn] at h
      cases h
    | some nonce =>
      simp only [hc, hn] at h
      cases h

/-- A last message, cut at its proof. -/
theorem parseClientFinal_eq {withoutProof text : Bytes}
    (hu : validUtf8 (withoutProof ++ ascii ",p=" ++ text))
    (hr : rfind (ascii ",p=") (withoutProof ++ ascii ",p=" ++ text) = some withoutProof.length) :
    parseClientFinal (withoutProof ++ ascii ",p=" ++ text) =
      (b64Decode text).elim (.error (.refused .malformedFinal)) fun proof =>
        if proof.length ≠ 32 then .error (.refused .malformedFinal)
        else readFinal withoutProof (Digest.ofBytes proof) := by
  have hsplit : withoutProof ++ ascii ",p=" ++ text =
      withoutProof ++ 44 :: (112 :: 61 :: text) := by
    simp [ascii]
  have hsplit' : withoutProof ++ ascii ",p=" ++ text =
      (withoutProof ++ [44, 112]) ++ 61 :: text := by
    simp [ascii]
  have hto : sliceTo (withoutProof ++ ascii ",p=" ++ text) withoutProof.length =
      .ok withoutProof := by
    rw [hsplit, sliceTo_eq (isCharBoundary_before (by decide)), List.take_left]
  have hfrom : sliceFrom (withoutProof ++ ascii ",p=" ++ text) (withoutProof.length + 3) =
      .ok text := by
    have hb : isCharBoundary ((withoutProof ++ [44, 112]) ++ 61 :: text)
        ((withoutProof ++ [44, 112]).length + 1) = true :=
      isCharBoundary_after (by decide) (hsplit' ▸ hu)
    have hlen : withoutProof.length + 3 = (withoutProof ++ [44, 112]).length + 1 := by simp
    rw [hsplit', hlen, sliceFrom_eq hb, ← List.drop_drop, List.drop_left]
    rfl
  rw [parseClientFinal, hr]
  simp only [hto, hfrom, bind, Except.bind]
  cases b64Decode text <;> rfl

theorem parseClientFinal_of_none {raw : Bytes} (h : rfind (ascii ",p=") raw = none) :
    parseClientFinal raw = .error (.refused .malformedFinal) := by
  rw [parseClientFinal, h]

/-- Where a last message is cut. -/
theorem exists_of_rfind {raw : Bytes} {idx : ℕ} (h : rfind (ascii ",p=") raw = some idx) :
    ∃ withoutProof text, raw = withoutProof ++ ascii ",p=" ++ text ∧
      idx = withoutProof.length := by
  have hraw := rfind_eq_some h
  refine ⟨raw.take idx, raw.drop (idx + 3), hraw, ?_⟩
  have hlen := congrArg List.length hraw
  simp only [List.length_append, List.length_take, List.length_drop] at hlen ⊢
  have h3 : (ascii ",p=").length = 3 := by decide
  omega

theorem parseClientFinal_sound {raw : Bytes} {m : ClientFinal} (hu : validUtf8 raw)
    (h : parseClientFinal raw = .ok m) :
    ∃ text proof, raw = m.withoutProof ++ ascii ",p=" ++ text ∧ b64Decode text = some proof ∧
      proof.length = 32 ∧ m.proof = Digest.ofBytes proof ∧ ∃ tail, IsTail tail ∧
      m.withoutProof = ascii "c=" ++ m.channelBinding ++ ascii ",r=" ++ m.nonce ++ tail := by
  cases hr : rfind (ascii ",p=") raw with
  | none =>
    rw [parseClientFinal_of_none hr] at h
    cases h
  | some idx =>
    obtain ⟨withoutProof, text, rfl, rfl⟩ := exists_of_rfind hr
    rw [parseClientFinal_eq hu hr] at h
    cases hd : b64Decode text with
    | none =>
      rw [hd] at h
      cases h
    | some proof =>
      rw [hd, Option.elim_some] at h
      split_ifs at h with hlen
      obtain ⟨hw, hp, tail, htail, heq⟩ := readFinal_sound h
      exact ⟨text, proof, by rw [hw], hd, by simpa using hlen, hp, tail, htail, by rw [hw, heq]⟩

theorem parseClientFinal_calm {raw : Bytes} (hu : validUtf8 raw) :
    parseClientFinal raw ≠ .error .panic := by
  intro h
  cases hr : rfind (ascii ",p=") raw with
  | none =>
    rw [parseClientFinal_of_none hr] at h
    cases h
  | some idx =>
    obtain ⟨withoutProof, text, rfl, rfl⟩ := exists_of_rfind hr
    rw [parseClientFinal_eq hu hr] at h
    cases hd : b64Decode text with
    | none =>
      rw [hd] at h
      cases h
    | some proof =>
      rw [hd, Option.elim_some] at h
      split_ifs at h
      · cases h
      · exact readFinal_calm _ _ h

theorem parseClientFinal_complete {channelBinding nonce tail : Bytes} (hc : 44 ∉ channelBinding)
    (hn : 44 ∉ nonce) (ht : IsTail tail) (proof : Digest)
    (hu : validUtf8 (ascii "c=" ++ channelBinding ++ ascii ",r=" ++ nonce ++ tail)) :
    parseClientFinal (ascii "c=" ++ channelBinding ++ ascii ",r=" ++ nonce ++ tail ++
        ascii ",p=" ++ b64Encode proof.bytes) =
      .ok ⟨channelBinding, nonce, ascii "c=" ++ channelBinding ++ ascii ",r=" ++ nonce ++ tail,
        proof⟩ := by
  have hascii : validUtf8 (ascii ",p=" ++ b64Encode proof.bytes) := by
    refine validUtf8_of_ascii fun b hb => ?_
    rcases List.mem_append.1 hb with hb | hb
    · exact (show ∀ b ∈ ascii ",p=", b < 0x80 by decide +kernel) b hb
    · exact (mem_b64Encode hb).2
  have hvalid := validUtf8_append hu hascii
  rw [← List.append_assoc] at hvalid
  have hr : rfind (ascii ",p=") (ascii "c=" ++ channelBinding ++ ascii ",r=" ++ nonce ++ tail ++
      ascii ",p=" ++ b64Encode proof.bytes) =
      some (ascii "c=" ++ channelBinding ++ ascii ",r=" ++ nonce ++ tail).length := by
    have hpat : ascii ",p=" = 44 :: [112, 61] := by decide
    rw [hpat]
    refine rfind_append fun hmem => ?_
    rcases List.mem_append.1 hmem with hmem | hmem
    · simp at hmem
    · exact (mem_b64Encode hmem).1 rfl
  rw [parseClientFinal_eq hvalid hr, b64Decode_b64Encode, Option.elim_some,
    if_neg (by simp), Digest.ofBytes_bytes, readFinal_complete hc hn ht]

/-! ### Parts of the exchange -/

section

variable {α β : Type} {x : Exchange α} {f : α → Exchange β} {ch ch' : Channel}

theorem runOn_bind_ok {a : α} (h : x.runOn ch = (.ok a, ch')) :
    (x >>= f).runOn ch = (f a).runOn ch' := by
  change (ExceptT.bind x f).run.run ch = _
  simp only [ExceptT.bind, ExceptT.run_mk, StateT.run_bind]
  rw [show StateT.run x ch = (.ok a, ch') from h]
  rfl

theorem runOn_bind_error {e : AuthError} (h : x.runOn ch = (.error e, ch')) :
    (x >>= f).runOn ch = (.error e, ch') := by
  change (ExceptT.bind x f).run.run ch = _
  simp only [ExceptT.bind, ExceptT.run_mk, StateT.run_bind]
  rw [show StateT.run x ch = (.error e, ch') from h]
  rfl

theorem exists_of_runOn_bind_ok {b : β} {ch'' : Channel} (h : (x >>= f).runOn ch = (.ok b, ch'')) :
    ∃ a ch', x.runOn ch = (.ok a, ch') ∧ (f a).runOn ch' = (.ok b, ch'') := by
  cases hx : x.runOn ch with
  | mk r ch' =>
    cases r with
    | error e =>
      rw [runOn_bind_error hx] at h
      cases h
    | ok a =>
      rw [runOn_bind_ok hx] at h
      exact ⟨a, ch', rfl, h⟩

/-- No connection makes it panic. -/
def Calm (x : Exchange α) : Prop := ∀ ch, (x.runOn ch).1 ≠ .error .panic

theorem Calm.bind (hx : Calm x)
    (hf : ∀ a ch ch', x.runOn ch = (.ok a, ch') → Calm (f a)) : Calm (x >>= f) := by
  intro ch h
  cases hrun : x.runOn ch with
  | mk r ch' =>
    cases r with
    | error e =>
      rw [runOn_bind_error hrun] at h
      refine hx ch ?_
      rw [hrun]
      exact congrArg Except.error (Except.error.inj h)
    | ok a =>
      rw [runOn_bind_ok hrun] at h
      exact hf a ch ch' hrun ch' h

theorem calm_pure (a : α) : Calm (pure a : Exchange α) := fun _ h => by cases h

theorem calm_fail (r : Refusal) : Calm (fail r : Exchange α) := fun _ h => by cases h

theorem calm_throw {e : AuthError} (h : e ≠ .panic) : Calm (throw e : Exchange α) :=
  fun _ he => h (Except.error.inj he)

theorem runOn_orFail_ok {a : α} {r : Except Stop α} (h : (orFail r).runOn ch = (.ok a, ch')) :
    r = .ok a ∧ ch' = ch := by
  cases r with
  | ok b =>
    cases h
    exact ⟨rfl, rfl⟩
  | error e => cases e <;> cases h

theorem calm_orFail {r : Except Stop α} (h : r ≠ .error .panic) : Calm (orFail r) := by
  cases r with
  | ok b => exact calm_pure b
  | error e =>
    cases e with
    | panic => exact absurd rfl h
    | refused r => exact calm_fail r

theorem runOn_writeAuthRequest {code : ℕ} {data : Bytes} (h : 8 + data.length < 2 ^ 31) :
    (writeAuthRequest code data).runOn ch =
      (.ok (), { ch with sent := ch.sent ++ [.sasl code data] }) := by
  rw [writeAuthRequest, if_pos h]
  rfl

theorem runOn_writeAuthRequest_ok {code : ℕ} {data : Bytes}
    (h : (writeAuthRequest code data).runOn ch = (.ok (), ch')) :
    ch' = { ch with sent := ch.sent ++ [.sasl code data] } := by
  rw [writeAuthRequest] at h
  split_ifs at h
  · cases h
    rfl
  · cases h

theorem calm_writeAuthRequest (code : ℕ) (data : Bytes) : Calm (writeAuthRequest code data) := by
  rw [writeAuthRequest]
  split_ifs
  · intro ch h
    cases h
  · exact calm_throw (by decide)

end

/-! ### Reading a message -/

/-- A message on the wire. -/
def frame (kind : Fin 256) (payload : Bytes) : Bytes :=
  kind :: beBytes 4 (payload.length + 4) ++ payload

/-- What reading a message does to a connection. -/
def readOn (ch : Channel) : Except AuthError (Option (Fin 256 × Bytes)) × Channel :=
  let length := i32OfBeBytes ((ch.input.drop 1).take 4)
  let payloadLen := (length - 4).toNat
  if ch.input.length < 5 then (.ok none, ch)
  else if length < 4 then (.error (.protocol "message length < 4"), ch)
  else if maxMessagePayloadSize < length - 4 then
    (.error (.protocol "message payload exceeds limit"), ch)
  else if (ch.input.drop 5).length < payloadLen then (.error .io, ch)
  else (.ok (ch.input.head?.map fun kind => (kind, (ch.input.drop 5).take payloadLen)),
    { ch with input := (ch.input.drop 5).drop payloadLen })

theorem runOn_readTypedMessage (ch : Channel) : readTypedMessage.runOn ch = readOn ch := by
  have hget : (get : Exchange Channel).runOn ch = (.ok ch, ch) := rfl
  rw [readTypedMessage, runOn_bind_ok hget, readOn]
  dsimp only
  split_ifs <;> rfl

theorem runOn_readTypedMessage_sound {ch ch' : Channel} {m : Fin 256 × Bytes}
    (h : readTypedMessage.runOn ch = (.ok (some m), ch')) :
    ch'.sent = ch.sent ∧ ∃ len : Bytes, len.length = 4 ∧
      ch.input = m.1 :: (len ++ m.2) ++ ch'.input := by
  rw [runOn_readTypedMessage, readOn] at h
  split_ifs at h with hlen hneg hmax hshort
  · cases h
  · cases h
  · cases h
  · cases h
  · obtain ⟨hmsg, rfl⟩ := Prod.mk.inj h
    obtain ⟨kind, hkind, rfl⟩ := Option.map_eq_some_iff.1 (Except.ok.inj hmsg)
    refine ⟨rfl, (ch.input.drop 1).take 4, ?_, ?_⟩
    · rw [List.length_take, List.length_drop]
      omega
    · simp only
      have hcons : ch.input = kind :: ch.input.drop 1 := by
        rw [List.drop_one]
        exact List.eq_cons_of_mem_head? hkind
      have hdrop : ch.input.drop 5 = (ch.input.drop 1).drop 4 := by rw [List.drop_drop]
      rw [List.cons_append, List.append_assoc, List.take_append_drop, hdrop, List.take_append_drop]
      exact hcons

theorem runOn_readTypedMessage_frame {kind : Fin 256} {payload rest : Bytes}
    {sent : List ServerMessage} (h : payload.length ≤ maxMessagePayloadSize) :
    readTypedMessage.runOn ⟨frame kind payload ++ rest, sent⟩ =
      (.ok (some (kind, payload)), ⟨rest, sent⟩) := by
  have hmax : payload.length ≤ 16777216 := h
  have hlen : i32OfBeBytes (((frame kind payload ++ rest).drop 1).take 4) =
      (payload.length + 4 : ℕ) := by
    have htake : ((frame kind payload ++ rest).drop 1).take 4 = beBytes 4 (payload.length + 4) := by
      simp only [frame, List.cons_append, List.drop_succ_cons, List.drop_zero, List.append_assoc]
      exact List.take_left' (length_beBytes 4 _)
    rw [htake, i32OfBeBytes_beBytes (by omega)]
  have hdrop : (frame kind payload ++ rest).drop 5 = payload ++ rest := by
    simp only [frame, List.cons_append, List.drop_succ_cons, List.append_assoc]
    exact List.drop_left' (length_beBytes 4 _)
  have hlong : ¬(frame kind payload ++ rest).length < 5 := by
    simp only [frame, List.length_append, List.length_cons, length_beBytes]
    omega
  have hpayload : (((payload.length + 4 : ℕ) : ℤ) - 4).toNat = payload.length := by omega
  rw [runOn_readTypedMessage, readOn]
  simp only [hlen, hdrop, hpayload]
  rw [if_neg hlong, if_neg (by omega), if_neg (by simp only [maxMessagePayloadSize]; omega),
    if_neg (by simp), List.take_left, List.drop_left]
  rfl

/-- A payload over the limit is not read. -/
theorem runOn_readTypedMessage_long {kind : Fin 256} {payload : Bytes} {sent : List ServerMessage}
    (hmax : maxMessagePayloadSize < payload.length) (hlt : payload.length + 4 < 2 ^ 31) :
    readTypedMessage.runOn ⟨frame kind payload, sent⟩ =
      (.error (.protocol "message payload exceeds limit"), ⟨frame kind payload, sent⟩) := by
  have hlen : i32OfBeBytes (((frame kind payload).drop 1).take 4) = (payload.length + 4 : ℕ) := by
    have htake : ((frame kind payload).drop 1).take 4 = beBytes 4 (payload.length + 4) := by
      simp only [frame, List.cons_append, List.drop_succ_cons, List.drop_zero]
      exact List.take_left' (length_beBytes 4 _)
    rw [htake, i32OfBeBytes_beBytes hlt]
  have hlong : ¬(frame kind payload).length < 5 := by
    simp only [frame, List.length_append, List.length_cons, length_beBytes]
    omega
  rw [runOn_readTypedMessage, readOn]
  simp only [hlen]
  rw [if_neg hlong, if_neg (by omega), if_pos (by omega)]

theorem calm_readTypedMessage : Calm readTypedMessage := by
  intro ch h
  rw [runOn_readTypedMessage, readOn] at h
  split_ifs at h <;> cases h

theorem runOn_readSaslMessage_sound {ch ch' : Channel} {payload : Bytes}
    (h : readSaslMessage.runOn ch = (.ok payload, ch')) :
    ch'.sent = ch.sent ∧ ∃ len : Bytes, len.length = 4 ∧
      ch.input = 112 :: (len ++ payload) ++ ch'.input := by
  rw [readSaslMessage] at h
  obtain ⟨msg, ch₁, hread, h⟩ := exists_of_runOn_bind_ok h
  cases msg with
  | none => cases h
  | some m =>
    rw [Option.elim_some] at h
    split_ifs at h with hkind
    · cases h
    · cases h
      obtain ⟨hsent, len, hlen, hinput⟩ := runOn_readTypedMessage_sound hread
      refine ⟨hsent, len, hlen, ?_⟩
      rw [hinput, not_not.1 hkind]

theorem runOn_readSaslMessage_frame {payload rest : Bytes} {sent : List ServerMessage}
    (h : payload.length ≤ maxMessagePayloadSize) :
    readSaslMessage.runOn ⟨frame 112 payload ++ rest, sent⟩ = (.ok payload, ⟨rest, sent⟩) := by
  rw [readSaslMessage, runOn_bind_ok (runOn_readTypedMessage_frame h)]
  rfl

theorem calm_readSaslMessage : Calm readSaslMessage := by
  refine calm_readTypedMessage.bind fun msg _ _ _ => ?_
  cases msg with
  | none => exact calm_throw (by decide)
  | some m =>
    rw [Option.elim_some]
    split_ifs
    · exact calm_fail _
    · exact calm_pure _

/-! ### Proofs -/

theorem or_eq_zero {a b : Fin 256} : a ||| b = 0 ↔ a = 0 ∧ b = 0 := by
  have hval : (a ||| b).val = a.val ||| b.val :=
    Nat.mod_eq_of_lt (Nat.or_lt_two_pow (n := 8) a.isLt b.isLt)
  rw [Fin.ext_iff, Fin.ext_iff, Fin.ext_iff, hval]
  exact Nat.or_eq_zero_iff

theorem xor_val (a b : Fin 256) : (a ^^^ b).val = a.val ^^^ b.val :=
  Nat.mod_eq_of_lt (Nat.xor_lt_two_pow (n := 8) a.isLt b.isLt)

theorem xor_eq_zero {a b : Fin 256} : a ^^^ b = 0 ↔ a = b := by
  rw [Fin.ext_iff, Fin.ext_iff, xor_val]
  exact Nat.xor_eq_zero_iff

theorem xor_xor_cancel (a b : Fin 256) : a ^^^ b ^^^ b = a := by
  rw [Fin.ext_iff, xor_val, xor_val, Nat.xor_assoc, Nat.xor_self, Nat.xor_zero]

theorem foldl_or_eq_zero {l : List (Fin 256)} {acc : Fin 256} :
    l.foldl (fun acc x => acc ||| x) acc = 0 ↔ acc = 0 ∧ ∀ x ∈ l, x = 0 := by
  induction l generalizing acc with
  | nil => simp
  | cons x l ih => rw [List.foldl_cons, ih, or_eq_zero, List.forall_mem_cons, and_assoc]

theorem ctEq_iff {a b : Bytes} : ctEq a b = true ↔ a = b := by
  rw [ctEq]
  constructor
  · intro h
    split_ifs at h with hlen
    have hall := (foldl_or_eq_zero.1 (of_decide_eq_true h)).2
    refine List.ext_getElem (by simpa using hlen) fun i hi hi' => ?_
    refine xor_eq_zero.1 (hall _ (List.mem_iff_getElem.2 ⟨i, ?_, ?_⟩))
    · rw [List.length_zipWith]
      omega
    · rw [List.getElem_zipWith]
  · rintro rfl
    rw [if_neg (by simp)]
    refine decide_eq_true (foldl_or_eq_zero.2 ⟨rfl, fun x hx => ?_⟩)
    obtain ⟨i, hi, rfl⟩ := List.mem_iff_getElem.1 hx
    rw [List.getElem_zipWith, xor_eq_zero]

theorem Digest.bytes_injective {a b : Digest} (h : a.bytes = b.bytes) : a = b := by
  rw [← Digest.ofBytes_bytes a, h, Digest.ofBytes_bytes]

/-- The check of a proof, as an equation. -/
theorem verifyClientProof_iff {c : Crypto} {v : ScramVerifier} {message : Bytes} {proof : Digest} :
    c.verifyClientProof v message proof = true ↔
      c.sha256 (xorDigest proof (c.hmacSha256 (Digest.bytes v.storedKey) message)).bytes =
        v.storedKey := by
  rw [Crypto.verifyClientProof, ctEq_iff]
  exact ⟨Digest.bytes_injective, congrArg Digest.bytes⟩

/-- The proof of a client with the password. -/
theorem verifyClientProof_derive (c : Crypto) (password salt : Bytes) (iterations : Fin (2 ^ 32))
    (message : Bytes) :
    c.verifyClientProof (c.derive password salt iterations) message
      (c.clientProof password salt iterations message) = true := by
  rw [verifyClientProof_iff]
  refine congrArg (fun key : Digest => c.sha256 key.bytes) (funext fun i => ?_)
  exact xor_xor_cancel _ _

/-! ### What an exchange proves -/

/-- The parts of the messages of an exchange. -/
structure Transcript where
  /-- The mechanism that the client chose. -/
  mechanism : Bytes
  /-- Its flag. -/
  flag : CbindFlag
  /-- Its first message without the header. -/
  bare : Bytes
  /-- Its nonce. -/
  clientNonce : Bytes
  /-- The value of `c=`. -/
  channelBinding : Bytes
  /-- Its last message without the proof. -/
  withoutProof : Bytes
  /-- The text of its proof. -/
  proofText : Bytes
  /-- Its proof. -/
  proof : Digest
  /-- The verifier of the user. -/
  verifier : ScramVerifier
  /-- The random bytes of the server. -/
  rawNonce : Bytes

namespace Transcript

variable (t : Transcript)

/-- The nonce of the exchange. -/
def serverNonce : Bytes := t.clientNonce ++ b64Encode t.rawNonce

/-- The server's first message. -/
def serverFirst : Bytes :=
  ascii "r=" ++ t.serverNonce ++ ascii ",s=" ++ b64Encode t.verifier.salt ++ ascii ",i=" ++
    decimal t.verifier.iterations

/-- The text that both sides sign. -/
def signed : Bytes := t.bare ++ [44] ++ t.serverFirst ++ [44] ++ t.withoutProof

/-- The client's two messages on the wire, in front of what it sent after them; the lengths are not
looked at. -/
def IsSent (input rest : Bytes) : Prop :=
  ∃ l₁ l₂ l₃ : Bytes, l₁.length = 4 ∧ l₂.length = 4 ∧ l₃.length = 4 ∧
    input = 112 :: (l₁ ++ (t.mechanism ++ 0 :: (l₂ ++ (gs2HeaderOf t.flag ++ t.bare)))) ++
      (112 :: (l₃ ++ (t.withoutProof ++ ascii ",p=" ++ t.proofText)) ++ rest)

end Transcript

/-- The messages prove that the client has the key of the user. -/
structure Proves (c : Crypto) (server : Server) (startup : List (Bytes × Bytes))
    (channelBinding : Option Bytes) (user : Bytes) (t : Transcript) : Prop where
  named : ∃ k, startup.find? (fun p => p.1 = ascii "user") = some (k, user)
  known : server.authVerifier user = some t.verifier
  rawNonce : server.rawNonce = some t.rawNonce
  bare : IsBare t.bare t.clientNonce
  /-- The client's last message repeats the nonce of this exchange. -/
  final : ∃ tail, IsTail tail ∧
    t.withoutProof = ascii "c=" ++ t.channelBinding ++ ascii ",r=" ++ t.serverNonce ++ tail
  proof : b64Decode t.proofText = some t.proof.bytes
  /-- The proof signs the messages of this exchange with the stored key. -/
  signed : c.sha256 (xorDigest t.proof (c.hmacSha256 (Digest.bytes t.verifier.storedKey)
    t.signed)).bytes = t.verifier.storedKey
  downgrade : t.flag = .supportedButUnused → channelBinding = none
  /-- A client that requires channel binding commits to that of this server. -/
  bound : ∀ type, t.flag = .required type → type = cbindType ∧ t.mechanism = mechanismPlus ∧
    ∃ data, channelBinding = some data ∧
      t.channelBinding = b64Encode (gs2HeaderOf t.flag ++ data)
  unbound : (∀ type, t.flag ≠ .required type) → t.mechanism = mechanismScram ∧
    t.channelBinding = b64Encode (gs2HeaderOf t.flag)

theorem reconcile_sound {flag : CbindFlag} {chosePlus : Bool} {channelBinding data : Option Bytes}
    (h : reconcileChannelBinding flag chosePlus channelBinding = .ok data) :
    (flag = .supportedButUnused → channelBinding = none) ∧
      (∀ type, flag = .required type → type = cbindType ∧ chosePlus = true ∧
        data = channelBinding) ∧
      ((∀ type, flag ≠ .required type) → chosePlus = false ∧ data = none) := by
  cases flag with
  | notSupported =>
    cases chosePlus <;> cases h
    simp
  | supportedButUnused =>
    cases chosePlus <;> cases channelBinding <;> cases h
    simp
  | required type =>
    cases chosePlus with
    | false => cases h
    | true =>
      simp only [reconcileChannelBinding, ne_eq, not_true_eq_false, if_false] at h
      split_ifs at h with htype
      cases h
      simp [htype]

theorem receiveFirst_sound {channelBinding : Option Bytes} {ch ch' : Channel}
    {r : ClientFirst × Option Bytes}
    (h : (receiveFirst channelBinding).runOn ch = (.ok r, ch')) :
    ch'.sent = ch.sent ∧ ∃ mechanism, ∃ l₁ l₂ : Bytes, l₁.length = 4 ∧ l₂.length = 4 ∧
      ch.input = 112 :: (l₁ ++ (mechanism ++ 0 :: (l₂ ++ (r.1.gs2Header ++ r.1.bare)))) ++
        ch'.input ∧
      r.1.gs2Header = gs2HeaderOf r.1.cbindFlag ∧ IsBare r.1.bare r.1.nonce ∧
      (mechanism = mechanismScram ∨ mechanism = mechanismPlus ∧ channelBinding.isSome) ∧
      reconcileChannelBinding r.1.cbindFlag
        (mechanism = mechanismPlus) channelBinding = .ok r.2 := by
  rw [receiveFirst] at h
  obtain ⟨payload, ch₁, hread, h₁⟩ := exists_of_runOn_bind_ok h
  obtain ⟨initial, ch₂, hinitial, h₂⟩ := exists_of_runOn_bind_ok h₁
  obtain ⟨hparse, hch₂⟩ := runOn_orFail_ok hinitial
  dsimp only at h₂
  split_ifs at h₂ with hmech
  · cases h₂
  · obtain ⟨m, ch₃, hfirst, h₃⟩ := exists_of_runOn_bind_ok h₂
    obtain ⟨hread₁, hch₃⟩ := runOn_orFail_ok hfirst
    obtain ⟨data, ch₄, hdata, h₄⟩ := exists_of_runOn_bind_ok h₃
    obtain ⟨hrec, hch₄⟩ := runOn_orFail_ok hdata
    cases h₄
    subst hch₄ hch₃ hch₂
    obtain ⟨mechanism, raw⟩ := initial
    obtain ⟨hsent, l₁, hl₁, hinput⟩ := runOn_readSaslMessage_sound hread
    obtain ⟨l₂, hl₂, rfl, hvalid⟩ := parseSaslInitial_sound hparse
    obtain ⟨hraw, hheader, -, hbare⟩ := parseClientFirst_sound hvalid hread₁
    refine ⟨hsent, mechanism, l₁, l₂, hl₁, hl₂, by rw [hinput, ← hraw], hheader, hbare, ?_,
      exists_of_mapError_ok hrec⟩
    by_contra hno
    refine hmech ?_
    rw [Bool.not_eq_true', decide_eq_false_iff_not, decide_eq_true_iff]
    exact hno

theorem receiveFinal_sound {ch ch' : Channel} {m : ClientFinal}
    (h : receiveFinal.runOn ch = (.ok m, ch')) :
    ch'.sent = ch.sent ∧ ∃ l text : Bytes, l.length = 4 ∧
      ch.input = 112 :: (l ++ (m.withoutProof ++ ascii ",p=" ++ text)) ++ ch'.input ∧
      b64Decode text = some m.proof.bytes ∧ ∃ tail, IsTail tail ∧
        m.withoutProof = ascii "c=" ++ m.channelBinding ++ ascii ",r=" ++ m.nonce ++ tail := by
  rw [receiveFinal] at h
  obtain ⟨payload, ch₁, hread, h⟩ := exists_of_runOn_bind_ok h
  split_ifs at h with hvalid
  · cases h
  · obtain ⟨hm, rfl⟩ := runOn_orFail_ok h
    obtain ⟨hsent, l, hl, hinput⟩ := runOn_readSaslMessage_sound hread
    obtain ⟨text, proof, rfl, hproof, hlen, hdigest, tail, htail, hw⟩ :=
      parseClientFinal_sound (by simpa using hvalid) hm
    refine ⟨hsent, l, text, hl, hinput, ?_, tail, htail, hw⟩
    rw [hproof, hdigest, Digest.bytes_ofBytes hlen]

theorem lookupVerifier_sound {server : Server} {user : Bytes} {ch ch' : Channel}
    {r : ScramVerifier × Bool} (h : (lookupVerifier server user).runOn ch = (.ok r, ch')) :
    ch' = ch ∧ (r.2 = true → server.authVerifier user = some r.1) := by
  rw [lookupVerifier] at h
  cases hv : server.authVerifier user with
  | some v =>
    simp only [hv] at h
    cases h
    exact ⟨rfl, fun _ => rfl⟩
  | none =>
    simp only [hv] at h
    cases hm : server.mockVerifier with
    | some v =>
      simp only [hm] at h
      cases h
      exact ⟨rfl, fun hf => by cases hf⟩
    | none =>
      simp only [hm] at h
      cases h

theorem checkFinal_sound {c : Crypto} {user user' : Bytes} {first : ClientFirst}
    {cbindData : Option Bytes} {v : ScramVerifier} {known : Bool} {nonce serverFirst : Bytes}
    {m : ClientFinal} {ch ch' : Channel}
    (h : (checkFinal c user first cbindData v known nonce serverFirst m).runOn ch =
      (.ok user', ch')) :
    user' = user ∧ known = true ∧ m.nonce = nonce ∧
      m.channelBinding = b64Encode (first.gs2Header ++ cbindData.getD []) ∧
      c.verifyClientProof v (authMessage first.bare serverFirst m.withoutProof) m.proof = true ∧
      ch' = { ch with sent := ch.sent ++ [.sasl 12 (ascii "v=" ++ b64Encode
        (c.serverSignature v (authMessage first.bare serverFirst m.withoutProof)).bytes)] } := by
  rw [checkFinal] at h
  dsimp only at h
  split_ifs at h with hbinding hnonce hproof
  · cases h
  · cases h
  · cases h
  · obtain ⟨⟨⟩, ch₁, hwrite, h⟩ := exists_of_runOn_bind_ok h
    cases h
    have hproof : (c.verifyClientProof v (authMessage first.bare serverFirst m.withoutProof)
        m.proof && known) = true := by simpa using hproof
    obtain ⟨hp, hk⟩ := Bool.and_eq_true_iff.1 hproof
    exact ⟨rfl, hk, not_not.1 hnonce, not_not.1 hbinding, hp, runOn_writeAuthRequest_ok hwrite⟩

/-- **Soundness**: a user is returned only for a proof over the messages of this exchange. -/
theorem authenticate_sound {c : Crypto} {server : Server} {startup : List (Bytes × Bytes)}
    {channelBinding : Option Bytes} {input user : Bytes} {ch : Channel}
    (h : (authenticate c server startup channelBinding).runOn ⟨input, []⟩ = (.ok user, ch)) :
    ∃ t : Transcript, Proves c server startup channelBinding user t ∧ t.IsSent input ch.input ∧
      ch.sent = [.sasl 10 (saslMechanismList channelBinding), .sasl 11 t.serverFirst,
        .sasl 12 (ascii "v=" ++ b64Encode (c.serverSignature t.verifier t.signed).bytes)] := by
  rw [authenticate] at h
  cases huser : startup.find? fun p => p.1 = ascii "user" with
  | none =>
    rw [huser] at h
    cases h
  | some p =>
    rw [huser, Option.elim_some] at h
    obtain ⟨⟨⟩, ch₁, hlist, h⟩ := exists_of_runOn_bind_ok h
    have hch₁ := runOn_writeAuthRequest_ok hlist
    obtain ⟨first, ch₂, hfirst, h⟩ := exists_of_runOn_bind_ok h
    obtain ⟨found, ch₃, hfound, h⟩ := exists_of_runOn_bind_ok h
    obtain ⟨rawNonce, ch₄, hraw, h⟩ := exists_of_runOn_bind_ok h
    obtain ⟨⟨⟩, ch₅, hchallenge, h⟩ := exists_of_runOn_bind_ok h
    have hch₅ := runOn_writeAuthRequest_ok hchallenge
    obtain ⟨m, ch₆, hfinal, h⟩ := exists_of_runOn_bind_ok h
    obtain ⟨hsent₂, mechanism, l₁, l₂, hl₁, hl₂, hinput₁, hheader, hbare, hmech, hdata⟩ :=
      receiveFirst_sound hfirst
    obtain ⟨hch₃, hknown⟩ := lookupVerifier_sound hfound
    obtain ⟨hsent₆, l₃, text, hl₃, hinput₂, hproof, tail, htail, hw⟩ := receiveFinal_sound hfinal
    obtain ⟨rfl, hk, hnonce, hbinding, hp, hch⟩ := checkFinal_sound h
    have hrawNonce : server.rawNonce = some rawNonce ∧ ch₄ = ch₃ := by
      rw [fillNonce] at hraw
      cases hr : server.rawNonce with
      | none =>
        rw [hr] at hraw
        cases hraw
      | some raw =>
        rw [hr] at hraw
        cases hraw
        exact ⟨rfl, rfl⟩
    obtain ⟨hrawNonce, hch₄⟩ := hrawNonce
    obtain ⟨hdown, hreq, hfree⟩ := reconcile_sound hdata
    subst hch₁ hch₃ hch₄ hch₅
    simp only at hsent₂ hsent₆ hinput₁ hinput₂
    refine ⟨⟨mechanism, first.1.cbindFlag, first.1.bare, first.1.nonce, m.channelBinding,
      m.withoutProof, text, m.proof, found.1, rawNonce⟩, ?_, ?_, ?_⟩
    · constructor
      case named => exact ⟨p.1, huser⟩
      case known => exact hknown hk
      case rawNonce => exact hrawNonce
      case bare => exact hbare
      case final =>
        refine ⟨tail, htail, ?_⟩
        rw [hnonce] at hw
        exact hw
      case proof => exact hproof
      case signed => exact verifyClientProof_iff.1 hp
      case downgrade => exact hdown
      case bound =>
        intro type htype
        obtain ⟨hcb, hplus, hd⟩ := hreq type htype
        have hplus := of_decide_eq_true hplus
        rcases hmech with hscram | ⟨-, hsome⟩
        · exact absurd (hplus.symm.trans hscram) (by decide)
        · obtain ⟨data, hdata⟩ := Option.isSome_iff_exists.1 hsome
          refine ⟨hcb, hplus, data, hdata, ?_⟩
          rw [hbinding, hheader, hd, hdata]
          rfl
      case unbound =>
        intro hno
        obtain ⟨hplus, hd⟩ := hfree hno
        have hplus := of_decide_eq_false hplus
        refine ⟨hmech.resolve_right fun hm => hplus hm.1, ?_⟩
        rw [hbinding, hheader, hd]
        simp
    · refine ⟨l₁, l₂, l₃, hl₁, hl₂, hl₃, ?_⟩
      rw [hinput₁, hheader, hinput₂, hch]
    · rw [hch, hsent₆, hsent₂]
      rfl

/-! ### No input panics -/

theorem calm_receiveFirst (channelBinding : Option Bytes) :
    Calm (receiveFirst channelBinding) := by
  refine calm_readSaslMessage.bind fun payload _ _ _ => ?_
  refine (calm_orFail (parseSaslInitial_calm payload)).bind fun initial _ _ hinitial => ?_
  obtain ⟨hparse, -⟩ := runOn_orFail_ok hinitial
  obtain ⟨mechanism, raw⟩ := initial
  obtain ⟨-, -, -, hvalid⟩ := parseSaslInitial_sound hparse
  dsimp only
  split_ifs
  · exact calm_fail _
  · refine (calm_orFail (parseClientFirst_calm hvalid)).bind fun m _ _ _ => ?_
    refine Calm.bind (calm_orFail ?_) fun data _ _ _ => calm_pure _
    intro h
    cases hr : reconcileChannelBinding m.cbindFlag (mechanism = mechanismPlus) channelBinding with
    | ok data =>
      rw [hr] at h
      cases h
    | error r =>
      rw [hr] at h
      cases h

theorem calm_receiveFinal : Calm receiveFinal := by
  refine calm_readSaslMessage.bind fun payload _ _ _ => ?_
  split_ifs with hvalid
  · exact calm_fail _
  · exact calm_orFail (parseClientFinal_calm (by simpa using hvalid))

theorem calm_checkFinal (c : Crypto) (user : Bytes) (first : ClientFirst)
    (cbindData : Option Bytes) (v : ScramVerifier) (known : Bool) (nonce serverFirst : Bytes)
    (m : ClientFinal) : Calm (checkFinal c user first cbindData v known nonce serverFirst m) := by
  rw [checkFinal]
  dsimp only
  split_ifs
  · exact calm_fail _
  · exact calm_fail _
  · exact calm_fail _
  · exact (calm_writeAuthRequest _ _).bind fun _ _ _ _ => calm_pure _

/-- **No input panics.** -/
theorem authenticate_calm (c : Crypto) (server : Server) (startup : List (Bytes × Bytes))
    (channelBinding : Option Bytes) : Calm (authenticate c server startup channelBinding) := by
  rw [authenticate]
  cases startup.find? fun p => p.1 = ascii "user" with
  | none => exact calm_fail _
  | some p =>
    rw [Option.elim_some]
    refine (calm_writeAuthRequest _ _).bind fun _ _ _ _ => ?_
    refine (calm_receiveFirst channelBinding).bind fun first _ _ _ => ?_
    have hlookup : Calm (lookupVerifier server p.2) := by
      rw [lookupVerifier]
      cases server.authVerifier p.2 with
      | some v => exact calm_pure _
      | none =>
        cases server.mockVerifier with
        | some v => exact calm_pure _
        | none => exact calm_throw (by decide)
    have hfill : Calm (fillNonce server) := by
      rw [fillNonce]
      cases server.rawNonce with
      | none => exact calm_throw (by decide)
      | some raw => exact calm_pure _
    refine hlookup.bind fun found _ _ _ => hfill.bind fun rawNonce _ _ _ => ?_
    refine (calm_writeAuthRequest _ _).bind fun _ _ _ _ => ?_
    exact calm_receiveFinal.bind fun m _ _ _ => calm_checkFinal _ _ _ _ _ _ _ _ _

/-! ### A client of the protocol -/

/-- A client that has a password.  Extensions stand behind the attributes of its messages. -/
structure Client where
  /-- The password. -/
  password : Bytes
  /-- The name in its first message, which the server does not look at. -/
  name : Bytes
  /-- The identity it asks to act as. -/
  authzid : Option Bytes
  /-- Its nonce. -/
  nonce : Bytes
  /-- The binding data of the server it sees, if it supports channel binding. -/
  binding : Option Bytes
  /-- The extensions of its first message. -/
  firstExtensions : List Bytes
  /-- The extensions of its last message. -/
  finalExtensions : List Bytes

namespace Client

variable (cl : Client)

/-- A text that stands between commas. -/
def IsAttribute (text : Bytes) : Prop := 44 ∉ text ∧ validUtf8 text

/-- The grammar of the protocol. -/
structure WellFormed : Prop where
  name : IsAttribute cl.name
  authzid : ∀ a, cl.authzid = some a → IsAttribute a
  nonempty : cl.nonce ≠ []
  printable : ∀ b ∈ cl.nonce, IsPrintable b
  firstExtensions : ∀ e ∈ cl.firstExtensions, IsAttribute e
  finalExtensions : ∀ e ∈ cl.finalExtensions, IsAttribute e

/-- The extensions of a message. -/
def extensions (es : List Bytes) : Bytes := es.flatMap fun e => 44 :: e

/-- The flag: binding if both sides have it. -/
def flag (offered : List Bytes) : CbindFlag :=
  if cl.binding = none then .notSupported
  else if mechanismPlus ∈ offered then .required cbindType
  else .supportedButUnused

/-- The header of its first message. -/
def header (offered : List Bytes) : Bytes :=
  (cl.flag offered).text ++ [44] ++ cl.authzid.elim [] (fun a => ascii "a=" ++ a) ++ [44]

/-- Its first message without the header. -/
def bare : Bytes :=
  ascii "n=" ++ cl.name ++ ascii ",r=" ++ cl.nonce ++ extensions cl.firstExtensions

/-- The mechanism it chooses. -/
def mechanism (offered : List Bytes) : Bytes :=
  if cl.binding ≠ none ∧ mechanismPlus ∈ offered then mechanismPlus else mechanismScram

/-- The `SASLInitialResponse`. -/
def initialResponse (offered : List Bytes) : Bytes :=
  let first := cl.header offered ++ cl.bare
  cl.mechanism offered ++ 0 :: (beBytes 4 first.length ++ first)

/-- A number in digits. -/
def readDecimal (text : Bytes) : Option ℕ :=
  if allDigits text then some (digitsValue text) else none

/-- The nonce, the salt and the iterations of the server's first message. -/
def readServerFirst (text : Bytes) : Option (Bytes × Bytes × ℕ) :=
  match text.splitOn 44 with
  | r :: s :: i :: _ => do
    let nonce ← strip (ascii "r=") r
    let salt ← (strip (ascii "s=") s).bind b64Decode
    let iterations ← (strip (ascii "i=") i).bind readDecimal
    -- the server's nonce goes on from the client's
    if cl.nonce.isPrefixOf nonce then some (nonce, salt, iterations) else none
  | _ => none

/-- Its last message without the proof. -/
def withoutProof (offered : List Bytes) (serverNonce : Bytes) : Bytes :=
  let data := if mechanismPlus ∈ offered then cl.binding.getD [] else []
  ascii "c=" ++ b64Encode (cl.header offered ++ data) ++ ascii ",r=" ++ serverNonce ++
    extensions cl.finalExtensions

/-- Its last message. -/
def final (c : Crypto) (offered : List Bytes) (serverFirst : Bytes) : Option Bytes :=
  (cl.readServerFirst serverFirst).map fun m =>
    let without := cl.withoutProof offered m.1
    without ++ ascii ",p=" ++ b64Encode (c.clientProof cl.password m.2.1 m.2.2
      (authMessage cl.bare serverFirst without)).bytes

/-- The server's last message proves that it has the verifier of the password. -/
def verifies (c : Crypto) (offered : List Bytes) (serverFirst serverFinal : Bytes) : Bool :=
  (cl.readServerFirst serverFirst).any fun m =>
    (strip (ascii "v=") serverFinal).bind b64Decode =
      some (c.hmacSha256 (c.serverKey cl.password m.2.1 m.2.2).bytes
        (authMessage cl.bare serverFirst (cl.withoutProof offered m.1))).bytes

end Client

/-- The mechanisms of a list. -/
def readMechanisms (list : Bytes) : List Bytes := (list.splitOn 0).filter (· ≠ [])

/-! ### The client reads the server's messages -/

theorem readDecimal_decimal (n : ℕ) : Client.readDecimal (decimal n) = some n := by
  rw [Client.readDecimal, if_pos (allDigits_decimal n), digitsValue_decimal]

theorem mem_decimal_ne {n : ℕ} : 44 ∉ decimal n := by
  intro h
  have h48 := (mem_decimal h).1
  exact absurd h48 (by decide)

theorem comma_notMem_b64Encode (bytes : Bytes) : 44 ∉ b64Encode bytes :=
  fun h => (mem_b64Encode h).1 rfl

namespace Client

variable {cl : Client}

theorem readServerFirst_challenge (hwf : cl.WellFormed) (rawNonce : Bytes) (v : ScramVerifier) :
    cl.readServerFirst (serverFirstMessage cl.nonce rawNonce v).2 =
      some (cl.nonce ++ b64Encode rawNonce, v.salt, v.iterations.val) := by
  have hsplit : ((serverFirstMessage cl.nonce rawNonce v).2).splitOn 44 =
      [ascii "r=" ++ (cl.nonce ++ b64Encode rawNonce), ascii "s=" ++ b64Encode v.salt,
        ascii "i=" ++ decimal v.iterations] := by
    have hform : (serverFirstMessage cl.nonce rawNonce v).2 =
        (ascii "r=" ++ (cl.nonce ++ b64Encode rawNonce)) ++ 44 ::
          ((ascii "s=" ++ b64Encode v.salt) ++ 44 :: (ascii "i=" ++ decimal v.iterations)) := by
      simp [serverFirstMessage, ascii]
    have hr : (44 : Fin 256) ∉ ascii "r=" ++ (cl.nonce ++ b64Encode rawNonce) := by
      have hn : (44 : Fin 256) ∉ cl.nonce := fun h => (hwf.printable 44 h).ne_comma rfl
      have hb := comma_notMem_b64Encode rawNonce
      simp [ascii, hn, hb]
    have hs : (44 : Fin 256) ∉ ascii "s=" ++ b64Encode v.salt := by
      have hb := comma_notMem_b64Encode v.salt
      simp [ascii, hb]
    have hi : (44 : Fin 256) ∉ ascii "i=" ++ decimal v.iterations := by
      have hd : 44 ∉ decimal v.iterations.val := mem_decimal_ne
      simp [ascii, hd]
    rw [hform, List.splitOn_append_cons_self_of_not_mem hr,
      List.splitOn_append_cons_self_of_not_mem hs, List.splitOn_eq_singleton hi]
  have hr : strip (ascii "r=") (ascii "r=" ++ (cl.nonce ++ b64Encode rawNonce)) =
      some (cl.nonce ++ b64Encode rawNonce) := strip_eq_some.2 rfl
  have hs : strip (ascii "s=") (ascii "s=" ++ b64Encode v.salt) = some (b64Encode v.salt) :=
    strip_eq_some.2 rfl
  have hi : strip (ascii "i=") (ascii "i=" ++ decimal v.iterations) =
      some (decimal v.iterations) := strip_eq_some.2 rfl
  rw [readServerFirst, hsplit]
  simp only [hr, hs, hi, b64Decode_b64Encode, readDecimal_decimal, bind, Option.bind]
  rw [if_pos (List.isPrefixOf_iff_prefix.2 (List.prefix_append _ _))]

end Client

theorem readMechanisms_list (channelBinding : Option Bytes) :
    readMechanisms (saslMechanismList channelBinding) =
      if channelBinding.isSome then [mechanismPlus, mechanismScram] else [mechanismScram] := by
  cases channelBinding with
  | none => decide
  | some data =>
    have hlist : saslMechanismList (some data) = saslMechanismList (some []) := rfl
    rw [hlist, Option.isSome_some, if_pos rfl]
    decide

theorem plus_mem_offered {channelBinding : Option Bytes} :
    mechanismPlus ∈ readMechanisms (saslMechanismList channelBinding) ↔
      channelBinding.isSome = true := by
  have hne : mechanismPlus ≠ mechanismScram := by decide
  rw [readMechanisms_list]
  split_ifs with h <;> simp [h, hne]

theorem length_mechanismList (channelBinding : Option Bytes) :
    8 + (saslMechanismList channelBinding).length < 2 ^ 31 := by
  cases channelBinding with
  | none => decide
  | some data =>
    have hlist : saslMechanismList (some data) = saslMechanismList (some []) := rfl
    rw [hlist]
    decide

/-! ### Completeness -/

/-- A client of the protocol talks to a server that has the verifier of its password, and sees the
certificate of that server. -/
structure Follows (c : Crypto) (server : Server) (startup : List (Bytes × Bytes))
    (channelBinding : Option Bytes) (cl : Client) (user salt : Bytes) (iterations : Fin (2 ^ 32))
    (rawNonce : Bytes) : Prop where
  wellFormed : cl.WellFormed
  named : ∃ k, startup.find? (fun p => p.1 = ascii "user") = some (k, user)
  known : server.authVerifier user = some (c.derive cl.password salt iterations)
  drawn : server.rawNonce = some rawNonce
  binding : ∀ seen data, cl.binding = some seen → channelBinding = some data → seen = data

/-- It has no authorization identity, and its messages and the server's are not longer than messages
can be. -/
structure Meets (c : Crypto) (server : Server) (startup : List (Bytes × Bytes))
    (channelBinding : Option Bytes) (cl : Client) (user salt : Bytes) (iterations : Fin (2 ^ 32))
    (rawNonce : Bytes) : Prop extends
    Follows c server startup channelBinding cl user salt iterations rawNonce where
  authzid : cl.authzid = none
  first : (cl.initialResponse (readMechanisms (saslMechanismList channelBinding))).length ≤
    maxMessagePayloadSize
  challenge : 8 + (serverFirstMessage cl.nonce rawNonce
    (c.derive cl.password salt iterations)).2.length < 2 ^ 31
  final : ∀ m, cl.final c (readMechanisms (saslMechanismList channelBinding))
    (serverFirstMessage cl.nonce rawNonce (c.derive cl.password salt iterations)).2 = some m →
    m.length ≤ maxMessagePayloadSize

/-- The server takes the client's first message and sends its own, takes the client's last message
and returns the user, and the client can verify what it sent at last. -/
def Accepted (c : Crypto) (server : Server) (startup : List (Bytes × Bytes))
    (channelBinding : Option Bytes) (cl : Client) (user : Bytes) : Prop :=
  ∃ offered challenge final serverFinal,
    offered = readMechanisms (saslMechanismList channelBinding) ∧
    ((authenticate c server startup channelBinding).runOn
      ⟨frame 112 (cl.initialResponse offered), []⟩).2.sent =
        [.sasl 10 (saslMechanismList channelBinding), .sasl 11 challenge] ∧
    cl.final c offered challenge = some final ∧
    (authenticate c server startup channelBinding).runOn
      ⟨frame 112 (cl.initialResponse offered) ++ frame 112 final, []⟩ =
        (.ok user, ⟨[], [.sasl 10 (saslMechanismList channelBinding), .sasl 11 challenge,
          .sasl 12 serverFinal]⟩) ∧
    cl.verifies c offered challenge serverFinal = true

section

variable {c : Crypto} {server : Server} {startup : List (Bytes × Bytes)}
  {channelBinding : Option Bytes} {cl : Client} {user salt : Bytes} {iterations : Fin (2 ^ 32)}
  {rawNonce : Bytes}

theorem isTail_extensions (es : List Bytes) : IsTail (Client.extensions es) := by
  cases es with
  | nil => exact .inl rfl
  | cons e es => exact .inr ⟨_, rfl⟩

theorem validUtf8_extensions {es : List Bytes} (h : ∀ e ∈ es, Client.IsAttribute e) :
    validUtf8 (Client.extensions es) := by
  induction es with
  | nil => rfl
  | cons e es ih =>
    have hhead : validUtf8 (44 :: e) := validUtf8_append (l := [44]) rfl (h e List.mem_cons_self).2
    have htail := ih fun e' he' => h e' (List.mem_cons_of_mem _ he')
    exact validUtf8_append hhead htail

theorem Client.WellFormed.isBare (h : cl.WellFormed) : IsBare cl.bare cl.nonce :=
  ⟨⟨cl.name, _, h.name.1, isTail_extensions _, rfl⟩, h.nonempty, h.printable⟩

theorem Client.WellFormed.validUtf8_nonce (h : cl.WellFormed) : validUtf8 cl.nonce := by
  refine validUtf8_of_ascii fun b hb => lt_of_le_of_lt (h.printable b hb).2.1 ?_
  decide

theorem Client.WellFormed.validUtf8_bare (h : cl.WellFormed) : validUtf8 cl.bare := by
  refine validUtf8_append (validUtf8_append (validUtf8_append (validUtf8_append ?_ h.name.2) ?_)
    h.validUtf8_nonce) (validUtf8_extensions h.firstExtensions)
  · decide
  · decide

theorem flag_named (offered : List Bytes) : (cl.flag offered).Named := by
  rw [Client.flag]
  split_ifs
  · exact trivial
  · exact ⟨by decide, by decide⟩
  · exact trivial

theorem header_eq (h : cl.authzid = none) (offered : List Bytes) :
    cl.header offered = gs2HeaderOf (cl.flag offered) := by
  rw [Client.header, h, gs2HeaderOf]
  simp

theorem validUtf8_header (offered : List Bytes) : validUtf8 (gs2HeaderOf (cl.flag offered)) := by
  rw [Client.flag]
  split_ifs <;> decide

/-- The data that binds the exchange. -/
def bindingData (channelBinding : Option Bytes) (cl : Client) : Option Bytes :=
  if cl.binding = none then none else channelBinding

theorem reconcile_complete :
    reconcileChannelBinding (cl.flag (readMechanisms (saslMechanismList channelBinding)))
      (cl.mechanism (readMechanisms (saslMechanismList channelBinding)) = mechanismPlus)
      channelBinding = .ok (bindingData channelBinding cl) := by
  have hne : mechanismScram ≠ mechanismPlus := by decide
  rw [Client.flag, Client.mechanism, bindingData]
  simp only [plus_mem_offered]
  by_cases hb : cl.binding = none
  · simp [hb, hne, reconcileChannelBinding]
  · cases channelBinding with
    | none => simp [hb, hne, reconcileChannelBinding]
    | some data => simp [hb, reconcileChannelBinding]

theorem cbind_eq (h : Meets c server startup channelBinding cl user salt iterations rawNonce) :
    (if mechanismPlus ∈ readMechanisms (saslMechanismList channelBinding) then cl.binding.getD []
      else []) = (bindingData channelBinding cl).getD [] := by
  rw [bindingData]
  simp only [plus_mem_offered]
  cases hb : cl.binding with
  | none => simp
  | some seen =>
    cases hcb : channelBinding with
    | none => simp
    | some data => simp [h.binding seen data hb hcb]

theorem runOn_orFail {α : Type} (a : α) (ch : Channel) :
    (orFail (.ok a)).runOn ch = (.ok a, ch) := rfl

/-- The client's first message is read as it was written. -/
theorem runOn_receiveFirst (h : Meets c server startup channelBinding cl user salt iterations
    rawNonce) (rest : Bytes) (sent : List ServerMessage) :
    (receiveFirst channelBinding).runOn ⟨frame 112 (cl.initialResponse (readMechanisms
        (saslMechanismList channelBinding))) ++ rest, sent⟩ =
      (.ok (⟨gs2HeaderOf (cl.flag (readMechanisms (saslMechanismList channelBinding))),
        cl.flag (readMechanisms (saslMechanismList channelBinding)), cl.bare, cl.nonce⟩,
        bindingData channelBinding cl), ⟨rest, sent⟩) := by
  have hfits := h.first
  have hrec : reconcileChannelBinding (cl.flag (readMechanisms (saslMechanismList channelBinding)))
      (cl.mechanism (readMechanisms (saslMechanismList channelBinding)) = mechanismPlus)
      channelBinding = .ok (bindingData channelBinding cl) := reconcile_complete
  have hchosen : cl.mechanism (readMechanisms (saslMechanismList channelBinding)) =
      mechanismScram ∨ cl.mechanism (readMechanisms (saslMechanismList channelBinding)) =
        mechanismPlus ∧ channelBinding.isSome = true := by
    rw [Client.mechanism]
    simp only [plus_mem_offered]
    split_ifs with hm
    · exact .inr ⟨rfl, hm.2⟩
    · exact .inl rfl
  generalize readMechanisms (saslMechanismList channelBinding) = offered at *
  have hheader := header_eq h.authzid offered
  have hvalid : validUtf8 (gs2HeaderOf (cl.flag offered) ++ cl.bare) :=
    validUtf8_append (validUtf8_header offered) h.wellFormed.validUtf8_bare
  have hmechanism : 0 ∉ cl.mechanism offered ∧ validUtf8 (cl.mechanism offered) := by
    rcases hchosen with hm | ⟨hm, -⟩ <;> rw [hm] <;> decide
  have hparse : parseSaslInitial (cl.initialResponse offered) =
      .ok (cl.mechanism offered, gs2HeaderOf (cl.flag offered) ++ cl.bare) := by
    rw [Client.initialResponse, hheader]
    refine parseSaslInitial_complete hmechanism.1 hmechanism.2 hvalid ?_
    rw [Client.initialResponse, hheader] at hfits
    simp only [List.length_append, List.length_cons, maxMessagePayloadSize] at hfits ⊢
    omega
  have hfirst := parseClientFirst_complete (flag_named offered) h.wellFormed.isBare hvalid
  rw [receiveFirst, runOn_bind_ok (runOn_readSaslMessage_frame hfits), hparse]
  rw [runOn_bind_ok (runOn_orFail _ _)]
  dsimp only
  have hmech : ¬(!decide (cl.mechanism offered = mechanismScram ∨
      decide (cl.mechanism offered = mechanismPlus) = true ∧ channelBinding.isSome = true)) =
        true := by
    rw [Bool.not_eq_true', decide_eq_false_iff_not, not_not, decide_eq_true_iff]
    exact hchosen
  rw [if_neg hmech, hfirst, runOn_bind_ok (runOn_orFail _ _), hrec]
  rfl

/-- The exchange up to the client's last message. -/
theorem runOn_authenticate (h : Meets c server startup channelBinding cl user salt iterations
    rawNonce) (rest : Bytes) :
    (authenticate c server startup channelBinding).runOn
        ⟨frame 112 (cl.initialResponse (readMechanisms (saslMechanismList channelBinding))) ++ rest,
          []⟩ =
      (receiveFinal >>= checkFinal c user
        ⟨gs2HeaderOf (cl.flag (readMechanisms (saslMechanismList channelBinding))),
          cl.flag (readMechanisms (saslMechanismList channelBinding)), cl.bare, cl.nonce⟩
        (bindingData channelBinding cl) (c.derive cl.password salt iterations) true
        (cl.nonce ++ b64Encode rawNonce)
        (serverFirstMessage cl.nonce rawNonce (c.derive cl.password salt iterations)).2).runOn
        ⟨rest, [.sasl 10 (saslMechanismList channelBinding),
          .sasl 11 (serverFirstMessage cl.nonce rawNonce
            (c.derive cl.password salt iterations)).2]⟩ := by
  obtain ⟨k, huser⟩ := h.named
  have hlookup : ∀ ch, (lookupVerifier server user).runOn ch =
      (.ok (c.derive cl.password salt iterations, true), ch) := by
    intro ch
    rw [lookupVerifier, h.known]
    rfl
  have hfill : ∀ ch, (fillNonce server).runOn ch = (.ok rawNonce, ch) := by
    intro ch
    rw [fillNonce, h.drawn]
    rfl
  rw [authenticate, huser, Option.elim_some,
    runOn_bind_ok (runOn_writeAuthRequest (length_mechanismList channelBinding)),
    runOn_bind_ok (runOn_receiveFirst h rest _), runOn_bind_ok (hlookup _),
    runOn_bind_ok (hfill _)]
  exact runOn_bind_ok (runOn_writeAuthRequest h.challenge)

theorem validUtf8_withoutProof (hwf : cl.WellFormed) (offered : List Bytes) (rawNonce : Bytes) :
    validUtf8 (cl.withoutProof offered (cl.nonce ++ b64Encode rawNonce)) := by
  have hb64 : ∀ bytes, validUtf8 (b64Encode bytes) := fun bytes =>
    validUtf8_of_ascii fun b hb => (mem_b64Encode hb).2
  refine validUtf8_append (validUtf8_append (validUtf8_append (validUtf8_append ?_ (hb64 _)) ?_)
    (validUtf8_append hwf.validUtf8_nonce (hb64 _))) (validUtf8_extensions hwf.finalExtensions)
  · decide
  · decide

theorem runOn_receiveFinal {m : ClientFinal} {payload rest : Bytes} {sent : List ServerMessage}
    (hlen : payload.length ≤ maxMessagePayloadSize) (hu : validUtf8 payload)
    (hparse : parseClientFinal payload = .ok m) :
    receiveFinal.runOn ⟨frame 112 payload ++ rest, sent⟩ = (.ok m, ⟨rest, sent⟩) := by
  rw [receiveFinal, runOn_bind_ok (runOn_readSaslMessage_frame hlen), if_neg (by simp [hu]), hparse]
  rfl

/-- **Completeness**: a client with the password is accepted, and can verify the server. -/
theorem authenticate_complete (h : Meets c server startup channelBinding cl user salt iterations
    rawNonce) :
    Accepted c server startup channelBinding cl user := by
  have hfirst := fun rest => runOn_authenticate h rest
  have hcbind := cbind_eq h
  have hfinal := h.final
  generalize hoffered : readMechanisms (saslMechanismList channelBinding) = offered at *
  have hread := Client.readServerFirst_challenge h.wellFormed rawNonce
    (c.derive cl.password salt iterations)
  generalize hchallenge : (serverFirstMessage cl.nonce rawNonce
    (c.derive cl.password salt iterations)).2 = challenge at *
  -- the client's last message, and what it signs
  let without := cl.withoutProof offered (cl.nonce ++ b64Encode rawNonce)
  let message := authMessage cl.bare challenge without
  let proof := c.clientProof cl.password salt iterations message
  have hm : cl.final c offered challenge =
      some (without ++ ascii ",p=" ++ b64Encode proof.bytes) := by
    rw [Client.final, hread]
    rfl
  have hb64 : ∀ bytes, 44 ∉ b64Encode bytes := comma_notMem_b64Encode
  have hnonce : 44 ∉ cl.nonce ++ b64Encode rawNonce := by
    intro hmem
    rcases List.mem_append.1 hmem with hmem | hmem
    · exact (h.wellFormed.printable 44 hmem).ne_comma rfl
    · exact hb64 _ hmem
  have hwithout := validUtf8_withoutProof h.wellFormed offered rawNonce
  have hparse : parseClientFinal (without ++ ascii ",p=" ++ b64Encode proof.bytes) =
      .ok ⟨b64Encode (gs2HeaderOf (cl.flag offered) ++ (bindingData channelBinding cl).getD []),
        cl.nonce ++ b64Encode rawNonce, without, proof⟩ := by
    have hform : without = ascii "c=" ++ b64Encode (gs2HeaderOf (cl.flag offered) ++
        (bindingData channelBinding cl).getD []) ++ ascii ",r=" ++
          (cl.nonce ++ b64Encode rawNonce) ++ Client.extensions cl.finalExtensions := by
      rw [← hcbind, ← header_eq h.authzid]
      rfl
    rw [hform]
    exact parseClientFinal_complete (hb64 _) hnonce (isTail_extensions _) proof (hform ▸ hwithout)
  have hvalid : validUtf8 (without ++ ascii ",p=" ++ b64Encode proof.bytes) := by
    refine validUtf8_append (validUtf8_append hwithout (by decide)) ?_
    exact validUtf8_of_ascii fun b hb => (mem_b64Encode hb).2
  have hsignature : ∀ d : Digest, 8 + (ascii "v=" ++ b64Encode d.bytes).length < 2 ^ 31 := by
    intro d
    rw [List.length_append, length_b64Encode, Digest.length_bytes]
    decide
  refine ⟨offered, challenge, _, ascii "v=" ++ b64Encode (c.serverSignature
    (c.derive cl.password salt iterations) message).bytes, hoffered.symm, ?_, hm, ?_, ?_⟩
  · have hnil := hfirst []
    rw [List.append_nil] at hnil
    rw [hnil]
    rfl
  · have hrun : receiveFinal.runOn ⟨frame 112 (without ++ ascii ",p=" ++ b64Encode proof.bytes) ++
        [], [.sasl 10 (saslMechanismList channelBinding), .sasl 11 challenge]⟩ = _ :=
      runOn_receiveFinal (hfinal _ hm) hvalid hparse
    rw [List.append_nil] at hrun
    rw [hfirst, runOn_bind_ok hrun, checkFinal]
    dsimp only
    rw [if_neg (by simp), if_neg (by simp), if_neg (by simp [proof, message,
      verifyClientProof_derive]), runOn_bind_ok (runOn_writeAuthRequest (hsignature _))]
    rfl
  · have hstrip : strip (ascii "v=") (ascii "v=" ++ b64Encode (c.serverSignature
        (c.derive cl.password salt iterations) message).bytes) =
        some (b64Encode (c.serverSignature (c.derive cl.password salt iterations) message).bytes) :=
      strip_eq_some.2 rfl
    rw [Client.verifies, hread, hstrip, Option.bind_some, b64Decode_b64Encode, Option.any_some]
    exact decide_eq_true rfl

theorem runOn_authenticate_long (h : Follows c server startup channelBinding cl user salt
    iterations rawNonce) {payload : Bytes} (hmax : maxMessagePayloadSize < payload.length)
    (hlt : payload.length + 4 < 2 ^ 31) :
    (authenticate c server startup channelBinding).runOn ⟨frame 112 payload, []⟩ =
      (.error (.protocol "message payload exceeds limit"),
        ⟨frame 112 payload, [.sasl 10 (saslMechanismList channelBinding)]⟩) := by
  obtain ⟨k, huser⟩ := h.named
  have hread : readSaslMessage.runOn ⟨frame 112 payload,
      [.sasl 10 (saslMechanismList channelBinding)]⟩ = _ :=
    runOn_bind_error (runOn_readTypedMessage_long hmax hlt)
  rw [authenticate, huser, Option.elim_some,
    runOn_bind_ok (runOn_writeAuthRequest (length_mechanismList channelBinding))]
  exact runOn_bind_error (runOn_bind_error hread)

/-- A client whose first message is longer than a message can be is not accepted. -/
theorem not_accepted_long (h : Follows c server startup channelBinding cl user salt iterations
    rawNonce)
    (hmax : maxMessagePayloadSize <
      (cl.initialResponse (readMechanisms (saslMechanismList channelBinding))).length)
    (hlt : (cl.initialResponse (readMechanisms (saslMechanismList channelBinding))).length + 4 <
      2 ^ 31) :
    ¬Accepted c server startup channelBinding cl user := by
  rintro ⟨offered, challenge, final, serverFinal, rfl, hsent, -, -, -⟩
  rw [runOn_authenticate_long h hmax hlt] at hsent
  simp at hsent

end

theorem length_initialResponse (cl : Client) (offered : List Bytes) :
    (cl.initialResponse offered).length = (cl.mechanism offered).length +
      (cl.flag offered).text.length + (cl.authzid.elim [] fun a => ascii "a=" ++ a).length +
      cl.name.length + cl.nonce.length + (Client.extensions cl.firstExtensions).length + 12 := by
  have hn : (ascii "n=").length = 2 := rfl
  have hr : (ascii ",r=").length = 3 := rfl
  simp only [Client.initialResponse, Client.header, Client.bare, List.length_append,
    List.length_cons, length_beBytes, List.length_nil, hn, hr]
  omega

/-- The hash, and a keyed hash made of it. -/
def sampleCrypto : Crypto := ⟨sha256, fun key text => sha256 (key ++ text), some⟩

/-- A server with one user. -/
def sampleServer : Server where
  authVerifier user :=
    if user = ascii "ada" then some (sampleCrypto.derive (ascii "secret") (ascii "salt") 4096)
    else none
  mockVerifier := none
  rawNonce := some (ascii "server nonce 18byte")

/-- A client that supports channel binding. -/
def sampleClient (authzid : Option Bytes) (nonce : Bytes) : Client where
  password := ascii "secret"
  name := []
  authzid := authzid
  nonce := nonce
  binding := some [1, 2, 3]
  firstExtensions := []
  finalExtensions := []

/-- A nonce of a client. -/
def sampleNonce : Bytes := ascii "fyko+d2lbbFgONRv9qkxdawL"

/-- A session of the user over a certificate. -/
def sampleStartup : List (Bytes × Bytes) := [(ascii "user", ascii "ada")]

theorem wellFormed_sample {authzid : Option Bytes} {nonce : Bytes}
    (ha : ∀ a, authzid = some a → Client.IsAttribute a) (hne : nonce ≠ [])
    (hprint : ∀ b ∈ nonce, IsPrintable b) : (sampleClient authzid nonce).WellFormed := by
  constructor
  case name => exact ⟨List.not_mem_nil, rfl⟩
  case authzid => exact ha
  case nonempty => exact hne
  case printable => exact hprint
  case firstExtensions =>
    intro e he
    cases he
  case finalExtensions =>
    intro e he
    cases he

theorem follows_sample {authzid : Option Bytes} {nonce : Bytes}
    (h : (sampleClient authzid nonce).WellFormed) :
    Follows sampleCrypto sampleServer sampleStartup (some [1, 2, 3]) (sampleClient authzid nonce)
      (ascii "ada") (ascii "salt") 4096 (ascii "server nonce 18byte") := by
  constructor
  case wellFormed => exact h
  case named =>
    refine ⟨ascii "user", ?_⟩
    rw [sampleStartup, List.find?_cons_of_pos (by simp)]
  case known =>
    change (if ascii "ada" = ascii "ada" then some (sampleCrypto.derive (ascii "secret")
      (ascii "salt") 4096) else none) = _
    exact if_pos rfl
  case drawn => rfl
  case binding =>
    intro seen data hseen hdata
    exact (Option.some.inj hseen).symm.trans (Option.some.inj hdata)

theorem printable_sampleNonce : ∀ b ∈ sampleNonce, IsPrintable b := by
  intro b hb
  have hall : ∀ b ∈ sampleNonce, 0x21 ≤ b ∧ b ≤ 0x7E ∧ b ≠ 44 := by decide +kernel
  exact hall b hb

theorem sampleNonce_ne_nil : sampleNonce ≠ [] := by decide

theorem meets_sample : Meets sampleCrypto sampleServer sampleStartup (some [1, 2, 3])
    (sampleClient none sampleNonce) (ascii "ada") (ascii "salt") 4096
    (ascii "server nonce 18byte") := by
  have hwf : (sampleClient none sampleNonce).WellFormed :=
    wellFormed_sample (fun a ha => by cases ha) sampleNonce_ne_nil printable_sampleNonce
  constructor
  case toFollows => exact follows_sample hwf
  case authzid => rfl
  case first => decide
  case challenge => decide
  case final =>
    intro m hm
    rw [Client.final, Client.readServerFirst_challenge hwf] at hm
    rw [← Option.some.inj hm]
    simp only [List.length_append, length_b64Encode, Digest.length_bytes]
    have hw : ((sampleClient none sampleNonce).withoutProof
      (readMechanisms (saslMechanismList (some [1, 2, 3])))
      ((sampleClient none sampleNonce).nonce ++ b64Encode (ascii "server nonce 18byte"))).length <
        200 := by
      decide
    have hp : (ascii ",p=").length = 3 := by decide
    simp only [maxMessagePayloadSize]
    omega

theorem length_sample (nonce : Bytes) (offered : List Bytes) :
    ((sampleClient none nonce).initialResponse offered).length =
      ((sampleClient none []).initialResponse offered).length + nonce.length := by
  have hm : (sampleClient none nonce).mechanism offered =
    (sampleClient none []).mechanism offered := rfl
  have hf : (sampleClient none nonce).flag offered = (sampleClient none []).flag offered := rfl
  rw [length_initialResponse, length_initialResponse, hm, hf]
  simp only [sampleClient, List.length_nil]
  omega

theorem not_accepted_sample {nonce : Bytes} (hlen : nonce.length = 16777216)
    (h : (sampleClient none nonce).WellFormed) :
    ¬Accepted sampleCrypto sampleServer sampleStartup (some [1, 2, 3]) (sampleClient none nonce)
      (ascii "ada") := by
  have hrest : ((sampleClient none []).initialResponse
      (readMechanisms (saslMechanismList (some [1, 2, 3])))).length < 100 := by decide
  have hpos : 0 < ((sampleClient none []).initialResponse
      (readMechanisms (saslMechanismList (some [1, 2, 3])))).length := by decide
  have hlength := length_sample nonce (readMechanisms (saslMechanismList (some [1, 2, 3])))
  have hmax : maxMessagePayloadSize = 16777216 := rfl
  refine not_accepted_long (follows_sample h) ?_ ?_ <;> omega

end Wire

end SteleDb
