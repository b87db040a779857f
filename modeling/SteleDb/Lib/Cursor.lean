import Mathlib.Data.List.Forall2

/-!
# Readers of fields

A reader takes fields off the front of a list and may fail.  `Reads p l a` says that `p` takes
exactly `l` and yields `a`, whatever follows; a reader made of readers takes what they take, one
after another.

`Exact p enc V` says more: `p` accepts an input exactly when it starts with the encoding of a value
that satisfies `V`, so that nothing else is accepted and every value has one encoding.  The rule for
sequences names, by a projection `g` of the final value, what the first reader yielded.  `all` reads
values until nothing is left; of a cut input it accepts what ends between two values and no more
(`Exact.all_of_cut`).
-/

namespace SteleDb

/-- A reader of a field. -/
abbrev Cursor (β ε α : Type) := StateT (List β) (Except ε) α

namespace Cursor

variable {β ε α γ : Type}

/-- Fail. -/
def fail (e : ε) : Cursor β ε α := fun _ => .error e

/-- The next `n` units. -/
def take (e : ε) (n : ℕ) : Cursor β ε (List β) := fun l =>
  if l.length < n then .error e else .ok (l.take n, l.drop n)

/-- The value of an option, or a failure. -/
def ofOption (e : ε) : Option α → Cursor β ε α
  | some a => pure a
  | none => fail e

/-- Read `n` times. -/
def times (p : Cursor β ε α) : ℕ → Cursor β ε (List α)
  | 0 => pure []
  | n + 1 => do
    let a ← p
    let as ← times p n
    pure (a :: as)

/-- The reader takes `l` and yields `a`, whatever follows. -/
def Reads (p : Cursor β ε α) (l : List β) (a : α) : Prop :=
  ∀ rest, p (l ++ rest) = .ok (a, rest)

namespace Reads

variable {p : Cursor β ε α} {l l' : List β} {a : α}

theorem pure (a : α) : Reads (Pure.pure a : Cursor β ε α) [] a := fun _ => rfl

theorem bind {f : α → Cursor β ε γ} {c : γ} (hp : Reads p l a) (hf : Reads (f a) l' c) :
    Reads (p >>= f) (l ++ l') c := fun rest => by
  have h : (p >>= f) (l ++ l' ++ rest) = p (l ++ (l' ++ rest)) >>= fun r => f r.1 r.2 := by
    rw [List.append_assoc]
    rfl
  rw [h, hp]
  exact hf rest

/-- What follows takes nothing. -/
theorem bindLast {f : α → Cursor β ε γ} {c : γ} (hp : Reads p l a) (hf : Reads (f a) [] c) :
    Reads (p >>= f) l c := by
  have h := hp.bind hf
  rwa [List.append_nil] at h

theorem map (hp : Reads p l a) (f : α → γ) : Reads (p >>= fun a => Pure.pure (f a)) l (f a) :=
  hp.bindLast (pure (f a))

theorem take (e : ε) (l : List β) : Reads (Cursor.take e l.length) l l := fun rest => by
  rw [Cursor.take, if_neg (by rw [List.length_append]; omega), List.take_left, List.drop_left]

theorem ofOption (e : ε) {o : Option α} (h : o = some a) :
    Reads (Cursor.ofOption e o : Cursor β ε α) [] a := by
  subst h
  exact pure a

/-- Fields of one kind, one after another. -/
theorem times {as : List α} {ls : List (List β)} (h : List.Forall₂ (fun a l => Reads p l a) as ls) :
    Reads (p.times as.length) ls.flatten as := by
  induction h with
  | nil => exact pure []
  | @cons a l as ls ha _ ih => exact ha.bind (ih.map fun as => a :: as)

theorem timesMap {as : List α} {enc : α → List β} (h : ∀ a ∈ as, Reads p (enc a) a) :
    Reads (p.times as.length) (as.flatMap enc) as :=
  times (List.forall₂_map_right_iff.2 (List.forall₂_same.2 h))

end Reads

/-! ### Exact readers -/

/-- The reader accepts exactly the encodings of the values that satisfy `V`, whatever follows. -/
def Exact (p : Cursor β ε α) (enc : α → List β) (V : α → Prop) : Prop :=
  ∀ l a rest, p l = .ok (a, rest) ↔ V a ∧ l = enc a ++ rest

/-- Read until nothing is left; `fuel` bounds the number of values. -/
def allFuel (p : Cursor β ε α) : ℕ → List β → Except ε (List α)
  | _, [] => .ok []
  | 0, _ :: _ => .ok []
  | fuel + 1, b :: l =>
    match p (b :: l) with
    | .error e => .error e
    | .ok (a, rest) =>
      match allFuel p fuel rest with
      | .error e => .error e
      | .ok as => .ok (a :: as)

/-- Read until nothing is left.  Every value takes something, so that there are at most as many
values as units. -/
def all (p : Cursor β ε α) (l : List β) : Except ε (List α) := p.allFuel l.length l

theorem bind_eq_ok {p : Cursor β ε α} {f : α → Cursor β ε γ} {l rest : List β} {c : γ} :
    (p >>= f) l = .ok (c, rest) ↔ ∃ a mid, p l = .ok (a, mid) ∧ f a mid = .ok (c, rest) := by
  have h : (p >>= f) l = p l >>= fun r => f r.1 r.2 := rfl
  rw [h]
  cases hp : p l with
  | error e => exact ⟨nofun, nofun⟩
  | ok r =>
    constructor
    · intro hf
      exact ⟨r.1, r.2, rfl, hf⟩
    · rintro ⟨a, mid, hr, hf⟩
      cases hr
      exact hf

theorem bind_pure_eq_ok {p : Cursor β ε α} {f : α → γ} {l rest : List β} {c : γ} :
    (p >>= fun a => Pure.pure (f a)) l = .ok (c, rest) ↔ ∃ a, p l = .ok (a, rest) ∧ f a = c := by
  rw [bind_eq_ok]
  constructor
  · rintro ⟨a, mid, hp, hc⟩
    cases hc
    exact ⟨a, hp, rfl⟩
  · rintro ⟨a, hp, rfl⟩
    exact ⟨a, rest, hp, rfl⟩

namespace Exact

variable {p : Cursor β ε α} {enc enc' : α → List β} {V V' : α → Prop}

theorem congr (h : Exact p enc V) (hV : ∀ a, V a ↔ V' a) (henc : ∀ a, V' a → enc a = enc' a) :
    Exact p enc' V' := fun l a rest => by
  rw [h l a rest, hV a]
  refine and_congr_right fun ha => ?_
  rw [henc a ha]

theorem pure (a : α) : Exact (Pure.pure a : Cursor β ε α) (fun _ => []) (· = a) :=
  fun l a' rest => by
    have h : (Pure.pure a : Cursor β ε α) l = .ok (a, l) := rfl
    rw [h, Except.ok.injEq, Prod.mk.injEq, eq_comm, List.nil_append]

theorem fail (e : ε) : Exact (Cursor.fail e : Cursor β ε α) enc fun _ => False :=
  fun _ _ _ => ⟨nofun, fun h => h.1.elim⟩

theorem take (e : ε) (n : ℕ) :
    Exact (Cursor.take e n : Cursor β ε (List β)) (fun l => l) (·.length = n) :=
  fun l a rest => by
    unfold Cursor.take
    split_ifs with hl
    · refine ⟨nofun, ?_⟩
      rintro ⟨rfl, rfl⟩
      simp only [List.length_append] at hl
      omega
    · rw [Except.ok.injEq, Prod.mk.injEq]
      constructor
      · rintro ⟨rfl, rfl⟩
        exact ⟨List.length_take_of_le (Nat.le_of_not_lt hl), (List.take_append_drop n l).symm⟩
      · rintro ⟨rfl, rfl⟩
        exact ⟨List.take_left, List.drop_left⟩

/-- A reader, then one that depends on what it yielded; `g` finds that in the final value. -/
theorem bind {f : α → Cursor β ε γ} {encf : γ → List β} {W : α → γ → Prop} (g : γ → α)
    (hp : Exact p enc V) (hf : ∀ a, V a → Exact (f a) encf (W a))
    (hg : ∀ a c, V a → W a c → g c = a) :
    Exact (p >>= f) (fun c => enc (g c) ++ encf c) fun c => V (g c) ∧ W (g c) c :=
  fun l c rest => by
    rw [bind_eq_ok]
    constructor
    · rintro ⟨a, mid, ha, hc⟩
      obtain ⟨hV, rfl⟩ := (hp _ _ _).1 ha
      obtain ⟨hW, rfl⟩ := (hf a hV _ _ _).1 hc
      obtain rfl := hg a c hV hW
      exact ⟨⟨hV, hW⟩, (List.append_assoc _ _ _).symm⟩
    · rintro ⟨⟨hV, hW⟩, rfl⟩
      refine ⟨g c, encf c ++ rest, (hp _ _ _).2 ⟨hV, List.append_assoc _ _ _⟩, ?_⟩
      exact (hf _ hV _ _ _).2 ⟨hW, rfl⟩

/-- The value read, converted; `g` converts back. -/
theorem map {f : α → γ} (g : γ → α) (hp : Exact p enc V) (hg : ∀ a, V a → g (f a) = a) :
    Exact (p >>= fun a => Pure.pure (f a)) (fun c => enc (g c)) fun c => V (g c) ∧ c = f (g c) := by
  have h := hp.bind g (fun a _ => pure (f a)) fun a c hV hc => by rw [hc, hg a hV]
  exact h.congr (fun _ => Iff.rfl) fun _ _ => List.append_nil _

/-- A check of what was read so far. -/
theorem guard (c : Prop) [Decidable c] (e : ε) (hp : Exact p enc V) :
    Exact (if c then Cursor.fail e else p) enc fun a => ¬ c ∧ V a := by
  split_ifs with hc
  · exact (fail e).congr (fun _ => ⟨False.elim, fun h => h.1 hc⟩) fun _ _ => rfl
  · exact hp.congr (fun _ => ⟨fun h => ⟨hc, h⟩, And.right⟩) fun _ _ => rfl

/-- Encodings are self-delimiting. -/
theorem unique (h : Exact p enc V) {a b : α} {l l' : List β} (ha : V a) (hb : V b)
    (heq : enc a ++ l = enc b ++ l') : a = b ∧ l = l' := by
  have h₁ := (h (enc a ++ l) a l).2 ⟨ha, rfl⟩
  rw [(h (enc a ++ l) b l').2 ⟨hb, heq⟩] at h₁
  cases h₁
  exact ⟨rfl, rfl⟩

section All

variable (h : Exact p enc V) (hne : ∀ a, V a → enc a ≠ [])

include h hne

theorem allFuel_eq_ok {fuel : ℕ} {l : List β} (hfuel : l.length ≤ fuel) {as : List α} :
    p.allFuel fuel l = .ok as ↔ (∀ a ∈ as, V a) ∧ l = as.flatMap enc := by
  induction fuel generalizing l as with
  | zero =>
    obtain rfl := List.length_eq_zero_iff.1 (Nat.le_zero.1 hfuel)
    cases as with
    | nil => simp [allFuel]
    | cons a as => simpa [allFuel] using fun ha _ hnil => absurd hnil (hne a ha)
  | succ fuel ih =>
    cases l with
    | nil =>
      cases as with
      | nil => simp [allFuel]
      | cons a as => simpa [allFuel] using fun ha _ hnil => absurd hnil (hne a ha)
    | cons b l =>
      have hshort : ∀ a rest, V a → b :: l = enc a ++ rest → rest.length ≤ fuel := by
        intro a rest ha heq
        have hlen := congrArg List.length heq
        have hpos := List.length_pos_iff.2 (hne a ha)
        rw [List.length_append] at hlen
        omega
      unfold allFuel
      constructor
      · intro hall
        split at hall
        · cases hall
        · rename_i a rest hp
          obtain ⟨ha, heq⟩ := (h _ _ _).1 hp
          split at hall
          · cases hall
          · rename_i as' has'
            cases hall
            obtain ⟨has, rfl⟩ := (ih (hshort a rest ha heq)).1 has'
            exact ⟨List.forall_mem_cons.2 ⟨ha, has⟩, heq⟩
      · rintro ⟨has, heq⟩
        cases as with
        | nil => cases heq
        | cons a as =>
          obtain ⟨ha, has⟩ := List.forall_mem_cons.1 has
          have hp := (h (b :: l) a _).2 ⟨ha, heq⟩
          rw [hp]
          simp only [(ih (hshort a _ ha heq)).2 ⟨has, rfl⟩]

/-- **Reading until nothing is left** accepts exactly the encodings of lists of values. -/
theorem all_eq_ok {l : List β} {as : List α} :
    p.all l = .ok as ↔ (∀ a ∈ as, V a) ∧ l = as.flatMap enc :=
  allFuel_eq_ok h hne (Nat.le_refl _)

theorem isPrefix_of_flatMap {as bs : List α} (has : ∀ a ∈ as, V a) (hbs : ∀ b ∈ bs, V b)
    (hpre : as.flatMap enc <+: bs.flatMap enc) : as <+: bs := by
  induction as generalizing bs with
  | nil => exact List.nil_prefix
  | cons a as ih =>
    obtain ⟨ha, has⟩ := List.forall_mem_cons.1 has
    obtain ⟨rest, hrest⟩ := hpre
    cases bs with
    | nil =>
      rw [List.flatMap_cons, List.append_assoc, List.flatMap_nil] at hrest
      exact absurd (List.append_eq_nil_iff.1 hrest).1 (hne a ha)
    | cons b bs =>
      obtain ⟨hb, hbs'⟩ := List.forall_mem_cons.1 hbs
      rw [List.flatMap_cons, List.append_assoc, List.flatMap_cons] at hrest
      obtain ⟨rfl, htail⟩ := h.unique ha hb hrest
      exact List.cons_prefix_cons.2 ⟨rfl, ih has hbs' ⟨rest, htail⟩⟩

/-- **A cut input** is accepted when the cut is between two values, as the values before it. -/
theorem all_of_cut {as bs : List α} {cut : List β} (hbs : ∀ b ∈ bs, V b)
    (hcut : cut <+: bs.flatMap enc) : p.all cut = .ok as ↔ as <+: bs ∧ cut = as.flatMap enc := by
  rw [all_eq_ok h hne]
  constructor
  · rintro ⟨has, rfl⟩
    exact ⟨isPrefix_of_flatMap h hne has hbs hcut, rfl⟩
  · rintro ⟨hpre, rfl⟩
    exact ⟨fun a ha => hbs a (hpre.subset ha), rfl⟩

end All

end Exact

/-- More input does not change what is read, only what is left. -/
def Stable (p : Cursor β ε α) : Prop :=
  ∀ l a rest more, p l = .ok (a, rest) → p (l ++ more) = .ok (a, rest ++ more)

namespace Stable

variable {p : Cursor β ε α}

theorem pure (a : α) : Stable (Pure.pure a : Cursor β ε α) := by
  intro l b rest more h
  cases h
  rfl

theorem fail (e : ε) : Stable (Cursor.fail e : Cursor β ε α) := fun _ _ _ _ h => nomatch h

theorem take (e : ε) (n : ℕ) : Stable (Cursor.take e n : Cursor β ε (List β)) := by
  intro l a rest more h
  simp only [Cursor.take] at h ⊢
  split_ifs at h with hlen
  cases h
  have hle : n ≤ l.length := Nat.le_of_not_lt hlen
  rw [if_neg (by rw [List.length_append]; omega), List.take_append_of_le_length hle,
    List.drop_append_of_le_length hle]

theorem bind {f : α → Cursor β ε γ} (hp : Stable p) (hf : ∀ a, Stable (f a)) :
    Stable (p >>= f) := by
  intro l c rest more h
  obtain ⟨a, mid, ha, hc⟩ := bind_eq_ok.1 h
  exact bind_eq_ok.2 ⟨a, mid ++ more, hp _ _ _ _ ha, hf a _ _ _ _ hc⟩

theorem ofOption (e : ε) (o : Option α) : Stable (Cursor.ofOption e o : Cursor β ε α) := by
  cases o with
  | none => exact fail e
  | some a => exact pure a

theorem times (hp : Stable p) (n : ℕ) : Stable (p.times n) := by
  induction n with
  | zero => exact pure []
  | succ n ih => exact hp.bind fun a => ih.bind fun as => pure (a :: as)

theorem ite {c : Prop} [Decidable c] {q : Cursor β ε α} (hp : Stable p) (hq : Stable q) :
    Stable (if c then p else q) := by
  split_ifs
  · exact hp
  · exact hq

end Stable

end Cursor

end SteleDb
