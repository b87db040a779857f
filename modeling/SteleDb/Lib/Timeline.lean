import Mathlib

/-!
# Timelines

The history of one subject on an ordered time axis: a list of events, newest first, each saying
what the subject carries from its instant on (`none`: nothing).  Events may share an instant; then
the newer one counts.

* `stateAt h s` : what the subject carries at `s`, by the last event at or before `s`;
* `periods none h` : the values asserted, each with the event that ended it;
* `stateAt_eq_some` : the subject carries `a` at `s` iff some period of `a` contains `s`;
* `periods_disjoint` and `periods_abut` : the periods do not overlap, and one that does not end
  where the next begins was ended by an event that asserted nothing.
-/

namespace SteleDb

/-- An event in the history of a subject. -/
structure Event (τ β α : Type*) where
  /-- When it happened. -/
  instant : τ
  /-- Who caused it. -/
  author : β
  /-- What the subject carries from then on. -/
  value : Option α
  deriving DecidableEq, Repr

/-- A value with the event that asserted it and the one that ended it. -/
structure Period (τ β α : Type*) where
  /-- When the value was asserted. -/
  start : τ
  /-- Who asserted it. -/
  author : β
  /-- The value. -/
  value : α
  /-- The event that ended it. -/
  stop : Option (Event τ β α)
  deriving DecidableEq, Repr

namespace Timeline

variable {τ β α : Type*}

/-- The values asserted, newest first; `stop` is the event after the newest one. -/
def periods (stop : Option (Event τ β α)) : List (Event τ β α) → List (Period τ β α)
  | [] => []
  | e :: h =>
    match e.value with
    | some a => ⟨e.instant, e.author, a, stop⟩ :: periods (some e) h
    | none => periods (some e) h

@[simp] theorem periods_nil (stop : Option (Event τ β α)) :
    periods stop ([] : List (Event τ β α)) = [] := rfl

theorem periods_cons_some {e : Event τ β α} {a : α} (ha : e.value = some a)
    (stop : Option (Event τ β α)) (h : List (Event τ β α)) :
    periods stop (e :: h) =
      ⟨e.instant, e.author, a, stop⟩ :: periods (some e) h := by
  simp only [periods, ha]

theorem periods_cons_none {e : Event τ β α} (ha : e.value = none) (stop : Option (Event τ β α))
    (h : List (Event τ β α)) :
    periods stop (e :: h) = periods (some e) h := by
  simp only [periods, ha]

theorem exists_event_of_mem_periods {stop : Option (Event τ β α)} {h : List (Event τ β α)}
    {p : Period τ β α} (hp : p ∈ periods stop h) :
    ∃ e ∈ h, e.instant = p.start ∧ e.author = p.author ∧ e.value = some p.value := by
  induction h generalizing stop with
  | nil => cases hp
  | cons e h ih =>
    cases ha : e.value with
    | some a =>
      rw [periods_cons_some ha] at hp
      rcases List.mem_cons.1 hp with rfl | hp
      · exact ⟨e, List.mem_cons_self, rfl, rfl, ha⟩
      · obtain ⟨e', he', h'⟩ := ih hp
        exact ⟨e', List.mem_cons_of_mem _ he', h'⟩
    | none =>
      rw [periods_cons_none ha] at hp
      obtain ⟨e', he', h'⟩ := ih hp
      exact ⟨e', List.mem_cons_of_mem _ he', h'⟩

theorem exists_mem_periods_of_event {stop : Option (Event τ β α)} {h : List (Event τ β α)}
    {e : Event τ β α} {a : α} (he : e ∈ h) (ha : e.value = some a) :
    ∃ p ∈ periods stop h, p.start = e.instant ∧ p.author = e.author ∧ p.value = a := by
  induction h generalizing stop with
  | nil => cases he
  | cons e' h ih =>
    rcases List.mem_cons.1 he with rfl | he
    · rw [periods_cons_some ha]
      exact ⟨_, List.mem_cons_self, rfl, rfl, rfl⟩
    · obtain ⟨p, hp, h'⟩ := @ih (some e') he
      refine ⟨p, ?_, h'⟩
      cases ha' : e'.value with
      | some b => rw [periods_cons_some ha']; exact List.mem_cons_of_mem _ hp
      | none => rw [periods_cons_none ha']; exact hp

/-- A period was ended by the event after the history or by one of its events. -/
theorem exists_event_of_stop {stop : Option (Event τ β α)} {h : List (Event τ β α)}
    {p : Period τ β α}
    (hp : p ∈ periods stop h) {u : Event τ β α} (hu : p.stop = some u) :
    stop = some u ∨ u ∈ h := by
  induction h generalizing stop with
  | nil => cases hp
  | cons e h ih =>
    have hstep : p ∈ periods (some e) h → u ∈ e :: h := by
      intro hp
      rcases ih hp with h' | h'
      · rw [Option.some.inj h']; exact List.mem_cons_self
      · exact List.mem_cons_of_mem _ h'
    cases ha : e.value with
    | some a =>
      rw [periods_cons_some ha] at hp
      rcases List.mem_cons.1 hp with rfl | hp
      · exact .inl hu
      · exact .inr (hstep hp)
    | none => rw [periods_cons_none ha] at hp; exact .inr (hstep hp)

theorem isSome_stop_of_mem_periods {u : Event τ β α} {h : List (Event τ β α)} {p : Period τ β α}
    (hp : p ∈ periods (some u) h) : p.stop.isSome = true := by
  induction h generalizing u with
  | nil => cases hp
  | cons e h ih =>
    cases ha : e.value with
    | some a =>
      rw [periods_cons_some ha] at hp
      rcases List.mem_cons.1 hp with rfl | hp
      · rfl
      · exact ih hp
    | none => rw [periods_cons_none ha] at hp; exact ih hp

/-- A new event ends the open period and no other. -/
theorem periods_some_eq_map (u : Event τ β α) (h : List (Event τ β α)) :
    periods (some u) h = (periods none h).map fun p => { p with stop := p.stop.or (some u) } := by
  have hfix : ∀ (e : Event τ β α) (g : List (Event τ β α)),
      (periods (some e) g).map
        (fun p => { p with stop := p.stop.or (some u) }) =
          periods (some e) g := by
    intro e g
    conv_rhs => rw [← List.map_id (periods (some e) g)]
    refine List.map_congr_left fun p hp => ?_
    obtain ⟨v, hv⟩ := Option.isSome_iff_exists.1 (isSome_stop_of_mem_periods hp)
    obtain ⟨_, _, _, _⟩ := p
    simp only at hv
    subst hv
    rfl
  cases h with
  | nil => rfl
  | cons e h =>
    cases ha : e.value with
    | some a =>
      rw [periods_cons_some ha, periods_cons_some ha, List.map_cons, hfix]
      rfl
    | none => rw [periods_cons_none ha, periods_cons_none ha, hfix]

/-- There is an open period iff the newest event asserted something. -/
theorem exists_open_iff {h : List (Event τ β α)} :
    (∃ p ∈ periods none h, p.stop = none) ↔ ∃ e ∈ h.head?, e.value.isSome = true := by
  cases h with
  | nil => simp
  | cons e h =>
    have hclosed : ∀ p ∈ periods (some e) h, p.stop ≠ none := by
      intro p hp hn
      have := isSome_stop_of_mem_periods hp
      rw [hn] at this
      cases this
    cases ha : e.value with
    | some a =>
      rw [periods_cons_some ha]
      exact iff_of_true ⟨_, List.mem_cons_self, rfl⟩ ⟨e, rfl, by rw [ha]; rfl⟩
    | none =>
      rw [periods_cons_none ha]
      refine iff_of_false (fun ⟨p, hp, hn⟩ => hclosed p hp hn) ?_
      rintro ⟨e', ⟨⟩, he⟩
      rw [ha] at he
      cases he

/-- Two assertions in a row make two periods in a row, the older ended by the newer
assertion. -/
theorem infix_periods {e e' : Event τ β α} {a a' : α} (ha : e.value = some a)
    (ha' : e'.value = some a') (g h : List (Event τ β α)) (stop : Option (Event τ β α)) :
    ∃ x, [⟨e.instant, e.author, a, x⟩, ⟨e'.instant, e'.author, a', some e⟩] <:+:
      periods stop (g ++ e :: e' :: h) := by
  induction g generalizing stop with
  | nil =>
    rw [List.nil_append, periods_cons_some ha, periods_cons_some ha']
    exact ⟨stop, [], periods (some e') h, rfl⟩
  | cons d g ih =>
    obtain ⟨x, hx⟩ := ih (some d)
    refine ⟨x, hx.trans ?_⟩
    cases hd : d.value with
    | some b => rw [List.cons_append, periods_cons_some hd]; exact (List.suffix_cons _ _).isInfix
    | none => simp only [List.cons_append, periods_cons_none hd, List.infix_rfl]

variable [LinearOrder τ]

/-- What the subject carries at `s`. -/
def stateAt (h : List (Event τ β α)) (s : τ) : Option α :=
  (h.find? fun e => e.instant ≤ s).bind Event.value

/-- The instants do not increase from newer to older. -/
def Ordered (h : List (Event τ β α)) : Prop := h.Pairwise fun newer older =>
  older.instant ≤ newer.instant

/-- The period contains `s`. -/
def Contains (p : Period τ β α) (s : τ) : Prop := p.start ≤ s ∧ ∀ u ∈ p.stop, s < u.instant

/-- When the history and the event after it end by `t`, so does every period. -/
theorem stop_le_of_mem_periods {h : List (Event τ β α)} {t : τ} (ht : ∀ e ∈ h, e.instant ≤ t)
    {u : Event τ β α} (hu : u.instant ≤ t) {p : Period τ β α} (hp : p ∈ periods (some u) h) :
    ∃ v ∈ p.stop, v.instant ≤ t := by
  induction h generalizing u with
  | nil => cases hp
  | cons e h ih =>
    have hh : ∀ e' ∈ h, e'.instant ≤ t := fun e' he' => ht e' (List.mem_cons_of_mem _ he')
    cases ha : e.value with
    | some a =>
      rw [periods_cons_some ha] at hp
      rcases List.mem_cons.1 hp with rfl | hp
      · exact ⟨u, rfl, hu⟩
      · exact ih hh (ht e List.mem_cons_self) hp
    | none =>
      rw [periods_cons_none ha] at hp
      exact ih hh (ht e List.mem_cons_self) hp

theorem Ordered.le_head {e : Event τ β α} {h : List (Event τ β α)} (ho : Ordered (e :: h)) :
    ∀ e' ∈ h, e'.instant ≤ e.instant := fun _ he' => List.rel_of_pairwise_cons ho he'

theorem Ordered.tail {e : Event τ β α} {h : List (Event τ β α)} (ho : Ordered (e :: h)) :
    Ordered h := List.Pairwise.of_cons ho

/-- The state between two events is the one the older of them asserted. -/
theorem stateAt_cons_of_le {e : Event τ β α} {s : τ} (hs : e.instant ≤ s)
    (h : List (Event τ β α)) : stateAt (e :: h) s = e.value := by
  simp [stateAt, hs]

theorem stateAt_cons_of_lt {e : Event τ β α} {s : τ} (hs : s < e.instant)
    (h : List (Event τ β α)) : stateAt (e :: h) s = stateAt h s := by
  simp [stateAt, not_le.2 hs]

/-- **The subject carries `a` at `s` iff a period of `a` contains `s`.** -/
theorem stateAt_eq_some {h : List (Event τ β α)} (ho : Ordered h) {s : τ}
    {stop : Option (Event τ β α)} (hstop : ∀ u ∈ stop, s < u.instant) {a : α} :
    stateAt h s = some a ↔ ∃ p ∈ periods stop h, p.value = a ∧ Contains p s := by
  induction h generalizing stop with
  | nil => simp [stateAt]
  | cons e h ih =>
    -- once the newest event is at or before `s`, every older period has ended
    have hold : e.instant ≤ s → ∀ p ∈ periods (some e) h, ¬ Contains p s := by
      intro hs p hp hc
      obtain ⟨v, hv, hvt⟩ := stop_le_of_mem_periods ho.le_head le_rfl hp
      exact absurd (hc.2 v hv) (not_lt.2 (hvt.trans hs))
    by_cases hs : e.instant ≤ s
    · rw [stateAt_cons_of_le hs]
      cases hv : e.value with
      | some b =>
        rw [periods_cons_some hv]
        constructor
        · intro hb
          exact ⟨_, List.mem_cons_self, Option.some.inj hb, hs, hstop⟩
        · rintro ⟨p, hp, hpa, hc⟩
          rcases List.mem_cons.1 hp with rfl | hp
          · exact congrArg some hpa
          · exact absurd hc (hold hs p hp)
      | none =>
        rw [periods_cons_none hv]
        constructor
        · intro hb; cases hb
        · rintro ⟨p, hp, -, hc⟩; exact absurd hc (hold hs p hp)
    · rw [stateAt_cons_of_lt (not_le.1 hs),
        @ih ho.tail (some e) (by rintro t ⟨⟩; exact not_le.1 hs)]
      cases hv : e.value with
      | some b =>
        rw [periods_cons_some hv]
        constructor
        · rintro ⟨p, hp, h'⟩; exact ⟨p, List.mem_cons_of_mem _ hp, h'⟩
        · rintro ⟨p, hp, hpa, hc⟩
          rcases List.mem_cons.1 hp with rfl | hp
          · exact absurd hc.1 hs
          · exact ⟨p, hp, hpa, hc⟩
      | none => rw [periods_cons_none hv]

/-- **The periods do not overlap**: each has ended when a newer one begins. -/
theorem periods_disjoint {h : List (Event τ β α)} (ho : Ordered h) (stop : Option (Event τ β α)) :
    (periods stop h).Pairwise fun newer older => ∃ u ∈ older.stop, u.instant ≤ newer.start := by
  induction h generalizing stop with
  | nil => exact List.Pairwise.nil
  | cons e h ih =>
    cases hv : e.value with
    | some b =>
      rw [periods_cons_some hv]
      exact List.pairwise_cons.2
        ⟨fun p hp => stop_le_of_mem_periods ho.le_head le_rfl hp, ih ho.tail _⟩
    | none => rw [periods_cons_none hv]; exact ih ho.tail _

omit [LinearOrder τ] in
/-- The newest period was ended by the event after the history or by one that asserted
nothing. -/
theorem stop_of_head_periods {h : List (Event τ β α)} {stop : Option (Event τ β α)}
    {p : Period τ β α}
    (hp : p ∈ (periods stop h).head?) :
    p.stop = stop ∨ ∃ e ∈ h, e.value = none ∧ p.stop = some e := by
  induction h generalizing stop with
  | nil => cases hp
  | cons e h ih =>
    cases hv : e.value with
    | some b =>
      rw [periods_cons_some hv] at hp
      exact .inl (by rw [← Option.some.inj hp])
    | none =>
      rw [periods_cons_none hv] at hp
      rcases ih hp with h' | ⟨e', he', h'⟩
      · exact .inr ⟨e, List.mem_cons_self, hv, h'⟩
      · exact .inr ⟨e', List.mem_cons_of_mem _ he', h'⟩

omit [LinearOrder τ] in
/-- **Periods abut unless an event that asserted nothing lies between**: a period with a successor
was ended by the event that asserted the successor or by one that asserted nothing. -/
theorem periods_abut (h : List (Event τ β α)) (stop : Option (Event τ β α)) :
    (periods stop h).IsChain fun newer older => ∃ u ∈ older.stop, u ∈ h ∧
      (u = ⟨newer.start, newer.author, some newer.value⟩ ∨ u.value = none) := by
  induction h generalizing stop with
  | nil => exact List.IsChain.nil
  | cons e h ih =>
    have hh : (periods (some e) h).IsChain fun newer older => ∃ u ∈ older.stop, u ∈ e :: h ∧
        (u = ⟨newer.start, newer.author, some newer.value⟩ ∨ u.value = none) :=
      (ih (some e)).imp fun _ _ ⟨u, hu, huh, hc⟩ => ⟨u, hu, List.mem_cons_of_mem _ huh, hc⟩
    cases hv : e.value with
    | some b =>
      rw [periods_cons_some hv, List.isChain_cons]
      refine ⟨fun p hp => ?_, hh⟩
      rcases stop_of_head_periods hp with h' | ⟨e', he', hn, h'⟩
      · exact ⟨e, h', List.mem_cons_self, .inl (by rw [← hv])⟩
      · exact ⟨e', h', List.mem_cons_of_mem _ he', .inr hn⟩
    | none => rw [periods_cons_none hv]; exact hh

omit [LinearOrder τ] in
/-- Two neighbouring periods of a history abut. -/
theorem abut_of_neighbours {h : List (Event τ β α)} {stop : Option (Event τ β α)}
    {newer older : Period τ β α} (hl : [newer, older] <:+: periods stop h) :
    ∃ u ∈ older.stop, u ∈ h ∧
      (u = ⟨newer.start, newer.author, some newer.value⟩ ∨ u.value = none) := by
  obtain ⟨before, after, hperiods⟩ := hl
  have hchain := periods_abut h stop
  rw [← hperiods] at hchain
  exact List.isChain_pair.1 hchain.left_of_append.right_of_append

end Timeline

end SteleDb
