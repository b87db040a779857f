import Mathlib

/-!
# Ordered maps that file a value under its own key

`OrdMap κ ν` is the standard extensional tree map over a linear order: the meaning of an ordered
map whose iteration order is the key order.  Many tables of a store go one step further and file
every value under a key computed from the value itself.  `KeyedMap key` carries that as a field,
so that a map which answers a lookup with a foreign value cannot be built, and membership of a
value decides everything about the map:

* `KeyedMap.ext_mem` : two such maps with the same values are equal;
* `KeyedMap.mem_insert` : an insert adds a value and evicts the one filed under the same key;
* `KeyedMap.mem_ofList` : folding a list of values without two different values of one key into
  the empty map loses and adds nothing;
* `KeyedMap.lastLE_eq_some` : the last value at or below a bound, the `range(..=b).next_back()`
  of an ordered map, is the greatest of the values at or below the bound.
-/

namespace SteleDb

/-- An ordered map: iteration is in key order, and equal lookups make equal maps. -/
abbrev OrdMap (κ ν : Type*) [LinearOrder κ] := Std.ExtTreeMap κ ν compare

namespace OrdMap

variable {κ ν : Type*} [LinearOrder κ]

theorem ext {m m' : OrdMap κ ν} (h : ∀ k : κ, m[k]? = m'[k]?) : m = m' :=
  Std.ExtTreeMap.ext_getElem? h

theorem getElem?_insert (m : OrdMap κ ν) (a b : κ) (v : ν) :
    (m.insert a v)[b]? = if a = b then some v else m[b]? := by
  simp [Std.ExtTreeMap.getElem?_insert]

theorem getElem?_erase (m : OrdMap κ ν) (a b : κ) :
    (m.erase a)[b]? = if a = b then none else m[b]? := by
  simp [Std.ExtTreeMap.getElem?_erase]

theorem getElem?_filter (m : OrdMap κ ν) (p : ν → Bool) (k : κ) :
    (m.filter fun _ v => p v)[k]? = m[k]?.filter p := by
  simp [Std.ExtTreeMap.getElem?_filter]

theorem getElem?_map {ν' : Type*} (m : OrdMap κ ν) (f : κ → ν → ν') (k : κ) :
    (m.map f)[k]? = m[k]?.map (f k) := by
  simp [Std.ExtTreeMap.getElem?_map]

/-- Fold `(key, value)` pairs into a map; a later pair replaces an earlier one of its key. -/
def insertAll (m : OrdMap κ ν) (l : List (κ × ν)) : OrdMap κ ν :=
  l.foldl (fun m e => m.insert e.1 e.2) m

@[simp] theorem insertAll_cons (m : OrdMap κ ν) (e : κ × ν) (l : List (κ × ν)) :
    insertAll m (e :: l) = insertAll (m.insert e.1 e.2) l := rfl

/-- A key that no pair of the list carries keeps its entry. -/
theorem getElem?_insertAll_of_notMem {l : List (κ × ν)} {k : κ} (h : ∀ e ∈ l, e.1 ≠ k)
    (m : OrdMap κ ν) : (insertAll m l)[k]? = m[k]? := by
  induction l generalizing m with
  | nil => rfl
  | cons e l ih =>
    rw [insertAll_cons, ih fun x hx => h x (List.mem_cons_of_mem _ hx), getElem?_insert,
      if_neg (h e List.mem_cons_self)]

/-- When every pair of the list with key `k` has the same value, that value is what `k` ends up
with. -/
theorem getElem?_insertAll_of_mem {l : List (κ × ν)} {k : κ} {v : ν} (hmem : (k, v) ∈ l)
    (h : ∀ e ∈ l, e.1 = k → e.2 = v) (m : OrdMap κ ν) : (insertAll m l)[k]? = some v := by
  induction l generalizing m with
  | nil => cases hmem
  | cons e l ih =>
    have hl : ∀ x ∈ l, x.1 = k → x.2 = v := fun x hx => h x (List.mem_cons_of_mem _ hx)
    rw [insertAll_cons]
    by_cases hk : ∃ x ∈ l, x.1 = k
    · obtain ⟨x, hx, hxk⟩ := hk
      have hxv : (k, v) ∈ l := by rw [← hxk, ← hl x hx hxk]; exact hx
      exact ih hxv hl _
    · have hne : ∀ x ∈ l, x.1 ≠ k := fun x hx hxk => hk ⟨x, hx, hxk⟩
      have he : (k, v) = e := by
        rcases List.mem_cons.1 hmem with he | hl'
        · exact he
        · exact absurd rfl (hne _ hl')
      rw [getElem?_insertAll_of_notMem hne, ← he, getElem?_insert, if_pos rfl]

/-- The entries are in strictly increasing key order. -/
theorem toList_pairwise (m : OrdMap κ ν) : m.toList.Pairwise fun a b => a.1 < b.1 := by
  refine Std.ExtTreeMap.ordered_keys_toList.imp fun {a b} h => ?_
  exact compare_lt_iff_lt.1 h

theorem mem_toList {m : OrdMap κ ν} {k : κ} {v : ν} : (k, v) ∈ m.toList ↔ m[k]? = some v :=
  Std.ExtTreeMap.mem_toList_iff_getElem?_eq_some

end OrdMap

/-- An ordered map in which every value is filed under its own key. -/
structure KeyedMap {κ ν : Type*} [LinearOrder κ] (key : ν → κ) where
  /-- The underlying map. -/
  entries : OrdMap κ ν
  /-- Every value is filed under its own key. -/
  keyed : ∀ {k v}, entries[k]? = some v → key v = k

namespace KeyedMap

variable {κ ν : Type*} [LinearOrder κ] {key : ν → κ}

/-- The map with no value. -/
def empty : KeyedMap key := ⟨∅, fun h => by simp at h⟩

/-- The values in key order. -/
def values (m : KeyedMap key) : List ν := m.entries.toList.map Prod.snd

instance : Membership ν (KeyedMap key) := ⟨fun m v => m.entries[key v]? = some v⟩

/-- File `v` under its key, evicting the value filed there. -/
def insert (m : KeyedMap key) (v : ν) : KeyedMap key :=
  ⟨m.entries.insert (key v) v, fun {k w} h => by
    rw [OrdMap.getElem?_insert] at h
    split_ifs at h with hk
    · rw [← Option.some.inj h, hk]
    · exact m.keyed h⟩

/-- Remove the value filed under `k`. -/
def erase (m : KeyedMap key) (k : κ) : KeyedMap key :=
  ⟨m.entries.erase k, fun {k' w} h => by
    rw [OrdMap.getElem?_erase] at h
    split_ifs at h with hk
    exact m.keyed h⟩

/-- The value filed under `k`. -/
def find? (m : KeyedMap key) (k : κ) : Option ν := m.entries[k]?

/-- Rewrite every value in place; the rewriting keeps each value's key. -/
def mapValues (m : KeyedMap key) (f : ν → ν) (hf : ∀ v, key (f v) = key v) : KeyedMap key :=
  ⟨m.entries.map fun _ v => f v, fun {k v} h => by
    rw [Std.ExtTreeMap.getElem?_map, Option.map_eq_some_iff] at h
    obtain ⟨w, hw, rfl⟩ := h
    rw [hf, m.keyed hw]⟩

/-- Fold a list of values into a map; a later value evicts an earlier one of its key. -/
def insertAll (m : KeyedMap key) (l : List ν) : KeyedMap key := l.foldl insert m

/-- The map of a list of values. -/
def ofList (l : List ν) : KeyedMap key := empty.insertAll l

/-- The last value whose key is at or below `b`: `range(..=b).next_back()`. -/
def lastLE (m : KeyedMap key) (b : κ) : Option ν :=
  (m.values.filter fun v => key v ≤ b).getLast?

theorem mem_def {m : KeyedMap key} {v : ν} : v ∈ m ↔ m.entries[key v]? = some v := Iff.rfl

theorem find?_eq_some {m : KeyedMap key} {k : κ} {v : ν} :
    m.find? k = some v ↔ v ∈ m ∧ key v = k := by
  constructor
  · intro h
    have hk := m.keyed h
    exact ⟨by rw [mem_def, hk]; exact h, hk⟩
  · rintro ⟨hm, rfl⟩; exact hm

theorem find?_eq_none {m : KeyedMap key} {k : κ} :
    m.find? k = none ↔ ∀ v ∈ m, key v ≠ k := by
  constructor
  · rintro h v hv rfl
    rw [show m.find? (key v) = some v from hv] at h
    cases h
  · intro h
    cases hf : m.find? k with
    | none => rfl
    | some v => exact absurd (find?_eq_some.1 hf).2 (h v (find?_eq_some.1 hf).1)

theorem mem_values {m : KeyedMap key} {v : ν} : v ∈ m.values ↔ v ∈ m := by
  simp only [values, List.mem_map, Prod.exists, exists_eq_right]
  constructor
  · rintro ⟨k, hk⟩
    have h := OrdMap.mem_toList.1 hk
    rw [mem_def, m.keyed h]; exact h
  · intro h
    exact ⟨key v, OrdMap.mem_toList.2 h⟩

/-- A map holds at most one value of a key. -/
theorem eq_of_mem {m : KeyedMap key} {v w : ν} (hv : v ∈ m) (hw : w ∈ m) (h : key v = key w) :
    v = w := by
  rw [mem_def, h, mem_def.1 hw] at hv
  exact (Option.some.inj hv).symm

/-- **The values decide the map.** -/
theorem ext_mem {m m' : KeyedMap key} (h : ∀ v, v ∈ m ↔ v ∈ m') : m = m' := by
  have he : m.entries = m'.entries := by
    apply OrdMap.ext
    intro k
    apply Option.ext
    intro v
    change m.find? k = some v ↔ m'.find? k = some v
    rw [find?_eq_some, find?_eq_some, h]
  obtain ⟨e, _⟩ := m
  obtain ⟨e', _⟩ := m'
  simp only at he
  subst he
  rfl

@[simp] theorem not_mem_empty (v : ν) : v ∉ (empty : KeyedMap key) := by
  simp [mem_def, empty]

theorem mem_insert {m : KeyedMap key} {v w : ν} :
    w ∈ m.insert v ↔ w = v ∨ (w ∈ m ∧ key w ≠ key v) := by
  simp only [mem_def, insert, OrdMap.getElem?_insert]
  split_ifs with h
  · constructor
    · intro hw; exact .inl (Option.some.inj hw).symm
    · rintro (rfl | ⟨-, hne⟩)
      · rfl
      · exact absurd h.symm hne
  · constructor
    · intro hw; exact .inr ⟨hw, fun e => h e.symm⟩
    · rintro (rfl | ⟨hw, -⟩)
      · exact absurd rfl h
      · exact hw

theorem mem_erase {m : KeyedMap key} {k : κ} {w : ν} : w ∈ m.erase k ↔ w ∈ m ∧ key w ≠ k := by
  simp only [mem_def, erase, OrdMap.getElem?_erase]
  split_ifs with h
  · constructor
    · intro hw; cases hw
    · rintro ⟨-, hne⟩; exact absurd h.symm hne
  · exact ⟨fun hw => ⟨hw, fun e => h e.symm⟩, fun hw => hw.1⟩

theorem erase_of_notMem {m : KeyedMap key} {k : κ} (h : ∀ v ∈ m, key v ≠ k) : m.erase k = m :=
  ext_mem fun v => mem_erase.trans ⟨And.left, fun hv => ⟨hv, h v hv⟩⟩

/-- Taking back a value filed under a new key. -/
theorem erase_insert {m : KeyedMap key} {v : ν} (h : ∀ w ∈ m, key w ≠ key v) :
    (m.insert v).erase (key v) = m := by
  refine ext_mem fun w => ?_
  rw [mem_erase, mem_insert]
  constructor
  · rintro ⟨rfl | ⟨hw, -⟩, hne⟩
    · exact absurd rfl hne
    · exact hw
  · exact fun hw => ⟨.inr ⟨hw, h w hw⟩, h w hw⟩

theorem mem_mapValues {m : KeyedMap key} {f : ν → ν} {hf : ∀ v, key (f v) = key v} {w : ν} :
    w ∈ m.mapValues f hf ↔ ∃ v ∈ m, f v = w := by
  simp only [mem_def, mapValues, Std.ExtTreeMap.getElem?_map, Option.map_eq_some_iff]
  constructor
  · rintro ⟨v, hv, rfl⟩
    exact ⟨v, by rw [← hf]; exact hv, rfl⟩
  · rintro ⟨v, hv, rfl⟩
    exact ⟨v, by rw [hf]; exact hv, rfl⟩

theorem mem_insertAll_subset {m : KeyedMap key} {l : List ν} {w : ν} (h : w ∈ m.insertAll l) :
    w ∈ m ∨ w ∈ l := by
  induction l generalizing m with
  | nil => exact .inl h
  | cons a l ih =>
    rcases ih (m := m.insert a) h with hm | hl
    · rcases mem_insert.1 hm with rfl | ⟨hm, -⟩
      · exact .inr List.mem_cons_self
      · exact .inl hm
    · exact .inr (List.mem_cons_of_mem _ hl)

/-- Folding in values that clash with nothing, neither among themselves nor in the map, adds
exactly them. -/
theorem mem_insertAll {m : KeyedMap key} {l : List ν} {w : ν}
    (h : ∀ a, a ∈ m ∨ a ∈ l → ∀ b ∈ l, key a = key b → a = b) :
    w ∈ m.insertAll l ↔ w ∈ m ∨ w ∈ l := by
  induction l generalizing m with
  | nil => simp [insertAll]
  | cons b l ih =>
    have hins : ∀ x, x ∈ m.insert b ↔ x = b ∨ x ∈ m := by
      intro x
      rw [mem_insert]
      constructor
      · rintro (rfl | ⟨hx, -⟩)
        · exact .inl rfl
        · exact .inr hx
      · rintro (rfl | hx)
        · exact .inl rfl
        · by_cases hk : key x = key b
          · exact .inl (h x (.inl hx) b List.mem_cons_self hk)
          · exact .inr ⟨hx, hk⟩
    have hrest : ∀ x, x ∈ m.insert b ∨ x ∈ l → ∀ y ∈ l, key x = key y → x = y := by
      rintro x (hx | hx) y hy hxy
      · rcases (hins x).1 hx with rfl | hx
        · exact h x (.inr List.mem_cons_self) y (List.mem_cons_of_mem _ hy) hxy
        · exact h x (.inl hx) y (List.mem_cons_of_mem _ hy) hxy
      · exact h x (.inr (List.mem_cons_of_mem _ hx)) y (List.mem_cons_of_mem _ hy) hxy
    change w ∈ (m.insert b).insertAll l ↔ _
    rw [ih hrest, hins, List.mem_cons]
    constructor
    · rintro ((rfl | hm) | hl)
      · exact .inr (.inl rfl)
      · exact .inl hm
      · exact .inr (.inr hl)
    · rintro (hm | rfl | hl)
      · exact .inl (.inr hm)
      · exact .inl (.inl rfl)
      · exact .inr hl

theorem mem_of_mem_ofList {l : List ν} {w : ν} (h : w ∈ (ofList l : KeyedMap key)) : w ∈ l := by
  rcases mem_insertAll_subset h with hm | hl
  · exact absurd hm (not_mem_empty w)
  · exact hl

/-- **Folding a list without clashing values loses and adds nothing.** -/
theorem mem_ofList {l : List ν} {w : ν} (h : ∀ a ∈ l, ∀ b ∈ l, key a = key b → a = b) :
    w ∈ (ofList l : KeyedMap key) ↔ w ∈ l := by
  rw [ofList, mem_insertAll fun a ha => h a (ha.resolve_left (not_mem_empty a))]
  simp

theorem values_pairwise (m : KeyedMap key) : m.values.Pairwise fun a b => key a < key b := by
  rw [values, List.pairwise_map]
  refine (OrdMap.toList_pairwise m.entries).imp_of_mem fun {a b} ha hb h => ?_
  rwa [m.keyed (OrdMap.mem_toList.1 ha), m.keyed (OrdMap.mem_toList.1 hb)]

theorem values_nodup (m : KeyedMap key) : m.values.Nodup :=
  m.values_pairwise.imp fun {a b} hab heq => absurd hab (by rw [heq]; exact lt_irrefl _)

/-- The values are the one list of the map's members in key order. -/
theorem values_eq {m : KeyedMap key} {l : List ν} (hl : l.Pairwise fun a b => key a < key b)
    (h : ∀ v, v ∈ m ↔ v ∈ l) : m.values = l := by
  have hnd : l.Nodup := hl.imp fun {a b} hab heq => absurd hab (by rw [heq]; exact lt_irrefl _)
  have hperm : m.values.Perm l := (List.perm_ext_iff_of_nodup m.values_nodup hnd).2
    fun v => mem_values.trans (h v)
  exact hperm.eq_of_pairwise (fun a b _ _ hab hba => absurd (hab.trans hba) (lt_irrefl _))
    m.values_pairwise hl

@[simp] theorem values_empty : (empty : KeyedMap key).values = [] :=
  values_eq List.Pairwise.nil (by simp)

/-- A member comes apart from the rest of the values. -/
theorem values_perm_erase {m : KeyedMap key} {v : ν} (h : v ∈ m) :
    m.values.Perm (v :: (m.erase (key v)).values) := by
  have hv : v ∉ (m.erase (key v)).values := by
    rw [mem_values, mem_erase]
    exact fun hv => hv.2 rfl
  rw [List.perm_ext_iff_of_nodup m.values_nodup (List.nodup_cons.2 ⟨hv, values_nodup _⟩)]
  intro w
  rw [List.mem_cons, mem_values, mem_values, mem_erase]
  constructor
  · intro hw
    by_cases hk : key w = key v
    · exact .inl (eq_of_mem hw h hk)
    · exact .inr ⟨hw, hk⟩
  · rintro (rfl | ⟨hw, -⟩)
    · exact h
    · exact hw

theorem erase_insert_self (m : KeyedMap key) (v : ν) :
    (m.insert v).erase (key v) = m.erase (key v) := by
  refine ext_mem fun w => ?_
  rw [mem_erase, mem_erase, mem_insert]
  constructor
  · rintro ⟨rfl | ⟨hw, -⟩, hk⟩
    · exact absurd rfl hk
    · exact ⟨hw, hk⟩
  · rintro ⟨hw, hk⟩
    exact ⟨.inr ⟨hw, hk⟩, hk⟩

/-- The map of a list with an element has one. -/
theorem eq_nil_of_values_insertAll {m : KeyedMap key} {l : List ν}
    (h : (m.insertAll l).values = []) : l = [] := by
  rcases l.eq_nil_or_concat' with rfl | ⟨l', v, rfl⟩
  · rfl
  · have hv : v ∈ m.insertAll (l' ++ [v]) := by
      rw [insertAll, List.foldl_append]
      exact mem_insert.2 (.inl rfl)
    rw [← mem_values, h] at hv
    cases hv

end KeyedMap

/-- In a list in strictly increasing key order, the last element satisfying `p` is the greatest
one. -/
theorem getLast?_filter_eq_some {κ ν : Type*} [LinearOrder κ] {key : ν → κ} {p : ν → Bool}
    {l : List ν} (hl : l.Pairwise fun a b => key a < key b) {v : ν} :
    (l.filter p).getLast? = some v ↔
      v ∈ l ∧ p v = true ∧ ∀ w ∈ l, p w = true → key w ≤ key v := by
  have hf : (l.filter p).Pairwise fun a b => key a < key b := hl.filter p
  constructor
  · intro h
    have hv : v ∈ l.filter p := List.mem_of_getLast? h
    refine ⟨(List.mem_filter.1 hv).1, (List.mem_filter.1 hv).2, fun w hw hpw => ?_⟩
    obtain ⟨pre, hpre⟩ := List.getLast?_eq_some_iff.1 h
    have hw' : w ∈ pre ++ [v] := hpre ▸ List.mem_filter.2 ⟨hw, hpw⟩
    rw [hpre, List.pairwise_append] at hf
    rcases List.mem_append.1 hw' with hw' | hw'
    · exact (hf.2.2 w hw' v List.mem_cons_self).le
    · rw [List.mem_singleton.1 hw']
  · rintro ⟨hv, hpv, hmax⟩
    cases hlast : (l.filter p).getLast? with
    | none =>
      rw [List.getLast?_eq_none_iff] at hlast
      exact absurd (List.mem_filter.2 ⟨hv, hpv⟩) (by simp [hlast])
    | some u =>
      obtain ⟨pre, hpre⟩ := List.getLast?_eq_some_iff.1 hlast
      have hu : u ∈ l.filter p := List.mem_of_getLast? hlast
      have hle := hmax u (List.mem_filter.1 hu).1 (List.mem_filter.1 hu).2
      have hv' : v ∈ pre ++ [u] := hpre ▸ List.mem_filter.2 ⟨hv, hpv⟩
      rw [hpre, List.pairwise_append] at hf
      rcases List.mem_append.1 hv' with hv' | hv'
      · exact absurd (hf.2.2 v hv' u List.mem_cons_self) (not_lt.2 hle)
      · rw [List.mem_singleton.1 hv']

namespace KeyedMap

variable {κ ν : Type*} [LinearOrder κ] {key : ν → κ}

theorem lastLE_eq_some {m : KeyedMap key} {b : κ} {v : ν} :
    m.lastLE b = some v ↔ v ∈ m ∧ key v ≤ b ∧ ∀ w ∈ m, key w ≤ b → key w ≤ key v := by
  rw [lastLE, getLast?_filter_eq_some m.values_pairwise]
  simp only [mem_values, decide_eq_true_eq]

end KeyedMap

end SteleDb
