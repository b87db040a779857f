import SteleDb.Lib.KeyedMap

/-!
# Filing rows by a key

`groupFold` folds each row into the state that an ordered map has under the row's key;
`firstOfEach` keeps the first row of each key.  What the map has under a key depends only on the
rows with that key, in their order (`getElem?_groupFold`, `getElem?_firstOfEach`).
-/

namespace SteleDb

namespace OrdMap

variable {κ β γ : Type*} [LinearOrder κ]

local instance transCmp_key : Std.TransCmp (@compare κ LinearOrder.toOrd) := inferInstance

/-- Fold rows into the states of their keys; `fresh` makes the state of a key's first row. -/
def groupFold (key : β → κ) (fresh : β → γ) (step : γ → β → γ) (init : OrdMap κ γ) (rows : List β) :
    OrdMap κ γ :=
  rows.foldl (fun m r => m.insert (key r) (step (m[key r]?.getD (fresh r)) r)) init

variable {key : β → κ} {fresh : β → γ} {step : γ → β → γ}

theorem getElem?_groupFold (init : OrdMap κ γ) (rows : List β) (k : κ) :
    (groupFold key fresh step init rows)[k]? =
      (rows.filter fun r => key r = k).foldl (fun s r => some (step (s.getD (fresh r)) r))
        init[k]? := by
  induction rows generalizing init with
  | nil => rfl
  | cons r rows ih =>
    rw [groupFold, List.foldl_cons, ← groupFold, ih, getElem?_insert]
    by_cases hk : key r = k
    · subst hk
      simp
    · simp [hk]

theorem foldl_some (s : γ) (rows : List β) :
    rows.foldl (fun s r => some (step (s.getD (fresh r)) r)) (some s) =
      some (rows.foldl step s) := by
  induction rows generalizing s with
  | nil => rfl
  | cons r rows ih => exact ih (step s r)

-- the rows of a key are given by any test for it, so that a caller can bring its own
variable {rows : List β} {k : κ} {p : β → Bool}

/-- The state of a key that was not there before. -/
theorem getElem?_groupFold_of_none {init : OrdMap κ γ} (hp : ∀ r ∈ rows, p r = true ↔ key r = k)
    (h : init[k]? = none) :
    (groupFold key fresh step init rows)[k]? =
      (rows.filter p).head?.map fun r => (rows.filter p).foldl step (fresh r) := by
  have hfilter : (rows.filter fun r => key r = k) = rows.filter p :=
    List.filter_congr fun r hr => by rw [Bool.eq_iff_iff, hp r hr, decide_eq_true_iff]
  rw [getElem?_groupFold, h, hfilter]
  cases rows.filter p with
  | nil => rfl
  | cons r rs => exact foldl_some _ rs

theorem getElem?_groupFold_of_some {init : OrdMap κ γ} {s : γ}
    (hp : ∀ r ∈ rows, p r = true ↔ key r = k) (h : init[k]? = some s) :
    (groupFold key fresh step init rows)[k]? = some ((rows.filter p).foldl step s) := by
  have hfilter : (rows.filter fun r => key r = k) = rows.filter p :=
    List.filter_congr fun r hr => by rw [Bool.eq_iff_iff, hp r hr, decide_eq_true_iff]
  rw [getElem?_groupFold, h, hfilter]
  exact foldl_some s _

/-- The first row of each key. -/
def firstOfEach (key : β → κ) (rows : List β) : OrdMap κ β :=
  rows.foldl (fun m r => m.insertIfNew (key r) r) ∅

theorem getElem?_firstOfEach (hp : ∀ r ∈ rows, p r = true ↔ key r = k) :
    (firstOfEach key rows)[k]? = rows.find? p := by
  -- the same onto any map that has something for the keys it has
  suffices h : ∀ m : OrdMap κ β,
      (rows.foldl (fun m r => m.insertIfNew (key r) r) m)[k]? = m[k]?.or (rows.find? p) by
    rw [firstOfEach, h]
    simp
  induction rows with
  | nil => simp
  | cons r rows ih =>
    intro m
    have hr := hp r List.mem_cons_self
    rw [List.foldl_cons, ih fun s hs => hp s (List.mem_cons_of_mem _ hs),
      Std.ExtTreeMap.getElem?_insertIfNew]
    by_cases hk : key r = k
    · have htrue := hr.2 hk
      subst hk
      by_cases hm : key r ∈ m <;> simp [hm, htrue]
    · have hfalse : p r = false := by
        rw [← Bool.not_eq_true, hr]
        exact hk
      simp [hk, hfalse]

end OrdMap

end SteleDb
