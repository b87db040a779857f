import SteleDb.Exec.Expr
import SteleDb.Lib.ExceptMap
import SteleDb.Storage.RedoCodec

/-!
# Values in the range of their types

An integer of a type is in the range of the type, a UUID has 16 bytes and a double 64 bits.  Among
values of one type that fit, three notions of equality agree: equality of the values, of their
canonical encodings, which grouping and joining compare, and the order that the evaluator computes.

* `ScalarValue.encode_inj` : the encoding of a type is injective;
* `ScalarValue.order_eq_eq` : the order reports two values as equal exactly if they are;
* `ScalarValue.order_eq_cmp` : the order of a type is that of lists of numbers;
* `fits_decode`, `fits_evalRow` : what is read from bytes fits, and what is computed from values
  that fit.
-/

namespace SteleDb

/-- The number fits an `i32`. -/
def FitsI32 (x : ℤ) : Prop := -2 ^ 31 ≤ x ∧ x < 2 ^ 31

instance (x : ℤ) : Decidable (FitsI32 x) := inferInstanceAs (Decidable (_ ∧ _))

theorem i32OfLeBytes_i32ToLeBytes {x : ℤ} (h : FitsI32 x) : i32OfLeBytes (i32ToLeBytes x) = x := by
  obtain ⟨h, h'⟩ := h
  have hlt : (x % 2 ^ 32).toNat < 256 ^ 4 := by omega
  unfold i32OfLeBytes i32ToLeBytes
  rw [leNat_leBytes_mod, Nat.mod_eq_of_lt hlt]
  dsimp only
  split_ifs <;> omega

theorem fitsI32_i32OfLeBytes {bs : Bytes} (h : bs.length = 4) : FitsI32 (i32OfLeBytes bs) := by
  have hlt := leNat_lt bs
  rw [h] at hlt
  unfold FitsI32 i32OfLeBytes
  dsimp only
  split_ifs <;> omega

theorem i32ToLeBytes_inj {x y : ℤ} (hx : FitsI32 x) (hy : FitsI32 y)
    (h : i32ToLeBytes x = i32ToLeBytes y) : x = y := by
  rw [← i32OfLeBytes_i32ToLeBytes hx, h, i32OfLeBytes_i32ToLeBytes hy]

theorem i64ToLeBytes_inj {x y : ℤ} (hx : FitsI64 x) (hy : FitsI64 y)
    (h : i64ToLeBytes x = i64ToLeBytes y) : x = y := by
  rw [← i64OfLeBytes_i64ToLeBytes hx.1 hx.2, h, i64OfLeBytes_i64ToLeBytes hy.1 hy.2]

theorem narrow_fits {bits : ℕ} {m x y : ℤ} (hm : (2 : ℤ) ^ (bits - 1) = m)
    (h : narrow bits x = some y) : -m ≤ y ∧ y < m := by
  rw [narrow, hm] at h
  split_ifs at h with hx
  cases h
  exact hx

theorem checkedArith_fits {bits : ℕ} {op : ArithOp} {m x y z : ℤ} (hm : (2 : ℤ) ^ (bits - 1) = m)
    (hx : -m ≤ x ∧ x < m) (h : checkedArith bits op x y = some z) : -m ≤ z ∧ z < m := by
  cases op with
  | add | sub | mul => exact narrow_fits hm h
  | div =>
    rw [checkedArith] at h
    split_ifs at h
    exact narrow_fits hm h
  | mod =>
    rw [checkedArith] at h
    split_ifs at h
    obtain ⟨q, -, rfl⟩ := Option.map_eq_some_iff.1 h
    -- a remainder has the sign of the dividend and is not larger
    have hle : (x.tmod y).natAbs ≤ x.natAbs := by
      rw [Int.natAbs_tmod]
      exact Nat.mod_le _ _
    rcases le_total 0 x with hpos | hneg
    · have hsign := Int.tmod_nonneg y hpos
      omega
    · have hsign := Int.tmod_nonneg y (neg_nonneg.2 hneg)
      rw [Int.neg_tmod] at hsign
      omega

namespace ScalarValue

/-- The value is in the range of its type. -/
def Fits : ScalarValue → Prop
  | int4 v | date v => FitsI32 v
  | int8 v | timestamp v | timestampTz v => FitsI64 v
  | period start stop => FitsI64 start ∧ FitsI64 stop
  | uuid raw => raw.length = 16
  | float8 bits => bits < 2 ^ 64
  | text _ | bool _ | bytea _ => True

instance : DecidablePred Fits
  | int4 v | date v => inferInstanceAs (Decidable (FitsI32 v))
  | int8 v | timestamp v | timestampTz v => inferInstanceAs (Decidable (FitsI64 v))
  | period start stop => inferInstanceAs (Decidable (FitsI64 start ∧ FitsI64 stop))
  | uuid raw => inferInstanceAs (Decidable (raw.length = 16))
  | float8 bits => inferInstanceAs (Decidable (bits < 2 ^ 64))
  | text _ | bool _ | bytea _ => .isTrue trivial

/-- **The encoding of a type is injective.** -/
theorem encode_inj {a b : ScalarValue} (ha : a.Fits) (hb : b.Fits)
    (hty : a.logicalType = b.logicalType) (h : a.encode = b.encode) : a = b := by
  cases a with
  | int4 x =>
    cases b <;> first | exact congrArg int4 (i32ToLeBytes_inj ha hb h) | cases hty
  | date x =>
    cases b <;> first | exact congrArg date (i32ToLeBytes_inj ha hb h) | cases hty
  | int8 x =>
    cases b <;> first | exact congrArg int8 (i64ToLeBytes_inj ha hb h) | cases hty
  | timestamp x =>
    cases b <;> first | exact congrArg timestamp (i64ToLeBytes_inj ha hb h) | cases hty
  | timestampTz x =>
    cases b <;> first | exact congrArg timestampTz (i64ToLeBytes_inj ha hb h) | cases hty
  | text s => cases b <;> first | exact congrArg text h | cases hty
  | uuid raw => cases b <;> first | exact congrArg uuid h | cases hty
  | bytea raw => cases b <;> first | exact congrArg bytea h | cases hty
  | bool x =>
    cases b <;> first | (cases hty; done) | skip
    case bool y => cases x <;> cases y <;> first | rfl | simp [encode] at h
  | period x x' =>
    cases b <;> first | (cases hty; done) | skip
    case period y y' =>
      obtain ⟨h₁, h₂⟩ := List.append_inj h (by simp [i64ToLeBytes])
      rw [i64ToLeBytes_inj ha.1 hb.1 h₁, i64ToLeBytes_inj ha.2 hb.2 h₂]
  | float8 x =>
    cases b <;> first | (cases hty; done) | skip
    case float8 y =>
      have hx : x % 256 ^ 8 = y % 256 ^ 8 := by
        rw [← leNat_leBytes_mod, ← leNat_leBytes_mod]
        exact congrArg leNat h
      have ha' : x < 2 ^ 64 := ha
      have hb' : y < 2 ^ 64 := hb
      rw [show x = y by omega]

theorem totalOrderKey_inj {x y : ℕ} (h : totalOrderKey x = totalOrderKey y) : x = y := by
  simp only [totalOrderKey] at h
  split_ifs at h <;> omega

theorem cmpPeriod_eq_eq {a b : ℤ × ℤ} : cmpPeriod a b = .eq ↔ a = b := by
  rw [cmpPeriod, Ordering.then_eq_eq, cmp_eq_eq_iff, cmp_eq_eq_iff, Prod.ext_iff]

-- the order of byte strings is decided by the instance for lists, not by that of the linear order
theorem cmp_bytes_eq_eq {x y : Bytes} : cmp x y = .eq ↔ x = y := by
  unfold cmp cmpUsing
  split_ifs with h h'
  · simp [h.ne]
  · simp [h'.ne']
  · simp [le_antisymm (not_lt.1 h') (not_lt.1 h)]

/-- **The order of a type reports equality.** -/
theorem order_eq_eq {a b : ScalarValue} (hty : a.logicalType = b.logicalType) :
    a.order b = some .eq ↔ a = b := by
  cases a <;> cases b <;> first
    | (cases hty; done)
    | (simp [order, cmp_eq_eq_iff]; done)
    | (simp [order, cmpPeriod_eq_eq]; done)
    | (simp [order, cmp_bytes_eq_eq]; done)
    | skip
  simp only [order, asF64, bind, Option.bind, totalCmp, Option.some.injEq, cmp_eq_eq_iff]
  exact ⟨fun h => congrArg float8 (totalOrderKey_inj h), fun h => by cases h; rfl⟩

/-- A comparison for equality is true of equal values. -/
theorem compare_eq_true {a b : ScalarValue} (hty : a.logicalType = b.logicalType) :
    compare .eq a b = some (bool true) ↔ a = b := by
  rw [← order_eq_eq hty, compare, Option.map_eq_some_iff]
  constructor
  · rintro ⟨o, ho, heq⟩
    cases o <;> simp [applyCmp] at heq
    exact ho
  · intro h
    exact ⟨.eq, h, rfl⟩

/-- What is read from bytes fits its type. -/
theorem fits_decode {ty : LogicalType} {bytes : Bytes} {v : ScalarValue}
    (h : decode ty bytes = .ok v) : v.Fits := by
  have hfixed : ∀ {n raw}, fixed ty n bytes = .ok raw → raw.length = n := by
    intro n raw hf
    rw [fixed] at hf
    split_ifs at hf with hlen
    cases hf
    exact hlen
  cases ty
  case text =>
    rw [decode] at h
    split_ifs at h
    cases h
    exact trivial
  case bytea =>
    cases h
    exact trivial
  case period =>
    simp only [decode] at h
    cases hf : fixed .period 16 bytes with
    | error e => simp [hf, bind, Except.bind] at h
    | ok raw =>
      simp only [hf, bind, Except.bind] at h
      split_ifs at h
      cases h
      have hlen := hfixed hf
      exact ⟨fitsI64_i64OfLeBytes (by simp [hlen]), fitsI64_i64OfLeBytes (by simp [hlen])⟩
  case float8 =>
    obtain ⟨raw, hf, rfl⟩ := exists_of_map_ok h
    have hlt := leNat_lt raw
    rw [hfixed hf] at hlt
    exact lt_of_lt_of_eq hlt (by norm_num)
  case bool =>
    obtain ⟨raw, hf, rfl⟩ := exists_of_map_ok h
    exact trivial
  case uuid =>
    obtain ⟨raw, hf, rfl⟩ := exists_of_map_ok h
    exact hfixed hf
  case int4 | date =>
    obtain ⟨raw, hf, rfl⟩ := exists_of_map_ok h
    exact fitsI32_i32OfLeBytes (hfixed hf)
  all_goals
    obtain ⟨raw, hf, rfl⟩ := exists_of_map_ok h
    exact fitsI64_i64OfLeBytes (hfixed hf)

end ScalarValue

/-! ### Sorting -/

theorem map_val_lt {s t : Bytes} :
    s.map (fun b => (b.val : ℤ)) < t.map (fun b => (b.val : ℤ)) ↔ s < t := by
  induction s generalizing t with
  | nil => cases t <;> simp
  | cons b s ih =>
    cases t with
    | nil => simp
    | cons c t =>
      rw [List.map_cons, List.map_cons, List.cons_lt_cons_iff, List.cons_lt_cons_iff, ih]
      simp [Fin.ext_iff]

theorem cmp_list_eq_lt {x y : List ℤ} : cmp x y = .lt ↔ x < y := by
  unfold cmp cmpUsing
  split_ifs with h <;> simp [h]

theorem cmp_list_eq_gt {x y : List ℤ} : cmp x y = .gt ↔ y < x := by
  unfold cmp cmpUsing
  split_ifs with h h'
  · simp [h.le]
  · simp [h']
  · simp [h']

namespace ScalarValue

/-- The numbers that a type sorts by, first one first. -/
def sortKey : ScalarValue → List ℤ
  | int4 v | int8 v | timestamp v | timestampTz v | date v => [v]
  | text s | uuid s | bytea s => s.map fun b => (b.val : ℤ)
  | bool b => [if b then 1 else 0]
  | period start stop => [start, stop]
  | float8 bits => [totalOrderKey bits]

theorem cmp_singleton (x y : ℤ) : cmp [x] [y] = cmp x y := by
  unfold cmp cmpUsing
  simp [List.cons_lt_cons_iff]

theorem cmp_map_val (s t : Bytes) :
    cmp (s.map fun b => (b.val : ℤ)) (t.map fun b => (b.val : ℤ)) = cmp s t := by
  unfold cmp cmpUsing
  simp [map_val_lt]

theorem cmp_pair (x x' y y' : ℤ) : cmp [x, x'] [y, y'] = cmpPeriod (x, x') (y, y') := by
  unfold cmpPeriod cmp cmpUsing
  rcases lt_trichotomy x y with h | h | h
  · simp [List.cons_lt_cons_iff, h]
  · subst h
    simp [List.cons_lt_cons_iff]
  · simp [List.cons_lt_cons_iff, h, not_lt_of_gt h, h.ne']

/-- The order of a type is that of the numbers it sorts by. -/
theorem order_eq_cmp {a b : ScalarValue} (hty : a.logicalType = b.logicalType) :
    a.order b = some (cmp a.sortKey b.sortKey) := by
  cases a <;> cases b <;> first
    | (cases hty; done)
    | (rw [sortKey, sortKey, cmp_singleton]; rfl)
    | (rw [sortKey, sortKey, cmp_map_val]; rfl)
    | (rw [sortKey, sortKey, cmp_pair]; rfl)
    | skip
  rename_i x y
  cases x <;> cases y <;> rfl

end ScalarValue

theorem logicalType_scalar (ty : LogicalType) (x : ty.Value) : (ty.scalar x).logicalType = ty := by
  cases ty <;> rfl

theorem Vector.logicalType_get {v : Vector} {i : ℕ} {x : ScalarValue} (h : v.get i = some x) :
    x.logicalType = v.logicalType := by
  rw [Vector.get, Option.map_eq_some_iff] at h
  obtain ⟨c, -, rfl⟩ := h
  exact logicalType_scalar _ _

theorem Vector.get_mk_map {α : Type*} (ty : LogicalType) (l : List α) (f : α → Option ty.Value)
    (i : ℕ) : Vector.get ⟨ty, l.map f⟩ i = (l[i]?.bind f).map ty.scalar := by
  change ((l.map f)[i]?).join.map ty.scalar = _
  rw [List.getElem?_map]
  cases l[i]? <;> rfl

theorem Vector.get_gather (v : Vector) (slots : List (Option ℕ)) (i : ℕ) :
    (v.gather slots).get i = slots[i]?.join.bind v.get := by
  rw [Vector.gather, Vector.get_mk_map]
  cases slots[i]? with
  | none => rfl
  | some slot => cases slot <;> rfl

theorem Vector.len_gather (v : Vector) (slots : List (Option ℕ)) :
    (v.gather slots).len = slots.length :=
  List.length_map _

theorem scalar_injective (ty : LogicalType) : Function.Injective ty.scalar := by
  intro x y h
  cases ty <;> simp only [LogicalType.scalar, ScalarValue.int4.injEq, ScalarValue.int8.injEq,
    ScalarValue.text.injEq, ScalarValue.bool.injEq, ScalarValue.timestamp.injEq,
    ScalarValue.timestampTz.injEq, ScalarValue.date.injEq, ScalarValue.period.injEq,
    ScalarValue.uuid.injEq, ScalarValue.bytea.injEq, ScalarValue.float8.injEq] at h
  case period => exact Prod.ext h.1 h.2
  all_goals exact h

/-- A vector is its type, its length and its cells. -/
theorem Vector.ext_get {v v' : Vector} (hty : v.logicalType = v'.logicalType)
    (hlen : v.len = v'.len) (hget : ∀ i < v.len, v.get i = v'.get i) : v = v' := by
  obtain ⟨ty, cells⟩ := v
  obtain ⟨ty', cells'⟩ := v'
  cases hty
  refine congrArg (Vector.mk ty) (List.ext_getElem hlen fun i hi hi' => ?_)
  have h := Option.map_injective (scalar_injective ty) (hget i hi)
  rwa [List.getElem?_eq_getElem hi, List.getElem?_eq_getElem hi', Option.join_some,
    Option.join_some] at h

/-- The constants of an expression fit their types. -/
def Expr.Fits : Expr → Prop
  | column _ => True
  | literal value => value.Fits
  | not operand | isNull operand => operand.Fits
  | compare _ left right | logic _ left right | arith _ left right | period _ left right =>
    left.Fits ∧ right.Fits
  | makePeriod start stop => start.Fits ∧ stop.Fits

theorem strict_eq_some {f : ScalarValue → ScalarValue → Option ScalarValue}
    {x y : Option ScalarValue} {v : ScalarValue} (h : strict f x y = some v) :
    ∃ a b, x = some a ∧ y = some b ∧ f a b = some v := by
  rw [strict, Option.bind_eq_some_iff] at h
  obtain ⟨a, ha, h⟩ := h
  obtain ⟨b, hb, h⟩ := Option.bind_eq_some_iff.1 h
  exact ⟨a, b, ha, hb, h⟩

theorem ScalarValue.fits_arith {op : ArithOp} {a b v : ScalarValue} (ha : a.Fits)
    (h : arith op a b = some v) : v.Fits := by
  cases a <;> cases b <;> try cases h
  case int4.int4 x y =>
    obtain ⟨z, hz, rfl⟩ := Option.map_eq_some_iff.1 h
    exact checkedArith_fits (by norm_num) ha hz
  case int8.int8 x y =>
    obtain ⟨z, hz, rfl⟩ := Option.map_eq_some_iff.1 h
    have hx : FitsI64 x := ha
    simp only [FitsI64, i64Min, i64Max] at hx
    have hz := checkedArith_fits (m := 2 ^ 63) (by norm_num) (by omega) hz
    simp only [Fits, FitsI64, i64Min, i64Max]
    omega

theorem ScalarValue.fits_asInstant {a : ScalarValue} {t : ℤ} (ha : a.Fits)
    (h : a.asInstant = some t) : FitsI64 t := by
  cases a <;> cases h <;> exact ha

/-- **What is computed from values that fit** fits. -/
theorem fits_evalRow {e : Expr} {row : List (Option ScalarValue)} (he : e.Fits)
    (hrow : ∀ c ∈ row, ∀ v, c = some v → v.Fits) {v : ScalarValue} (h : evalRow e row = some v) :
    v.Fits := by
  induction e generalizing v with
  | column index =>
    rw [evalRow, Option.join_eq_some_iff] at h
    exact hrow _ (List.mem_of_getElem? h) v rfl
  | literal value =>
    cases h
    exact he
  | not operand ih =>
    obtain ⟨b, -, rfl⟩ := Option.map_eq_some_iff.1 h
    exact trivial
  | isNull operand ih =>
    cases h
    exact trivial
  | compare op left right ihl ihr =>
    obtain ⟨a, b, -, -, hab⟩ := strict_eq_some h
    obtain ⟨o, -, rfl⟩ := Option.map_eq_some_iff.1 hab
    exact trivial
  | logic op left right ihl ihr =>
    obtain ⟨b, -, rfl⟩ := Option.map_eq_some_iff.1 h
    exact trivial
  | arith op left right ihl ihr =>
    obtain ⟨a, b, ha, -, hab⟩ := strict_eq_some h
    exact ScalarValue.fits_arith (ihl he.1 ha) hab
  | period pred left right ihl ihr =>
    obtain ⟨a, b, -, -, hab⟩ := strict_eq_some h
    rw [ScalarValue.holds] at hab
    obtain ⟨x, -, hab⟩ := Option.bind_eq_some_iff.1 hab
    obtain ⟨y, -, hab⟩ := Option.bind_eq_some_iff.1 hab
    cases hab
    exact trivial
  | makePeriod start stop ihl ihr =>
    obtain ⟨a, b, ha, hb, hab⟩ := strict_eq_some h
    rw [ScalarValue.makePeriod] at hab
    obtain ⟨x, hx, hab⟩ := Option.bind_eq_some_iff.1 hab
    obtain ⟨y, hy, hab⟩ := Option.bind_eq_some_iff.1 hab
    obtain ⟨p, hp, rfl⟩ := Option.map_eq_some_iff.1 hab
    rw [newInterval] at hp
    split_ifs at hp
    cases hp
    exact ⟨ScalarValue.fits_asInstant (ihl he.1 ha) hx,
      ScalarValue.fits_asInstant (ihr he.2 hb) hy⟩

/-- The cells of a vector fit its type. -/
def Vector.Fits (v : Vector) : Prop := ∀ i x, v.get i = some x → x.Fits

theorem Vector.fits_of_cells {v : Vector}
    (h : ∀ c ∈ v.cells, ∀ x ∈ c, (v.logicalType.scalar x).Fits) : v.Fits := by
  intro i x hx
  rw [Vector.get, Option.map_eq_some_iff] at hx
  obtain ⟨c, hc, rfl⟩ := hx
  exact h _ (List.mem_of_getElem? (Option.join_eq_some_iff.1 hc)) c rfl

end SteleDb
