import SteleDb.Common.Sha2
import SteleDb.Exec.ScalarOrder
import SteleDb.Lib.PrefixCode

/-!
# The portable hash key

`hash_key` digests a message that spells a list of typed, nullable values: a magic, the number of
values, and for each one a frame of its tag, the length of its body and the body.  The bodies of
texts and byte strings are arbitrary, so a body may spell what looks like further frames; the length
in front of it is what keeps the frames apart.

`HashKey.message_framed` says that the message is such a spelling, `HashKey.selfDelimiting_spell`
that no spelling continues to another one's.
-/

namespace SteleDb

namespace HashKey

/-- `"STLHK1"`. -/
def magic : Bytes := [83, 84, 76, 72, 75, 49]

/-- Tag of `NULL`. -/
def tagNull : Fin 256 := 0x00

/-- Tag of a `BOOL`. -/
def tagBool : Fin 256 := 0x01

/-- Tag of an `INT4`. -/
def tagInt4 : Fin 256 := 0x02

/-- Tag of an `INT8`. -/
def tagInt8 : Fin 256 := 0x03

/-- Tag of a `TEXT`. -/
def tagText : Fin 256 := 0x04

/-- Tag of a `TIMESTAMP`. -/
def tagTimestamp : Fin 256 := 0x05

/-- Tag of a `DATE`. -/
def tagDate : Fin 256 := 0x06

/-- Tag of a `TIMESTAMPTZ`. -/
def tagTimestampTz : Fin 256 := 0x07

/-- Tag of a `PERIOD`. -/
def tagPeriod : Fin 256 := 0x08

/-- Tag of a `UUID`. -/
def tagUuid : Fin 256 := 0x09

/-- Tag of a `BYTEA`. -/
def tagBytea : Fin 256 := 0x0A

/-- Append a frame to the message; `none` where a length does not fit 64 bits. -/
def pushFrame (msg : Bytes) (tag : Fin 256) (body : Bytes) : Option Bytes :=
  if body.length < 2 ^ 64 then some (msg ++ [tag] ++ beBytes 8 body.length ++ body) else none

/-- Append the frame of one argument; `none` on a `FLOAT8`, which is never an argument. -/
def encodeArg (arg : Option ScalarValue) (msg : Bytes) : Option Bytes :=
  match arg with
  | none => pushFrame msg tagNull []
  | some (.bool b) => pushFrame msg tagBool [if b then 1 else 0]
  | some (.int4 v) => pushFrame msg tagInt4 (i32ToBeBytes v)
  | some (.int8 v) => pushFrame msg tagInt8 (i64ToBeBytes v)
  | some (.text s) => pushFrame msg tagText s
  | some (.timestamp v) => pushFrame msg tagTimestamp (i64ToBeBytes v)
  | some (.date v) => pushFrame msg tagDate (i32ToBeBytes v)
  | some (.timestampTz v) => pushFrame msg tagTimestampTz (i64ToBeBytes v)
  | some (.period start stop) => pushFrame msg tagPeriod (i64ToBeBytes start ++ i64ToBeBytes stop)
  | some (.uuid bytes) => pushFrame msg tagUuid bytes
  | some (.bytea bytes) => pushFrame msg tagBytea bytes
  | some (.float8 _) => none

/-- The message that is digested; `none` where there are more arguments than 32 bits count. -/
def message (args : List (Option ScalarValue)) : Option Bytes :=
  if args.length < 2 ^ 32 then
    args.foldlM (fun msg arg => encodeArg arg msg) (magic ++ beBytes 4 args.length)
  else none

/-- The hash key of a list of arguments. -/
def hashKey (args : List (Option ScalarValue)) : Option Digest := (message args).map Sha2.sha256

/-! ### Frames -/

/-- The tag of an argument. -/
def tagOf : Option ScalarValue → Fin 256
  | none => tagNull
  | some (.bool _) => tagBool
  | some (.int4 _) => tagInt4
  | some (.int8 _) => tagInt8
  | some (.text _) => tagText
  | some (.timestamp _) => tagTimestamp
  | some (.date _) => tagDate
  | some (.timestampTz _) => tagTimestampTz
  | some (.period _ _) => tagPeriod
  | some (.uuid _) => tagUuid
  | some (.bytea _) => tagBytea
  | some (.float8 _) => 0x0B

/-- The body of an argument. -/
def bodyOf : Option ScalarValue → Bytes
  | none => []
  | some (.int4 v) | some (.date v) => i32ToBeBytes v
  | some (.int8 v) | some (.timestamp v) | some (.timestampTz v) => i64ToBeBytes v
  | some (.period start stop) => i64ToBeBytes start ++ i64ToBeBytes stop
  | some v => v.encode

/-- An argument that has a frame: of a hashable type, its value in range, its body of a length that
fits 64 bits. -/
structure Hashable (arg : Option ScalarValue) : Prop where
  fits : ∀ v, arg = some v → v.Fits
  ne_float8 : ∀ bits, arg ≠ some (.float8 bits)
  length_lt : (bodyOf arg).length < 2 ^ 64

theorem encodeArg_eq_pushFrame {arg : Option ScalarValue}
    (hne : ∀ bits, arg ≠ some (.float8 bits)) (msg : Bytes) :
    encodeArg arg msg = pushFrame msg (tagOf arg) (bodyOf arg) := by
  rcases arg with _ | v
  · rfl
  · cases v with
    | float8 bits => exact absurd rfl (hne bits)
    | _ => rfl

/-- The frame of an argument. -/
def frame (arg : Option ScalarValue) : Bytes :=
  [tagOf arg] ++ (beBytes 8 (bodyOf arg).length ++ bodyOf arg)

/-- An argument is appended iff it has a frame, and the frame is what is appended. -/
theorem encodeArg_eq_some_iff {arg : Option ScalarValue} (hfits : ∀ v, arg = some v → v.Fits)
    {msg msg' : Bytes} :
    encodeArg arg msg = some msg' ↔ Hashable arg ∧ msg' = msg ++ frame arg := by
  constructor
  · intro h
    have hne : ∀ bits, arg ≠ some (.float8 bits) := by
      rintro bits rfl
      cases h
    rw [encodeArg_eq_pushFrame hne, pushFrame] at h
    split_ifs at h with hlen
    cases h
    exact ⟨⟨hfits, hne, hlen⟩, by simp only [frame, List.append_assoc]⟩
  · rintro ⟨h, rfl⟩
    rw [encodeArg_eq_pushFrame h.ne_float8, pushFrame, if_pos h.length_lt]
    simp only [frame, List.append_assoc]

/-! ### A frame is self-delimiting -/

/-- The type that a tag stands for, `none` for the tag of `NULL`. -/
def typeOfTag (tag : Fin 256) : Option LogicalType :=
  [none, some .bool, some .int4, some .int8, some .text, some .timestamp, some .date,
    some .timestampTz, some .period, some .uuid, some .bytea, some .float8].getD tag none

/-- A tag is that of one type. -/
theorem typeOfTag_tagOf (a : Option ScalarValue) :
    typeOfTag (tagOf a) = a.map ScalarValue.logicalType := by
  rcases a with _ | v
  · rfl
  · cases v <;> rfl

/-- Within a type the body determines the canonical encoding: it spells the same bytes the other way
round. -/
theorem encode_of_body {v w : ScalarValue} (hty : v.logicalType = w.logicalType)
    (h : bodyOf (some v) = bodyOf (some w)) : v.encode = w.encode := by
  cases v <;> cases w <;> first | (cases hty; done) | skip
  case period.period start stop start' stop' =>
    obtain ⟨hstart, hstop⟩ := List.append_inj h (by simp [i64ToBeBytes, i64ToLeBytes])
    rw [ScalarValue.encode, ScalarValue.encode, List.reverse_injective hstart,
      List.reverse_injective hstop]
  all_goals first | exact List.reverse_injective h | exact h

/-- A tag and a body are those of one argument. -/
theorem eq_of_tag_body {a b : Option ScalarValue} (ha : Hashable a) (hb : Hashable b)
    (htag : tagOf a = tagOf b) (hbody : bodyOf a = bodyOf b) : a = b := by
  have hty : a.map ScalarValue.logicalType = b.map ScalarValue.logicalType := by
    rw [← typeOfTag_tagOf, ← typeOfTag_tagOf, htag]
  rcases a with _ | v <;> rcases b with _ | w
  · rfl
  · cases hty
  · cases hty
  · have hty' : v.logicalType = w.logicalType := Option.some.inj hty
    exact congrArg some (ScalarValue.encode_inj (ha.fits v rfl) (hb.fits w rfl) hty'
      (encode_of_body hty' hbody))

theorem beBytes_inj {k m n : ℕ} (hm : m < 256 ^ k) (hn : n < 256 ^ k)
    (h : beBytes k m = beBytes k n) : m = n := by
  rw [← leNat_leBytes hm, List.reverse_injective h, leNat_leBytes hn]

theorem selfDelimiting_beBytes (k : ℕ) : PrefixCode.SelfDelimiting (beBytes k) (· < 256 ^ k) :=
  .of_length (fun n _ => length_beBytes k n) fun _ _ hm hn h => beBytes_inj hm hn h

/-- Frames are self-delimiting: the tag and the length come first, and they say where the body
ends. -/
theorem selfDelimiting_frame : PrefixCode.SelfDelimiting frame Hashable := by
  have hpow : (2 : ℕ) ^ 64 = 256 ^ 8 := by norm_num
  have htag : PrefixCode.SelfDelimiting (fun tag : Fin 256 => [tag]) fun _ => True :=
    .of_length (fun _ _ => rfl) fun _ _ _ _ h => List.singleton_inj.1 h
  refine htag.andThen (fun _ _ => trivial) fun tag => ?_
  refine (selfDelimiting_beBytes 8).andThen (fun a ha => hpow ▸ ha.1.length_lt) fun len => ?_
  -- the body
  refine PrefixCode.SelfDelimiting.of_length (fun a ha => ha.2) fun a b ha hb h => ?_
  exact eq_of_tag_body ha.1.1 hb.1.1 (ha.1.2.trans hb.1.2.symm) h

/-! ### The message -/

/-- What a message spells: the magic, the number of arguments and their frames. -/
def spell (args : List (Option ScalarValue)) : Bytes :=
  magic ++ (beBytes 4 args.length ++ args.flatMap frame)

/-- Arguments that have a message. -/
def Spellable (args : List (Option ScalarValue)) : Prop :=
  args.length < 2 ^ 32 ∧ ∀ a ∈ args, Hashable a

/-- The values of the arguments are in the ranges of their types. -/
def InRange (args : List (Option ScalarValue)) : Prop := ∀ v, some v ∈ args → v.Fits

theorem foldlM_encodeArg {args : List (Option ScalarValue)} (h : InRange args) {msg msg' : Bytes} :
    args.foldlM (fun msg arg => encodeArg arg msg) msg = some msg' ↔
      (∀ a ∈ args, Hashable a) ∧ msg' = msg ++ args.flatMap frame := by
  induction args generalizing msg with
  | nil => simp [eq_comm]
  | cons a args ih =>
    have hfits : ∀ v, a = some v → v.Fits := fun v hv => h v (hv ▸ List.mem_cons_self)
    have hrest : InRange args := fun v hv => h v (List.mem_cons_of_mem a hv)
    rw [List.foldlM_cons, Option.bind_eq_bind, Option.bind_eq_some_iff]
    constructor
    · rintro ⟨mid, hmid, htail⟩
      obtain ⟨ha, rfl⟩ := (encodeArg_eq_some_iff hfits).1 hmid
      obtain ⟨hall, rfl⟩ := (ih hrest).1 htail
      refine ⟨List.forall_mem_cons.2 ⟨ha, hall⟩, ?_⟩
      rw [List.flatMap_cons, List.append_assoc]
    · rintro ⟨hall, rfl⟩
      obtain ⟨ha, hargs⟩ := List.forall_mem_cons.1 hall
      refine ⟨msg ++ frame a, (encodeArg_eq_some_iff hfits).2 ⟨ha, rfl⟩, ?_⟩
      exact (ih hrest).2 ⟨hargs, by rw [List.flatMap_cons, List.append_assoc]⟩

/-- A message is what its arguments spell. -/
theorem message_framed {args : List (Option ScalarValue)} (h : InRange args) {msg : Bytes} :
    message args = some msg ↔ Spellable args ∧ msg = spell args := by
  rw [message]
  split_ifs with hlen
  · rw [foldlM_encodeArg h, List.append_assoc]
    exact ⟨fun hm => ⟨⟨hlen, hm.1⟩, hm.2⟩, fun hm => ⟨hm.1.2, hm.2⟩⟩
  · exact ⟨nofun, fun hm => absurd hm.1.1 hlen⟩

/-- No spelling continues to another one's. -/
theorem selfDelimiting_spell : PrefixCode.SelfDelimiting spell Spellable := by
  have hpow : (2 : ℕ) ^ 32 = 256 ^ 4 := by norm_num
  intro as bs l l' ha hb h
  have hcode : PrefixCode.SelfDelimiting
      (fun args : List (Option ScalarValue) => beBytes 4 args.length ++ args.flatMap frame)
      Spellable := by
    refine (selfDelimiting_beBytes 4).andThen (fun args hargs => hpow ▸ hargs.1) fun n => ?_
    exact (selfDelimiting_frame.list n).mono fun args hargs => ⟨hargs.2, hargs.1.2⟩
  rw [spell, spell, List.append_assoc magic, List.append_assoc magic,
    List.append_cancel_left_eq] at h
  exact hcode as bs l l' ha hb h

/-- **The framing is injective**: arguments have a message iff they can be spelt; two messages, of
which one may start with the other, are of the same arguments; and so are two hash keys, if SHA-256
tells their messages apart. -/
theorem hashKey_injective {as bs : List (Option ScalarValue)} (ha : InRange as) (hb : InRange bs) :
    ((∃ m, message as = some m) ↔ Spellable as) ∧
    (∀ m m', message as = some m → message bs = some m' → m <+: m' → as = bs ∧ m = m') ∧
    (∀ m m', message as = some m → message bs = some m' →
      (Sha2.sha256 m = Sha2.sha256 m' → m = m') → hashKey as = hashKey bs → as = bs) := by
  have hfree : ∀ m m', message as = some m → message bs = some m' → m <+: m' →
      as = bs ∧ m = m' := by
    intro m m' hm hm' hle
    obtain ⟨has, rfl⟩ := (message_framed ha).1 hm
    obtain ⟨hbs, rfl⟩ := (message_framed hb).1 hm'
    obtain rfl := selfDelimiting_spell.eq_of_isPrefix has hbs hle
    exact ⟨rfl, rfl⟩
  refine ⟨?_, hfree, ?_⟩
  · constructor
    · rintro ⟨m, hm⟩
      exact ((message_framed ha).1 hm).1
    · intro has
      exact ⟨spell as, (message_framed ha).2 ⟨has, rfl⟩⟩
  · intro m m' hm hm' hsha hkey
    rw [hashKey, hashKey, hm, hm', Option.map_some, Option.map_some] at hkey
    obtain rfl := hsha (Option.some.inj hkey)
    exact (hfree m m hm hm' List.prefix_rfl).1

/-- Two arguments. -/
def twoBodies : List (Option ScalarValue) := [some (.bytea [7]), some (.text [97])]

/-- Two arguments, of which the first one's body goes on like the frame of a text. -/
def nestedFrame : List (Option ScalarValue) :=
  [some (.bytea ([7] ++ frame (some (.text [97])))), none]

theorem hashKey_injective_nestedFrame :
    ((∃ m, message twoBodies = some m) ↔ Spellable twoBodies) ∧
    (∀ m m', message twoBodies = some m → message nestedFrame = some m' → m <+: m' →
      twoBodies = nestedFrame ∧ m = m') ∧
    (∀ m m', message twoBodies = some m → message nestedFrame = some m' →
      (Sha2.sha256 m = Sha2.sha256 m' → m = m') → hashKey twoBodies = hashKey nestedFrame →
      twoBodies = nestedFrame) := by
  refine hashKey_injective (fun v hv => ?_) (fun v hv => ?_)
  · simp only [twoBodies, List.mem_cons, Option.some.injEq, List.not_mem_nil, or_false] at hv
    rcases hv with rfl | rfl <;> decide
  · simp only [nestedFrame, List.mem_cons, Option.some.injEq, List.not_mem_nil, or_false,
      reduceCtorEq] at hv
    subst hv
    decide

end HashKey

end SteleDb
