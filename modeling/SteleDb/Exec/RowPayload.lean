import SteleDb.Exec.ScalarOrder
import SteleDb.Session.RowCodec

/-!
# Rows of values and their payloads

A row of values is stored as one payload: each value in the canonical encoding of its column's type,
the cells packed by the codec of rows.  Nothing in a payload tells how many cells it has or of which
types they are; with both at hand it is read back exactly.

A frame of cells is a code without prefixes: reading it leaves what follows, so a frame that is cut
or extended is refused.

* `decodeFrame_append`, `decodeFrame_sound` : what reading `n` cells accepts, and that it accepts
  it;
* `decode_encode` : the value of a type is read back;
* `rowPayload_codec` : rows are read back, and framed payloads have one spelling.
-/

namespace SteleDb

/-! ### Frames -/

/-- The cells fit a machine word in length. -/
def Cells.Sized (cells : Cells) : Prop := ∀ bytes, some bytes ∈ cells → bytes.length < 2 ^ 64

theorem Cells.Sized.tail {cell : Option Bytes} {cells : Cells} (h : Cells.Sized (cell :: cells)) :
    cells.Sized := fun bytes hmem => h bytes (List.mem_cons_of_mem _ hmem)

theorem takeBytes_append (l l' : Bytes) (what : String) :
    takeBytes (l ++ l') l.length what = .ok (l, l') := by
  rw [takeBytes, if_neg (by simp), List.take_left, List.drop_left]

theorem takeBytes_ok {buf l l' : Bytes} {n : ℕ} {what : String}
    (h : takeBytes buf n what = .ok (l, l')) : buf = l ++ l' ∧ l.length = n := by
  rw [takeBytes] at h
  split_ifs at h with hlen
  cases h
  exact ⟨(List.take_append_drop n buf).symm, List.length_take_of_le (not_lt.1 hlen)⟩

/-- A frame is read, and what follows it is left. -/
theorem decodeFrame_append {cells : Cells} (h : cells.Sized) (rest : Bytes) :
    decodeFrame cells.length (encodeFrame cells ++ rest) = .ok (cells, rest) := by
  induction cells with
  | nil => rfl
  | cons cell cells ih =>
    have htail := ih h.tail
    cases cell with
    | none =>
      rw [encodeFrame, List.length_cons, List.cons_append, decodeFrame, if_pos rfl, htail]
      rfl
    | some bytes =>
      have hlen : leNat (leBytes 8 bytes.length) = bytes.length := by
        rw [leNat_leBytes_mod, Nat.mod_eq_of_lt]
        exact lt_of_lt_of_eq (h bytes List.mem_cons_self) (by norm_num)
      have hword : takeBytes (leBytes 8 bytes.length ++ (bytes ++ (encodeFrame cells ++ rest))) 8
          "a cell length" = .ok (leBytes 8 bytes.length, bytes ++ (encodeFrame cells ++ rest)) := by
        have h8 := takeBytes_append (leBytes 8 bytes.length) (bytes ++ (encodeFrame cells ++ rest))
          "a cell length"
        rwa [length_leBytes] at h8
      have hvalue := takeBytes_append bytes (encodeFrame cells ++ rest) "a cell value"
      rw [encodeFrame, List.length_cons, List.cons_append, decodeFrame, if_neg (by decide),
        if_pos rfl, List.append_assoc, List.append_assoc, hword]
      simp only [bind, Except.bind, hlen, hvalue, htail]

/-- What reading `n` cells accepts is their frame. -/
theorem decodeFrame_sound {n : ℕ} {bytes rest : Bytes} {cells : Cells}
    (h : decodeFrame n bytes = .ok (cells, rest)) :
    bytes = encodeFrame cells ++ rest ∧ cells.length = n ∧ cells.Sized := by
  induction n generalizing bytes cells rest with
  | zero =>
    cases h
    exact ⟨rfl, rfl, fun _ hmem => absurd hmem List.not_mem_nil⟩
  | succ n ih =>
    cases bytes with
    | nil => cases h
    | cons tag bytes =>
      rw [decodeFrame] at h
      split_ifs at h with h0 h1
      · obtain ⟨out, hd, hout⟩ := exists_of_bind_ok h
        cases hout
        obtain ⟨hbytes, hlen, hsized⟩ := ih hd
        refine ⟨?_, congrArg (· + 1) hlen, fun b hmem => ?_⟩
        · rw [h0, hbytes]
          rfl
        · exact hsized b ((List.mem_cons.1 hmem).resolve_left nofun)
      · obtain ⟨word, hword, hafter⟩ := exists_of_bind_ok h
        obtain ⟨value, hvalue, hcells⟩ := exists_of_bind_ok hafter
        obtain ⟨out, hd, hout⟩ := exists_of_bind_ok hcells
        cases hout
        obtain ⟨hbytes, hlen, hsized⟩ := ih hd
        obtain ⟨hsplit, hword8⟩ := takeBytes_ok hword
        obtain ⟨hrest, hvaluelen⟩ := takeBytes_ok hvalue
        have hlt : leNat word.1 < 2 ^ 64 := by
          have hlt := leNat_lt word.1
          rw [hword8] at hlt
          exact lt_of_lt_of_eq hlt (by norm_num)
        refine ⟨?_, congrArg (· + 1) hlen, fun b hmem => ?_⟩
        · -- the length that was read is the one that is written
          have hspell : leBytes 8 value.1.length = word.1 := by
            rw [hvaluelen, ← hword8, leBytes_leNat]
          rw [h1, hsplit, hrest, hbytes, encodeFrame, hspell]
          simp
        · rcases List.mem_cons.1 hmem with hhead | htail
          · rw [Option.some.inj hhead, hvaluelen]
            exact hlt
          · exact hsized b htail

/-- A frame of as many cells that begins another one is that one. -/
theorem encodeFrame_append_inj {cells cells' : Cells} {rest rest' : Bytes} (h : cells.Sized)
    (h' : cells'.Sized) (hlen : cells.length = cells'.length)
    (heq : encodeFrame cells ++ rest = encodeFrame cells' ++ rest') :
    cells = cells' ∧ rest = rest' := by
  have hread := decodeFrame_append h rest
  rw [hlen, heq, decodeFrame_append h' rest'] at hread
  exact ⟨congrArg Prod.fst (Except.ok.inj hread).symm, congrArg Prod.snd (Except.ok.inj hread).symm⟩

/-! ### Payloads -/

theorem encodePayload_of_two_le {cells : Cells} (h : 2 ≤ cells.length) :
    encodePayload cells = some (encodeFrame cells) := by
  match cells with
  | [] => simp at h
  | [_] => simp at h
  | _ :: _ :: _ => rfl

theorem decodePayload_of_two_le {n : ℕ} (h : 2 ≤ n) {bytes : Bytes} {cells : Cells} :
    decodePayload n (some bytes) = .ok cells ↔ decodeFrame n bytes = .ok (cells, []) := by
  obtain ⟨n, rfl⟩ := Nat.exists_eq_add_of_le' h
  rw [decodePayload]
  · constructor
    · intro hd
      obtain ⟨⟨_, rest⟩, hout, hrest⟩ := exists_of_bind_ok hd
      dsimp only at hrest
      split_ifs at hrest with hnil
      cases hrest
      rw [hout, ← hnil]
    · intro hd
      rw [hd]
      rfl
  · intro h0
    exact absurd h0 (by omega)
  · intro h1
    exact absurd h1 (by omega)

theorem decodePayload_encodePayload {cells : Cells} (h : cells.Sized) :
    decodePayload cells.length (encodePayload cells) = .ok cells := by
  match cells, h with
  | [], _ => rfl
  | [only], _ => rfl
  | a :: b :: cells, h =>
    have htwo : 2 ≤ (a :: b :: cells).length := by simp
    rw [encodePayload_of_two_le htwo, decodePayload_of_two_le htwo]
    have hread := decodeFrame_append h []
    rwa [List.append_nil] at hread

/-- A framed payload that is read is the frame of its cells. -/
theorem encodePayload_of_decodePayload {n : ℕ} (h : 2 ≤ n) {bytes : Bytes} {cells : Cells}
    (hd : decodePayload n (some bytes) = .ok cells) : encodePayload cells = some bytes := by
  obtain ⟨hbytes, hlen, -⟩ := decodeFrame_sound ((decodePayload_of_two_le h).1 hd)
  rw [encodePayload_of_two_le (by omega), hbytes, List.append_nil]

/-! ### Values -/

/-- The width of a type whose values have one. -/
def LogicalType.fixedWidth : LogicalType → Option ℕ
  | .int4 | .date => some 4
  | .int8 | .timestamp | .timestampTz | .float8 => some 8
  | .bool => some 1
  | .period | .uuid => some 16
  | .text | .bytea => none

namespace ScalarValue

/-- A value that a program can hold: in the range of its type, a text that is UTF-8, a period that
begins before it ends, and no longer than memory. -/
structure WellFormed (v : ScalarValue) : Prop where
  fits : v.Fits
  utf8 : ∀ s, v = text s → validUtf8 s
  ordered : ∀ start stop, v = period start stop → start < stop
  sized : v.encode.length < 2 ^ 64

theorem length_i32ToLeBytes (x : ℤ) : (i32ToLeBytes x).length = 4 := length_leBytes 4 _

theorem length_i64ToLeBytes (x : ℤ) : (i64ToLeBytes x).length = 8 := length_leBytes 8 _

theorem fixed_of_length {ty : LogicalType} {n : ℕ} {bytes : Bytes} (h : bytes.length = n) :
    fixed ty n bytes = .ok bytes := if_pos h

/-- **The value of a type is read back.** -/
theorem decode_encode {v : ScalarValue} (h : v.WellFormed) :
    decode v.logicalType v.encode = .ok v := by
  have hfits := h.fits
  cases v with
  | int4 x | date x =>
    rw [logicalType, encode, decode, fixed_of_length (length_i32ToLeBytes x), Except.map,
      i32OfLeBytes_i32ToLeBytes hfits]
  | int8 x | timestamp x | timestampTz x =>
    rw [logicalType, encode, decode, fixed_of_length (length_i64ToLeBytes x), Except.map,
      i64OfLeBytes_i64ToLeBytes hfits.1 hfits.2]
  | text s => exact if_pos (h.utf8 s rfl)
  | bool b => cases b <;> rfl
  | period start stop =>
    have h8 := length_i64ToLeBytes start
    have h16 : (i64ToLeBytes start ++ i64ToLeBytes stop).length = 16 := by
      rw [List.length_append, h8, length_i64ToLeBytes]
    rw [logicalType, encode, decode, fixed_of_length h16]
    simp only [bind, Except.bind]
    rw [List.take_left' h8, List.drop_left' h8, i64OfLeBytes_i64ToLeBytes hfits.1.1 hfits.1.2,
      i64OfLeBytes_i64ToLeBytes hfits.2.1 hfits.2.2, if_pos (h.ordered start stop rfl)]
  | uuid raw => rw [logicalType, encode, decode, fixed_of_length hfits, Except.map]
  | bytea raw => rfl
  | float8 bits =>
    have hlt : bits < 256 ^ 8 := lt_of_lt_of_eq hfits (by norm_num)
    rw [logicalType, encode, decode, fixed_of_length (length_leBytes 8 bits), Except.map,
      leNat_leBytes_mod, Nat.mod_eq_of_lt hlt]

theorem length_of_fixed {ty : LogicalType} {n : ℕ} {bytes raw : Bytes}
    (h : fixed ty n bytes = .ok raw) : bytes.length = n := by
  rw [fixed] at h
  split_ifs at h with hlen
  exact hlen

/-- Only bytes of its width are a value of a type with a width. -/
theorem length_of_decode {ty : LogicalType} {width : ℕ} {bytes : Bytes} {v : ScalarValue}
    (hw : ty.fixedWidth = some width) (h : decode ty bytes = .ok v) : bytes.length = width := by
  cases ty <;> cases hw
  case period =>
    obtain ⟨raw, hraw, -⟩ := exists_of_bind_ok h
    exact length_of_fixed hraw
  all_goals
    obtain ⟨raw, hraw, -⟩ := exists_of_map_ok h
    exact length_of_fixed hraw

end ScalarValue

/-! ### Rows -/

/-- Why a stored row is not one of its types. -/
inductive RowError where
  | payload (e : RowCodecError)
  | value (e : DecodeError)
  deriving DecidableEq, Repr

/-- The cells of a row. -/
def cellsOf (row : List (Option ScalarValue)) : Cells := row.map (Option.map ScalarValue.encode)

/-- A cell as a value of the type of its column. -/
def decodeTypedCell (ty : LogicalType) : Option Bytes → Except DecodeError (Option ScalarValue)
  | none => .ok none
  | some bytes => (ScalarValue.decode ty bytes).map some

/-- The row of a payload. -/
def decodeRow (tys : List LogicalType) (payload : Option Bytes) :
    Except RowError (List (Option ScalarValue)) := do
  let cells ← (decodePayload tys.length payload).mapError .payload
  (tys.zip cells).mapM fun p => (decodeTypedCell p.1 p.2).mapError .value

/-- The values of a row are of the types of its columns. -/
def IsRow (tys : List LogicalType) (row : List (Option ScalarValue)) : Prop :=
  List.Forall₂ (fun ty cell => ∀ v, cell = some v → v.logicalType = ty ∧ v.WellFormed) tys row

variable {tys : List LogicalType} {row row' : List (Option ScalarValue)}

theorem IsRow.sized (h : IsRow tys row) : (cellsOf row).Sized := by
  intro bytes hmem
  obtain ⟨cell, hcell, hbytes⟩ := List.mem_map.1 hmem
  obtain ⟨v, rfl, rfl⟩ := Option.map_eq_some_iff.1 hbytes
  obtain ⟨ty, -, hty⟩ := exists_left_of_forall₂ h hcell
  exact (hty v rfl).2.sized

theorem length_cellsOf (row : List (Option ScalarValue)) : (cellsOf row).length = row.length :=
  List.length_map _

/-- The cells of a row are read as its values. -/
theorem forall₂_decodeTyped (h : IsRow tys row) :
    List.Forall₂ (fun (p : LogicalType × Option Bytes) cell =>
      (decodeTypedCell p.1 p.2).mapError RowError.value = .ok cell)
      (tys.zip (cellsOf row)) row := by
  induction h with
  | nil => exact .nil
  | @cons ty cell tys row hcell _ ih =>
    refine .cons ?_ ih
    cases cell with
    | none => rfl
    | some v =>
      obtain ⟨rfl, hv⟩ := hcell v rfl
      rw [Option.map_some, decodeTypedCell, ScalarValue.decode_encode hv]
      rfl

/-- **A stored row is read back.** -/
theorem decodeRow_encode (h : IsRow tys row) :
    decodeRow tys (encodePayload (cellsOf row)) = .ok row := by
  have hread := decodePayload_encodePayload h.sized
  rw [length_cellsOf, ← h.length_eq] at hread
  rw [decodeRow, hread]
  exact mapM_eq_ok_iff_forall₂.2 (forall₂_decodeTyped h)

/-- A frame is not read if something is missing, or more follows. -/
theorem decodePayload_cut {cells : Cells} (hsized : cells.Sized) (htwo : 2 ≤ cells.length)
    {bytes : Bytes} (hne : bytes ≠ encodeFrame cells)
    (hcut : bytes <+: encodeFrame cells ∨ encodeFrame cells <+: bytes) :
    ∃ e, decodePayload cells.length (some bytes) = .error e := by
  cases hd : decodePayload cells.length (some bytes) with
  | error e => exact ⟨e, rfl⟩
  | ok cells' =>
    obtain ⟨hbytes, hlen, hsized'⟩ := decodeFrame_sound ((decodePayload_of_two_le htwo).1 hd)
    rw [List.append_nil] at hbytes
    refine absurd ?_ hne
    rcases hcut with ⟨rest, hrest⟩ | ⟨rest, hrest⟩
    · -- what is missing would be read after the cells
      rw [hbytes] at hrest
      have hinj : cells' = cells ∧ rest = [] := encodeFrame_append_inj hsized' hsized hlen
        (hrest.trans (List.append_nil _).symm)
      rw [hbytes, hinj.1]
    · rw [hbytes] at hrest
      have hinj : cells = cells' ∧ rest = [] := encodeFrame_append_inj hsized hsized' hlen.symm
        (hrest.trans (List.append_nil _).symm)
      rw [hbytes, hinj.1]

/-- **Rows are read back from their payloads**: rows of the same types have different payloads, a
frame of two or more cells is refused if it is cut or extended, and what is accepted is what would
be written. -/
theorem rowPayload_codec :
    (∀ tys row, IsRow tys row → decodeRow tys (encodePayload (cellsOf row)) = .ok row) ∧
    (∀ tys row row', IsRow tys row → IsRow tys row' →
      encodePayload (cellsOf row) = encodePayload (cellsOf row') → row = row') ∧
    (∀ (cells : Cells) (bytes : Bytes), cells.Sized → 2 ≤ cells.length →
      bytes ≠ encodeFrame cells → (bytes <+: encodeFrame cells ∨ encodeFrame cells <+: bytes) →
      encodePayload cells = some (encodeFrame cells) ∧
        ∃ e, decodePayload cells.length (some bytes) = .error e) ∧
    (∀ (n : ℕ) (bytes : Bytes) (cells : Cells), 2 ≤ n →
      decodePayload n (some bytes) = .ok cells → encodePayload cells = some bytes) ∧
    (∀ (ty : LogicalType) (width : ℕ) (bytes : Bytes) (v : ScalarValue),
      ty.fixedWidth = some width → ScalarValue.decode ty bytes = .ok v → bytes.length = width) := by
  refine ⟨fun tys row h => decodeRow_encode h, fun tys row row' h h' heq => ?_,
    fun cells bytes hsized htwo hne hcut =>
      ⟨encodePayload_of_two_le htwo, decodePayload_cut hsized htwo hne hcut⟩,
    fun n bytes cells htwo hd => encodePayload_of_decodePayload htwo hd,
    fun ty width bytes v hw hd => ScalarValue.length_of_decode hw hd⟩
  have hread := decodeRow_encode h
  rw [heq, decodeRow_encode h'] at hread
  exact (Except.ok.inj hread).symm

theorem rowPayload_codec_sample :
    decodeRow [.int4, .text] (encodePayload (cellsOf [some (.int4 7), none])) =
        .ok [some (.int4 7), none] ∧
      ∃ e, decodePayload 2 (some [1]) = .error e := by
  have hseven : (ScalarValue.int4 7).WellFormed := by
    constructor
    case fits => exact (by decide : FitsI32 7)
    case utf8 => exact fun s hs => by cases hs
    case ordered => exact fun start stop hp => by cases hp
    case sized => exact (by decide : (i32ToLeBytes 7).length < 2 ^ 64)
  refine ⟨rowPayload_codec.1 _ _ (.cons ?_ (.cons ?_ .nil)), ?_⟩
  · intro v hv
    rw [← Option.some.inj hv]
    exact ⟨rfl, hseven⟩
  · intro v hv
    cases hv
  · have hsized : Cells.Sized [some [5], none] := by
      intro bytes hmem
      rcases List.mem_cons.1 hmem with hhead | htail
      · rw [Option.some.inj hhead]
        decide
      · rcases List.mem_cons.1 htail with hnone | hnil
        · cases hnone
        · cases hnil
    exact (rowPayload_codec.2.2.1 [some [5], none] [1] hsized (by decide) (by decide)
      (.inl (by decide))).2

end SteleDb
