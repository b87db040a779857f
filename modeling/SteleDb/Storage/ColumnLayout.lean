import SteleDb.Storage.ValidTime

/-!
# The layout of a sealed segment

The rows of a segment come in row groups, and a row group is stored column by column.  A column of
bytes is stored plainly, each value behind its length, or as a dictionary: the distinct values once,
in the order in which they first appear, and for each row the place of its value in a code of one,
two or four bytes.  Where it may, the writer takes the smaller of the two; the reader refuses a
dictionary that stands for more bytes than its limit (`Expandable`).
-/

namespace SteleDb

/-! ### Row groups -/

/-- Fill row groups of `n + 1` rows; `room` rows still fit into the open one. -/
def fillGroups {β : Type*} (n : ℕ) (cur : List β) : ℕ → List β → List (List β)
  | _, [] => [cur]
  | 0, x :: xs => cur :: fillGroups n [x] n xs
  | room + 1, x :: xs => fillGroups n (cur ++ [x]) room xs

/-- The row groups of a segment: `groupRows` rows each, at least one, and one group if there are
no rows. -/
def rowGroupsOf {β : Type*} (groupRows : ℕ) (rows : List β) : List (List β) :=
  fillGroups (groupRows - 1) [] (max groupRows 1) rows

theorem flatten_fillGroups {β : Type*} (n : ℕ) (cur : List β) (room : ℕ) (rows : List β) :
    (fillGroups n cur room rows).flatten = cur ++ rows := by
  induction rows generalizing cur room with
  | nil => cases room <;> simp [fillGroups]
  | cons x xs ih => cases room <;> simp [fillGroups, ih]

theorem flatten_rowGroupsOf {β : Type*} (groupRows : ℕ) (rows : List β) :
    (rowGroupsOf groupRows rows).flatten = rows := by
  rw [rowGroupsOf, flatten_fillGroups, List.nil_append]

/-! ### Codecs -/

/-- How the payload of a chunk is laid out. -/
inductive Codec where
  | plain
  | dict
  deriving DecidableEq, Repr

namespace Codec

/-- The codec of a tag byte. -/
def fromByte : ℕ → Option Codec
  | 0 => some plain
  | 1 => some dict
  | _ => none

/-- The tag byte of a codec. -/
def asByte : Codec → ℕ
  | plain => 0
  | dict => 1

@[simp] theorem fromByte_asByte (c : Codec) : fromByte c.asByte = some c := by cases c <;> rfl

theorem asByte_lt (c : Codec) : c.asByte < 256 ^ 1 := by cases c <;> decide

end Codec

/-- The narrowest code that addresses a dictionary, in bytes. -/
def codeWidthFor (dictCount : ℕ) : ℕ :=
  if dictCount ≤ 256 then 1 else if dictCount ≤ 65536 then 2 else 4

/-- The length field of a `NULL` cell. -/
def bytesNullSentinel : ℕ := 2 ^ 32 - 1

/-- The most bytes that one chunk may decode into. -/
def maxDecodedChunkLen : ℕ := 4 * 1024 * 1024 * 1024

/-! ### Columns of bytes -/

/-- A value behind its length, or the mark of `NULL`. -/
def encodeBytesCell : Option Bytes → Bytes
  | none => leBytes 4 bytesNullSentinel
  | some bytes => leBytes 4 bytes.length ++ bytes

/-- The plain layout of a column of bytes. -/
def encodePlainBytes (values : List (Option Bytes)) : Bytes := values.flatMap encodeBytesCell

/-- Its size. -/
def plainSize (values : List (Option Bytes)) : ℕ :=
  (values.map fun v => 4 + (v.map List.length).getD 0).sum

/-- A dictionary being built. -/
structure DictBuild where
  /-- The distinct values, in the order of their first appearance.  The index of a value, which the
  source keeps in a hash map, is its place here. -/
  distinct : List (Option Bytes) := []
  /-- The codes of the rows. -/
  codes : List ℕ := []

/-- Take the value of the next row. -/
def DictBuild.push (d : DictBuild) (value : Option Bytes) : DictBuild :=
  match d.distinct.idxOf? value with
  | some code => { d with codes := d.codes ++ [code] }
  | none =>
    { distinct := d.distinct ++ [value], codes := d.codes ++ [d.distinct.length] }

/-- A code: the low bytes of its four. -/
def pushCode (width code : ℕ) : Bytes := (leBytes 4 code).take width

/-- The dictionary layout; none if no value repeats. -/
def buildDictPayload (values : List (Option Bytes)) : Option Bytes :=
  if values = [] then none
  else
    let d := values.foldl DictBuild.push {}
    if d.distinct.length = values.length then none
    else
      let width := codeWidthFor d.distinct.length
      some (leBytes 1 width ++ (leBytes 4 d.distinct.length ++
        (d.distinct.flatMap encodeBytesCell ++ d.codes.flatMap (pushCode width))))

/-- The payload of a column of bytes: the dictionary if it is enabled and smaller. -/
def encodeBytesPayload (values : List (Option Bytes)) (useDict : Bool) : Codec × Bytes :=
  match if useDict then buildDictPayload values else none with
  | some dict =>
    if dict.length < plainSize values then (.dict, dict) else (.plain, encodePlainBytes values)
  | none => (.plain, encodePlainBytes values)

/-! ### What the reader accepts -/

/-- The bytes that cells take when they are read. -/
def expandedSize (values : List (Option Bytes)) : ℕ :=
  (values.map fun v => (v.map List.length).getD 0).sum

/-- The reader accepts what the writer makes of a column: it is plain, or its dictionary stands for
no more bytes than the limit. -/
def Expandable (useDict : Bool) (values : List (Option Bytes)) : Prop :=
  expandedSize values ≤ maxDecodedChunkLen ∨ (encodeBytesPayload values useDict).1 = .plain

instance (useDict : Bool) (values : List (Option Bytes)) : Decidable (Expandable useDict values) :=
  inferInstanceAs (Decidable (_ ∨ _))

/-- A payload as its column has it: with a valid-time axis the interval in front of it has columns
of its own. -/
def Version.payloadCell (validTime : Bool) (v : Version) : Option Bytes :=
  if validTime then v.payload.map (List.drop validTimePrefixLen) else v.payload

/-- The columns of bytes of a segment: those of each row group, and those of the tombstones. -/
def bytesColumns (validTime : Bool) (groups : List (List Version)) (retractions : List Close) :
    List (List (Option Bytes)) :=
  (groups.flatMap fun group =>
    [group.map fun v => some v.businessKey, group.map (Version.payloadCell validTime),
      group.map fun v => some v.provenance.principal]) ++
  [retractions.map fun c => some c.businessKey, retractions.map fun c => some c.closedBy.principal]

theorem expandedSize_map_le {α : Type} {rows group : List α} (hsub : group.Sublist rows)
    {cell : α → Option Bytes} {size : α → ℕ}
    (hcell : ∀ a, ((cell a).map List.length).getD 0 ≤ size a) :
    expandedSize (group.map cell) ≤ (rows.map size).sum := by
  have hgroup : expandedSize (group.map cell) ≤ (group.map size).sum := by
    rw [expandedSize, List.map_map]
    exact List.sum_le_sum fun a _ => hcell a
  exact hgroup.trans ((hsub.map size).sum_le_sum fun _ _ => Nat.zero_le _)

/-- No column takes more bytes than all rows together. -/
theorem expandedSize_le_of_mem_bytesColumns {validTime : Bool} {groups : List (List Version)}
    {retractions : List Close} {cells : List (Option Bytes)}
    (h : cells ∈ bytesColumns validTime groups retractions) :
    expandedSize cells ≤ (groups.flatten.map Version.encodedSize).sum +
      (retractions.map Close.encodedSize).sum := by
  rcases List.mem_append.1 h with h | h
  · obtain ⟨group, hgroup, h⟩ := List.mem_flatMap.1 h
    have hsub := List.sublist_flatten_of_mem hgroup
    refine le_trans ?_ (Nat.le_add_right _ _)
    simp only [List.mem_cons, List.not_mem_nil, or_false] at h
    rcases h with rfl | rfl | rfl
    · refine expandedSize_map_le hsub fun v => ?_
      simp [Version.encodedSize]
      omega
    · refine expandedSize_map_le hsub fun v => ?_
      have hbare : ((v.payloadCell validTime).map List.length).getD 0 ≤
          (v.payload.map List.length).getD 0 := by
        rcases hp : v.payload with _ | stored <;> cases validTime <;>
          simp [Version.payloadCell, hp]
      simp only [Version.encodedSize]
      omega
    · refine expandedSize_map_le hsub fun v => ?_
      simp [Version.encodedSize]
  · refine le_trans ?_ (Nat.le_add_left _ _)
    simp only [List.mem_cons, List.not_mem_nil, or_false] at h
    rcases h with rfl | rfl
    · refine expandedSize_map_le (List.Sublist.refl _) fun c => ?_
      simp [Close.encodedSize]
      omega
    · refine expandedSize_map_le (List.Sublist.refl _) fun c => ?_
      simp [Close.encodedSize]

end SteleDb
