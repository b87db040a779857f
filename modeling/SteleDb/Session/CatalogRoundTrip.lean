import SteleDb.Session.CatalogLog

/-!
# Which catalog records read back

The encoder of the catalog log accepts every record whose payload has less than 2³² bytes, and
writes the grantee `PUBLIC` as the empty name.  The reader refuses payloads above
`maxRecordPayload`, and takes the empty name for `PUBLIC`.  So there are records that are
acknowledged and do not read back: those with a long payload, after which the log cannot be read at
all, and grants and revokes whose grantee is a role with the empty name.

* `PayloadCursor.stable_record` : more bytes do not change what the decoder reads;
* `roundTrips_iff` : **a record reads back exactly if it is none of these.**
-/

namespace SteleDb

/-! ### What the decoder reads -/

namespace PayloadCursor

open Cursor (Stable)

theorem stable_take (n : ℕ) : Stable (take n) := Stable.take _ n

theorem stable_u8 : Stable u8 := (stable_take 1).bind fun _ => .pure _

theorem stable_u16 : Stable u16 := (stable_take 2).bind fun _ => .pure _

theorem stable_u32 : Stable u32 := (stable_take 4).bind fun _ => .pure _

theorem stable_u64 : Stable u64 := (stable_take 8).bind fun _ => .pure _

theorem stable_i64 : Stable i64 := (stable_take 8).bind fun _ => .pure _

theorem stable_string : Stable string :=
  stable_u16.bind fun len => (stable_take len).bind fun _ => .ite (.pure _) (.fail _)

theorem stable_bytes : Stable bytes := stable_u16.bind fun len => stable_take len

theorem stable_key32 : Stable key32 := (stable_take 32).bind fun _ => .pure _

theorem stable_verifier : Stable verifier :=
  stable_u32.bind fun _ => stable_bytes.bind fun _ => stable_key32.bind fun _ =>
    stable_key32.bind fun _ => .pure _

theorem stable_column : Stable column := by
  refine stable_string.bind fun name => stable_u8.bind fun tag =>
    (Stable.ofOption _ _).bind fun ty => ?_
  by_cases h : name ≠ []
  · rw [dif_pos h]
    exact .pure _
  · rw [dif_neg h]
    exact .fail _

theorem stable_validTime : Stable validTime := by
  refine stable_u8.bind fun flag => .ite (.pure _) (.ite ?_ (.fail _))
  refine stable_string.bind fun from_ => stable_string.bind fun to_ => ?_
  by_cases h : from_ ≠ [] ∧ to_ ≠ [] ∧ from_ ≠ to_
  · rw [dif_pos h]
    exact .pure _
  · rw [dif_neg h]
    exact .fail _

theorem stable_privilege : Stable privilege := stable_u8.bind fun _ => .ofOption _ _

theorem stable_grant : Stable grant :=
  stable_i64.bind fun _ => stable_string.bind fun _ => stable_string.bind fun _ =>
    stable_u16.bind fun count => (stable_privilege.times count).bind fun _ => .pure _

theorem stable_createTable : Stable createTable :=
  stable_i64.bind fun _ => stable_u64.bind fun _ => stable_string.bind fun _ =>
    stable_u16.bind fun count => (stable_column.times count).bind fun _ =>
      stable_validTime.bind fun _ => .pure _

theorem stable_atName : Stable atName :=
  stable_i64.bind fun _ => stable_string.bind fun _ => .pure _

theorem stable_createIndex : Stable createIndex :=
  stable_i64.bind fun _ => stable_string.bind fun _ => stable_string.bind fun _ =>
    stable_u8.bind fun _ => (Stable.ofOption _ _).bind fun _ => stable_u16.bind fun count =>
      (stable_string.times count).bind fun _ => .pure _

theorem stable_atUser : Stable atUser :=
  stable_i64.bind fun _ => stable_string.bind fun _ => stable_verifier.bind fun _ => .pure _

theorem stable_fields (kind : Fin 256) : Stable (fields kind) := by
  unfold fields
  refine .ite (stable_createTable.bind fun _ => .pure _) ?_
  refine .ite (stable_createTable.bind fun _ => stable_string.bind fun _ => .pure _) ?_
  refine .ite (stable_atName.bind fun _ => .pure _) ?_
  refine .ite stable_createIndex ?_
  refine .ite (stable_atName.bind fun _ => .pure _) ?_
  refine .ite (stable_atUser.bind fun _ => .pure _) ?_
  refine .ite (stable_atUser.bind fun _ => stable_u8.bind fun _ =>
    .ite (.pure _) (.ite (.pure _) (.fail _))) ?_
  refine .ite (stable_atUser.bind fun _ => .pure _) ?_
  refine .ite (stable_atName.bind fun _ => .pure _) ?_
  refine .ite (stable_grant.bind fun _ => .pure _) ?_
  exact .ite (stable_grant.bind fun _ => .pure _) (.fail _)

/-- More bytes do not change what the decoder reads, only what it leaves. -/
theorem stable_record : Stable record := stable_u8.bind stable_fields

end PayloadCursor

namespace CatalogRecord

/-- What the types of the fields promise: instants are `i64`s, slices of the disk `u64`s, names are
UTF-8. -/
def Typed (r : CatalogRecord) : Prop :=
  FitsI64 r.at_ ∧ (∀ name ∈ r.names, validUtf8 name) ∧
    match r with
    | .createTable _ ns .. => ns < 2 ^ 64
    | _ => True

/-- The record is no grant or revoke to a role with the empty name. -/
def NamesGrantee : CatalogRecord → Prop
  | .grant _ _ grantee _ => grantee.Named
  | .revoke _ _ grantee _ => grantee.Named
  | _ => True

theorem wellTyped_iff {r : CatalogRecord} : r.WellTyped ↔ r.Typed ∧ r.NamesGrantee := by
  cases r <;> simp [WellTyped, Typed, NamesGrantee, and_assoc]

/-- The record with `PUBLIC` in place of a role with the empty name. -/
def toPublic : CatalogRecord → CatalogRecord
  | .grant at_ table _ privileges => .grant at_ table .everyone privileges
  | .revoke at_ table _ privileges => .revoke at_ table .everyone privileges
  | r => r

theorem encodePayload_toPublic {r : CatalogRecord} (h : ¬ r.NamesGrantee) :
    r.toPublic.encodePayload = r.encodePayload := by
  cases r with
  | grant at_ table grantee privileges =>
    obtain rfl : grantee = .role [] := not_not.1 h
    rfl
  | revoke at_ table grantee privileges =>
    obtain rfl : grantee = .role [] := not_not.1 h
    rfl
  | _ => exact absurd trivial h

theorem toPublic_wellTyped {r : CatalogRecord} (ht : r.Typed) (h : ¬ r.NamesGrantee) :
    r.toPublic.WellTyped ∧ r.toPublic ≠ r := by
  cases r with
  | grant at_ table grantee privileges =>
    obtain rfl : grantee = .role [] := not_not.1 h
    exact ⟨⟨ht.1, ht.2.1, fun h => nomatch h⟩, fun h => nomatch h⟩
  | revoke at_ table grantee privileges =>
    obtain rfl : grantee = .role [] := not_not.1 h
    exact ⟨⟨ht.1, ht.2.1, fun h => nomatch h⟩, fun h => nomatch h⟩
  | _ => exact absurd trivial h

/-- A payload that is more than one that reads back does not read back. -/
theorem decodePayload_append {payload more : Bytes} {r : CatalogRecord}
    (h : decodePayload payload = .ok r) (hmore : more ≠ []) :
    decodePayload (payload ++ more) = .error .trailingBytes := by
  rw [decodePayload] at h
  cases hr : PayloadCursor.record payload with
  | error e => rw [hr] at h; cases h
  | ok out =>
    obtain ⟨r', rest⟩ := out
    rw [hr] at h
    cases rest with
    | cons b rest => cases h
    | nil =>
      rw [decodePayload, PayloadCursor.stable_record _ _ _ more hr, List.nil_append]
      obtain ⟨b, more, rfl⟩ := List.exists_cons_of_ne_nil hmore
      rfl

end CatalogRecord

namespace CatalogLog

/-- Append a record to the log, on a disk that works. -/
def append (file : Bytes) (record : CatalogRecord) (prevHash : Digest) :
    LogResult (Bytes × Digest) := do
  let (frame, head) ← encodeFrame record prevHash
  pure (file ++ frame, head)

/-- The log after records were appended to an empty one. -/
def logOf (rs : List CatalogRecord) : Bytes := format.encodeAll {} rs

/-- A record that is appended to a log that can be read is read back after it. -/
def ReadsBack (r : CatalogRecord) : Prop :=
  ∀ rs, (∀ r' ∈ rs, Readable r') → ∀ file head, append (logOf rs) r (headOf rs) = .ok (file, head) →
    replay file = .ok (rs ++ [r], head)

/-- What is asked of a record and its payload: it is read back from the log and from its payload;
no other record has its payload; and no part of the payload and no more than the payload is
accepted. -/
structure RoundTrips (r : CatalogRecord) (payload : Bytes) : Prop where
  readsBack : ReadsBack r
  decode : CatalogRecord.decodePayload payload = .ok r
  unique : ∀ r' : CatalogRecord, r'.Typed → r'.NamesGrantee →
    r'.encodePayload = .ok payload → r' = r
  noLess : ∀ part, part <+: payload → part ≠ payload →
    ∃ e, CatalogRecord.decodePayload part = .error e
  noMore : ∀ more, more ≠ [] → ∃ e, CatalogRecord.decodePayload (payload ++ more) = .error e

/-- A replay after an append: the records so far, then whatever the reader says to the new frame. -/
theorem replay_append {rs : List CatalogRecord} (hrs : ∀ r ∈ rs, Readable r) {payload : Bytes}
    (hshort : payload.length < 2 ^ 32) :
    replay (logOf rs ++ frame (headOf rs) payload) =
      if maxRecordPayload < payload.length then .error .recordTooLarge
      else match CatalogRecord.decodePayload payload with
        | .error e => .error e
        | .ok r => .ok (rs ++ [r], recordHash (headOf rs) payload) := by
  have hscan : scan readFrame {} (logOf rs ++ frame (headOf rs) payload) =
      (scan readFrame (format.nextAll {} rs) (frame (headOf rs) payload)).prepend rs :=
    FrameFormat.scan_encodeAll_append (F := format) ({} : Chain) hrs (frame (headOf rs) payload)
  have hread := readFrame_frame hshort (headOf rs) (format.nextAll {} rs) []
  have hhead : ¬ headOf rs ≠ (format.nextAll {} rs).head := not_not.2 rfl
  rw [List.append_nil, if_neg hhead] at hread
  by_cases hlen : maxRecordPayload < payload.length
  · rw [if_pos hlen] at hread ⊢
    rw [replay, hscan, scan_of_fail hread]
    rfl
  · rw [if_neg hlen] at hread ⊢
    cases hd : CatalogRecord.decodePayload payload with
    | error e =>
      rw [hd] at hread
      rw [replay, hscan, scan_of_fail hread]
      rfl
    | ok r =>
      rw [hd] at hread
      have hlast : scan readFrame ((format.nextAll {} rs).link payload) [] =
          ⟨[], (format.nextAll {} rs).link payload, [], none⟩ := scan_of_stop rfl
      rw [replay, hscan, scan_of_frame advances_readFrame hread, List.drop_length, hlast]
      simp only [Scan.prepend, List.append_nil]
      rfl

/-- **A record that the log accepts reads back exactly if** its payload is one that the reader
accepts, and it is no grant or revoke to a role with the empty name. -/
theorem roundTrips_iff {r : CatalogRecord} (ht : r.Typed) {payload : Bytes}
    (hp : r.encodePayload = .ok payload) :
    RoundTrips r payload ↔
      (payload.length ≤ maxRecordPayload ∨ 2 ^ 32 ≤ payload.length) ∧ r.NamesGrantee := by
  have happend : ∀ file head, append file r head =
      if 2 ^ 32 ≤ payload.length then .error .payloadTooLarge
      else .ok (file ++ frame head payload, recordHash head payload) := by
    intro file head
    rw [append, encodeFrame, hp]
    by_cases h : 2 ^ 32 ≤ payload.length
    · simp only [bind, Except.bind, if_pos h]
    · simp only [bind, Except.bind, if_neg h, pure, Except.pure]
  constructor
  · intro h
    refine ⟨?_, ?_⟩
    · -- a frame above the limit makes the replay fail
      by_contra hno
      rw [not_or, not_le, not_le] at hno
      have hok := h.readsBack [] (by simp) _ _
        ((happend _ _).trans (if_neg (not_le.2 hno.2)))
      rw [replay_append (by simp) hno.2, if_pos hno.1] at hok
      cases hok
    · by_contra hno
      -- the payload is that of the record for `PUBLIC`
      obtain ⟨hwell, hne⟩ := CatalogRecord.toPublic_wellTyped ht hno
      have hdec := CatalogRecord.decodePayload_encodePayload
        ((CatalogRecord.encodePayload_toPublic hno).trans hp) hwell
      rw [h.decode] at hdec
      exact hne (Except.ok.inj hdec).symm
  · rintro ⟨hlen, hnamed⟩
    have hwell : r.WellTyped := CatalogRecord.wellTyped_iff.2 ⟨ht, hnamed⟩
    have hdec := CatalogRecord.decodePayload_encodePayload hp hwell
    refine ⟨fun rs hrs file head hok => ?_, hdec, fun r' ht' hn' hp' => ?_,
      fun part hpart hne => ?_,
      fun more hmore => ⟨_, CatalogRecord.decodePayload_append hdec hmore⟩⟩
    · rw [happend] at hok
      split_ifs at hok with hbig
      cases hok
      rw [replay_append hrs (not_le.1 hbig), if_neg (not_lt.2 (hlen.resolve_right hbig)), hdec]
    · have hdec' := CatalogRecord.decodePayload_encodePayload hp'
        (CatalogRecord.wellTyped_iff.2 ⟨ht', hn'⟩)
      exact Except.ok.inj (hdec'.symm.trans hdec)
    · obtain ⟨more, rfl⟩ := hpart
      cases hpd : CatalogRecord.decodePayload part with
      | error e => exact ⟨e, rfl⟩
      | ok r' =>
        have hmore : more ≠ [] := fun h => hne (by rw [h, List.append_nil])
        rw [CatalogRecord.decodePayload_append hpd hmore] at hdec
        cases hdec

theorem roundTrips_dropTable :
    CatalogRecord.encodePayload (.dropTable 10 [116]) =
        .ok [2, 10, 0, 0, 0, 0, 0, 0, 0, 1, 0, 116] ∧
      RoundTrips (.dropTable 10 [116]) [2, 10, 0, 0, 0, 0, 0, 0, 0, 1, 0, 116] := by
  have hp : CatalogRecord.encodePayload (.dropTable 10 [116]) =
      .ok [2, 10, 0, 0, 0, 0, 0, 0, 0, 1, 0, 116] := by decide
  have ht : CatalogRecord.Typed (.dropTable 10 [116]) := by
    refine ⟨by simp [CatalogRecord.at_, FitsI64, i64Min, i64Max], ?_, trivial⟩
    decide
  exact ⟨hp, (roundTrips_iff ht hp).2 ⟨.inl (by decide), trivial⟩⟩

/-! ### Records that do not read back -/

theorem putAll_eq {α : Type} {put : α → LogResult Bytes} {f : α → Bytes} {as : List α}
    (h : ∀ a ∈ as, put a = .ok (f a)) : putAll put as = .ok (as.flatMap f) := by
  induction as with
  | nil => rfl
  | cons a as ih =>
    rw [putAll, h a List.mem_cons_self, ih fun b hb => h b (List.mem_cons_of_mem _ hb)]
    rfl

/-- A name of `n + 2` letters, another one for each `i` below 400. -/
def wideName (n i : ℕ) : Name :=
  List.replicate n 97 ++ [Fin.ofNat 256 (97 + i / 20), Fin.ofNat 256 (97 + i % 20)]

theorem length_wideName (n i : ℕ) : (wideName n i).length = n + 2 := by simp [wideName]

theorem wideName_ne_nil (n i : ℕ) : wideName n i ≠ [] := by simp [wideName]

theorem wideName_ascii (n : ℕ) {i : ℕ} (hi : i < 257) : validUtf8 (wideName n i) := by
  refine validUtf8_of_ascii fun b hb => ?_
  rw [wideName, List.mem_append] at hb
  rcases hb with hb | hb
  · rw [List.eq_of_mem_replicate hb]
    decide
  · simp only [List.mem_cons, List.not_mem_nil, or_false] at hb
    rcases hb with rfl | rfl <;> rw [Fin.lt_def] <;> simp only [Fin.ofNat] <;>
      change _ < 128 <;> omega

/-- 257 columns with such names. -/
def wideColumns (n : ℕ) : List ColumnDef :=
  (List.range 257).map fun i => ⟨wideName n i, .int4, wideName_ne_nil n i⟩

/-- A table with these columns. -/
def wideTable (n : ℕ) : CatalogRecord := .createTable 10 0 [116] (wideColumns n) none (some [115])

theorem wideTable_typed (n : ℕ) : (wideTable n).Typed := by
  refine ⟨by simp [wideTable, CatalogRecord.at_, FitsI64, i64Min, i64Max], fun name hname => ?_,
    show 0 < 2 ^ 64 by decide⟩
  simp only [wideTable, wideColumns, CatalogRecord.names, List.map_map, List.cons_append,
    Option.elim_none, List.append_nil, Option.toList_some, List.mem_cons, List.mem_append,
    List.mem_map, List.mem_range, List.not_mem_nil, or_false] at hname
  rcases hname with rfl | ⟨i, hi, rfl⟩ | rfl
  · decide
  · exact wideName_ascii n hi
  · decide

theorem putAll_wideColumns {n : ℕ} (hn : n + 2 < 2 ^ 16) :
    ∃ bytes, putAll putColumn (wideColumns n) = .ok bytes ∧ bytes.length = 257 * (n + 5) := by
  refine ⟨(wideColumns n).flatMap fun c => leBytes 2 (n + 2) ++ c.name ++ [c.ty.tag],
    putAll_eq fun c hc => ?_, ?_⟩
  · obtain ⟨i, -, rfl⟩ := List.mem_map.1 hc
    have hlen : (wideName n i).length = n + 2 := length_wideName n i
    simp only [putColumn, putStr, hlen, if_neg (not_le.2 hn), bind, Except.bind, pure, Except.pure]
  · rw [List.length_flatMap, wideColumns, List.map_map]
    have hconst : ∀ i ∈ List.range 257, ((fun c : ColumnDef =>
        (leBytes 2 (n + 2) ++ c.name ++ [c.ty.tag]).length) ∘
          fun i => ⟨wideName n i, .int4, wideName_ne_nil n i⟩) i = n + 5 := by
      intro i _
      simp only [Function.comp_apply, List.length_append, length_leBytes, length_wideName,
        List.length_singleton]
      omega
    rw [List.map_congr_left hconst, List.map_const', List.sum_replicate, List.length_range,
      smul_eq_mul]

theorem encodePayload_wideTable {n : ℕ} (hn : n + 2 < 2 ^ 16) :
    ∃ payload, (wideTable n).encodePayload = .ok payload ∧ payload.length = 26 + 257 * (n + 5) := by
  obtain ⟨bytes, hcolumns, hlen⟩ := putAll_wideColumns hn
  have hcount : (wideColumns n).length = 257 := by simp [wideColumns]
  refine ⟨[8] ++ ((putI64 10 ++ (leBytes 8 0 ++ ((leBytes 2 1 ++ [116]) ++ (leBytes 2 257 ++
    (bytes ++ [0]))))) ++ (leBytes 2 1 ++ [115])), ?_, ?_⟩
  · simp only [wideTable, CatalogRecord.encodePayload, hcolumns, hcount]
    rfl
  · simp only [List.length_append, hlen, CommitLog.length_putI64, length_leBytes, List.length_cons,
      List.length_nil]
    omega

theorem replay_append_of_long {r : CatalogRecord} {payload : Bytes}
    (hp : r.encodePayload = .ok payload) (hlong : maxRecordPayload < payload.length)
    (hshort : payload.length < 2 ^ 32) :
    ∃ file head, append (logOf []) r (headOf []) = .ok (file, head) ∧
      replay file = .error .recordTooLarge := by
  refine ⟨logOf [] ++ frame (headOf []) payload, recordHash (headOf []) payload, ?_, ?_⟩
  · simp only [append, encodeFrame, hp, bind, Except.bind, if_neg (not_le.2 hshort), pure,
      Except.pure]
  · rw [replay_append (by simp) hshort, if_pos hlong]

theorem replay_append_wideTable {n : ℕ} (hlong : maxRecordPayload < 26 + 257 * (n + 5))
    (hn : n + 2 < 2 ^ 16) :
    ∃ file head, append (logOf []) (wideTable n) (headOf []) = .ok (file, head) ∧
      replay file = .error .recordTooLarge := by
  obtain ⟨payload, hp, hlen⟩ := encodePayload_wideTable hn
  exact replay_append_of_long hp (by omega) (by omega)

/-- A table with many long names is acknowledged, and then the log cannot be read; a grant to a role
with the empty name reads back as a grant to `PUBLIC`. -/
theorem roundTrips_fails :
    ((wideTable 65533).Typed ∧ ∃ file head,
      append (logOf []) (wideTable 65533) (headOf []) = .ok (file, head) ∧
      replay file = .error .recordTooLarge) ∧
    ∃ payload, CatalogRecord.encodePayload (.grant 10 [116] (.role []) [.select]) = .ok payload ∧
      CatalogRecord.encodePayload (.grant 10 [116] .everyone [.select]) = .ok payload ∧
      CatalogRecord.decodePayload payload = .ok (.grant 10 [116] .everyone [.select]) := by
  constructor
  · have hlong : maxRecordPayload < 26 + 257 * (65533 + 5) := by norm_num [maxRecordPayload]
    exact ⟨wideTable_typed 65533, replay_append_wideTable hlong (by norm_num)⟩
  · exact ⟨[10, 10, 0, 0, 0, 0, 0, 0, 0, 1, 0, 116, 0, 0, 1, 0, 1], by decide,
      by decide, by decide⟩

end CatalogLog

end SteleDb
