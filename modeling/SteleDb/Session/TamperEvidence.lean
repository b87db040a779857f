import SteleDb.Lib.HashChain
import SteleDb.Session.CatalogLog

/-!
# What the chains of the logs prove

The records of the commit log and of the catalog log are chained: each carries the digest of the
one before it.  `verifyChainTo` checks the commit log against an anchor kept outside of it, and
`verifyChainRecover` checks it on its own; the catalog log is checked by its `replay`.

* `CommitLog.linked_of_verify`, `CatalogLog.linked_of_replay` : what is accepted is a hash chain;
* `tamper_evidence` : lists that are accepted with the same head are equal, and a record that stands
  behind another history than it had is refused.

Both assume that SHA-256 has no collisions among the inputs that were hashed and maps none of them
to zero (`Sha256Faithful`).
-/

namespace SteleDb

open HashChain

/-- SHA-256 maps the inputs to distinct digests, none of which is zero. -/
def Sha256Faithful (inputs : List Bytes) : Prop := Faithful sha256 Digest.zero inputs

/-! ### The commit log -/

namespace CommitLog

/-- Errors of a check against an anchor. -/
inductive AnchorError where
  /-- The chain is broken. -/
  | chain (e : ChainError)
  /-- The chain does not end in the anchor. -/
  | headMismatch (expected found : Digest)
  deriving DecidableEq

/-- The head of a chain and its length. -/
structure ChainHead where
  /-- The digest of the last record. -/
  head : Digest
  /-- The number of records. -/
  len : ℕ
  deriving DecidableEq

/-- Check the chain of a log and that it ends in the anchor. -/
def verifyChainTo (payloads : List Bytes) (expectedHead : Digest) : Except AnchorError ChainHead :=
  match verifyChainRecover payloads with
  | .error e => .error (.chain e)
  | .ok c =>
    if c.head ≠ expectedHead then .error (.headMismatch expectedHead c.head)
    else .ok ⟨c.head, c.len⟩

/-- The inputs that a check hashes, up to the first payload it refuses. -/
def hashedFrom (head : Digest) : List Bytes → List Bytes
  | [] => []
  | bytes :: rest =>
    match ChainRecord.decode bytes with
    | none => []
    | some r => if r.prevHash ≠ head then [] else r.encode :: hashedFrom r.hash rest

/-- The inputs that `verifyChainRecover` hashes. -/
def hashed (payloads : List Bytes) : List Bytes := hashedFrom Digest.zero payloads

/-- A payload is the encoding of its record. -/
theorem ChainRecord.encode_of_decode {bytes : Bytes} {r : ChainRecord}
    (h : ChainRecord.decode bytes = some r) : r.encode = bytes := by
  rw [ChainRecord.decode] at h
  split_ifs at h with hlen
  rw [not_not] at hlen
  obtain rfl := Option.some.inj h
  have htxn : leBytes 8 (leNat (bytes.take 8)) = bytes.take 8 := by
    have := leBytes_leNat (bytes.take 8)
    rwa [List.length_take_of_le (by rw [hlen]; decide)] at this
  have hts : putI64 (Int.bmod (leNat ((bytes.drop 8).take 8)) (2 ^ 64)) =
      (bytes.drop 8).take 8 := by
    have hl : ((bytes.drop 8).take 8).length = 8 := by
      rw [List.length_take, List.length_drop, hlen]; decide
    have hlt := leNat_lt ((bytes.drop 8).take 8)
    rw [hl] at hlt
    have hmod : (Int.bmod (leNat ((bytes.drop 8).take 8)) (2 ^ 64) % 2 ^ 64).toNat =
        leNat ((bytes.drop 8).take 8) := by
      have := Int.bmod_emod (x := leNat ((bytes.drop 8).take 8)) (m := 2 ^ 64)
      omega
    have hbytes := leBytes_leNat ((bytes.drop 8).take 8)
    rw [hl] at hbytes
    rw [putI64, hmod, hbytes]
  have hseq : U64.encode (U64.decode ((bytes.drop 16).take 8)) = (bytes.drop 16).take 8 := by
    have hl : ((bytes.drop 16).take 8).length = 8 := by
      rw [List.length_take, List.length_drop, hlen]; decide
    have hlt := leNat_lt ((bytes.drop 16).take 8)
    rw [hl] at hlt
    have hval : (U64.decode ((bytes.drop 16).take 8)).val = leNat ((bytes.drop 16).take 8) :=
      Nat.mod_eq_of_lt hlt
    have hbytes := leBytes_leNat ((bytes.drop 16).take 8)
    rw [hl] at hbytes
    rw [U64.encode, hval, hbytes]
  have hprev : (Digest.ofBytes (bytes.drop 24)).bytes = bytes.drop 24 :=
    Digest.bytes_ofBytes (by rw [List.length_drop, hlen]; decide)
  have hsplit : ∀ n, bytes.drop n = (bytes.drop n).take 8 ++ bytes.drop (n + 8) := fun n => by
    rw [← List.drop_drop, List.take_append_drop]
  calc ChainRecord.encode _
      = bytes.take 8 ++ ((bytes.drop 8).take 8 ++ ((bytes.drop 16).take 8 ++ bytes.drop 24)) := by
        rw [ChainRecord.encode]
        simp only [htxn, hts, hseq, hprev]
    _ = bytes.take 8 ++ ((bytes.drop 8).take 8 ++ bytes.drop 16) := by rw [← hsplit 16]
    _ = bytes.take 8 ++ bytes.drop 8 := by rw [← hsplit 8]
    _ = bytes := List.take_append_drop 8 bytes

/-- The digest that a payload carries. -/
def prevOf (bytes : Bytes) : Digest :=
  ((ChainRecord.decode bytes).map ChainRecord.prevHash).getD Digest.zero

/-- **What the check accepts is a hash chain**, and every payload was hashed. -/
theorem linked_of_verifyFrom {c v : RecoveredChain} {l : List Bytes}
    (h : verifyFrom c l = .ok v) :
    Linked prevOf sha256 c.head l ∧ v.head = head sha256 c.head l ∧ hashedFrom c.head l = l := by
  induction l generalizing c with
  | nil => cases h; exact ⟨trivial, rfl, rfl⟩
  | cons bytes l ih =>
    rw [verifyFrom] at h
    cases hd : ChainRecord.decode bytes with
    | none => rw [hd] at h; cases h
    | some r =>
      rw [hd] at h
      simp only at h
      split_ifs at h with hprev
      rw [not_not] at hprev
      have henc := ChainRecord.encode_of_decode hd
      have hhash : r.hash = sha256 bytes := by rw [ChainRecord.hash, henc]
      obtain ⟨hl, hv, hh⟩ := ih h
      simp only [hhash] at hl hv hh
      refine ⟨⟨?_, hl⟩, hv, ?_⟩
      · rw [prevOf, hd]
        exact hprev
      · rw [hashedFrom, hd]
        simp only [hprev, ne_eq, not_true_eq_false, if_false, henc, hhash, hh]

theorem linked_of_verify {l : List Bytes} {v : RecoveredChain}
    (h : verifyChainRecover l = .ok v) :
    Linked prevOf sha256 Digest.zero l ∧ v.head = head sha256 Digest.zero l ∧ hashed l = l :=
  linked_of_verifyFrom h

theorem verify_of_verifyChainTo {l : List Bytes} {anchor : Digest} {h : ChainHead}
    (hok : verifyChainTo l anchor = .ok h) :
      ∃ v, verifyChainRecover l = .ok v ∧ v.head = anchor := by
  rw [verifyChainTo] at hok
  cases hv : verifyChainRecover l with
  | error e => rw [hv] at hok; cases hok
  | ok v =>
    rw [hv] at hok
    simp only at hok
    split_ifs at hok with hhead
    exact ⟨v, rfl, not_not.1 hhead⟩

end CommitLog

/-! ### The catalog log -/

namespace CatalogLog

/-- A frame of the catalog log: the digest it carries and its payload, whose length fits the length
field. -/
structure Link where
  /-- The digest. -/
  prevHash : Digest
  /-- The payload. -/
  payload : Bytes
  fits : payload.length < 2 ^ 32

@[ext] theorem Link.ext' {x y : Link} (hp : x.prevHash = y.prevHash) (hl : x.payload = y.payload) :
    x = y := by
  cases x
  cases y
  simp_all

/-- What is hashed of a frame. -/
def Link.input (x : Link) : Bytes := x.prevHash.bytes ++ x.payload

/-- The frames one after another. -/
def fileOf (l : List Link) : Bytes := l.flatMap fun x => frame x.prevHash x.payload

/-- The inputs that a replay hashes, up to the first frame it refuses. -/
def hashedFrom (head : Digest) : List Link → List Bytes
  | [] => []
  | x :: rest =>
    if maxRecordPayload < x.payload.length then []
    else if x.prevHash ≠ head then []
    else x.input :: hashedFrom (recordHash x.prevHash x.payload) rest

/-- The inputs that `replay` hashes. -/
def hashed (l : List Link) : List Bytes := hashedFrom Digest.zero l

/-- The digest has a fixed length, so the input determines the frame. -/
theorem Link.input_inj {x y : Link} (h : x.input = y.input) : x = y := by
  have hp := congrArg (List.take 32) h
  have hl := congrArg (List.drop 32) h
  rw [Link.input, Link.input, List.take_left' (Digest.length_bytes _),
    List.take_left' (Digest.length_bytes _)] at hp
  rw [Link.input, Link.input, List.drop_left' (Digest.length_bytes _),
    List.drop_left' (Digest.length_bytes _)] at hl
  have hdig : x.prevHash = y.prevHash := by
    rw [← Digest.ofBytes_bytes x.prevHash, hp, Digest.ofBytes_bytes]
  exact Link.ext' hdig hl

/-- The digest of a frame. -/
def Link.hash (x : Link) : Digest := sha256 x.input

/-- **What a replay accepts is a hash chain**, and every frame was hashed. -/
theorem linked_of_scan {c : Chain} {l : List Link}
    (h : (scan readFrame c (fileOf l)).error = none) :
    Linked Link.prevHash Link.hash c.head l ∧
      (scan readFrame c (fileOf l)).state.head = head Link.hash c.head l ∧
      hashedFrom c.head l = l.map Link.input := by
  induction l generalizing c with
  | nil =>
    have hstop : scan readFrame c (fileOf []) = ⟨[], c, [], none⟩ := scan_of_stop rfl
    rw [hstop]
    exact ⟨trivial, rfl, rfl⟩
  | cons x l ih =>
    have hread := readFrame_frame x.fits x.prevHash c (fileOf l)
    have hfile : fileOf (x :: l) = frame x.prevHash x.payload ++ fileOf l := rfl
    rw [hfile] at h ⊢
    by_cases hlen : maxRecordPayload < x.payload.length
    · rw [if_pos hlen] at hread
      rw [scan_of_fail hread] at h
      cases h
    · rw [if_neg hlen] at hread
      by_cases hprev : x.prevHash ≠ c.head
      · rw [if_pos hprev] at hread
        rw [scan_of_fail hread] at h
        cases h
      · rw [if_neg hprev] at hread
        rw [not_not] at hprev
        cases hd : CatalogRecord.decodePayload x.payload with
        | error e =>
          rw [hd] at hread
          rw [scan_of_fail hread] at h
          cases h
        | ok record =>
          rw [hd] at hread
          have hscan := scan_of_frame advances_readFrame hread
          rw [List.drop_left' rfl] at hscan
          rw [hscan] at h ⊢
          have hlink : (c.link x.payload).head = x.hash := by
            rw [Link.hash, Link.input, hprev]
            rfl
          obtain ⟨hl, hh, hs⟩ := @ih (c.link x.payload) h
          rw [hlink] at hl hh hs
          refine ⟨⟨hprev, hl⟩, hh, ?_⟩
          rw [hashedFrom, if_neg hlen, if_neg (not_not.2 hprev), List.map_cons]
          exact congrArg _ hs

theorem linked_of_replay {l : List Link} {rs : List CatalogRecord} {h : Digest}
    (hok : replay (fileOf l) = .ok (rs, h)) :
    Linked Link.prevHash Link.hash Digest.zero l ∧ h = head Link.hash Digest.zero l ∧
      hashed l = l.map Link.input := by
  rw [replay] at hok
  cases he : (scan readFrame {} (fileOf l)).error with
  | some e => rw [he] at hok; cases hok
  | none =>
    simp only [he] at hok
    obtain ⟨hl, hh, hs⟩ := linked_of_scan (c := {}) he
    cases hok
    exact ⟨hl, hh, hs⟩

/-- Frames with distinct inputs have distinct digests, if SHA-256 has no collisions among these. -/
theorem faithful_of_inputs {l : List Link} (h : Sha256Faithful (l.map Link.input)) :
    Faithful Link.hash Digest.zero l := by
  refine ⟨fun x hx y hy heq => ?_, fun x hx => h.ne _ (List.mem_map_of_mem hx)⟩
  exact Link.input_inj (h.inj _ (List.mem_map_of_mem hx) _ (List.mem_map_of_mem hy) heq)

end CatalogLog

/-! ### The laws -/

/-- **Tamper evidence.**  If SHA-256 has no collisions among the inputs hashed and maps none of them
to zero: two lists of commit records accepted with the same anchor are equal; and a list in which a
record of an accepted list stands behind other records than it stood behind there (because one of
these was changed, deleted or moved, or one was inserted) is refused.  The same holds of the catalog
log, whose replay yields the head and checks the chain. -/
theorem tamper_evidence :
    (∀ l l' anchor h h', Sha256Faithful (CommitLog.hashed l ++ CommitLog.hashed l') →
      CommitLog.verifyChainTo l anchor = .ok h → CommitLog.verifyChainTo l' anchor = .ok h' →
      l = l') ∧
    (∀ before x after before' after' v,
      Sha256Faithful (CommitLog.hashed (before ++ x :: after) ++
        CommitLog.hashed (before' ++ x :: after')) →
      CommitLog.verifyChainRecover (before ++ x :: after) = .ok v → before' ≠ before →
      ∃ e, CommitLog.verifyChainRecover (before' ++ x :: after') = .error e) ∧
    (∀ l l' rs rs' h, Sha256Faithful (CatalogLog.hashed l ++ CatalogLog.hashed l') →
      CatalogLog.replay (CatalogLog.fileOf l) = .ok (rs, h) →
      CatalogLog.replay (CatalogLog.fileOf l') = .ok (rs', h) → l = l') ∧
    ∀ before x after before' after' v,
      Sha256Faithful (CatalogLog.hashed (before ++ x :: after) ++
        CatalogLog.hashed (before' ++ x :: after')) →
      CatalogLog.replay (CatalogLog.fileOf (before ++ x :: after)) = .ok v → before' ≠ before →
      ∃ e, CatalogLog.replay (CatalogLog.fileOf (before' ++ x :: after')) = .error e := by
  refine ⟨?_, ?_, ?_, ?_⟩
  · intro l l' anchor h h' hf hok hok'
    obtain ⟨v, hv, hhead⟩ := CommitLog.verify_of_verifyChainTo hok
    obtain ⟨v', hv', hhead'⟩ := CommitLog.verify_of_verifyChainTo hok'
    obtain ⟨hl, hend, hall⟩ := CommitLog.linked_of_verify hv
    obtain ⟨hl', hend', hall'⟩ := CommitLog.linked_of_verify hv'
    rw [hall, hall'] at hf
    exact hl.eq_of_head_eq hl' hf (hend.symm.trans (hhead.trans (hhead'.symm.trans hend')))
  · intro before x after before' after' v hf hok hne
    cases hok' : CommitLog.verifyChainRecover (before' ++ x :: after') with
    | error e => exact ⟨e, rfl⟩
    | ok v' =>
      obtain ⟨hl, -, hall⟩ := CommitLog.linked_of_verify hok
      obtain ⟨hl', -, hall'⟩ := CommitLog.linked_of_verify hok'
      rw [hall, hall'] at hf
      refine absurd (hl.eq_of_kept hl' (hf.mono fun y hy => ?_)) hne
      rcases List.mem_append.1 hy with hy | hy <;> simp [hy]
  · intro l l' rs rs' h hf hok hok'
    obtain ⟨hl, hend, hall⟩ := CatalogLog.linked_of_replay hok
    obtain ⟨hl', hend', hall'⟩ := CatalogLog.linked_of_replay hok'
    rw [hall, hall', ← List.map_append] at hf
    exact hl.eq_of_head_eq hl' (CatalogLog.faithful_of_inputs hf) (hend.symm.trans hend')
  · intro before x after before' after' v hf hok hne
    cases hok' : CatalogLog.replay (CatalogLog.fileOf (before' ++ x :: after')) with
    | error e => exact ⟨e, rfl⟩
    | ok v' =>
      obtain ⟨hl, -, hall⟩ := CatalogLog.linked_of_replay hok
      obtain ⟨hl', -, hall'⟩ := CatalogLog.linked_of_replay hok'
      rw [hall, hall', ← List.map_append] at hf
      refine absurd (hl.eq_of_kept hl' ((CatalogLog.faithful_of_inputs hf).mono fun y hy => ?_)) hne
      rcases List.mem_append.1 hy with hy | hy <;> simp [hy]

/-- Two commits. -/
def twoCommits : List CommitRecord := [⟨1, 10⟩, ⟨2, 20⟩]

/-- The first of them. -/
def firstCommit : CommitLog.ChainRecord := ⟨⟨1, 10⟩, 1, Digest.zero⟩

/-- The first of them with another commit time. -/
def forgedCommit : CommitLog.ChainRecord := ⟨⟨1, 11⟩, 1, Digest.zero⟩

/-- The second of them. -/
def secondCommit : CommitLog.ChainRecord := ⟨⟨2, 20⟩, 2, firstCommit.hash⟩

theorem tamper_evidence_forged :
    CommitLog.Chain.payloads {} twoCommits = [firstCommit.encode] ++ secondCommit.encode :: [] ∧
      ∃ e, CommitLog.verifyChainRecover ([forgedCommit.encode] ++ secondCommit.encode :: []) =
        .error e := by
  have hpayloads : CommitLog.Chain.payloads {} twoCommits =
      [firstCommit.encode] ++ secondCommit.encode :: [] := rfl
  have htyped : ∀ r ∈ twoCommits, CommitLog.WellTyped r := by
    simp [twoCommits, CommitLog.WellTyped, FitsI64, i64Min, i64Max]
  obtain ⟨v, hok, -⟩ := CommitLog.verifyFrom_payloads (c := {}) (v := {}) htyped rfl rfl
  have hne : [forgedCommit.encode] ≠ [firstCommit.encode] := by decide
  -- the digests of the three records differ in their first byte
  have hdigests : ([firstCommit.encode, secondCommit.encode, forgedCommit.encode].map fun x =>
      sha256 x 0) = [251, 87, 186] := by decide +kernel
  have hnodup : ([firstCommit.encode, secondCommit.encode, forgedCommit.encode].map fun x =>
      sha256 x 0).Nodup := by
    rw [hdigests]
    decide
  have hzero : (0 : Fin 256) ∉ [firstCommit.encode, secondCommit.encode, forgedCommit.encode].map
      fun x => sha256 x 0 := by
    rw [hdigests]
    decide
  have hfaithful : Sha256Faithful [firstCommit.encode, secondCommit.encode, forgedCommit.encode] :=
    ⟨fun x hx y hy h => List.inj_on_of_nodup_map hnodup hx hy (congrFun h 0),
      fun x hx h => hzero (List.mem_map.2 ⟨x, hx, congrFun h 0⟩)⟩
  have hforged : CommitLog.hashed ([forgedCommit.encode] ++ secondCommit.encode :: []) =
      [forgedCommit.encode] := by
    have hlink : firstCommit.hash ≠ forgedCommit.hash := fun h => hne <| by
      rw [hfaithful.inj _ (by simp) _ (by simp) h]
    have hprev : secondCommit.prevHash = firstCommit.hash := rfl
    have htyped : CommitLog.WellTyped ⟨1, 11⟩ ∧ CommitLog.WellTyped ⟨2, 20⟩ := by
      simp [CommitLog.WellTyped, FitsI64, i64Min, i64Max]
    have hdec : CommitLog.ChainRecord.decode forgedCommit.encode = some forgedCommit :=
      CommitLog.ChainRecord.decode_encode htyped.1
    have hdec' : CommitLog.ChainRecord.decode secondCommit.encode = some secondCommit :=
      CommitLog.ChainRecord.decode_encode htyped.2
    have hgenesis : forgedCommit.prevHash = Digest.zero := rfl
    simp only [CommitLog.hashed, List.cons_append, List.nil_append, CommitLog.hashedFrom, hdec,
      hdec', hprev, hgenesis]
    rw [if_neg (not_not.2 rfl), if_pos hlink]
  rw [hpayloads] at hok
  refine ⟨hpayloads, tamper_evidence.2.1 _ _ _ _ _ v ?_ hok hne⟩
  rw [(CommitLog.linked_of_verify hok).2.2, hforged]
  exact hfaithful

end SteleDb
