import SteleDb.Storage.LogDamage
import SteleDb.Storage.TierRun
import SteleDb.Storage.Undo

/-!
# Replay of some of the records

Replay does not notice that records are missing.  An entry is refused for its size, or because the
version it closes has another end; with fewer records applied before it there are fewer ends, so
that an entry that was accepted is accepted still.

* `WalLog.Within` : the tiers of a replay of some of the records know no other ends;
* `WalLog.Within.replayRecords` : records that can be replayed can be replayed without some of
  them.
-/

namespace SteleDb

/-- With a healthy disk an insert leaves a healthy disk. -/
theorem Delta.clean_insertInner {d : Delta} (hf : d.faults.Clean) (v : Version) (b : Bool) :
    (d.insertInner v b).1.faults.Clean := by
  by_cases hv : v.Encodable
  · simp only [Delta.insertInner, Delta.checkEncodable_of hv]
    split_ifs with hs
    · obtain ⟨d₁, h₁, -, -, hf₁, -⟩ := Delta.spillInMemory_clean hf
      rw [h₁]
      exact hf₁
    · exact hf
  · rw [Delta.insertInner_of_not_encodable hv]
    exact hf

namespace WalLog

/-- Tiers on healthy disks, in which a version has one end. -/
structure Sane (t : Tiers) : Prop where
  delta : t.delta.faults.Clean
  index : t.index.faults.Clean
  writeOnce : t.index.WriteOnce

/-- The ends that are known in `s` are known in `t`. -/
structure Within (s t : Tiers) : Prop where
  left : Sane s
  right : Sane t
  closes : ∀ i x, s.index.closeOf i = some x → t.index.closeOf i = some x

theorem Sane.within {t : Tiers} (h : Sane t) : Within t t := ⟨h, h, fun _ _ => id⟩

/-- What a close that is accepted does. -/
theorem insertClose_ok {ix ix' : ValidityIndex} {c : Close} (hf : ix.faults.Clean)
    (hw : ix.WriteOnce) (h : ix.insertCloseInner c true = (ix', .ok ())) :
    c.Encodable ∧ (∀ x, ix.closeOf c.target = some x → x = c.interval) ∧ ix'.faults.Clean ∧
      ix'.WriteOnce ∧
      ∀ i, ix'.closeOf i = if i = c.target then some c.interval else ix.closeOf i := by
  by_cases hc : c.Encodable
  · rcases hnone : ix.closeOf c.target with _ | x
    · obtain ⟨ix₁, h₁, hw₁, hf₁, -, hcl⟩ := ValidityIndex.insertCloseInner_clean hw hf hc hnone true
      rw [h] at h₁
      cases h₁
      exact ⟨hc, fun x hx => (nomatch hx), hf₁, hw₁, hcl⟩
    · by_cases hx : x = c.interval
      · subst hx
        rw [ValidityIndex.insertCloseInner_idem hc hnone] at h
        cases h
        refine ⟨hc, fun y hy => (Option.some.inj hy).symm, hf, hw, fun i => ?_⟩
        by_cases hi : i = c.target
        · rw [if_pos hi, hi, hnone]
        · rw [if_neg hi]
      · simp [ValidityIndex.insertCloseInner, Close.checkEncodable, hc, hnone, hx] at h
  · rw [ValidityIndex.insertCloseInner_of_not_encodable hc] at h
    cases h

/-- A close is accepted where no other end is known. -/
theorem insertClose_of {ix : ValidityIndex} {c : Close} (hf : ix.faults.Clean)
    (hw : ix.WriteOnce) (hc : c.Encodable)
    (hx : ∀ x, ix.closeOf c.target = some x → x = c.interval) :
    ∃ ix', ix.insertCloseInner c true = (ix', .ok ()) := by
  rcases hnone : ix.closeOf c.target with _ | x
  · obtain ⟨ix₁, h₁, -⟩ := ValidityIndex.insertCloseInner_clean hw hf hc hnone true
    exact ⟨ix₁, h₁⟩
  · rw [hx x hnone] at hnone
    exact ⟨ix, ValidityIndex.insertCloseInner_idem hc hnone true⟩

/-- A close that the tiers with more ends accept. -/
theorem Within.insertClose {s t : Tiers} (h : Within s t) {c : Close} {ix : ValidityIndex}
    (hok : t.index.insertCloseInner c true = (ix, .ok ())) :
    (ix.faults.Clean ∧ ix.WriteOnce ∧
        ∀ i x, s.index.closeOf i = some x → ix.closeOf i = some x) ∧
      ∃ ix', s.index.insertCloseInner c true = (ix', .ok ()) ∧ ix'.faults.Clean ∧ ix'.WriteOnce ∧
        ∀ i x, ix'.closeOf i = some x → ix.closeOf i = some x := by
  obtain ⟨hc, hx, hf, hw, hcl⟩ := insertClose_ok h.right.index h.right.writeOnce hok
  obtain ⟨ix', hok'⟩ := insertClose_of h.left.index h.left.writeOnce hc fun x hs =>
    hx x (h.closes _ x hs)
  obtain ⟨-, -, hf', hw', hcl'⟩ := insertClose_ok h.left.index h.left.writeOnce hok'
  refine ⟨⟨hf, hw, ?_⟩, ix', hok', hf', hw', ?_⟩
  · intro i x hs
    have ht := h.closes i x hs
    rw [hcl]
    by_cases hi : i = c.target
    · rw [if_pos hi, hx x (hi ▸ ht)]
    · rwa [if_neg hi]
  · intro i x hs
    rw [hcl'] at hs
    rw [hcl]
    by_cases hi : i = c.target
    · rwa [if_pos hi] at hs ⊢
    · rw [if_neg hi] at hs ⊢
      exact h.closes i x hs

/-- One entry: whether or not it is applied to the tiers that know less, they still know less. -/
theorem Within.applyRedo {s t t' : Tiers} (h : Within s t) {r : Redo}
    (hok : applyRedo true t r = (t', .ok ())) :
    Within s t' ∧ ∃ s', SteleDb.applyRedo true s r = (s', .ok ()) ∧ Within s' t' := by
  cases r with
  | insert v =>
    have hv : v.Encodable := by
      by_contra hv
      rw [SteleDb.applyRedo, Delta.insertInner_of_not_encodable hv] at hok
      cases hok
    have hstep : ∀ u : Tiers, Sane u → ∃ d, SteleDb.applyRedo true u (.insert v) =
        ({ u with delta := d }, .ok ()) ∧ d.faults.Clean := by
      intro u hu
      have hclean := Delta.clean_insertInner hu.delta v true
      have hsnd := Delta.insertInner_snd hu.delta hv true
      rcases hd : u.delta.insertInner v true with ⟨d, res⟩
      rw [hd] at hclean hsnd
      simp only at hsnd
      subst hsnd
      refine ⟨d, ?_, hclean⟩
      rw [SteleDb.applyRedo, hd]
    obtain ⟨d, hd, hclean⟩ := hstep t h.right
    obtain ⟨d', hd', hclean'⟩ := hstep s h.left
    rw [hd] at hok
    cases hok
    have hright : Sane { t with delta := d } := ⟨hclean, h.right.index, h.right.writeOnce⟩
    exact ⟨⟨h.left, hright, h.closes⟩, _, hd',
      ⟨hclean', h.left.index, h.left.writeOnce⟩, hright, h.closes⟩
  | close c =>
    rw [SteleDb.applyRedo] at hok
    split at hok
    · rename_i ix hix
      cases hok
      obtain ⟨⟨hf, hw, hcl⟩, ix', hix', hf', hw', hcl'⟩ := h.insertClose hix
      have hright : Sane { t with index := ix } := ⟨h.right.delta, hf, hw⟩
      refine ⟨⟨h.left, hright, hcl⟩, { s with index := ix' }, ?_, ⟨h.left.delta, hf', hw'⟩, hright,
        hcl'⟩
      rw [SteleDb.applyRedo, hix']
    · cases hok
  | retract c =>
    rw [SteleDb.applyRedo] at hok
    split at hok
    · rename_i ix hix
      cases hok
      obtain ⟨⟨hf, hw, hcl⟩, ix', hix', hf', hw', hcl'⟩ := h.insertClose hix
      have hright : Sane { delta := t.delta.stageRetraction c, index := ix } :=
        ⟨h.right.delta, hf, hw⟩
      refine ⟨⟨h.left, hright, hcl⟩, { delta := s.delta.stageRetraction c, index := ix' }, ?_,
        ⟨h.left.delta, hf', hw'⟩, hright, hcl'⟩
      rw [SteleDb.applyRedo, hix']
    · cases hok

/-- A redo set. -/
theorem Within.apply {s t t' : Tiers} (h : Within s t) {redos : List Redo}
    (hok : apply t redos = (t', .ok ())) :
    Within s t' ∧ ∃ s', SteleDb.apply s redos = (s', .ok ()) ∧ Within s' t' := by
  induction redos generalizing s t with
  | nil =>
    cases hok
    exact ⟨h, s, rfl, h⟩
  | cons r redos ih =>
    rcases hr : SteleDb.applyRedo true t r with ⟨t₁, e | u⟩
    · rw [SteleDb.apply, applyRedos_cons_error hr] at hok
      cases hok
    · rw [SteleDb.apply, applyRedos_cons_ok hr] at hok
      obtain ⟨hskip, s₁, hs₁, hboth⟩ := h.applyRedo hr
      obtain ⟨hskip', -⟩ := ih hskip hok
      obtain ⟨-, s', hs', hboth'⟩ := ih hboth hok
      refine ⟨hskip', s', ?_, hboth'⟩
      rw [SteleDb.apply, applyRedos_cons_ok hs₁]
      exact hs'

/-- What one record does to any tiers: a redo set is applied, the empty one if it is skipped. -/
theorem replayRecords_cons_cases {committed : CommittedTxns} {t : Tiers} {n : ℕ} {record : Bytes}
    {records : List Bytes} {r : Tiers × ℕ}
    (h : replayRecords committed t n (record :: records) = .ok r) :
    ∃ redos t₁, apply t redos = (t₁, .ok ()) ∧
      replayRecords committed t₁ (n + redos.length) records = .ok r ∧
      ∀ s s₁ m records', apply s redos = (s₁, .ok ()) →
        replayRecords committed s m (record :: records') =
          replayRecords committed s₁ (m + redos.length) records' := by
  rcases hsplit : splitRecord record with e | ⟨txnId, redoBytes⟩
  · simp only [replayRecords, hsplit] at h
    cases h
  by_cases hskip : (txnId.any fun txn => !committed.admits txn) = true
  · simp only [replayRecords, hsplit, if_pos hskip] at h ⊢
    refine ⟨[], t, rfl, h, fun s s₁ m records' hs => ?_⟩
    cases hs
    rfl
  rcases hdec : decodeRedo redoBytes with e | redos
  · simp only [replayRecords, hsplit, if_neg hskip, hdec] at h
    cases h
  rcases happ : apply t redos with ⟨t₁, e | u⟩
  · simp only [replayRecords, hsplit, if_neg hskip, hdec, happ] at h
    cases h
  · simp only [replayRecords, hsplit, if_neg hskip, hdec, happ] at h ⊢
    refine ⟨redos, t₁, happ, h, fun s s₁ m records' hs => ?_⟩
    simp only [hs]

/-- **Records that can be replayed can be replayed without some of them.** -/
theorem Within.replayRecords {committed : CommittedTxns} {records fewer : List Bytes}
    (hsub : fewer.Sublist records) {s t : Tiers} (h : Within s t) {n : ℕ} {r : Tiers × ℕ}
    (hok : replayRecords committed t n records = .ok r) (m : ℕ) :
    ∃ r', SteleDb.replayRecords committed s m fewer = .ok r' := by
  induction hsub generalizing s t n m with
  | slnil => exact ⟨_, rfl⟩
  | cons record hsub ih =>
    obtain ⟨redos, t₁, happ, hrest, -⟩ := replayRecords_cons_cases hok
    exact ih (h.apply happ).1 hrest m
  | cons_cons record hsub ih =>
    obtain ⟨redos, t₁, happ, hrest, hcons⟩ := replayRecords_cons_cases hok
    obtain ⟨-, s₁, hs₁, hboth⟩ := h.apply happ
    rw [hcons s s₁ m _ hs₁]
    exact ih hboth hrest _

end WalLog

end SteleDb
