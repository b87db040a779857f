import SteleDb.Storage.Delta
import SteleDb.Storage.ValidityIndex

/-!
# The read merge

A read gathers the versions of both tiers, stamps each with the end the validity index has for
it, and picks per key the version whose period contains the snapshot: the one of greatest
`(sys_from, seq)` at or before the snapshot, if it has not ended by then.

`Resolves` says the same without tiers, maps or files, from the set of versions a table holds and
the ends its index answers.  `resolveOpen_eq_some` and `mem_resolveSnapshot` connect the two: a
read is decided by that set and those ends, wherever the records sit.
-/

namespace SteleDb

/-- One key's versions by `(sys_from, seq)`. -/
abbrev VersionChain := KeyedMap Version.pos

/-- The chains of many keys. -/
abbrev KeyChains := OrdMap BusinessKey VersionChain

/-- Stamp the end of a version's period onto it; no end leaves it open. -/
def Version.stamp (v : Version) (ci : Option ClosedInterval) : Version :=
  match ci with
  | some ci => { v with sysTo := ci.sysTo, closedBy := some ci.closedBy }
  | none => v

@[simp] theorem Version.stamp_pos (v : Version) (ci : Option ClosedInterval) :
    (v.stamp ci).pos = v.pos := by cases ci <;> rfl

@[simp] theorem Version.stamp_businessKey (v : Version) (ci : Option ClosedInterval) :
    (v.stamp ci).businessKey = v.businessKey := by cases ci <;> rfl

@[simp] theorem Version.stamp_sysFrom (v : Version) (ci : Option ClosedInterval) :
    (v.stamp ci).sysFrom = v.sysFrom := by cases ci <;> rfl

@[simp] theorem Version.stamp_seq (v : Version) (ci : Option ClosedInterval) :
    (v.stamp ci).seq = v.seq := by cases ci <;> rfl

@[simp] theorem Version.stamp_payload (v : Version) (ci : Option ClosedInterval) :
    (v.stamp ci).payload = v.payload := by cases ci <;> rfl

@[simp] theorem Version.stamp_provenance (v : Version) (ci : Option ClosedInterval) :
    (v.stamp ci).provenance = v.provenance := by cases ci <;> rfl

/-- Overlay the ends of one key's versions onto its chain. -/
def overlayChain (chain : VersionChain) (closes : OrdMap ChainPos ClosedInterval) : VersionChain :=
  chain.mapValues (fun v => v.stamp closes[v.pos]?) fun v => v.stamp_pos _

/-- The version of a chain live at `snapshot`: the last one that starts by then, unless it has
ended by then.  Of the versions sharing the snapshot's instant the highest `seq` counts. -/
def liveInChain (chain : VersionChain) (snapshot : SystemTimeMicros) : Option Version :=
  (chain.lastLE (toLex (snapshot, seqMax))).filter fun v => snapshot < v.sysTo

/-- The chain of `key` over both tiers with its ends; a delta version replaces a sealed one of the
same position. -/
def resolvedChain (deltaVersions sealedVersions : List Version) (ix : ValidityIndex)
    (key : BusinessKey) : VersionChain :=
  let chain : VersionChain :=
    (KeyedMap.ofList (sealedVersions.filter fun v => v.businessKey = key)).insertAll
      (deltaVersions.filter fun v => v.businessKey = key)
  overlayChain chain (ix.closesFor key)

/-- The version of `key` live at `at_`, over both tiers and the index. -/
def resolveOpen (deltaVersions sealedVersions : List Version) (ix : ValidityIndex)
    (key : BusinessKey) (at_ : SystemTimeMicros) : Option Version :=
  liveInChain (resolvedChain deltaVersions sealedVersions ix key) at_

/-- Group versions into chains by key; a later version replaces an earlier one of the same
identity. -/
def groupChains (versions : List Version) : KeyChains :=
  versions.foldl
    (fun chains v => chains.insert v.businessKey
      ((chains[v.businessKey]?.getD KeyedMap.empty).insert v)) ∅

/-- Group versions into chains and overlay the index. -/
def foldChains (versions : List Version) (ix : ValidityIndex) : KeyChains :=
  let chains := groupChains versions
  let closes := ix.closesForKeys chains.keys
  chains.map fun key chain =>
    chain.mapValues (fun v => v.stamp closes[(toLex (key, v.pos) : VersionId)]?)
      fun v => v.stamp_pos _

/-- Per key, in key order, the version live at `snapshot`. -/
def resolveSnapshot (chains : KeyChains) (snapshot : SystemTimeMicros) : List Version :=
  chains.toList.filterMap fun e => liveInChain e.2 snapshot

/-! ### What a read means -/

/-- Among the versions `P` with the ends `closeOf`, `v` is the version of `key` live at `s`: the
last one of the key that starts by `s`, stamped with its end, and not ended by `s`. -/
def Resolves (P : Version → Prop) (closeOf : VersionId → Option ClosedInterval)
    (key : BusinessKey) (s : SystemTimeMicros) (v : Version) : Prop :=
  ∃ raw, P raw ∧ raw.businessKey = key ∧ raw.sysFrom ≤ s ∧
    (∀ w, P w → w.businessKey = key → w.sysFrom ≤ s → w.pos ≤ raw.pos) ∧
    v = raw.stamp (closeOf raw.id) ∧ s < v.sysTo

theorem Version.pos_le_iff {v : Version} {s : SystemTimeMicros} :
    v.pos ≤ toLex (s, seqMax) ↔ v.sysFrom ≤ s := by
  rw [Version.pos, Prod.Lex.toLex_le_toLex]
  constructor
  · rintro (h | ⟨h, -⟩)
    · exact h.le
    · exact h.le
  · intro h
    rcases h.lt_or_eq with h | h
    · exact .inl h
    · exact .inr ⟨h, le_seqMax _⟩

theorem liveInChain_eq_some {chain : VersionChain} {s : SystemTimeMicros} {v : Version} :
    liveInChain chain s = some v ↔ v ∈ chain ∧ v.sysFrom ≤ s ∧
      (∀ w ∈ chain, w.sysFrom ≤ s → w.pos ≤ v.pos) ∧ s < v.sysTo := by
  rw [liveInChain, Option.filter_eq_some_iff, KeyedMap.lastLE_eq_some]
  simp only [Version.pos_le_iff, decide_eq_true_eq]
  tauto

/-- A chain whose versions are exactly the stamped versions of a key resolves as `Resolves`
says. -/
theorem liveInChain_of_mem_iff {chain : VersionChain} {P : Version → Prop}
    {closeOf : VersionId → Option ClosedInterval} {key : BusinessKey}
    (h : ∀ v, v ∈ chain ↔ ∃ raw, P raw ∧ raw.businessKey = key ∧ raw.stamp (closeOf raw.id) = v)
    {s : SystemTimeMicros} {v : Version} :
    liveInChain chain s = some v ↔ Resolves P closeOf key s v := by
  rw [liveInChain_eq_some, h]
  constructor
  · rintro ⟨⟨raw, hP, hk, rfl⟩, hs, hmax, hlt⟩
    refine ⟨raw, hP, hk, by simpa using hs, fun w hw hwk hws => ?_, rfl, hlt⟩
    have := hmax (w.stamp (closeOf w.id)) ((h _).2 ⟨w, hw, hwk, rfl⟩) (by simpa using hws)
    simpa using this
  · rintro ⟨raw, hP, hk, hs, hmax, rfl, hlt⟩
    refine ⟨⟨raw, hP, hk, rfl⟩, by simpa using hs, fun w hw hws => ?_, hlt⟩
    obtain ⟨raw', hP', hk', rfl⟩ := (h w).1 hw
    simpa using hmax raw' hP' hk' (by simpa using hws)

/-- The tiers agree on the versions they share. -/
def ConsistentLists (l l' : List Version) : Prop :=
  ∀ v w, v ∈ l ∨ v ∈ l' → w ∈ l ∨ w ∈ l' → v.id = w.id → v = w

/-- The resolved chain of a key: its versions over both tiers, each with its end. -/
theorem mem_resolvedChain {dv sv : List Version} {ix : ValidityIndex} {key : BusinessKey}
    (hc : ConsistentLists dv sv) (hw : ix.WriteOnce) {v : Version} :
    v ∈ resolvedChain dv sv ix key ↔ ∃ raw, (raw ∈ dv ∨ raw ∈ sv) ∧ raw.businessKey = key ∧
      raw.stamp (ix.closeOf raw.id) = v := by
  have hid : ∀ {a b : Version}, a.businessKey = key → b.businessKey = key → a.pos = b.pos →
      a.id = b.id := fun ha hb hp => Version.id_eq_iff.2 ⟨ha.trans hb.symm, hp⟩
  rw [resolvedChain, overlayChain, KeyedMap.mem_mapValues]
  have hmem : ∀ w, w ∈ (KeyedMap.ofList (sv.filter fun v => v.businessKey = key) :
      VersionChain).insertAll (dv.filter fun v => v.businessKey = key) ↔
        (w ∈ dv ∨ w ∈ sv) ∧ w.businessKey = key := by
    have hs : ∀ w, w ∈ (KeyedMap.ofList (sv.filter fun v => v.businessKey = key) :
        VersionChain) ↔ w ∈ sv ∧ w.businessKey = key := by
      intro w
      rw [KeyedMap.mem_ofList]
      · simp
      · simp only [List.mem_filter, decide_eq_true_eq]
        rintro a ⟨ha, hak⟩ b ⟨hb, hbk⟩ hp
        exact hc a b (.inr ha) (.inr hb) (hid hak hbk hp)
    intro w
    rw [KeyedMap.mem_insertAll]
    · rw [hs, List.mem_filter, decide_eq_true_eq]; tauto
    · simp only [hs, List.mem_filter, decide_eq_true_eq]
      rintro a ha b ⟨hb, hbk⟩ hp
      have ha' : (a ∈ dv ∨ a ∈ sv) ∧ a.businessKey = key := by tauto
      exact hc a b ha'.1 (.inl hb) (hid ha'.2 hbk hp)
  have hstamp : ∀ w : Version, w.businessKey = key →
      w.stamp (ix.closesFor key)[w.pos]? = w.stamp (ix.closeOf w.id) := by
    intro w hk
    rw [ValidityIndex.getElem?_closesFor hw, ← hk]
    rfl
  constructor
  · rintro ⟨w, hwm, rfl⟩
    obtain ⟨hP, hk⟩ := (hmem w).1 hwm
    exact ⟨w, hP, hk, (hstamp w hk).symm⟩
  · rintro ⟨w, hP, hk, rfl⟩
    exact ⟨w, (hmem w).2 ⟨hP, hk⟩, hstamp w hk⟩

/-- **A point read is decided by the versions held and the ends answered.** -/
theorem resolveOpen_eq_some {dv sv : List Version} {ix : ValidityIndex} {key : BusinessKey}
    (hc : ConsistentLists dv sv) (hw : ix.WriteOnce) {s : SystemTimeMicros} {v : Version} :
    resolveOpen dv sv ix key s = some v ↔
      Resolves (fun w => w ∈ dv ∨ w ∈ sv) ix.closeOf key s v :=
  liveInChain_of_mem_iff fun _ => mem_resolvedChain hc hw

/-- The chain of a key in a grouping: the key's versions, in the order of the list. -/
theorem getD_groupChains (versions : List Version) (key : BusinessKey) :
    (groupChains versions)[key]?.getD KeyedMap.empty =
      KeyedMap.ofList (versions.filter fun v => v.businessKey = key) := by
  have hfold : ∀ (l : List Version) (m : KeyChains),
      (l.foldl (fun chains v => chains.insert v.businessKey
        ((chains[v.businessKey]?.getD KeyedMap.empty).insert v)) m)[key]?.getD KeyedMap.empty =
          (m[key]?.getD KeyedMap.empty).insertAll (l.filter fun v => v.businessKey = key) := by
    intro l
    induction l with
    | nil => intro m; rfl
    | cons v l ih =>
      intro m
      rw [List.foldl_cons, ih, OrdMap.getElem?_insert]
      by_cases hk : v.businessKey = key
      · rw [if_pos hk, List.filter_cons_of_pos (by simpa using hk), hk]
        rfl
      · rw [if_neg hk, List.filter_cons_of_neg (by simpa using hk)]
  rw [groupChains, hfold]
  simp [KeyedMap.ofList]

theorem resolves_congr {P Q : Version → Prop} {f g : VersionId → Option ClosedInterval}
    {key : BusinessKey} {s : SystemTimeMicros} {v : Version}
    (hP : ∀ w, w.businessKey = key → (P w ↔ Q w)) (hf : ∀ w, P w → f w.id = g w.id) :
    Resolves P f key s v ↔ Resolves Q g key s v := by
  constructor
  · rintro ⟨raw, hr, hk, hs, hmax, rfl, hlt⟩
    refine ⟨raw, (hP raw hk).1 hr, hk, hs, fun w hw hwk => hmax w ((hP w hwk).2 hw) hwk, ?_, hlt⟩
    rw [hf raw hr]
  · rintro ⟨raw, hr, hk, hs, hmax, rfl, hlt⟩
    refine ⟨raw, (hP raw hk).2 hr, hk, hs, fun w hw hwk => hmax w ((hP w hwk).1 hw) hwk, ?_, hlt⟩
    rw [hf raw ((hP raw hk).2 hr)]

/-! ### Chains -/

section Chains

variable {T : List Version} {ix : ValidityIndex}
  (hT : ∀ a ∈ T, ∀ b ∈ T, a.id = b.id → a = b) (hw : ix.WriteOnce)

include hT hw in
/-- The chain of a key: its versions with their ends. -/
theorem mem_of_getElem?_foldChains {key : BusinessKey} {chain : VersionChain}
    (hchain : (foldChains T ix)[key]? = some chain) (v : Version) :
    v ∈ chain ↔ ∃ raw, raw ∈ T ∧ raw.businessKey = key ∧ raw.stamp (ix.closeOf raw.id) = v := by
  rw [foldChains, OrdMap.getElem?_map, Option.map_eq_some_iff] at hchain
  obtain ⟨group, hgroup, rfl⟩ := hchain
  have hkey : key ∈ (groupChains T).keys := by
    rw [← Std.ExtTreeMap.map_fst_toList_eq_keys]
    exact List.mem_map.2 ⟨(key, group), OrdMap.mem_toList.2 hgroup, rfl⟩
  have hmem : ∀ w, w ∈ group ↔ w ∈ T ∧ w.businessKey = key := by
    intro w
    have hgetD := getD_groupChains T key
    rw [hgroup, Option.getD_some] at hgetD
    rw [hgetD, KeyedMap.mem_ofList, List.mem_filter, decide_eq_true_eq]
    intro a ha b hb hpos
    obtain ⟨haT, hak⟩ := List.mem_filter.1 ha
    obtain ⟨hbT, hbk⟩ := List.mem_filter.1 hb
    refine hT a haT b hbT (Version.id_eq_iff.2 ⟨?_, hpos⟩)
    exact (of_decide_eq_true hak).trans (of_decide_eq_true hbk).symm
  rw [KeyedMap.mem_mapValues]
  constructor
  · rintro ⟨w, hw', rfl⟩
    obtain ⟨hwT, rfl⟩ := (hmem w).1 hw'
    exact ⟨w, hwT, rfl, by rw [ValidityIndex.getElem?_closesForKeys hw hkey]; rfl⟩
  · rintro ⟨w, hwT, rfl, rfl⟩
    exact ⟨w, (hmem w).2 ⟨hwT, rfl⟩, by rw [ValidityIndex.getElem?_closesForKeys hw hkey]; rfl⟩

/-- A key with a version has a chain. -/
theorem exists_chain {raw : Version} (hraw : raw ∈ T) (ix : ValidityIndex) :
    ∃ chain, (foldChains T ix)[raw.businessKey]? = some chain := by
  have hgetD := getD_groupChains T raw.businessKey
  cases hg : (groupChains T)[raw.businessKey]? with
  | some group => exact ⟨_, by rw [foldChains, OrdMap.getElem?_map, hg]; rfl⟩
  | none =>
    -- an empty chain would have no version of the key
    rw [hg, Option.getD_none] at hgetD
    have hvals : (KeyedMap.ofList (T.filter fun v => v.businessKey = raw.businessKey) :
        VersionChain).values = [] := by rw [← hgetD]; exact KeyedMap.values_empty
    have hnil := KeyedMap.eq_nil_of_values_insertAll hvals
    have hmem : raw ∈ T.filter fun v => v.businessKey = raw.businessKey :=
      List.mem_filter.2 ⟨hraw, by simp⟩
    rw [hnil] at hmem
    cases hmem

include hT hw in
/-- Reading the chains at a snapshot: per key the version that resolves. -/
theorem mem_resolveSnapshot {s : SystemTimeMicros} {v : Version} :
    v ∈ resolveSnapshot (foldChains T ix) s ↔ ∃ key, Resolves (· ∈ T) ix.closeOf key s v := by
  rw [resolveSnapshot, List.mem_filterMap]
  constructor
  · rintro ⟨⟨key, chain⟩, he, hv⟩
    exact ⟨key, (liveInChain_of_mem_iff
      (mem_of_getElem?_foldChains hT hw (OrdMap.mem_toList.1 he))).1 hv⟩
  · rintro ⟨key, hres⟩
    have hraw := hres
    obtain ⟨raw, hrawT, rfl, -⟩ := hraw
    obtain ⟨chain, hchain⟩ := exists_chain hrawT ix
    exact ⟨(raw.businessKey, chain), OrdMap.mem_toList.2 hchain,
      (liveInChain_of_mem_iff (mem_of_getElem?_foldChains hT hw hchain)).2 hres⟩

end Chains

end SteleDb
