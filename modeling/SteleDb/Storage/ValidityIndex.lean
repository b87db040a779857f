import SteleDb.Storage.Bloom

/-!
# The validity index

Where the ends of system periods live.  The index is write-once: a version is closed at most once,
a repetition of the same close is accepted silently and a different one refused.  Closes sit in
memory or in spill files; a spill file carries a summary (its key range and a Bloom filter) that
lets a lookup skip it.  `IndexSpill` keeps the soundness of the summary as a field.

A lookup does not depend on where a close sits: `ValidityIndex.closeOf_eq_some` describes
`closeOf` by the set of closes the index holds, and `closesFor`, `closesForKeys` and `materialize`
are all described by `closeOf`.
-/

namespace SteleDb

/-- Tuning of the validity index. -/
structure ValidityConfig where
  /-- Spill the in-memory closes before they pass this many bytes. -/
  spillThresholdBytes : ℕ := 64 * 1024 * 1024
  deriving DecidableEq, Repr

/-- Errors of the validity index. -/
inductive ValidityError where
  /-- The version is already closed with a different end. -/
  | alreadyClosed
  /-- The close frame is larger than 16 MiB. -/
  | tooLarge (size : ℕ)
  /-- A spill file could not be written. -/
  | io
  deriving DecidableEq, Repr

/-- The preflight of every close. -/
def Close.checkEncodable (c : Close) : Except ValidityError Unit :=
  if c.Encodable then .ok () else .error (.tooLarge c.encodedSize)

/-- What is known of a spill file without reading it. -/
structure SpillMeta where
  /-- Number of the file. -/
  index : ℕ
  /-- Smallest key in the file. -/
  minKey : BusinessKey
  /-- Greatest key in the file. -/
  maxKey : BusinessKey
  /-- Filter over the keys in the file. -/
  bloom : KeyBloom

/-- The file may hold a close of `key`. -/
def SpillMeta.mayContain (m : SpillMeta) (key : BusinessKey) : Bool :=
  decide (m.minKey ≤ key) && decide (key ≤ m.maxKey) && m.bloom.maybeContains key

/-- A spill file: its summary and its closes.  The summary admits every key of the file. -/
structure IndexSpill where
  /-- The summary. -/
  summary : SpillMeta
  /-- The closes in the file. -/
  closes : List Close
  /-- No close is hidden by the summary. -/
  covers : ∀ c ∈ closes, summary.mayContain c.businessKey = true

theorem Close.businessKey_le_of_target_le {c c' : Close} (h : c.target ≤ c'.target) :
    c.businessKey ≤ c'.businessKey := by
  rcases Prod.Lex.toLex_le_toLex.1 h with hlt | ⟨heq, -⟩
  · exact hlt.le
  · exact heq.le

/-- The keys of a sorted list of closes lie between those of its first and last element. -/
theorem Close.key_bounds {c₀ c : Close} {cs : List Close}
    (hs : (c₀ :: cs).Pairwise fun a b => a.target < b.target) (hc : c ∈ c₀ :: cs) :
    c₀.businessKey ≤ c.businessKey ∧
      c.businessKey ≤ ((c₀ :: cs).getLast (List.cons_ne_nil _ _)).businessKey := by
  constructor
  · rcases List.mem_cons.1 hc with rfl | hc
    · exact le_rfl
    · exact Close.businessKey_le_of_target_le (List.rel_of_pairwise_cons hs hc).le
  · have hlast := List.dropLast_append_getLast (List.cons_ne_nil c₀ cs)
    rw [← hlast, List.pairwise_append] at hs
    rw [← hlast] at hc
    rcases List.mem_append.1 hc with hc | hc
    · exact Close.businessKey_le_of_target_le (hs.2.2 c hc _ (by simp)).le
    · rw [List.mem_singleton.1 hc]

/-- Write the closes of a map to a new spill file and summarise it: the list is in key order, so
its ends are the extreme keys. -/
def writeSpill (index : ℕ) (c₀ : Close) (cs : List Close)
    (hs : (c₀ :: cs).Pairwise fun a b => a.target < b.target) : IndexSpill where
  summary :=
    { index
      minKey := c₀.businessKey
      maxKey := ((c₀ :: cs).getLast (List.cons_ne_nil _ _)).businessKey
      bloom := KeyBloom.build defaultBitsPerKey ((c₀ :: cs).map Close.businessKey) }
  closes := c₀ :: cs
  covers := fun c hc => by
    simp only [SpillMeta.mayContain, Bool.and_eq_true, decide_eq_true_eq]
    exact ⟨Close.key_bounds hs hc,
      KeyBloom.maybeContains_of_mem _ (List.mem_map.2 ⟨c, hc, rfl⟩)⟩

/-- The validity index of one table. -/
structure ValidityIndex where
  /-- Tuning. -/
  config : ValidityConfig := {}
  /-- Closes in memory. -/
  mem : KeyedMap Close.target := KeyedMap.empty
  /-- Encoded size of the closes in memory. -/
  byteSize : ℕ := 0
  /-- Number of the next spill file. -/
  nextSpillIndex : ℕ := 0
  /-- The live spill files, oldest first. -/
  liveSpills : List IndexSpill := []
  /-- What the disk does with the next spill writes. -/
  faults : Faults := []

namespace ValidityIndex

/-- The end of a version's period, if the index has one: memory first, then every spill file
whose summary admits the key. -/
def closeOf (ix : ValidityIndex) (i : VersionId) : Option ClosedInterval :=
  match ix.mem.find? i with
  | some c => some c.interval
  | none => ix.liveSpills.findSome? fun sp =>
      if sp.summary.mayContain (ofLex i).1 then
        (sp.closes.find? fun c => c.target = i).map Close.interval
      else none

/-- Move the in-memory closes to a new spill file; they leave memory once it is written. -/
def spillInMemory (ix : ValidityIndex) : ValidityIndex × Except ValidityError Unit :=
  match hm : ix.mem.values with
  | [] => (ix, .ok ())
  | c₀ :: cs =>
    let idx := ix.nextSpillIndex
    let spill := writeSpill idx c₀ cs (hm ▸ ix.mem.values_pairwise)
    let outcome := ix.faults.next
    let ix := { ix with nextSpillIndex := idx + 1, faults := ix.faults.tail }
    match outcome with
    | .done =>
      ({ ix with liveSpills := ix.liveSpills ++ [spill], mem := KeyedMap.empty, byteSize := 0 },
        .ok ())
    | _ => (ix, .error .io)

/-- Materialise a close, once. -/
def insertCloseInner (ix : ValidityIndex) (c : Close) (allowSpill : Bool) :
    ValidityIndex × Except ValidityError Unit :=
  match c.checkEncodable with
  | .error e => (ix, .error e)
  | .ok () =>
    match ix.closeOf c.target with
    | some existing =>
      if existing = c.interval then (ix, .ok ()) else (ix, .error .alreadyClosed)
    | none =>
      let file (ix : ValidityIndex) : ValidityIndex :=
        { ix with byteSize := saturatingAdd ix.byteSize c.encodedSize, mem := ix.mem.insert c }
      let projected := saturatingAdd ix.byteSize c.encodedSize
      if allowSpill ∧ ix.config.spillThresholdBytes < projected ∧ ix.mem.values ≠ [] then
        match ix.spillInMemory with
        | (ix, .error e) => (ix, .error e)
        | (ix, .ok ()) => (file ix, .ok ())
      else (file ix, .ok ())

/-- Materialise a close, spilling if memory is full. -/
def insertClose (ix : ValidityIndex) (c : Close) : ValidityIndex × Except ValidityError Unit :=
  ix.insertCloseInner c true

/-- Materialise a close in memory whatever the threshold says. -/
def insertCloseResident (ix : ValidityIndex) (c : Close) :
    ValidityIndex × Except ValidityError Unit :=
  ix.insertCloseInner c false

/-- Take back a close held in memory. -/
def removeClose (ix : ValidityIndex) (i : VersionId) : ValidityIndex :=
  match ix.mem.find? i with
  | some c => { ix with mem := ix.mem.erase i, byteSize := ix.byteSize - c.encodedSize }
  | none => ix

/-- The closes of the spill files, oldest file first. -/
def spillCloses (ix : ValidityIndex) : List Close := ix.liveSpills.flatMap IndexSpill.closes

/-- The ends of one key's versions, by chain position: the spill files that may hold the key,
then memory. -/
def closesFor (ix : ValidityIndex) (key : BusinessKey) : OrdMap ChainPos ClosedInterval :=
  let spilled := (ix.liveSpills.filter fun sp => sp.summary.mayContain key).flatMap
    IndexSpill.closes
  OrdMap.insertAll ∅ (((spilled ++ ix.mem.values).filter fun c => c.businessKey = key).map
    fun c => (toLex (c.sysFrom, c.seq), c.interval))

/-- The whole index as one map. -/
def materialize (ix : ValidityIndex) : OrdMap VersionId ClosedInterval :=
  OrdMap.insertAll ∅ ((ix.spillCloses ++ ix.mem.values).map fun c => (c.target, c.interval))

/-- The ends of the versions of several keys.  When every spill file may hold one of the keys the
whole index is read instead, so that the result can hold closes of other keys. -/
def closesForKeys (ix : ValidityIndex) (keys : List BusinessKey) :
    OrdMap VersionId ClosedInterval :=
  let selected := ix.liveSpills.filter fun sp => keys.any fun k => sp.summary.mayContain k
  if selected.length = ix.liveSpills.length ∧ ix.liveSpills ≠ [] then ix.materialize
  else
    OrdMap.insertAll ∅ (((selected.flatMap IndexSpill.closes ++ ix.mem.values).filter
      fun c => c.businessKey ∈ keys).map fun c => (c.target, c.interval))

/-- An upper bound of the ends of a set of versions. -/
inductive SysUpperBound where
  /-- Every version of the set is closed, the last at this instant. -/
  | bounded (maxSysTo : SystemTimeMicros)
  /-- Some version of the set is open. -/
  | unbounded
  deriving DecidableEq, Repr

/-- Every version of the set had ended by `snapshot`. -/
def SysUpperBound.supersededAtOrBefore : SysUpperBound → SystemTimeMicros → Bool
  | .bounded m, snapshot => m ≤ snapshot
  | .unbounded, _ => false

/-- The greatest end among `ids`, starting from `acc`. -/
def sysUpperBoundFrom (ix : ValidityIndex) : SystemTimeMicros → List VersionId → SysUpperBound
  | acc, [] => .bounded acc
  | acc, i :: is =>
    match ix.closeOf i with
    | some interval => ix.sysUpperBoundFrom (max acc interval.sysTo) is
    | none => .unbounded

/-- The upper bound of the ends of the versions `ids`. -/
def sysUpperBound (ix : ValidityIndex) (ids : List VersionId) : SysUpperBound :=
  ix.sysUpperBoundFrom i64Min ids

/-! ### The set of closes -/

/-- The index holds the close `c`, in memory or in a spill file. -/
def Has (ix : ValidityIndex) (c : Close) : Prop := c ∈ ix.mem ∨ c ∈ ix.spillCloses

/-- A version is closed at most once. -/
def WriteOnce (ix : ValidityIndex) : Prop :=
  ∀ c c', ix.Has c → ix.Has c' → c.target = c'.target → c = c'

theorem mem_spillCloses {ix : ValidityIndex} {c : Close} :
    c ∈ ix.spillCloses ↔ ∃ sp ∈ ix.liveSpills, c ∈ sp.closes := List.mem_flatMap

theorem has_of_closeOf {ix : ValidityIndex} {i : VersionId} {ci : ClosedInterval}
    (h : ix.closeOf i = some ci) : ∃ c, ix.Has c ∧ c.target = i ∧ c.interval = ci := by
  unfold closeOf at h
  cases hm : ix.mem.find? i with
  | some c =>
    rw [hm] at h
    obtain ⟨hc, ht⟩ := KeyedMap.find?_eq_some.1 hm
    exact ⟨c, .inl hc, ht, Option.some.inj h⟩
  | none =>
    rw [hm] at h
    obtain ⟨sp, hsp, hf⟩ := List.exists_of_findSome?_eq_some h
    split_ifs at hf
    obtain ⟨c, hc, rfl⟩ := Option.map_eq_some_iff.1 hf
    exact ⟨c, .inr (mem_spillCloses.2 ⟨sp, hsp, List.mem_of_find?_eq_some hc⟩),
      by simpa using List.find?_some hc, rfl⟩

/-- **A lookup finds exactly the close the index holds**: no summary hides one. -/
theorem closeOf_eq_some {ix : ValidityIndex} (hw : ix.WriteOnce) {i : VersionId}
    {ci : ClosedInterval} :
    ix.closeOf i = some ci ↔ ∃ c, ix.Has c ∧ c.target = i ∧ c.interval = ci := by
  refine ⟨has_of_closeOf, ?_⟩
  rintro ⟨c, hc, rfl, rfl⟩
  cases hco : ix.closeOf c.target with
  | some ci =>
    obtain ⟨c', hc', ht, rfl⟩ := has_of_closeOf hco
    rw [hw c' c hc' hc ht]
  | none =>
    exfalso
    unfold closeOf at hco
    cases hm : ix.mem.find? c.target with
    | some c' => rw [hm] at hco; cases hco
    | none =>
      rw [hm] at hco
      rcases hc with hc | hc
      · exact KeyedMap.find?_eq_none.1 hm c hc rfl
      · obtain ⟨sp, hsp, hcsp⟩ := mem_spillCloses.1 hc
        have hn := List.findSome?_eq_none_iff.1 hco sp hsp
        have hcov : sp.summary.mayContain (ofLex c.target).1 = true := sp.covers c hcsp
        rw [if_pos hcov, Option.map_eq_none_iff, List.find?_eq_none] at hn
        exact hn c hcsp (by simp)

theorem closeOf_eq_none {ix : ValidityIndex} (hw : ix.WriteOnce) {i : VersionId} :
    ix.closeOf i = none ↔ ∀ c, ix.Has c → c.target ≠ i := by
  constructor
  · rintro h c hc rfl
    rw [(closeOf_eq_some hw).2 ⟨c, hc, rfl, rfl⟩] at h
    cases h
  · intro h
    cases hco : ix.closeOf i with
    | none => rfl
    | some ci =>
      obtain ⟨c, hc, ht, -⟩ := has_of_closeOf hco
      exact absurd ht (h c hc)

/-- Two write-once indexes with the same closes answer every lookup alike. -/
theorem closeOf_congr {ix ix' : ValidityIndex} (hw : ix.WriteOnce) (hw' : ix'.WriteOnce)
    (h : ∀ c, ix.Has c ↔ ix'.Has c) : ix.closeOf = ix'.closeOf := by
  funext i
  apply Option.ext
  intro ci
  rw [closeOf_eq_some hw, closeOf_eq_some hw']
  simp only [h]

/-- Folding a write-once set of closes into a map gives, under each identity, its close. -/
theorem getElem?_insertAll_closes {κ : Type*} [LinearOrder κ] {l : List Close} {f : Close → κ}
    (h : ∀ c ∈ l, ∀ c' ∈ l, f c = f c' → c = c') {k : κ} {ci : ClosedInterval} :
    (OrdMap.insertAll (∅ : OrdMap κ ClosedInterval) (l.map fun c => (f c, c.interval)))[k]? =
        some ci ↔ ∃ c ∈ l, f c = k ∧ c.interval = ci := by
  by_cases hk : ∃ c ∈ l, f c = k
  · obtain ⟨c, hc, rfl⟩ := hk
    rw [OrdMap.getElem?_insertAll_of_mem (v := c.interval) (List.mem_map.2 ⟨c, hc, rfl⟩)]
    · constructor
      · intro he; exact ⟨c, hc, rfl, Option.some.inj he⟩
      · rintro ⟨c', hc', hf, rfl⟩; rw [h c' hc' c hc hf]
    · intro e he hef
      obtain ⟨c', hc', rfl⟩ := List.mem_map.1 he
      rw [h c' hc' c hc hef]
  · rw [OrdMap.getElem?_insertAll_of_notMem]
    · constructor
      · intro he; simp at he
      · rintro ⟨c, hc, hf, -⟩; exact absurd ⟨c, hc, hf⟩ hk
    · intro e he hef
      obtain ⟨c, hc, rfl⟩ := List.mem_map.1 he
      exact hk ⟨c, hc, hef⟩

theorem getElem?_materialize {ix : ValidityIndex} (hw : ix.WriteOnce) (i : VersionId) :
    ix.materialize[i]? = ix.closeOf i := by
  have hmem : ∀ c, c ∈ ix.spillCloses ++ ix.mem.values ↔ ix.Has c := by
    intro c
    rw [List.mem_append, KeyedMap.mem_values, Has]; tauto
  apply Option.ext
  intro ci
  rw [materialize, getElem?_insertAll_closes, closeOf_eq_some hw]
  · simp only [hmem]
  · intro c hc c' hc'
    exact hw c c' ((hmem c).1 hc) ((hmem c').1 hc')

/-- The materialised index is decided by the lookups. -/
theorem materialize_congr {ix ix' : ValidityIndex} (hw : ix.WriteOnce) (hw' : ix'.WriteOnce)
    (h : ∀ i, ix.closeOf i = ix'.closeOf i) : ix.materialize = ix'.materialize := by
  apply OrdMap.ext
  intro i
  rw [getElem?_materialize hw, getElem?_materialize hw', h]

/-- The closes a lookup by key reads: skipping files loses none of the key's closes. -/
theorem mem_selected {ix : ValidityIndex} {p : IndexSpill → Bool} {key : BusinessKey}
    (hp : ∀ sp, sp.summary.mayContain key = true → p sp = true) {c : Close}
    (hk : c.businessKey = key) :
    c ∈ (ix.liveSpills.filter p).flatMap IndexSpill.closes ++ ix.mem.values ↔ ix.Has c := by
  rw [List.mem_append, KeyedMap.mem_values, Has, mem_spillCloses, List.mem_flatMap]
  constructor
  · rintro (⟨sp, hsp, hc⟩ | hc)
    · exact .inr ⟨sp, (List.mem_filter.1 hsp).1, hc⟩
    · exact .inl hc
  · rintro (hc | ⟨sp, hsp, hc⟩)
    · exact .inr hc
    · exact .inl ⟨sp, List.mem_filter.2 ⟨hsp, hp sp (hk ▸ sp.covers c hc)⟩, hc⟩

theorem getElem?_closesFor {ix : ValidityIndex} (hw : ix.WriteOnce) (key : BusinessKey)
    (p : ChainPos) : (ix.closesFor key)[p]? = ix.closeOf (toLex (key, p)) := by
  have hmem : ∀ c, c ∈ ((ix.liveSpills.filter fun sp => sp.summary.mayContain key).flatMap
      IndexSpill.closes ++ ix.mem.values).filter (fun c => c.businessKey = key) ↔
        ix.Has c ∧ c.businessKey = key := by
    intro c
    rw [List.mem_filter, decide_eq_true_eq]
    exact and_congr_left fun hk => mem_selected (fun _ h => h) hk
  apply Option.ext
  intro ci
  rw [closesFor, getElem?_insertAll_closes, closeOf_eq_some hw]
  · simp only [hmem]
    constructor
    · rintro ⟨c, ⟨hc, rfl⟩, rfl, rfl⟩
      exact ⟨c, hc, rfl, rfl⟩
    · rintro ⟨c, hc, ht, rfl⟩
      simp only [Close.target, EmbeddingLike.apply_eq_iff_eq, Prod.mk.injEq] at ht
      exact ⟨c, ⟨hc, ht.1⟩, ht.2, rfl⟩
  · intro c hc c' hc' hpos
    obtain ⟨hc, hk⟩ := (hmem c).1 hc
    obtain ⟨hc', hk'⟩ := (hmem c').1 hc'
    refine hw c c' hc hc' ?_
    rw [Close.target, Close.target, hk, hk', hpos]

theorem getElem?_closesForKeys {ix : ValidityIndex} (hw : ix.WriteOnce) {keys : List BusinessKey}
    {key : BusinessKey} (hkey : key ∈ keys) (p : ChainPos) :
    (ix.closesForKeys keys)[(toLex (key, p) : VersionId)]? = ix.closeOf (toLex (key, p)) := by
  unfold closesForKeys
  simp only
  split_ifs
  · exact getElem?_materialize hw _
  · have hmem : ∀ c, c ∈ ((ix.liveSpills.filter fun sp =>
        keys.any fun k => sp.summary.mayContain k).flatMap IndexSpill.closes ++
          ix.mem.values).filter (fun c => c.businessKey ∈ keys) ↔
            ix.Has c ∧ c.businessKey ∈ keys := by
      intro c
      rw [List.mem_filter, decide_eq_true_eq]
      refine and_congr_left fun hk => ?_
      have hp : ∀ sp : IndexSpill, sp.summary.mayContain c.businessKey = true →
          (keys.any fun k => sp.summary.mayContain k) = true :=
        fun sp h => List.any_eq_true.2 ⟨_, hk, h⟩
      exact mem_selected hp rfl
    apply Option.ext
    intro ci
    rw [getElem?_insertAll_closes, closeOf_eq_some hw]
    · simp only [hmem]
      constructor
      · rintro ⟨c, ⟨hc, -⟩, ht, rfl⟩; exact ⟨c, hc, ht, rfl⟩
      · rintro ⟨c, hc, ht, rfl⟩
        have hk : c.businessKey = key := congrArg (fun i => (ofLex i).1) ht
        exact ⟨c, ⟨hc, hk ▸ hkey⟩, ht, rfl⟩
    · intro c hc c' hc'
      exact hw c c' ((hmem c).1 hc).1 ((hmem c').1 hc').1

/-! ### What the operations do -/

theorem has_mem_insert {ix : ValidityIndex} (hw : ix.WriteOnce) {c : Close}
    (hnone : ix.closeOf c.target = none) (n : ℕ) (x : Close) :
    { ix with byteSize := n, mem := ix.mem.insert c }.Has x ↔ x = c ∨ ix.Has x := by
  have hne := (closeOf_eq_none hw).1 hnone
  simp only [Has, KeyedMap.mem_insert]
  constructor
  · rintro ((rfl | ⟨hx, -⟩) | hx)
    · exact .inl rfl
    · exact .inr (.inl hx)
    · exact .inr (.inr hx)
  · rintro (rfl | hx | hx)
    · exact .inl (.inl rfl)
    · exact .inl (.inr ⟨hx, hne x (.inl hx)⟩)
    · exact .inr hx

/-- With a healthy disk a spill succeeds and keeps every close. -/
theorem spillInMemory_clean {ix : ValidityIndex} (hf : ix.faults.Clean) :
    ∃ ix', ix.spillInMemory = (ix', .ok ()) ∧ ix'.faults.Clean ∧ ∀ c, ix'.Has c ↔ ix.Has c := by
  unfold spillInMemory
  split
  · exact ⟨ix, rfl, hf, fun c => Iff.rfl⟩
  · rename_i c₀ cs hm
    simp only [hf.next]
    refine ⟨_, rfl, hf.tail, fun c => ?_⟩
    have hin : c ∈ ix.mem ↔ c ∈ c₀ :: cs := by rw [← hm]; exact KeyedMap.mem_values.symm
    simp only [Has, KeyedMap.not_mem_empty, false_or, spillCloses, List.flatMap_append,
      List.flatMap_singleton, List.mem_append, writeSpill, hin]
    tauto

theorem WriteOnce.congr {ix ix' : ValidityIndex} (hw : ix.WriteOnce)
    (h : ∀ c, ix'.Has c ↔ ix.Has c) : ix'.WriteOnce :=
  fun c c' hc hc' => hw c c' ((h c).1 hc) ((h c').1 hc')

theorem WriteOnce.insert {ix ix' : ValidityIndex} (hw : ix.WriteOnce) {c : Close}
    (hnone : ix.closeOf c.target = none) (h : ∀ x, ix'.Has x ↔ x = c ∨ ix.Has x) :
    ix'.WriteOnce := by
  have hne := (closeOf_eq_none hw).1 hnone
  intro x y hx hy hxy
  rcases (h x).1 hx with rfl | hx <;> rcases (h y).1 hy with rfl | hy
  · rfl
  · exact absurd hxy.symm (hne y hy)
  · exact absurd hxy (hne x hx)
  · exact hw x y hx hy hxy

theorem closeOf_insert {ix ix' : ValidityIndex} (hw : ix.WriteOnce) {c : Close}
    (hnone : ix.closeOf c.target = none) (h : ∀ x, ix'.Has x ↔ x = c ∨ ix.Has x) (i : VersionId) :
    ix'.closeOf i = if i = c.target then some c.interval else ix.closeOf i := by
  have hw' := hw.insert hnone h
  split_ifs with hi
  · exact (closeOf_eq_some hw').2 ⟨c, (h c).2 (.inl rfl), hi.symm, rfl⟩
  · apply Option.ext
    intro ci
    rw [closeOf_eq_some hw', closeOf_eq_some hw]
    constructor
    · rintro ⟨x, hx, rfl, rfl⟩
      rcases (h x).1 hx with rfl | hx
      · exact absurd rfl hi
      · exact ⟨x, hx, rfl, rfl⟩
    · rintro ⟨x, hx, rfl, rfl⟩
      exact ⟨x, (h x).2 (.inr hx), rfl, rfl⟩

theorem insertCloseInner_of_not_encodable {c : Close} (h : ¬ c.Encodable) (ix : ValidityIndex)
    (b : Bool) : ix.insertCloseInner c b = (ix, .error (.tooLarge c.encodedSize)) := by
  simp [insertCloseInner, Close.checkEncodable, h]

/-- Repeating a close is accepted and changes nothing. -/
theorem insertCloseInner_idem {ix : ValidityIndex} {c : Close} (hc : c.Encodable)
    (h : ix.closeOf c.target = some c.interval) (b : Bool) :
    ix.insertCloseInner c b = (ix, .ok ()) := by
  simp [insertCloseInner, Close.checkEncodable, hc, h]

/-- **What a close does**: with a healthy disk the close of an open version succeeds and changes
the answer for that version only, whether or not the index spills. -/
theorem insertCloseInner_clean {ix : ValidityIndex} {c : Close} (hw : ix.WriteOnce)
    (hf : ix.faults.Clean) (hc : c.Encodable) (hnone : ix.closeOf c.target = none) (b : Bool) :
    ∃ ix', ix.insertCloseInner c b = (ix', .ok ()) ∧ ix'.WriteOnce ∧ ix'.faults.Clean ∧
      (∀ x, ix'.Has x ↔ x = c ∨ ix.Has x) ∧
      ∀ i, ix'.closeOf i = if i = c.target then some c.interval else ix.closeOf i := by
  have key : ∀ ix' : ValidityIndex, (∀ x, ix'.Has x ↔ x = c ∨ ix.Has x) → ix'.WriteOnce ∧
      ∀ i, ix'.closeOf i = if i = c.target then some c.interval else ix.closeOf i :=
    fun ix' h => ⟨hw.insert hnone h, closeOf_insert hw hnone h⟩
  simp only [insertCloseInner, Close.checkEncodable, hc, ↓reduceIte, hnone]
  split_ifs with hs
  · obtain ⟨ix₁, h₁, hf₁, hh⟩ := spillInMemory_clean hf
    have hw₁ := hw.congr hh
    have hnone₁ : ix₁.closeOf c.target = none :=
      (closeOf_eq_none hw₁).2 fun x hx => (closeOf_eq_none hw).1 hnone x ((hh x).1 hx)
    rw [h₁]
    have hhas : ∀ x, { ix₁ with byteSize := saturatingAdd ix₁.byteSize c.encodedSize
                                mem := ix₁.mem.insert c }.Has x ↔ x = c ∨ ix.Has x :=
      fun x => (has_mem_insert hw₁ hnone₁ _ x).trans (or_congr_right (hh x))
    exact ⟨_, rfl, (key _ hhas).1, hf₁, hhas, (key _ hhas).2⟩
  · have hhas := has_mem_insert hw hnone (saturatingAdd ix.byteSize c.encodedSize)
    exact ⟨_, rfl, (key _ hhas).1, hf, hhas, (key _ hhas).2⟩

theorem insertCloseResident_eq {ix : ValidityIndex} {c : Close} (hc : c.Encodable)
    (hnone : ix.closeOf c.target = none) :
    ix.insertCloseResident c =
      ({ ix with byteSize := saturatingAdd ix.byteSize c.encodedSize
                 mem := ix.mem.insert c }, .ok ()) := by
  simp [insertCloseResident, insertCloseInner, Close.checkEncodable, hc, hnone]

theorem has_removeClose {ix : ValidityIndex} {i : VersionId} {x : Close} :
    (ix.removeClose i).Has x ↔ (x ∈ ix.mem ∧ x.target ≠ i) ∨ x ∈ ix.spillCloses := by
  unfold removeClose
  cases h : ix.mem.find? i with
  | some c => simp only [Has, KeyedMap.mem_erase]; rfl
  | none =>
    simp only [Has]
    constructor
    · rintro (hx | hx)
      · exact .inl ⟨hx, KeyedMap.find?_eq_none.1 h x hx⟩
      · exact .inr hx
    · rintro (⟨hx, -⟩ | hx)
      · exact .inl hx
      · exact .inr hx

end ValidityIndex

end SteleDb
