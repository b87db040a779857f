import SteleDb.Storage.Engine
import SteleDb.Storage.Writes

/-!
# Rebuilding the index from sealed segments

The segments hold the versions of a table and its tombstones, but no close of an update: that one
is implied by the order of the versions.  `rebuild_spec` says that nothing is lost by this: from
the versions and tombstones of any table the rebuild finds exactly the ends its index had.

The tombstones of a history are the closes made by an event that asserted nothing
(`History.Retracts`), all others are made by the event that asserted the next version
(`Timeline.periods_abut`), so that they can be read off two versions in a row.
-/

namespace SteleDb

open Timeline

/-! ### Two elements in a row -/

theorem mem_zip_tail {α : Type*} {l : List α} {a b : α} :
    (a, b) ∈ l.zip l.tail ↔ [a, b] <:+: l := by
  induction l with
  | nil => simp
  | cons x l ih =>
    cases l with
    | nil => simp [List.infix_cons_iff]
    | cons y l =>
      rw [List.infix_cons_iff, ← ih]
      simp [List.cons_prefix_cons]

/-- An element of a list is its head or follows another. -/
theorem head?_eq_or_infix {α : Type*} {l : List α} {a : α} (h : a ∈ l) :
    a ∈ l.head? ∨ ∃ b, [b, a] <:+: l := by
  induction l with
  | nil => cases h
  | cons x l ih =>
    rcases List.mem_cons.1 h with rfl | h
    · exact .inl rfl
    · right
      rcases ih h with hh | ⟨b, hb⟩
      · cases l with
        | nil => cases h
        | cons y l =>
          obtain rfl : y = a := by simpa using hh
          exact ⟨x, [], l, rfl⟩
      · exact ⟨b, hb.trans (List.suffix_cons x l).isInfix⟩

/-- An index that holds exactly the ends of a history represents it. -/
theorem Represents.of_has {P : Version → Prop} {ix : ValidityIndex} {H : History}
    (hH : H.WellFormed) (hw : ix.WriteOnce) (hP : ∀ v, P v ↔ H.Asserts v)
    (hix : ∀ c, ix.Has c ↔ H.Closes c) : Represents P ix.closeOf H where
  holds := hP
  ends := by
    intro k p hp
    cases hst : p.stop with
    | some u =>
      rw [KeyPeriod.ending, hst]
      exact (ValidityIndex.closeOf_eq_some hw).2
        ⟨KeyPeriod.closeBy k p u, (hix _).2 ⟨k, p, hp, u, hst, rfl⟩, rfl, rfl⟩
    | none =>
      rw [KeyPeriod.ending, hst]
      refine (ValidityIndex.closeOf_eq_none hw).2 fun c hc ht => ?_
      obtain ⟨k', q, hq, u, hu, rfl⟩ := (hix c).1 hc
      simp only [KeyPeriod.closeBy_target, EmbeddingLike.apply_eq_iff_eq, Prod.mk.injEq] at ht
      obtain ⟨rfl, hpos⟩ := ht
      rw [hH.eq_of_pos_eq hq hp hpos, hst] at hu
      cases hu
  only := by
    intro k x ci hx
    obtain ⟨c, hc, ht, -⟩ := ValidityIndex.has_of_closeOf hx
    obtain ⟨k', q, hq, u, hu, rfl⟩ := (hix c).1 hc
    simp only [KeyPeriod.closeBy_target, EmbeddingLike.apply_eq_iff_eq, Prod.mk.injEq] at ht
    obtain ⟨rfl, rfl⟩ := ht
    exact ⟨q, hq, rfl⟩

/-! ### Inserting closes -/

/-- With a healthy disk, closes that agree with the index and among themselves are all inserted. -/
theorem insertCloses_clean {ix : ValidityIndex} (hw : ix.WriteOnce) (hf : ix.faults.Clean)
    {cs : List Close} (henc : ∀ c ∈ cs, c.Encodable)
    (hcons : ∀ c ∈ cs, ∀ c', c' ∈ cs ∨ ix.Has c' → c.target = c'.target → c = c') :
    ∃ ix', insertCloses ix cs = (ix', .ok ()) ∧ ix'.WriteOnce ∧ ix'.faults.Clean ∧
      ∀ x, ix'.Has x ↔ x ∈ cs ∨ ix.Has x := by
  induction cs generalizing ix with
  | nil => exact ⟨ix, rfl, hw, hf, fun x => by simp⟩
  | cons c cs ih =>
    have hc := henc c List.mem_cons_self
    have henc' : ∀ x ∈ cs, x.Encodable := fun x hx => henc x (List.mem_cons_of_mem _ hx)
    -- a close the index has already is accepted and changes nothing
    by_cases hhas : ix.Has c
    · have hsome := (ValidityIndex.closeOf_eq_some hw).2 ⟨c, hhas, rfl, rfl⟩
      obtain ⟨ix', hix', hw', hf', hh'⟩ := ih hw hf henc' fun x hx y hy =>
        hcons x (List.mem_cons_of_mem _ hx) y (hy.imp_left (List.mem_cons_of_mem _))
      refine ⟨ix', ?_, hw', hf', fun x => ?_⟩
      · rw [insertCloses, ValidityIndex.insertClose, ValidityIndex.insertCloseInner_idem hc hsome]
        exact hix'
      · rw [hh', List.mem_cons]
        constructor
        · exact fun h => h.imp_left .inr
        · rintro ((rfl | h) | h)
          · exact .inr hhas
          · exact .inl h
          · exact .inr h
    · have hnone : ix.closeOf c.target = none :=
        (ValidityIndex.closeOf_eq_none hw).2 fun c' hc' ht =>
          hhas (hcons c List.mem_cons_self c' (.inr hc') ht.symm ▸ hc')
      obtain ⟨ix₁, hix₁, hw₁, hf₁, hh₁, -⟩ :=
        ValidityIndex.insertCloseInner_clean hw hf hc hnone true
      obtain ⟨ix', hix', hw', hf', hh'⟩ := ih hw₁ hf₁ henc' fun x hx y hy => by
        rw [hh₁] at hy
        refine hcons x (List.mem_cons_of_mem _ hx) y ?_
        rcases hy with hy | rfl | hy
        · exact .inl (List.mem_cons_of_mem _ hy)
        · exact .inl List.mem_cons_self
        · exact .inr hy
      refine ⟨ix', ?_, hw', hf', fun x => ?_⟩
      · rw [insertCloses, ValidityIndex.insertClose, hix₁]
        exact hix'
      · rw [hh', hh₁, List.mem_cons]
        tauto

/-! ### Closes implied by the versions -/

section

variable {H : History} {versions : List Version} {retractions : List Close}
  (hH : H.WellFormed) (hv : ∀ v, v ∈ versions ↔ H.Asserts v)

include hH hv

/-- The chain of a key, oldest version first. -/
theorem chain_values (k : BusinessKey) :
    (KeyedMap.ofList (versions.filter fun v => v.businessKey = k) : VersionChain).values =
      ((H.periodsOf k).map (KeyPeriod.version k)).reverse := by
  have hmem : ∀ v, v ∈ versions.filter (fun v => v.businessKey = k) ↔
      ∃ p ∈ H.periodsOf k, KeyPeriod.version k p = v := by
    intro v
    rw [List.mem_filter, hv, decide_eq_true_eq]
    constructor
    · rintro ⟨⟨k', p, hp, rfl⟩, rfl⟩
      exact ⟨p, hp, rfl⟩
    · rintro ⟨p, hp, rfl⟩
      exact ⟨⟨k, p, hp, rfl⟩, rfl⟩
  refine KeyedMap.values_eq ?_ fun v => ?_
  · rw [List.pairwise_reverse, List.pairwise_map]
    exact History.periods_increasing (hH.increasing k) none
  · rw [KeyedMap.mem_ofList, hmem, List.mem_reverse, List.mem_map]
    intro a ha b hb hpos
    obtain ⟨p, hp, rfl⟩ := (hmem a).1 ha
    obtain ⟨q, hq, rfl⟩ := (hmem b).1 hb
    rw [hH.eq_of_pos_eq hp hq hpos]

/-- Adjacency finds the closes that no tombstone records. -/
theorem mem_supersessions (hr : ∀ c, c ∈ retractions ↔ H.Retracts c) {k : BusinessKey}
    {c : Close} :
    c ∈ supersessions k (KeyedMap.ofList (versions.filter fun v => v.businessKey = k))
        (retractions.map Close.target) ↔
      (∃ p ∈ H.periodsOf k, ∃ u ∈ p.stop, KeyPeriod.closeBy k p u = c) ∧ ¬ H.Retracts c := by
  simp only [supersessions, chain_values hH hv, List.mem_filterMap, Prod.exists, mem_zip_tail,
    Option.ite_none_left_eq_some, Option.some.injEq, List.mem_map]
  constructor
  · rintro ⟨prior, next, hinf, hnot, rfl⟩
    rw [← List.reverse_infix, List.reverse_reverse] at hinf
    obtain ⟨l, hl, hmap⟩ := List.infix_map_iff.1 hinf
    obtain ⟨q, p, rfl, rfl, rfl⟩ : ∃ q p, l = [q, p] ∧ KeyPeriod.version k q = next ∧
        KeyPeriod.version k p = prior := by
      match l, hmap with
      | [q, p], hmap =>
        simp only [List.reverse_cons, List.reverse_nil, List.nil_append, List.cons_append,
          List.map_cons, List.map_nil, List.cons.injEq, and_true] at hmap
        exact ⟨q, p, rfl, hmap.1.symm, hmap.2.symm⟩
    have hp : p ∈ H.periodsOf k := hl.subset (by simp)
    obtain ⟨u, hu, -, hc⟩ := abut_of_neighbours hl
    have hnr : ¬ ∃ c, H.Retracts c ∧ c.target = toLex (k, KeyPeriod.pos p) := by
      rintro ⟨c, hc, ht⟩
      exact hnot ⟨c, (hr c).2 hc, ht⟩
    -- the event that ended the older version asserted the newer one
    obtain rfl : u = ⟨q.start, q.author, some q.value⟩ := hc.resolve_right fun hn =>
      hnr ⟨_, ⟨k, p, hp, u, hu, hn, rfl⟩, rfl⟩
    exact ⟨⟨p, hp, _, hu, rfl⟩, fun hret => hnr ⟨_, hret, rfl⟩⟩
  · rintro ⟨⟨p, hp, u, hu, rfl⟩, hnot⟩
    have hval : u.value ≠ none := fun hn => hnot ⟨k, p, hp, u, hu, hn, rfl⟩
    rcases head?_eq_or_infix hp with hhead | ⟨q, hq⟩
    · -- the newest period was ended by an event that asserted nothing
      rcases stop_of_head_periods hhead with hst | ⟨e, -, hn, hst⟩
      · rw [hst] at hu; cases hu
      · rw [hst] at hu; cases hu; exact absurd hn hval
    · obtain ⟨u', hu', -, hc⟩ := abut_of_neighbours hq
      obtain rfl := Option.mem_unique hu hu'
      obtain rfl := hc.resolve_right hval
      refine ⟨KeyPeriod.version k p, KeyPeriod.version k q, ?_, ?_, rfl⟩
      · rw [← List.reverse_infix, List.reverse_reverse]
        exact hq.map (KeyPeriod.version k)
      · rintro ⟨c, hcr, ht⟩
        have hcl := (hr c).1 hcr
        rw [hH.closes_inj hcl.closes ⟨k, p, hp, _, hu, rfl⟩ ht] at hcl
        exact hnot hcl

/-- **The index is rebuilt from the segments alone.** -/
theorem rebuild_spec (hfit : H.ClosesFit) (hr : ∀ c, c ∈ retractions ↔ H.Retracts c) :
    ∃ ix, rebuildIndexFromSegments versions retractions {} = (ix, .ok ()) ∧
      Stores { delta := {}, index := ix } versions H := by
  have hempty : ∀ c, ¬ ({} : ValidityIndex).Has c := fun c hc => by
    simp [ValidityIndex.Has, ValidityIndex.spillCloses] at hc
  have hw₀ : ({} : ValidityIndex).WriteOnce := fun c c' hc => absurd hc (hempty c)
  have hfit₀ : ∀ c ∈ retractions, c.Encodable := fun c hc => hfit c ((hr c).1 hc).closes
  obtain ⟨ix₁, hix₁, hw₁, hf₁, hh₁⟩ := insertCloses_clean hw₀ (fun o ho => by cases ho) hfit₀
    fun c hc c' hc' =>
      hH.closes_inj ((hr c).1 hc).closes ((hr c').1 (hc'.resolve_right (hempty c'))).closes
  have hh₁' : ∀ c, ix₁.Has c ↔ H.Retracts c := fun c => by
    rw [hh₁, hr]; exact or_iff_left (hempty c)
  -- the closes of the second pass
  have hmem : ∀ c, c ∈ (groupChains versions).toList.flatMap (fun entry =>
      supersessions entry.1 entry.2 (retractions.map Close.target)) ↔
        H.Closes c ∧ ¬ H.Retracts c := by
    intro c
    rw [List.mem_flatMap]
    constructor
    · rintro ⟨⟨k, chain⟩, hk, hc⟩
      have hchain := getD_groupChains versions k
      rw [OrdMap.mem_toList.1 hk, Option.getD_some] at hchain
      rw [hchain, mem_supersessions hH hv hr] at hc
      exact ⟨⟨k, hc.1⟩, hc.2⟩
    · rintro ⟨⟨k, hc⟩, hnot⟩
      have hsup := (mem_supersessions hH hv hr).2 ⟨hc, hnot⟩
      rw [← getD_groupChains] at hsup
      cases hk : (groupChains versions)[k]? with
      | none => rw [hk] at hsup; simp [supersessions] at hsup
      | some chain => rw [hk] at hsup; exact ⟨(k, chain), OrdMap.mem_toList.2 hk, hsup⟩
  obtain ⟨ix, hix, hw, hf, hh⟩ := insertCloses_clean hw₁ hf₁
    (fun c hc => hfit c ((hmem c).1 hc).1) fun c hc c' hc' => by
      have hcl : H.Closes c' := by
        rcases hc' with hc' | hc'
        · exact ((hmem c').1 hc').1
        · exact ((hh₁' c').1 hc').closes
      exact hH.closes_inj ((hmem c).1 hc).1 hcl
  refine ⟨ix, by rw [rebuildIndexFromSegments, hix₁]; exact hix, hH, ?_, hw, ?_, ?_, hf⟩
  · refine Represents.of_has hH hw (fun v => ?_) fun c => ?_
    · rw [← hv]
      exact or_iff_right (by simp [Delta.Holds, MemTier.new, Delta.spillRows])
    · rw [hh, hmem, hh₁']
      constructor
      · rintro (h | h)
        · exact h.1
        · exact h.closes
      · intro h
        by_cases hret : H.Retracts c
        · exact .inr hret
        · exact .inl ⟨h, hret⟩
  · exact fun c hc => absurd hc (KeyedMap.not_mem_empty c)
  · exact fun o ho => by cases ho

end

end SteleDb
