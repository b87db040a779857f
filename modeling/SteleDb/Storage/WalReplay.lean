import SteleDb.Storage.LogHoles

/-!
# Replay of a log that was closed

The iterator over the records of a log stands at a position, a file and a byte of it.  Asked for
the next record it looks for its file among those listed when it was made, steps over files that it
has read to their end, and reads one frame.

* `WalLog.Replay.item_eq` : call for call, the iterator yields what `WalLog.replaySegments` reads;
* `WalLog.replay_round_trip` : a log that is not poisoned replays, from its beginning, to the
  records appended in order; from a position it returned, to those appended after it.
-/

namespace SteleDb

namespace WalLog

/-! ### The iterator -/

/-- Replay under way. -/
structure Replay where
  /-- The files listed when replay began. -/
  segments : Segments
  /-- Where the next record is looked for. -/
  position : LogPos
  /-- Damage was met. -/
  stopped : Bool := false
  deriving DecidableEq

/-- The next record of listed files, from a position in the first of them; and the position then
reached. -/
def readListed : LogPos → Segments → Except WalError (Option Bytes) × LogPos
  | position, [] => (.ok none, position)
  | position, (i, file) :: later =>
    if file.length ≤ (ofLex position).2 then
      match later with
      | [] => (.ok none, position)
      | (next, bytes) :: later => readListed (toLex (next, 0)) ((next, bytes) :: later)
    else
      match readRecord (file.drop (ofLex position).2) with
      | .frame payload len () => (.ok (some payload), toLex (i, (ofLex position).2 + len))
      | .fail () => (.error .io, position)
      -- the front of a file that goes on is never the end of the log
      | .stop => (.error .io, position)

namespace Replay

/-- The next record. -/
def readNext (r : Replay) : Except WalError (Option Bytes) × LogPos :=
  readListed r.position (r.segments.dropWhile fun s => s.1 ≠ (ofLex r.position).1)

/-- One call of the iterator. -/
def next (r : Replay) : Option (Except WalError Bytes) × Replay :=
  if r.stopped then (none, r)
  else
    match r.readNext with
    | (.ok (some payload), position) => (some (.ok payload), { r with position })
    | (.ok none, position) => (none, { r with position })
    | (.error e, position) => (some (.error e), { r with position, stopped := true })

/-- What call `n` yields. -/
def item (r : Replay) : ℕ → Option (Except WalError Bytes)
  | 0 => r.next.1
  | n + 1 => r.next.2.item n

end Replay

/-- Replay the log from a position. -/
def Wal.replayFrom (w : Wal) (checkpoint : LogPos) : Replay where
  segments := numbered 0 (w.files.map LogFile.bytes)
  position := checkpoint

/-! ### The iterator reads what a scan reads -/

/-- The items of a replay that reads records and perhaps meets damage. -/
def items (read : List Bytes × Option LogPos) : List (Except WalError Bytes) :=
  read.1.map .ok ++ (read.2.map fun _ => .error .io).toList

/-- The items that are left at a position in the first of listed files. -/
def left (position : LogPos) (segments : Segments) : List (Except WalError Bytes) :=
  items (replayListed (ofLex position).2 segments)

section Left

variable {position : LogPos} {i : ℕ} {file : Bytes} {later : Segments}

/-- A file that is read to its end is stepped over. -/
theorem left_of_le (h : file.length ≤ (ofLex position).2) (next : ℕ) :
    left position ((i, file) :: later) = left (toLex (next, 0)) later := by
  have hscan : scan (fun _ => readRecord) () (file.drop (ofLex position).2) =
      ⟨[], (), [], none⟩ := by
    rw [List.drop_of_length_le h]
    exact scan_of_stop rfl
  rw [left, replayListed, hscan]
  rfl

theorem left_of_frame {payload : Bytes} {len : ℕ}
    (h : readRecord (file.drop (ofLex position).2) = .frame payload len ()) :
    left position ((i, file) :: later) =
      .ok payload :: left (toLex (i, (ofLex position).2 + len)) ((i, file) :: later) := by
  have hscan : scan (fun _ => readRecord) () (file.drop (ofLex position).2) =
      (scan (fun _ => readRecord) () (file.drop ((ofLex position).2 + len))).prepend [payload] := by
    rw [scan_of_frame advances_readRecord h, List.drop_drop]
  rw [left, left, replayListed, replayListed, hscan]
  simp only [Scan.prepend, ofLex_toLex]
  split <;> simp [items]

theorem left_of_fail (h : readRecord (file.drop (ofLex position).2) = .fail ()) :
    left position ((i, file) :: later) = [.error .io] := by
  have hscan : scan (fun _ => readRecord) () (file.drop (ofLex position).2) =
      ⟨[], (), file.drop (ofLex position).2, some ()⟩ := scan_of_fail h
  rw [left, replayListed, hscan]
  rfl

end Left

/-- Only the end of a file is taken for the end of what counts in it. -/
theorem readRecord_ne_stop {bytes : Bytes} (h : bytes ≠ []) : readRecord bytes ≠ .stop := by
  unfold readRecord
  rw [if_neg h]
  dsimp only
  split_ifs <;> exact fun hc => nomatch hc

/-- One record is read, or there is none left, or it is damaged. -/
inductive Reads (position : LogPos) (segments : Segments) :
    Except WalError (Option Bytes) × LogPos → Prop
  | record {payload : Bytes} {position' : LogPos} {bytes : Bytes} {later : Segments}
      (suffix : ((ofLex position').1, bytes) :: later <:+ segments)
      (left_eq : left position segments =
        .ok payload :: left position' (((ofLex position').1, bytes) :: later)) :
      Reads position segments (.ok (some payload), position')
  | done {position' : LogPos} {bytes : Bytes} {later : Segments}
      (suffix : ((ofLex position').1, bytes) :: later <:+ segments)
      (left_eq : left position segments = [])
      (left_eq' : left position' (((ofLex position').1, bytes) :: later) = []) :
      Reads position segments (.ok none, position')
  | damage {position' : LogPos} (left_eq : left position segments = [.error .io]) :
      Reads position segments (.error .io, position')

theorem reads_of_lt {position : LogPos} {file : Bytes} (later : Segments)
    (h : (ofLex position).2 < file.length) :
    Reads position (((ofLex position).1, file) :: later)
      (readListed position (((ofLex position).1, file) :: later)) := by
  have hne : file.drop (ofLex position).2 ≠ [] := by
    rw [← List.length_pos_iff, List.length_drop]
    omega
  unfold readListed
  rw [if_neg (not_le.2 h)]
  rcases hr : readRecord (file.drop (ofLex position).2) with _ | ⟨⟩ | ⟨payload, len, ⟨⟩⟩
  · exact absurd hr (readRecord_ne_stop hne)
  · exact .damage (left_of_fail hr)
  · exact .record List.suffix_rfl (left_of_frame hr)

theorem reads_readListed (later : Segments) (position : LogPos) (file : Bytes) :
    Reads position (((ofLex position).1, file) :: later)
      (readListed position (((ofLex position).1, file) :: later)) := by
  induction later generalizing position file with
  | nil =>
    by_cases hend : file.length ≤ (ofLex position).2
    · have hleft : left position [((ofLex position).1, file)] = left (toLex (0, 0)) [] :=
        left_of_le hend 0
      rw [readListed, if_pos hend]
      exact .done List.suffix_rfl hleft hleft
    · exact reads_of_lt [] (not_le.1 hend)
  | cons s later ih =>
    by_cases hend : file.length ≤ (ofLex position).2
    · have hleft : left position (((ofLex position).1, file) :: s :: later) =
          left (toLex (s.1, 0)) (s :: later) := left_of_le hend s.1
      have hread : readListed position (((ofLex position).1, file) :: s :: later) =
          readListed (toLex (s.1, 0)) (s :: later) := by
        rw [readListed, if_pos hend]
      rw [hread]
      have hsuffix := List.suffix_cons ((ofLex position).1, file) (s :: later)
      -- the rest is read as from the start of the next file
      have hnext : Reads (toLex (s.1, 0)) (s :: later)
          (readListed (toLex (s.1, 0)) (s :: later)) := ih (toLex (s.1, 0)) s.2
      generalize readListed (toLex (s.1, 0)) (s :: later) = result at hnext ⊢
      cases hnext with
      | record suffix left_eq => exact .record (suffix.trans hsuffix) (hleft.trans left_eq)
      | done suffix left_eq left_eq' =>
        exact .done (suffix.trans hsuffix) (hleft.trans left_eq) left_eq'
      | damage left_eq => exact .damage (hleft.trans left_eq)
    · exact reads_of_lt (s :: later) (not_le.1 hend)

namespace Replay

/-- The items that are left to a replay. -/
def upcoming (r : Replay) : List (Except WalError Bytes) :=
  if r.stopped then [] else items (replaySegments r.segments r.position)

/-- The files are listed once each. -/
def Listed (r : Replay) : Prop := (r.segments.map Prod.fst).Nodup

/-- The files from one on are found by its number. -/
theorem dropWhile_of_suffix {segments later : Segments} {i : ℕ} {bytes : Bytes}
    (hnodup : (segments.map Prod.fst).Nodup) (h : (i, bytes) :: later <:+ segments) :
    segments.dropWhile (fun s => s.1 ≠ i) = (i, bytes) :: later := by
  obtain ⟨before, rfl⟩ := h
  rw [List.dropWhile_append_of_pos, List.dropWhile_cons_of_neg (by simp)]
  intro s hs
  rw [List.map_append, List.map_cons, List.nodup_append] at hnodup
  exact decide_eq_true (hnodup.2.2 s.1 (List.mem_map_of_mem hs) i List.mem_cons_self)

theorem upcoming_of_suffix {r : Replay} (hlisted : r.Listed) {bytes : Bytes} {later : Segments}
    {position : LogPos} (h : ((ofLex position).1, bytes) :: later <:+ r.segments) :
    upcoming { r with position := position, stopped := false } =
      left position (((ofLex position).1, bytes) :: later) := by
  rw [upcoming, if_neg (by simp), replaySegments, dropWhile_of_suffix hlisted h]
  rfl

/-- One call yields the first of the items that are left. -/
theorem next_spec {r : Replay} (h : r.Listed) :
    r.next.1 = r.upcoming.head? ∧ r.next.2.upcoming = r.upcoming.tail ∧ r.next.2.Listed := by
  unfold next
  by_cases hs : r.stopped
  · rw [if_pos hs, upcoming, if_pos hs]
    exact ⟨rfl, rfl, h⟩
  rw [if_neg hs]
  rcases hfound : r.segments.dropWhile (fun s => s.1 ≠ (ofLex r.position).1) with
    _ | ⟨⟨i, file⟩, later⟩
  · -- the file is not listed
    have hread : r.readNext = (.ok none, r.position) := by rw [readNext, hfound, readListed]
    have hleft : r.upcoming = [] := by
      rw [upcoming, if_neg hs, replaySegments, hfound]
      rfl
    rw [hread]
    exact ⟨(congrArg List.head? hleft).symm, hleft.trans (congrArg List.tail hleft).symm, h⟩
  · have hi : i = (ofLex r.position).1 := by
      have hne : r.segments.dropWhile (fun s => s.1 ≠ (ofLex r.position).1) ≠ [] := by
        rw [hfound]
        exact List.cons_ne_nil _ _
      have hhead := List.head_dropWhile_not (fun s : ℕ × Bytes =>
        decide (s.1 ≠ (ofLex r.position).1)) hne
      simp only [hfound, List.head_cons] at hhead
      simpa using hhead
    subst hi
    have hup : r.upcoming = left r.position (((ofLex r.position).1, file) :: later) := by
      rw [upcoming, if_neg hs, replaySegments, hfound]
      rfl
    have hsuffix : ((ofLex r.position).1, file) :: later <:+ r.segments := by
      rw [← hfound]
      exact List.dropWhile_suffix _
    have hreads : Reads r.position (((ofLex r.position).1, file) :: later) r.readNext := by
      rw [readNext, hfound]
      exact reads_readListed later r.position file
    have hrunning : r.stopped = false := by simpa using hs
    rw [hup]
    generalize r.readNext = result at hreads ⊢
    cases hreads with
    | record suffix left_eq =>
      have hnext := upcoming_of_suffix h (suffix.trans hsuffix)
      rw [← hrunning] at hnext
      exact ⟨by rw [left_eq]; rfl, by rw [left_eq]; exact hnext, h⟩
    | done suffix left_eq left_eq' =>
      have hnext := upcoming_of_suffix h (suffix.trans hsuffix)
      rw [← hrunning] at hnext
      exact ⟨by rw [left_eq]; rfl, by rw [left_eq]; exact hnext.trans left_eq', h⟩
    | damage left_eq => exact ⟨by rw [left_eq]; rfl, by rw [left_eq]; rfl, h⟩

/-- Call for call, the iterator yields what a scan of the listed files reads. -/
theorem item_eq {r : Replay} (h : r.Listed) (n : ℕ) : r.item n = r.upcoming[n]? := by
  induction n generalizing r with
  | zero => rw [item, (next_spec h).1, List.head?_eq_getElem?]
  | succ n ih =>
    obtain ⟨-, htail, hlisted⟩ := next_spec h
    rw [item, ih hlisted, htail, List.getElem?_tail]

end Replay

/-! ### Positions between records -/

theorem replayFrom_whole {rss : List (List Bytes)}
    (h : ∀ rs ∈ rss, ∀ p ∈ rs, p.length ≤ maxPayloadLen) (i : ℕ) :
    WalLog.replayFrom i (rss.map frames) = (rss.flatten, none) := by
  induction rss generalizing i with
  | nil => rfl
  | cons rs rss ih =>
    rw [List.map_cons, WalLog.replayFrom, scan_whole (h rs List.mem_cons_self)]
    simp only
    rw [ih fun rs' hrs' => h rs' (List.mem_cons_of_mem _ hrs'), List.flatten_cons]

theorem le_of_mem_layout {i : ℕ} {rss : List (List Bytes)} {r : Bytes × LogPos}
    (h : r ∈ layout i rss) : ∃ j n, r.2 = toLex (j, n) ∧ i ≤ j := by
  induction rss generalizing i with
  | nil => cases h
  | cons rs rss ih =>
    rw [layout] at h
    rcases List.mem_append.1 h with h | h
    · obtain ⟨n, hn, -, -⟩ := mem_ends h
      exact ⟨i, n, hn, le_rfl⟩
    · obtain ⟨j, n, hn, hj⟩ := ih h
      exact ⟨j, n, hn, by omega⟩

/-- The record of a log that ends at a position stands in one of its files. -/
theorem ends_split {i off : ℕ} {rs : List Bytes} {past later : List (Bytes × LogPos)}
    {r : Bytes × LogPos} (h : ends i off rs = past ++ r :: later) :
    ∃ pre post, rs = pre ++ post ∧ r.2 = toLex (i, off + (frames pre).length) ∧
      later.map Prod.fst = post := by
  induction rs generalizing off past with
  | nil => simp [ends] at h
  | cons p ps ih =>
    rw [ends] at h
    rcases past with _ | ⟨r', past⟩
    · obtain ⟨rfl, rfl⟩ := List.cons.inj h
      exact ⟨[p], ps, rfl, by rw [frames_singleton], map_fst_ends _ _ _⟩
    · obtain ⟨-, htail⟩ := List.cons.inj h
      obtain ⟨pre, post, rfl, hr, hlater⟩ := ih htail
      refine ⟨p :: pre, post, rfl, ?_, hlater⟩
      have hcons : frames (p :: pre) = encode p ++ frames pre := rfl
      rw [hr, hcons, List.length_append, Nat.add_assoc]

theorem layout_split {i : ℕ} {rss : List (List Bytes)} {past later : List (Bytes × LogPos)}
    {r : Bytes × LogPos} (h : layout i rss = past ++ r :: later) :
    ∃ before pre post after, rss = before ++ (pre ++ post) :: after ∧
      r.2 = toLex (i + before.length, (frames pre).length) ∧
      later.map Prod.fst = post ++ after.flatten := by
  induction rss generalizing i past with
  | nil => simp [layout] at h
  | cons rs rss ih =>
    rw [layout] at h
    have hlast : ∀ past', layout (i + 1) rss = past' ++ r :: later →
        ∃ before pre post after, rs :: rss = before ++ (pre ++ post) :: after ∧
          r.2 = toLex (i + before.length, (frames pre).length) ∧
          later.map Prod.fst = post ++ after.flatten := by
      intro past' htail
      obtain ⟨before, pre, post, after, rfl, hr, hlater⟩ := ih htail
      refine ⟨rs :: before, pre, post, after, rfl, ?_, hlater⟩
      rw [hr, List.length_cons, Nat.add_assoc, Nat.add_comm 1]
    rcases List.append_eq_append_iff.1 h with ⟨past', -, htail⟩ | ⟨rest, hends, hrest⟩
    · exact hlast past' htail
    · rcases rest with _ | ⟨r', rest⟩
      · exact hlast [] hrest.symm
      · obtain ⟨rfl, rfl⟩ := List.cons.inj hrest
        obtain ⟨pre, post, rfl, hr, hlater⟩ := ends_split hends
        refine ⟨[], pre, post, rss, rfl, ?_, ?_⟩
        · simpa using hr
        · have hmap : (rest ++ layout (i + 1) rss).map Prod.fst =
              rest.map Prod.fst ++ (layout (i + 1) rss).map Prod.fst := List.map_append
          exact hmap.trans (by rw [hlater, map_fst_layout])

section Between

variable {before after : List (List Bytes)} {pre post : List Bytes}

/-- Replay from the end of a record, or the start of a file, reads what comes after it. -/
theorem replayAt_frames
    (h : ∀ rs ∈ before ++ (pre ++ post) :: after, ∀ p ∈ rs, p.length ≤ maxPayloadLen) :
    replayAt ((before ++ (pre ++ post) :: after).map frames)
      (toLex (before.length, (frames pre).length)) = (post ++ after.flatten, none) := by
  have hfiles : (before ++ (pre ++ post) :: after).map frames =
      before.map frames ++ (frames pre ++ frames post) :: after.map frames := by
    rw [List.map_append, List.map_cons, frames_append]
  have hget : (before.map frames ++ (frames pre ++ frames post) ::
      after.map frames)[before.length]? = some (frames pre ++ frames post) := by
    rw [List.getElem?_append_right (by simp)]
    simp
  have hdrop : (before.map frames ++ (frames pre ++ frames post) :: after.map frames).drop
      (before.length + 1) = after.map frames := by
    rw [List.drop_append, List.length_map, List.drop_of_length_le (by simp), List.nil_append,
      Nat.add_sub_cancel_left, List.drop_one, List.tail_cons]
  have hpost : ∀ p ∈ post, p.length ≤ maxPayloadLen := fun p hp =>
    h (pre ++ post) (by simp) p (List.mem_append_right _ hp)
  have hafter : ∀ rs ∈ after, ∀ p ∈ rs, p.length ≤ maxPayloadLen := fun rs hrs =>
    h rs (by simp [hrs])
  rw [hfiles, replayAt]
  simp only [ofLex_toLex, hget, hdrop, List.drop_left, scan_whole hpost, replayFrom_whole hafter]

/-- The records of a log on both sides of such a position. -/
theorem layout_between :
    ∃ first last, layout 0 (before ++ (pre ++ post) :: after) = first ++ last ∧
      (∀ r ∈ first, r.2 ≤ toLex (before.length, (frames pre).length)) ∧
      (∀ r ∈ last, toLex (before.length, (frames pre).length) < r.2) ∧
      last.map Prod.fst = post ++ after.flatten := by
  refine ⟨layout 0 before ++ ends before.length 0 pre,
    ends before.length (0 + (frames pre).length) post ++ layout (before.length + 1) after,
    ?_, ?_, ?_, ?_⟩
  · rw [layout_append, layout, ends_append, Nat.zero_add, Nat.zero_add]
    simp only [List.append_assoc]
  · intro r hr
    rcases List.mem_append.1 hr with hr | hr
    · obtain ⟨j, n, hn, hj⟩ := mem_layout hr
      rw [hn, Prod.Lex.toLex_le_toLex]
      exact .inl (by omega)
    · obtain ⟨n, hn, -, hle⟩ := mem_ends hr
      rw [hn, Prod.Lex.toLex_le_toLex]
      exact .inr ⟨rfl, by simpa using hle⟩
  · intro r hr
    rcases List.mem_append.1 hr with hr | hr
    · obtain ⟨n, hn, hlt, -⟩ := mem_ends hr
      rw [hn, Prod.Lex.toLex_lt_toLex]
      exact .inr ⟨rfl, by simpa using hlt⟩
    · obtain ⟨j, n, hn, hj⟩ := le_of_mem_layout hr
      rw [hn, Prod.Lex.toLex_lt_toLex]
      exact .inl (by omega)
  · rw [List.map_append, map_fst_ends, map_fst_layout]

end Between

/-! ### A log that was closed -/

/-- A log of whole frames, with the end of each. -/
def Whole (files : List LogFile) (rss : List (List Bytes)) : Prop :=
  files.map LogFile.bytes = rss.map frames ∧ ∀ rs ∈ rss, ∀ p ∈ rs, p.length ≤ maxPayloadLen

theorem Replay.listed_replayFrom (w : Wal) (p : LogPos) : (w.replayFrom p).Listed := by
  rw [Replay.Listed, Wal.replayFrom, map_fst_numbered]
  exact List.nodup_range'

/-- Replay from between records of a log of whole frames. -/
theorem Whole.item_eq {w : Wal} {before after : List (List Bytes)} {pre post : List Bytes}
    (h : Whole w.files (before ++ (pre ++ post) :: after)) (n : ℕ) :
    (w.replayFrom (toLex (before.length, (frames pre).length))).item n =
      ((post ++ after.flatten).map Except.ok)[n]? := by
  rw [Replay.item_eq (Replay.listed_replayFrom _ _), Replay.upcoming,
    if_neg (by simp [Wal.replayFrom]),
    Wal.replayFrom, replaySegments_numbered, h.1, replayAt_frames h.2]
  simp [items]

/-- A log that is not poisoned has whole frames. -/
theorem Wal.Placed.whole {w : Wal} {placed : List (Bytes × LogPos)} (h : w.Placed placed)
    (hp : w.poisoned = false) :
    ∃ rss j off, rss ≠ [] ∧ Whole w.files rss ∧ layout 0 rss = placed ∧
      w.durableEnd = toLex (j, off) ∧ j < rss.length := by
  obtain ⟨closed, recent, fs, cur, debris, h, rfl⟩ := h
  obtain ⟨hfiles, hbytes⟩ := h.running hp
  obtain ⟨old, -, -, hend⟩ := h.durable
  refine ⟨closed ++ [recent], fs.length, _, by simp, ⟨?_, h.readable⟩, rfl, hend, ?_⟩
  · rw [hfiles, List.map_append, List.map_singleton, h.older, hbytes, List.map_append,
      List.map_singleton]
  · rw [h.length_fs, List.length_append, List.length_singleton]
    exact Nat.lt_succ_self _

/-- What is durable ends between records, also when more is appended. -/
theorem Wal.Placed.durableEnd_between {w : Wal} {placed more : List (Bytes × LogPos)}
    (h : w.Placed placed) {rss : List (List Bytes)} (hrss : layout 0 rss = placed ++ more)
    {j off : ℕ} (hle : w.durableEnd ≤ toLex (j, off)) (hj : j < rss.length) :
    ∃ before pre post after, rss = before ++ (pre ++ post) :: after ∧
      w.durableEnd = toLex (before.length, (frames pre).length) := by
  obtain ⟨closed, recent, fs, cur, debris, h, rfl⟩ := h
  obtain ⟨old, ⟨unsynced, rfl⟩, -, hend⟩ := h.durable
  rw [h.length_fs] at hend
  rcases List.eq_nil_or_concat old with rfl | ⟨old, p, rfl⟩
  · -- nothing of the last file is durable: the end is the start of that file
    have hlt : closed.length < rss.length := by
      rw [hend, Prod.Lex.toLex_le_toLex] at hle
      omega
    refine ⟨rss.take closed.length, [], rss[closed.length], rss.drop (closed.length + 1), ?_, ?_⟩
    · rw [List.nil_append, ← List.drop_eq_getElem_cons hlt, List.take_append_drop]
    · rw [hend, List.length_take, min_eq_left hlt.le]
  · -- the end is that of the last record that is durable
    have hsplit : layout 0 rss = (layout 0 closed ++ ends closed.length 0 old) ++
        (p, w.durableEnd) :: (ends closed.length (0 + (frames (old ++ [p])).length) unsynced ++
          more) := by
      rw [hrss, layout_concat, ends_append, List.concat_eq_append, ends_append, ends, ends, hend,
        List.concat_eq_append, frames_append, frames_singleton, List.length_append]
      simp only [List.append_assoc, List.cons_append, List.nil_append, Nat.zero_add]
    obtain ⟨before, pre, post, after, hrss', hr, -⟩ := layout_split hsplit
    exact ⟨before, pre, post, after, hrss', by rwa [Nat.zero_add] at hr⟩

/-- A call that succeeds. -/
def WalCall.Succeeds : WalCall → Prop
  | .append payload rotation write =>
    payload.length ≤ maxPayloadLen ∧ rotation = .done ∧ write = .done
  | .tick ok => ok = true

/-- The records a call is to append. -/
def WalCall.payloads : WalCall → List Bytes
  | .append payload _ _ => [payload]
  | .tick _ => []

/-- The files that `open` finds. -/
theorem Wal.map_bytes_open {files : List LogFile} (h : files ≠ []) (size : ℕ) :
    (Wal.open_ size files).files.map LogFile.bytes = files.map LogFile.bytes := by
  simp [Wal.open_, h]

theorem Wal.calls_cons (w : Wal) (c : WalCall) (cs : List WalCall) :
    w.calls (c :: cs) =
      (((w.call c).1.calls cs).1, (w.call c).2 ++ ((w.call c).1.calls cs).2) := rfl

theorem Wal.calls_append (w : Wal) (cs cs' : List WalCall) :
    w.calls (cs ++ cs') =
      (((w.calls cs).1.calls cs').1, (w.calls cs).2 ++ ((w.calls cs).1.calls cs').2) := by
  induction cs generalizing w with
  | nil => rfl
  | cons c cs ih =>
    rw [List.cons_append, Wal.calls_cons, Wal.calls_cons, ih]
    simp only [List.append_assoc]

theorem Wal.call_succeeds {w : Wal} (hp : w.poisoned = false) {c : WalCall} (h : c.Succeeds) :
    (w.call c).1.poisoned = false ∧ (w.call c).2.map Prod.fst = c.payloads := by
  cases c with
  | append payload rotation write =>
    obtain ⟨hlen, rfl, rfl⟩ := h
    have hwrite : ∀ w' : Wal, w'.poisoned = false →
        (w'.write payload .done).1.poisoned = false ∧
          (w'.write payload .done).2 = .ok (w'.write payload .done).1.stagedPos :=
      fun w' hp' => ⟨hp', rfl⟩
    obtain ⟨w', hp', happend⟩ : ∃ w' : Wal, w'.poisoned = false ∧
        w.append payload .done .done = w'.write payload .done := by
      unfold append
      rw [if_neg (not_lt.2 hlen), if_neg (by simp [hp])]
      split_ifs with hrot
      · exact ⟨(w.rotate .done).1, hp, rfl⟩
      · exact ⟨w, hp, rfl⟩
    rw [Wal.call, happend]
    exact ⟨hp', rfl⟩
  | tick ok =>
    obtain rfl : ok = true := h
    refine ⟨?_, rfl⟩
    simp [Wal.call, Wal.tick, hp, Wal.syncCurrent]

theorem Wal.calls_succeed {w : Wal} (hp : w.poisoned = false) {cs : List WalCall}
    (h : ∀ c ∈ cs, c.Succeeds) :
    (w.calls cs).1.poisoned = false ∧
      (w.calls cs).2.map Prod.fst = cs.flatMap WalCall.payloads := by
  induction cs generalizing w with
  | nil => exact ⟨hp, rfl⟩
  | cons c cs ih =>
    obtain ⟨hp', hpayloads⟩ := Wal.call_succeeds hp (h c List.mem_cons_self)
    obtain ⟨hdone, hrest⟩ := ih hp' fun c' hc' => h c' (List.mem_cons_of_mem _ hc')
    refine ⟨hdone, ?_⟩
    rw [Wal.calls, List.map_append, hpayloads, hrest, List.flatMap_cons]

/-- A log whose process ends unpoisoned and that is opened again.  Replay from its beginning yields
the records appended, in order; from the end of a record, those appended after it; from a durable
end, those that end later.  With calls that all succeed the log is not poisoned, and each of their
payloads is appended. -/
theorem replay_round_trip (size : ℕ) (cs : List WalCall) :
    (((Wal.open_ size []).calls cs).1.poisoned = false →
      ∀ size' : ℕ,
        let run := (Wal.open_ size []).calls cs
        let w := Wal.open_ size' run.1.files
        (∀ n, (w.replayFrom (toLex (0, 0))).item n = (run.2.map fun r => Except.ok r.1)[n]?) ∧
        (∀ past r later, run.2 = past ++ r :: later →
          ∀ n, (w.replayFrom r.2).item n = (later.map fun r => Except.ok r.1)[n]?) ∧
        ∀ past, past <+: cs → ∀ n,
          (w.replayFrom ((Wal.open_ size []).calls past).1.durableEnd).item n =
            ((run.2.filter fun r => ((Wal.open_ size []).calls past).1.durableEnd < r.2).map
              fun r => Except.ok r.1)[n]?) ∧
      ((∀ c ∈ cs, c.Succeeds) →
        ((Wal.open_ size []).calls cs).1.poisoned = false ∧
          ((Wal.open_ size []).calls cs).2.map Prod.fst = cs.flatMap WalCall.payloads) := by
  refine ⟨fun hp size' => ?_, Wal.calls_succeed rfl⟩
  obtain ⟨hplaced, -⟩ := Wal.extends_calls _ cs [] (Wal.placed_open_nil size).1
  rw [List.nil_append] at hplaced
  obtain ⟨rss, j, off, hne, hwhole, hlayout, hend, hj⟩ := hplaced.whole hp
  have hnefiles : ((Wal.open_ size []).calls cs).1.files ≠ [] := by
    intro hnil
    have hlen := congrArg List.length hwhole.1
    rw [hnil, List.length_map, List.length_map] at hlen
    exact hne (List.length_eq_zero_iff.1 hlen.symm)
  have hopened : Whole (Wal.open_ size' ((Wal.open_ size []).calls cs).1.files).files rss :=
    ⟨(Wal.map_bytes_open hnefiles size').trans hwhole.1, hwhole.2⟩
  intro run w
  refine ⟨fun n => ?_, fun past r later hsplit n => ?_, fun past hpast n => ?_⟩
  · obtain ⟨rs, rss, rfl⟩ := List.exists_cons_of_ne_nil hne
    have hread := @Whole.item_eq w [] rss [] rs hopened n
    have hpayloads : rs ++ rss.flatten = run.2.map Prod.fst := by
      rw [show run.2 = layout 0 (rs :: rss) from hlayout.symm, map_fst_layout, List.flatten_cons]
    rw [hpayloads, List.map_map] at hread
    exact hread
  · obtain ⟨before, pre, post, after, rfl, hr, hlater⟩ := layout_split (hlayout.trans hsplit)
    rw [hr, Nat.zero_add, hopened.item_eq, ← hlater, List.map_map]
    rfl
  · obtain ⟨rest, rfl⟩ := hpast
    obtain ⟨hplaced', -⟩ := Wal.extends_calls _ past [] (Wal.placed_open_nil size).1
    rw [List.nil_append] at hplaced'
    obtain ⟨-, hmono⟩ := Wal.extends_calls _ rest _ hplaced'
    have hrun : run = _ := Wal.calls_append _ past rest
    have hfinal : ((Wal.open_ size []).calls (past ++ rest)).1.durableEnd =
        ((((Wal.open_ size []).calls past).1.calls rest).1).durableEnd :=
      congrArg (fun r => r.1.durableEnd) hrun
    rw [← hfinal, hend] at hmono
    obtain ⟨before, pre, post, after, rfl, hbetween⟩ := hplaced'.durableEnd_between
      (hlayout.trans (congrArg Prod.snd hrun)) hmono hj
    obtain ⟨first, last, hsplit, hfirst, hlast, hpayloads⟩ :=
      @layout_between before after pre post
    rw [hbetween, hopened.item_eq, ← hpayloads, List.map_map]
    -- of the records appended, the last ones end later
    have hfilter : (run.2.filter fun r => toLex (before.length, (frames pre).length) < r.2) =
        last := by
      rw [show run.2 = first ++ last from hlayout.symm.trans hsplit, List.filter_append,
        List.filter_eq_nil_iff.2 fun r hr => by simpa using hfirst r hr,
        List.filter_eq_self.2 fun r hr => decide_eq_true (hlast r hr), List.nil_append]
    rw [hfilter]
    rfl

/-- Three records in files of twenty bytes: the third does not fit in the first file. -/
def threeRecords : List WalCall :=
  [.append [1, 2] .done .done, .tick true, .append [] .done .done, .append [3] .done .done]

theorem replay_round_trip_three :
    (∀ n, ((Wal.open_ 20 ((Wal.open_ 20 []).calls threeRecords).1.files).replayFrom
        (toLex (0, 0))).item n =
      (((Wal.open_ 20 []).calls threeRecords).2.map fun r => Except.ok r.1)[n]?) ∧
      ((Wal.open_ 20 []).calls threeRecords).2 =
        [([1, 2], toLex (0, 10)), ([], toLex (0, 18)), ([3], toLex (1, 9))] :=
  ⟨((replay_round_trip 20 threeRecords).1 (by decide) 20).1, by decide⟩

end WalLog

end SteleDb
