import SteleDb.Storage.WalLog

/-!
# Group commit

Many transactions share the fsyncs of one log.  A `Commit` waits for the end of its record to be
durable: polled too early it parks a waker, and whatever advances the durable end hands back the
wakers it covers.  A log that is poisoned hands back all of them and parks none.

The model adds the waiters to the log of `SteleDb.Storage.WalLog`, and lets a write fail after any
number of bytes, all of them included.

* `Inner.Sound` : what holds of the log and its waiters between calls;
* `WalLog.group_commit_sound` : it holds in every run, whatever the disk does;
* `WalLog.acknowledged_after_poison` : a `Commit` whose record is durable resolves even when the
  log is poisoned.
-/

namespace SteleDb

namespace WalLog

/-! ### Waiters -/

/-- A task that can be woken. -/
abbrev Waker := ℕ

/-- The tasks that wait for one position. -/
structure Waiter where
  /-- The position that has to be durable. -/
  target : LogPos
  /-- The tasks. -/
  wakers : List Waker
  deriving DecidableEq

/-- `Vec::swap_remove`: the last element takes the place of the removed one. -/
def swapRemove {α : Type*} (l : List α) (i : ℕ) : List α :=
  match l.getLast? with
  | some last => (l.set i last).dropLast
  | none => l

/-- From index `i` on, take out the waiters whose target is durable; `fuel` bounds the rounds. -/
def drainFrom (durable : LogPos) : ℕ → ℕ → List Waiter → List Waker → List Waiter × List Waker
  | 0, _, waiters, woken => (waiters, woken)
  | fuel + 1, i, waiters, woken =>
    match waiters[i]? with
    | none => (waiters, woken)
    | some w =>
      if w.target ≤ durable then drainFrom durable fuel i (swapRemove waiters i) (woken ++ w.wakers)
      else drainFrom durable fuel (i + 1) waiters woken

/-- The log of a running process, with the tasks that wait for it. -/
structure Inner where
  /-- The log. -/
  wal : Wal
  /-- The waiters. -/
  waiters : List Waiter

/-- What a poll of a `Commit` answers. -/
inductive Poll where
  /-- The commit is decided. -/
  | ready (result : Except WalError Unit)
  /-- The task will be woken. -/
  | pending

/-- How the write of a frame fares. -/
inductive Landing where
  /-- It is written. -/
  | done
  /-- It fails after `landed` bytes. -/
  | failed (landed : ℕ)
  deriving DecidableEq, Repr

/-- Bytes in the file that is appended to. -/
def Wal.currentLen (w : Wal) : ℕ :=
  ((w.files[w.currentSegmentIndex]?).map fun f => f.bytes.length).getD 0

namespace Inner

/-- Take out the waiters that the durable end covers. -/
def drainWaiters (g : Inner) : Inner × List Waker :=
  let (waiters, woken) := drainFrom g.wal.durableEnd g.waiters.length 0 g.waiters []
  ({ g with waiters }, woken)

/-- Take out all waiters. -/
def drainAllWaiters (g : Inner) : Inner × List Waker :=
  ({ g with waiters := [] }, g.waiters.flatMap Waiter.wakers)

/-- The group-commit fsync, which fares as `ok` says. -/
def drainTick (g : Inner) (ok : Bool) : Inner × List Waker × Except WalError Unit :=
  if g.wal.poisoned then (g, [], .error .poisoned)
  else match g.wal.tick ok with
    | (wal, .error e) =>
      let (g, woken) := { g with wal }.drainAllWaiters
      (g, woken, .error e)
    | (wal, .ok ()) =>
      let (g, woken) := { g with wal }.drainWaiters
      (g, woken, .ok ())

/-- fsync, and the number of tasks woken. -/
def tick (g : Inner) (ok : Bool) : Inner × Except WalError ℕ :=
  let (g, woken, r) := g.drainTick ok
  (g, r.map fun () => woken.length)

/-- Close the current file and start the next.  A file that is not created poisons nothing. -/
def rotate (g : Inner) (outcome : Wal.RotateOutcome) : Inner × List Waker × Except WalError Unit :=
  match g.wal.rotate outcome with
  | (wal, .error e) =>
    if wal.poisoned then
      let (g, woken) := { g with wal }.drainAllWaiters
      (g, woken, .error e)
    else ({ g with wal }, [], .error e)
  | (wal, .ok ()) =>
    let (g, woken) := { g with wal }.drainWaiters
    (g, woken, .ok ())

/-- Write the frame of a record.  When the file is longer than the records staged, part of the
frame has landed, and the log is poisoned. -/
def write (g : Inner) (payload : Bytes) : Landing → Inner × List Waker × Except WalError LogPos
  | .done =>
    let wal := { g.wal.appendBytes (encode payload) with
                  stagedEnd := g.wal.stagedEnd + (walHeaderLen + payload.length) }
    ({ g with wal }, [], .ok wal.stagedPos)
  | .failed landed =>
    let wal := g.wal.appendBytes ((encode payload).take landed)
    if wal.stagedEnd < wal.currentLen then
      let (g, woken) := { g with wal := { wal with poisoned := true } }.drainAllWaiters
      (g, woken, .error .io)
    else ({ g with wal }, [], .error .io)

/-- Append a record: its position is the end of its frame. -/
def append (g : Inner) (payload : Bytes) (rotation : Wal.RotateOutcome) (landing : Landing) :
    Inner × List Waker × Except WalError LogPos :=
  if maxPayloadLen < payload.length then (g, [], .error (.payloadTooLarge payload.length))
  else if g.wal.poisoned then (g, [], .error .poisoned)
  else if g.wal.segmentSizeBytes < g.wal.stagedEnd + (walHeaderLen + payload.length) ∧
      0 < g.wal.stagedEnd then
    match g.rotate rotation with
    | (g, woken, .error e) => (g, woken, .error e)
    | (g, woken, .ok ()) =>
      let (g, more, r) := g.write payload landing
      (g, woken ++ more, r)
  else g.write payload landing

/-- Park a task; a task is parked once for a target. -/
def park (target : LogPos) (waker : Waker) : List Waiter → List Waiter
  | [] => [⟨target, [waker]⟩]
  | w :: ws =>
    if w.target = target then
      (if waker ∈ w.wakers then w else { w with wakers := w.wakers ++ [waker] }) :: ws
    else w :: park target waker ws

/-- Poll the `Commit` of a record that ends at `target`. -/
def poll (g : Inner) (target : LogPos) (waker : Waker) : Inner × Poll :=
  if target ≤ g.wal.durableEnd then (g, .ready (.ok ()))
  else if g.wal.poisoned then (g, .ready (.error .poisoned))
  else ({ g with waiters := park target waker g.waiters }, .pending)

end Inner

/-! ### Runs -/

/-- A call on the log, with what the disk does. -/
inductive LogCall where
  /-- Append a record. -/
  | append (payload : Bytes) (rotation : Wal.RotateOutcome) (landing : Landing)
  /-- fsync. -/
  | tick (ok : Bool)
  /-- Poll a `Commit`. -/
  | poll (target : LogPos) (waker : Waker)

/-- What a call answers. -/
inductive Answer where
  /-- To an append. -/
  | appended (result : Except WalError LogPos)
  /-- To an fsync. -/
  | ticked (result : Except WalError ℕ)
  /-- To a poll. -/
  | polled (result : Poll)

/-- One call. -/
def Inner.call (g : Inner) : LogCall → Inner × Answer
  | .append payload rotation landing =>
    let (g, _, r) := g.append payload rotation landing
    (g, .appended r)
  | .tick ok =>
    let (g, r) := g.tick ok
    (g, .ticked r)
  | .poll target waker =>
    let (g, r) := g.poll target waker
    (g, .polled r)

/-- Calls in order, each with its answer. -/
def Inner.calls : Inner → List LogCall → Inner × List (LogCall × Answer)
  | g, [] => (g, [])
  | g, c :: cs =>
    let (g, a) := g.call c
    let (g, rest) := g.calls cs
    (g, (c, a) :: rest)

/-- The records that a call has accepted. -/
def accepted : LogCall × Answer → List (Bytes × LogPos)
  | (.append payload _ _, .appended result) => recordOf payload result
  | _ => []

/-- The log opened on files of which nothing has been fsynced since. -/
def Inner.opened (segmentSizeBytes : ℕ) (files : List Bytes) : Inner :=
  ⟨Wal.open_ segmentSizeBytes (files.map fun bytes => { bytes }), []⟩

/-! ### Draining -/

theorem perm_swapRemove {α : Type*} {l : List α} {i : ℕ} {x : α} (h : l[i]? = some x) :
    l.Perm (x :: swapRemove l i) := by
  obtain ⟨hi, hx⟩ := List.getElem?_eq_some_iff.1 h
  rcases l.eq_nil_or_concat' with rfl | ⟨l', last, rfl⟩
  · cases hi
  have hswap : swapRemove (l' ++ [last]) i = ((l' ++ [last]).set i last).dropLast := by
    rw [swapRemove, List.getLast?_concat]
  rw [hswap]
  by_cases hend : i < l'.length
  · -- the last element moves to `i`
    rw [List.set_append_left _ _ hend, List.dropLast_concat]
    obtain ⟨as, y, bs, rfl, rfl⟩ : ∃ as y bs, l' = as ++ y :: bs ∧ as.length = i :=
      ⟨l'.take i, l'[i], l'.drop (i + 1), by simp, by simp [hend.le]⟩
    have hxy : y = x := by simpa using hx
    subst hxy
    rw [List.set_append_right _ _ le_rfl, Nat.sub_self, List.set_cons_zero, List.append_assoc,
      List.cons_append]
    refine List.perm_middle.trans (.cons y ?_)
    exact (List.perm_append_singleton last bs).append_left as
  · have hi' : i = l'.length := by
      rw [List.length_append, List.length_singleton] at hi
      omega
    subst hi'
    have hlast : last = x := by simpa using hx
    subst hlast
    rw [List.set_append_right _ _ le_rfl, Nat.sub_self, List.set_cons_zero, List.dropLast_concat]
    exact List.perm_append_singleton last l'

theorem take_swapRemove {α : Type*} {l : List α} {i : ℕ} {x : α} (h : l[i]? = some x) :
    (swapRemove l i).take i = l.take i := by
  obtain ⟨hi, -⟩ := List.getElem?_eq_some_iff.1 h
  rcases l.eq_nil_or_concat' with rfl | ⟨l', last, rfl⟩
  · cases hi
  rw [List.length_append, List.length_singleton] at hi
  have hlen : i ≤ ((l' ++ [last]).set i last).length - 1 := by simp; omega
  rw [swapRemove, List.getLast?_concat]
  show ((l' ++ [last]).set i last).dropLast.take i = _
  rw [List.dropLast_eq_take, List.take_take, min_eq_left hlen, List.take_set_of_le le_rfl]

/-- **What a drain leaves**: of the waiters, those whose target is not durable.  The waiters before
`i` have been looked at. -/
theorem mem_drainFrom {durable : LogPos} {fuel i : ℕ} {waiters : List Waiter} {woken : List Waker}
    (hfuel : waiters.length - i ≤ fuel) (hseen : ∀ w ∈ waiters.take i, durable < w.target)
    (w : Waiter) : w ∈ (drainFrom durable fuel i waiters woken).1 ↔
      w ∈ waiters ∧ durable < w.target := by
  induction fuel generalizing i waiters woken with
  | zero =>
    rw [List.take_of_length_le (by omega)] at hseen
    exact ⟨fun hw => ⟨hw, hseen w hw⟩, And.left⟩
  | succ fuel ih =>
    rw [drainFrom]
    cases hget : waiters[i]? with
    | none =>
      rw [List.take_of_length_le (List.getElem?_eq_none_iff.1 hget)] at hseen
      exact ⟨fun hw => ⟨hw, hseen w hw⟩, And.left⟩
    | some x =>
      have hperm := perm_swapRemove hget
      simp only
      split_ifs with hx
      · rw [ih]
        · constructor
          · rintro ⟨hw, hlt⟩
            exact ⟨hperm.mem_iff.2 (List.mem_cons_of_mem _ hw), hlt⟩
          · rintro ⟨hw, hlt⟩
            rcases List.mem_cons.1 (hperm.mem_iff.1 hw) with rfl | hw
            · exact absurd hx (not_le.2 hlt)
            · exact ⟨hw, hlt⟩
        · have hlen := hperm.length_eq
          rw [List.length_cons] at hlen
          omega
        · rw [take_swapRemove hget]
          exact hseen
      · refine ih (by omega) fun y hy => ?_
        rw [List.take_add_one, hget, List.mem_append] at hy
        rcases hy with hy | hy
        · exact hseen y hy
        · rw [List.mem_singleton.1 hy]
          exact not_le.1 hx

theorem mem_drainWaiters {g : Inner} (w : Waiter) :
    w ∈ g.drainWaiters.1.waiters ↔ w ∈ g.waiters ∧ g.wal.durableEnd < w.target :=
  mem_drainFrom (by omega) (by simp) w

theorem mem_park {target : LogPos} {waker : Waker} {ws : List Waiter} {w : Waiter}
    (h : w ∈ Inner.park target waker ws) : w.target = target ∨ w ∈ ws := by
  induction ws with
  | nil => exact .inl (by rw [List.mem_singleton.1 h])
  | cons x ws ih =>
    rw [Inner.park] at h
    split_ifs at h with heq hin
    · exact .inr h
    · rcases List.mem_cons.1 h with rfl | h
      · exact .inl heq
      · exact .inr (List.mem_cons_of_mem _ h)
    · rcases List.mem_cons.1 h with rfl | h
      · exact .inr List.mem_cons_self
      · exact (ih h).imp_right (List.mem_cons_of_mem _)

/-! ### Files that grow -/

/-- Every file is still there, with more bytes and more of them fsynced. -/
def Grows (files files' : List LogFile) : Prop :=
  ∀ (i : ℕ) (f : LogFile), files[i]? = some f →
    ∃ f' : LogFile, files'[i]? = some f' ∧ f.bytes <+: f'.bytes ∧ f.synced ≤ f'.synced

/-- The frame of the payload ends at byte `n` of file `i`. -/
def EndsAt (files : List LogFile) (payload : Bytes) (i n : ℕ) : Prop :=
  ∃ f : LogFile, files[i]? = some f ∧
    ∃ before after, f.bytes = before ++ (encode payload ++ after) ∧
      n = before.length + (encode payload).length

/-- The first `n` bytes of file `i` have been fsynced. -/
def SyncedTo (files : List LogFile) (i n : ℕ) : Prop :=
  ∃ f : LogFile, files[i]? = some f ∧ n ≤ f.synced

namespace Grows

variable {files files' : List LogFile}

theorem refl (files : List LogFile) : Grows files files :=
  fun _ f h => ⟨f, h, List.prefix_rfl, le_rfl⟩

theorem trans {files'' : List LogFile} (h : Grows files files') (h' : Grows files' files'') :
    Grows files files'' := by
  intro i f hf
  obtain ⟨f', hf', hb, hs⟩ := h i f hf
  obtain ⟨f'', hf'', hb', hs'⟩ := h' i f' hf'
  exact ⟨f'', hf'', hb.trans hb', hs.trans hs'⟩

theorem modify (files : List LogFile) (i : ℕ) {g : LogFile → LogFile}
    (hg : ∀ f ∈ files, f.bytes <+: (g f).bytes ∧ f.synced ≤ (g f).synced) :
    Grows files (files.modify i g) := by
  intro j f hf
  rw [List.getElem?_modify, hf]
  by_cases hij : i = j
  · have := hg f (List.mem_of_getElem? hf)
    exact ⟨g f, by simp [hij], this.1, this.2⟩
  · exact ⟨f, by simp [hij], List.prefix_rfl, le_rfl⟩

theorem append (files more : List LogFile) : Grows files (files ++ more) := by
  intro i f hf
  have hi := (List.getElem?_eq_some_iff.1 hf).1
  exact ⟨f, by rw [List.getElem?_append_left hi, hf], List.prefix_rfl, le_rfl⟩

theorem endsAt (h : Grows files files') {payload : Bytes} {i n : ℕ}
    (he : EndsAt files payload i n) : EndsAt files' payload i n := by
  obtain ⟨f, hf, before, after, hb, hn⟩ := he
  obtain ⟨f', hf', ⟨more, hmore⟩, -⟩ := h i f hf
  refine ⟨f', hf', before, after ++ more, ?_, hn⟩
  rw [← hmore, hb]
  simp only [List.append_assoc]

theorem syncedTo (h : Grows files files') {i n : ℕ} (hs : SyncedTo files i n) :
    SyncedTo files' i n := by
  obtain ⟨f, hf, hn⟩ := hs
  obtain ⟨f', hf', -, hs'⟩ := h i f hf
  exact ⟨f', hf', hn.trans hs'⟩

end Grows

/-! ### The invariant -/

/-- The log between calls, since it was opened with `base` as its end: `placed` are the records it
has accepted.

An fsync covers the records of the closed files, and those of the current one up to the durable
end. -/
structure Wal.Covers (w : Wal) (base : LogPos) (placed : List (Bytes × LogPos)) : Prop where
  synced : ∀ f ∈ w.files, f.synced ≤ f.bytes.length
  staged : ∃ f, w.files[w.currentSegmentIndex]? = some f ∧ w.stagedEnd ≤ f.bytes.length ∧
    (w.poisoned = false → w.stagedEnd = f.bytes.length)
  last : w.poisoned = false → w.files.length = w.currentSegmentIndex + 1
  base_le : base ≤ w.stagedPos
  durable : ∃ d, w.durableEnd = toLex (w.currentSegmentIndex, d) ∧ d ≤ w.stagedEnd ∧
    ∀ n, 0 < n → n ≤ d → base < toLex (w.currentSegmentIndex, n) →
      SyncedTo w.files w.currentSegmentIndex n
  placed : ∀ r ∈ placed, ∃ i n, r.2 = toLex (i, n) ∧ base < r.2 ∧ 0 < n ∧ r.2 ≤ w.stagedPos ∧
    EndsAt w.files r.1 i n ∧ (i < w.currentSegmentIndex → SyncedTo w.files i n)

namespace Wal.Covers

variable {w : Wal} {base : LogPos} {placed : List (Bytes × LogPos)}

/-- The durable end is no further than the staged one. -/
theorem durable_le (h : w.Covers base placed) : w.durableEnd ≤ w.stagedPos := by
  obtain ⟨d, hd, hle, -⟩ := h.durable
  rw [hd, stagedPos, Prod.Lex.toLex_le_toLex]
  exact .inr ⟨rfl, hle⟩

/-- A record that ends at or before the durable end has been fsynced as a whole. -/
theorem committed (h : w.Covers base placed) {r : Bytes × LogPos} (hr : r ∈ placed)
    (hd : r.2 ≤ w.durableEnd) :
    ∃ i n, r.2 = toLex (i, n) ∧ EndsAt w.files r.1 i n ∧ SyncedTo w.files i n := by
  obtain ⟨i, n, hrn, hbase, hpos, -, hends, hclosed⟩ := h.placed r hr
  obtain ⟨d, hde, -, hcov⟩ := h.durable
  refine ⟨i, n, hrn, hends, ?_⟩
  rw [hrn, hde, Prod.Lex.toLex_le_toLex] at hd
  rcases hd with hlt | ⟨heq, hle⟩
  · exact hclosed hlt
  · have hi : i = w.currentSegmentIndex := heq
    subst hi
    exact hcov n hpos hle (hrn ▸ hbase)

/-- More bytes and more fsyncs keep what is covered. -/
theorem grow (h : w.Covers base placed) {w' : Wal} (hg : Grows w.files w'.files)
    (hsynced : ∀ f ∈ w'.files, f.synced ≤ f.bytes.length)
    (hcur : w'.currentSegmentIndex = w.currentSegmentIndex) (hend : w'.stagedEnd = w.stagedEnd)
    (hdur : w'.durableEnd = w.durableEnd)
    (hlen : w'.poisoned = false → w'.stagedEnd = w'.currentLen)
    (hlast : w'.poisoned = false → w'.files.length = w'.currentSegmentIndex + 1) :
    w'.Covers base placed := by
  have hpos : w'.stagedPos = w.stagedPos := by rw [stagedPos, stagedPos, hcur, hend]
  obtain ⟨f, hf, hle, -⟩ := h.staged
  obtain ⟨f', hf', hb, -⟩ := hg _ f hf
  rw [← hcur] at hf'
  refine ⟨hsynced, ⟨f', hf', ?_, fun hp => ?_⟩, hlast, by rw [hpos]; exact h.base_le, ?_, ?_⟩
  · rw [hend]
    exact hle.trans hb.length_le
  · rw [hlen hp, currentLen, hf']
    rfl
  · obtain ⟨d, hd, hdle, hcov⟩ := h.durable
    refine ⟨d, by rw [hdur, hd, hcur], by rw [hend]; exact hdle, fun n hn0 hn hb => ?_⟩
    rw [hcur] at hb ⊢
    exact hg.syncedTo (hcov n hn0 hn hb)
  · intro r hr
    obtain ⟨i, n, hrn, hbase, hn0, hle', hends, hclosed⟩ := h.placed r hr
    refine ⟨i, n, hrn, hbase, hn0, by rw [hpos]; exact hle', hg.endsAt hends, fun hi => ?_⟩
    exact hg.syncedTo (hclosed (hcur ▸ hi))

theorem poison (h : w.Covers base placed) : Covers { w with poisoned := true } base placed :=
  h.grow (Grows.refl _) h.synced rfl rfl rfl (fun hp => nomatch hp) fun hp => nomatch hp

/-- fsync of the current file, with nothing else changed. -/
theorem syncCurrent (h : w.Covers base placed) : w.syncCurrent.Covers base placed := by
  have hg : Grows w.files w.syncCurrent.files :=
    Grows.modify _ _ fun f hf => ⟨List.prefix_rfl, h.synced f hf⟩
  refine h.grow hg ?_ rfl rfl rfl (fun hp => ?_) fun hp => ?_
  · intro f hf
    obtain ⟨f₀, hf₀, heq | heq⟩ := mem_modify hf
    · rw [heq]
      exact h.synced f₀ hf₀
    · rw [heq]
  · obtain ⟨f, hf, -, hlen⟩ := h.staged
    show w.stagedEnd = w.syncCurrent.currentLen
    rw [hlen hp, currentLen]
    simp only [Wal.syncCurrent, List.getElem?_modify, hf]
    rfl
  · rw [Wal.syncCurrent, List.length_modify]
    exact h.last hp

/-- After an fsync all of the current file is covered. -/
theorem syncedTo_syncCurrent (h : w.Covers base placed) {n : ℕ} (hn : n ≤ w.stagedEnd) :
    SyncedTo w.syncCurrent.files w.currentSegmentIndex n := by
  obtain ⟨f, hf, hle, -⟩ := h.staged
  refine ⟨{ f with synced := f.bytes.length }, ?_, hn.trans hle⟩
  simp only [Wal.syncCurrent, List.getElem?_modify, hf]
  rfl

/-- The durable end moves to the staged one. -/
theorem tick (h : w.Covers base placed) :
    Covers { w.syncCurrent with durableEnd := w.stagedPos } base placed :=
  { h.syncCurrent with
    durable := ⟨w.stagedEnd, rfl, le_rfl, fun _ _ hn _ => h.syncedTo_syncCurrent hn⟩ }

/-- A file is closed and the next one started. -/
theorem rotate (h : w.Covers base placed) (hp : w.poisoned = false) :
    Covers { w.syncCurrent with
      files := w.syncCurrent.files ++ [{ fenced := true }]
      currentSegmentIndex := w.currentSegmentIndex + 1
      stagedEnd := 0
      durableEnd := toLex (w.currentSegmentIndex + 1, 0) } base placed := by
  have hs := h.syncCurrent
  have hgrow := Grows.append w.syncCurrent.files [{ fenced := true }]
  -- the fenced file of a rotation is the last one
  have hpast : w.stagedPos < toLex (w.currentSegmentIndex + 1, 0) := by
    rw [stagedPos, Prod.Lex.toLex_lt_toLex]
    exact .inl (Nat.lt_succ_self _)
  have hlen : w.syncCurrent.files.length = w.currentSegmentIndex + 1 := hs.last hp
  have hnew : (w.syncCurrent.files ++
      [({ fenced := true } : LogFile)])[w.currentSegmentIndex + 1]? = some { fenced := true } := by
    rw [← hlen, List.getElem?_concat_length]
  refine ⟨?_, ⟨{ fenced := true }, hnew, le_rfl, fun _ => rfl⟩,
    fun _ => by rw [List.length_append, hlen]; rfl, (h.base_le.trans_lt hpast).le,
    ⟨0, rfl, le_rfl, fun n hn0 hn => absurd hn (by omega)⟩, ?_⟩
  · intro f hf
    rcases List.mem_append.1 hf with hf | hf
    · exact hs.synced f hf
    · rw [List.mem_singleton.1 hf]
      exact le_rfl
  · intro r hr
    obtain ⟨i, n, hrn, hbase, hn0, hle, hends, hclosed⟩ := hs.placed r hr
    refine ⟨i, n, hrn, hbase, hn0, (hle.trans_lt hpast).le, hgrow.endsAt hends, fun hi => ?_⟩
    refine hgrow.syncedTo ?_
    by_cases hcur : i < w.currentSegmentIndex
    · exact hclosed hcur
    · -- the record is in the file that is closed
      obtain rfl : i = w.currentSegmentIndex := by
        have : i < w.currentSegmentIndex + 1 := hi
        omega
      refine h.syncedTo_syncCurrent ?_
      rw [hrn, Wal.stagedPos, Prod.Lex.toLex_le_toLex] at hle
      rcases hle with hlt | ⟨-, hle⟩
      · exact absurd hlt (lt_irrefl _)
      · exact hle

/-- Bytes land after the staged end, and the log is poisoned unless there are none. -/
theorem land (h : w.Covers base placed) {bytes : Bytes} (poisoned : Bool)
    (hp : poisoned = false → w.poisoned = false ∧ bytes = []) :
    Covers { w.appendBytes bytes with poisoned } base placed := by
  have hg : Grows w.files (w.appendBytes bytes).files :=
    Grows.modify _ _ fun f _ => ⟨List.prefix_append _ _, le_rfl⟩
  refine h.grow hg ?_ rfl rfl rfl (fun hp' => ?_) fun hp' => ?_
  · intro f hf
    obtain ⟨f₀, hf₀, heq | heq⟩ := mem_modify hf
    · rw [heq]
      exact h.synced f₀ hf₀
    · rw [heq]
      exact (h.synced f₀ hf₀).trans (by simp)
  · obtain ⟨hw, rfl⟩ := hp hp'
    obtain ⟨f, hf, -, hlen⟩ := h.staged
    show w.stagedEnd = _
    rw [hlen hw, currentLen]
    simp [appendBytes, hf]
  · obtain ⟨hw, rfl⟩ := hp hp'
    show (w.files.modify _ _).length = _
    rw [List.length_modify]
    exact h.last hw

/-- A frame is written. -/
theorem write (h : w.Covers base placed) (hp : w.poisoned = false) (payload : Bytes) :
    let w' := { w.appendBytes (encode payload) with
      stagedEnd := w.stagedEnd + (walHeaderLen + payload.length) }
    w'.Covers base (placed ++ [(payload, w'.stagedPos)]) ∧ w.stagedPos ≤ w'.stagedPos := by
  intro w'
  have hg : Grows w.files w'.files :=
    Grows.modify _ _ fun f _ => ⟨List.prefix_append _ _, le_rfl⟩
  obtain ⟨f, hf, -, hlen⟩ := h.staged
  have hf' : w'.files[w.currentSegmentIndex]? =
      some { f with bytes := f.bytes ++ encode payload } := by
    show (w.files.modify _ _)[w.currentSegmentIndex]? = _
    rw [List.getElem?_modify, hf]
    simp
  have hend : w'.stagedEnd = f.bytes.length + (encode payload).length := by
    show w.stagedEnd + (walHeaderLen + payload.length) = _
    rw [hlen hp, length_encode]
  have hpos : w.stagedPos < w'.stagedPos := by
    rw [stagedPos, stagedPos, Prod.Lex.toLex_lt_toLex]
    refine .inr ⟨rfl, ?_⟩
    show w.stagedEnd < w.stagedEnd + (walHeaderLen + payload.length)
    rw [walHeaderLen]
    omega
  refine ⟨⟨?_, ⟨_, hf', ?_, fun _ => ?_⟩, fun hp' => ?_, h.base_le.trans hpos.le, ?_, ?_⟩, hpos.le⟩
  · intro f₁ hf₁
    obtain ⟨f₀, hf₀, heq | heq⟩ := mem_modify hf₁
    · rw [heq]
      exact h.synced f₀ hf₀
    · rw [heq]
      exact (h.synced f₀ hf₀).trans (by simp)
  · rw [hend, List.length_append]
  · rw [hend, List.length_append]
  · show (w.files.modify _ _).length = _
    rw [List.length_modify]
    exact h.last hp'
  · obtain ⟨d, hd, hdle, hcov⟩ := h.durable
    refine ⟨d, hd, hdle.trans (Nat.le_add_right _ _), fun n hn0 hn hb => ?_⟩
    exact hg.syncedTo (hcov n hn0 hn hb)
  · intro r hr
    rcases List.mem_append.1 hr with hr | hr
    · obtain ⟨i, n, hrn, hbase, hn0, hle, hends, hclosed⟩ := h.placed r hr
      exact ⟨i, n, hrn, hbase, hn0, hle.trans hpos.le, hg.endsAt hends,
        fun hi => hg.syncedTo (hclosed hi)⟩
    · rw [List.mem_singleton.1 hr]
      refine ⟨w.currentSegmentIndex, w'.stagedEnd, rfl, h.base_le.trans_lt hpos, ?_, le_rfl,
        ⟨_, hf', f.bytes, [], by rw [List.append_nil], hend⟩, fun hi => absurd hi (lt_irrefl _)⟩
      show 0 < w.stagedEnd + (walHeaderLen + payload.length)
      rw [walHeaderLen]
      omega

end Wal.Covers

/-- The log and its waiters between calls. -/
structure Inner.Sound (g : Inner) (base : LogPos) (placed : List (Bytes × LogPos)) : Prop where
  covers : g.wal.Covers base placed
  parked : ∀ w ∈ g.waiters, g.wal.durableEnd < w.target
  calm : g.wal.poisoned = true → g.waiters = []

/-- What no call undoes: the ends move forward, and a poisoned log does not move at all. -/
structure Inner.Advances (g g' : Inner) : Prop where
  durable : g.wal.durableEnd ≤ g'.wal.durableEnd
  staged : g.wal.stagedPos ≤ g'.wal.stagedPos
  poisoned : g.wal.poisoned = true → g' = g

namespace Inner

variable {g : Inner} {base : LogPos} {placed : List (Bytes × LogPos)}

theorem Advances.refl (g : Inner) : g.Advances g := ⟨le_rfl, le_rfl, fun _ => rfl⟩

theorem Advances.trans {g' g'' : Inner} (h : g.Advances g') (h' : g'.Advances g'') :
    g.Advances g'' := by
  refine ⟨h.durable.trans h'.durable, h.staged.trans h'.staged, fun hp => ?_⟩
  obtain rfl := h.poisoned hp
  exact h'.poisoned hp

/-- Every waiter is handed back. -/
theorem sound_drainAllWaiters {wal : Wal} (h : wal.Covers base placed) :
    ({ g with wal }.drainAllWaiters.1).Sound base placed :=
  ⟨h, fun _ hw => (nomatch hw), fun _ => rfl⟩

/-- The waiters that are covered are handed back. -/
theorem sound_drainWaiters {wal : Wal} (h : wal.Covers base placed) (hp : wal.poisoned = false) :
    ({ g with wal }.drainWaiters.1).Sound base placed := by
  refine ⟨h, fun w hw => ((mem_drainWaiters w).1 hw).2, fun hp' => ?_⟩
  rw [show wal.poisoned = true from hp'] at hp
  cases hp

namespace Sound

theorem tick (h : g.Sound base placed) (ok : Bool) :
    (g.tick ok).1.Sound base placed ∧ g.Advances (g.tick ok).1 := by
  rw [Inner.tick, drainTick]
  split_ifs with hp
  · exact ⟨h, .refl g⟩
  have hnp : g.wal.poisoned = false := by simpa using hp
  have hsticky : ∀ {g' : Inner}, g.wal.poisoned = true → g' = g := fun hp' => absurd hp' hp
  cases ok with
  | true =>
    have ht : g.wal.tick true =
        ({ g.wal.syncCurrent with durableEnd := g.wal.stagedPos }, .ok ()) := by
      rw [Wal.tick, if_neg hp, if_pos rfl]
    rw [ht]
    exact ⟨sound_drainWaiters h.covers.tick hnp, h.covers.durable_le, le_rfl, hsticky⟩
  | false =>
    have ht : g.wal.tick false = ({ g.wal with poisoned := true }, .error .io) := by
      rw [Wal.tick, if_neg hp, if_neg (by decide)]
    rw [ht]
    exact ⟨sound_drainAllWaiters h.covers.poison, le_rfl, le_rfl, hsticky⟩

/-- **A rotation** succeeds, or leaves the records as they were. -/
theorem rotate (h : g.Sound base placed) (hp : g.wal.poisoned = false)
    (outcome : Wal.RotateOutcome) :
    (g.rotate outcome).1.Sound base placed ∧ g.Advances (g.rotate outcome).1 ∧
      ((g.rotate outcome).2.2 = .ok () → (g.rotate outcome).1.wal.poisoned = false) := by
  have hsticky : ∀ {g' : Inner}, g.wal.poisoned = true → g' = g := by
    intro g' hp'
    rw [hp] at hp'
    cases hp'
  have hl := h.covers
  rw [Inner.rotate]
  cases outcome with
  | done =>
    refine ⟨sound_drainWaiters (hl.rotate hp) hp, ⟨?_, ?_, hsticky⟩, fun _ => hp⟩
    · refine hl.durable_le.trans (le_of_lt ?_)
      exact Prod.Lex.toLex_lt_toLex.2 (.inl (Nat.lt_succ_self _))
    · refine le_of_lt ?_
      exact Prod.Lex.toLex_lt_toLex.2 (.inl (Nat.lt_succ_self _))
  | syncFailed =>
    exact ⟨sound_drainAllWaiters hl.poison, ⟨le_rfl, le_rfl, hsticky⟩, fun he => (by cases he)⟩
  | createFailed =>
    have hnp : ¬ g.wal.syncCurrent.poisoned = true := by
      show ¬ g.wal.poisoned = true
      rw [hp]
      decide
    simp only [Wal.rotate, if_neg hnp]
    exact ⟨⟨hl.syncCurrent, h.parked, h.calm⟩, ⟨le_rfl, le_rfl, hsticky⟩, fun he => (by cases he)⟩
  | fenceFailed =>
    refine ⟨sound_drainAllWaiters ?_, ⟨le_rfl, le_rfl, hsticky⟩, fun he => (by cases he)⟩
    refine hl.syncCurrent.grow (Grows.append _ _) ?_ rfl rfl rfl (fun hp' => by cases hp')
      fun hp' => by cases hp'
    intro f hf
    rcases List.mem_append.1 hf with hf | hf
    · exact hl.syncCurrent.synced f hf
    · rw [List.mem_singleton.1 hf]
      exact le_rfl

/-- **A write** adds its record, or leaves the records as they were. -/
theorem write (h : g.Sound base placed) (hp : g.wal.poisoned = false) (payload : Bytes)
    (landing : Landing) :
    (g.write payload landing).1.Sound base
        (placed ++ recordOf payload (g.write payload landing).2.2) ∧
      g.Advances (g.write payload landing).1 := by
  have hsticky : ∀ {g' : Inner}, g.wal.poisoned = true → g' = g := by
    intro g' hp'
    rw [hp] at hp'
    cases hp'
  cases landing with
  | done =>
    obtain ⟨hc, hle⟩ := h.covers.write hp payload
    exact ⟨⟨hc, h.parked, h.calm⟩, le_rfl, hle, hsticky⟩
  | failed landed =>
    obtain ⟨f, hf, -, hlen⟩ := h.covers.staged
    -- the file is longer than what is staged exactly if bytes have landed
    have hlong : (g.wal.appendBytes ((encode payload).take landed)).currentLen =
        g.wal.stagedEnd + ((encode payload).take landed).length := by
      rw [Wal.currentLen]
      simp [Wal.appendBytes, hf, hlen hp]
    simp only [Inner.write]
    split_ifs with hlt
    · refine ⟨?_, le_rfl, le_rfl, hsticky⟩
      rw [recordOf, List.append_nil]
      exact sound_drainAllWaiters (h.covers.land true fun hp' => by cases hp')
    · have hnil : (encode payload).take landed = [] := by
        rw [hlong] at hlt
        change ¬ g.wal.stagedEnd < _ at hlt
        exact List.length_eq_zero_iff.1 (by omega)
      refine ⟨?_, le_rfl, le_rfl, hsticky⟩
      rw [recordOf, List.append_nil]
      exact ⟨h.covers.land g.wal.poisoned fun hp' => ⟨hp', hnil⟩, h.parked, h.calm⟩

/-- **An append** adds its record, or leaves the records as they were. -/
theorem append (h : g.Sound base placed) (payload : Bytes) (rotation : Wal.RotateOutcome)
    (landing : Landing) :
    (g.append payload rotation landing).1.Sound base
        (placed ++ recordOf payload (g.append payload rotation landing).2.2) ∧
      g.Advances (g.append payload rotation landing).1 := by
  rw [Inner.append]
  split_ifs with hlarge hp hfull
  · rw [recordOf, List.append_nil]
    exact ⟨h, .refl g⟩
  · rw [recordOf, List.append_nil]
    exact ⟨h, .refl g⟩
  · have hnp : g.wal.poisoned = false := by simpa using hp
    obtain ⟨hs, hadv, hrun⟩ := h.rotate hnp rotation
    rcases hrot : g.rotate rotation with ⟨g₁, woken, e | u⟩
    · rw [hrot] at hs hadv
      simp only [recordOf, List.append_nil]
      exact ⟨hs, hadv⟩
    · rw [hrot] at hs hadv hrun
      obtain ⟨hs', hadv'⟩ := hs.write (hrun rfl) payload landing
      exact ⟨hs', hadv.trans hadv'⟩
  · exact h.write (by simpa using hp) payload landing

/-- **A poll** parks only tasks that have to wait. -/
theorem poll (h : g.Sound base placed) (target : LogPos) (waker : Waker) :
    (g.poll target waker).1.Sound base placed ∧ g.Advances (g.poll target waker).1 := by
  rw [Inner.poll]
  split_ifs with hd hp
  · exact ⟨h, .refl g⟩
  · exact ⟨h, .refl g⟩
  · refine ⟨⟨h.covers, fun w hw => ?_, fun hp' => absurd hp' hp⟩, le_rfl, le_rfl,
      fun hp' => absurd hp' hp⟩
    rcases mem_park hw with heq | hw
    · rw [heq]
      exact not_le.1 hd
    · exact h.parked w hw

theorem call (h : g.Sound base placed) (c : LogCall) :
    (g.call c).1.Sound base (placed ++ accepted (c, (g.call c).2)) ∧
      g.Advances (g.call c).1 := by
  cases c with
  | append payload rotation landing => exact h.append payload rotation landing
  | tick ok =>
    rw [show accepted (.tick ok, (g.call (.tick ok)).2) = [] from rfl, List.append_nil]
    exact h.tick ok
  | poll target waker =>
    rw [show accepted (.poll target waker, (g.call (.poll target waker)).2) = [] from rfl,
      List.append_nil]
    exact h.poll target waker

/-- Every run keeps the invariant. -/
theorem calls (h : g.Sound base placed) (cs : List LogCall) :
    (g.calls cs).1.Sound base (placed ++ (g.calls cs).2.flatMap accepted) ∧
      g.Advances (g.calls cs).1 := by
  induction cs generalizing g placed with
  | nil =>
    rw [show (g.calls []).2 = [] from rfl, List.flatMap_nil, List.append_nil]
    exact ⟨h, .refl g⟩
  | cons c cs ih =>
    obtain ⟨hs, hadv⟩ := h.call c
    obtain ⟨hs', hadv'⟩ := ih hs
    refine ⟨?_, hadv.trans hadv'⟩
    have hcons : (g.calls (c :: cs)).2.flatMap accepted =
        accepted (c, (g.call c).2) ++ ((g.call c).1.calls cs).2.flatMap accepted := rfl
    rw [hcons, ← List.append_assoc]
    exact hs'

end Sound

/-- A log that has just been opened. -/
theorem sound_opened (segmentSizeBytes : ℕ) (files : List Bytes) :
    (opened segmentSizeBytes files).Sound (opened segmentSizeBytes files).wal.stagedPos [] := by
  -- `open` starts a first file on an empty disk
  obtain ⟨fs, hfs, hne, hsynced⟩ : ∃ fs : List LogFile,
      (if files.map (fun bytes => ({ bytes } : LogFile)) = [] then [{}]
        else files.map fun bytes => ({ bytes } : LogFile)) = fs ∧ fs ≠ [] ∧
      ∀ f ∈ fs, f.synced = 0 := by
    refine ⟨_, rfl, ?_, ?_⟩
    · split_ifs with hnil
      · exact List.cons_ne_nil _ _
      · exact hnil
    · split_ifs with hnil
      · intro f hf
        rw [List.mem_singleton.1 hf]
      · intro f hf
        obtain ⟨bytes, -, rfl⟩ := List.mem_map.1 hf
        rfl
  have hpos : 0 < fs.length := List.length_pos_iff.2 hne
  obtain ⟨f, hf⟩ : ∃ f, fs[fs.length - 1]? = some f :=
    ⟨_, List.getElem?_eq_getElem (by omega)⟩
  have hwal : (opened segmentSizeBytes files).wal =
      ⟨segmentSizeBytes, fs.map fun f => { f with fenced := true }, fs.length - 1, f.bytes.length,
        toLex (fs.length - 1, f.bytes.length), false⟩ := by
    simp only [opened, Wal.open_, hfs, hf]
    rfl
  have hcur : (opened segmentSizeBytes files).wal.files[fs.length - 1]? =
      some { f with fenced := true } := by
    rw [hwal, List.getElem?_map, hf]
    rfl
  refine ⟨?_, fun w hw => (by cases hw), fun _ => rfl⟩
  rw [hwal] at hcur ⊢
  refine ⟨?_, ⟨_, hcur, le_rfl, fun _ => rfl⟩, fun _ => ?_, le_rfl, ?_, fun r hr => (by cases hr)⟩
  · intro f' hf'
    obtain ⟨f₀, hf₀, rfl⟩ := List.mem_map.1 hf'
    rw [show ({ f₀ with fenced := true } : LogFile).synced = f₀.synced from rfl, hsynced f₀ hf₀]
    exact Nat.zero_le _
  · show (fs.map _).length = fs.length - 1 + 1
    rw [List.length_map]
    omega
  · refine ⟨f.bytes.length, rfl, le_rfl, fun n _ hn hbase => ?_⟩
    -- nothing has been appended: no position is past the base
    rw [Wal.stagedPos, Prod.Lex.toLex_lt_toLex] at hbase
    rcases hbase with hlt | ⟨-, hlt⟩
    · exact absurd hlt (lt_irrefl _)
    · exact absurd hn (not_le.2 hlt)

end Inner

/-- **Group commit.**  In every run of appends, fsyncs, rotations and polls, whatever the disk does:
the durable end is no further than the staged one, and neither goes back; a `Commit` resolves only
once an fsync has covered the whole frame of its record; while the log is not poisoned, what is
staged is what the current file holds; a poisoned log refuses every append and fsync, nothing of it
changes any more, and a `Commit` resolves exactly if its record was durable; no task is parked
whose target is durable, and none while the log is poisoned. -/
theorem group_commit_sound (segmentSizeBytes : ℕ) (files : List Bytes)
    (before after : List LogCall) :
    let run := (Inner.opened segmentSizeBytes files).calls before
    let g := run.1
    let g' := (g.calls after).1
    (g.wal.durableEnd ≤ g.wal.stagedPos ∧ g.wal.durableEnd ≤ g'.wal.durableEnd ∧
      g.wal.stagedPos ≤ g'.wal.stagedPos) ∧
    (∀ r ∈ run.2.flatMap accepted, ∀ waker, (g.poll r.2 waker).2 = .ready (.ok ()) →
      ∃ i n, r.2 = toLex (i, n) ∧ EndsAt g.wal.files r.1 i n ∧ SyncedTo g.wal.files i n) ∧
    (g.wal.poisoned = false → g.wal.stagedEnd = g.wal.currentLen) ∧
    (g.wal.poisoned = true → g' = g ∧
      (∀ payload rotation landing, ∃ e, (g.append payload rotation landing).2.2 = .error e) ∧
      (∀ ok, ∃ e, (g.tick ok).2 = .error e) ∧
      ∀ target waker, (g.poll target waker).2 = .ready (.ok ()) ↔ target ≤ g.wal.durableEnd) ∧
    (∀ w ∈ g.waiters, g.wal.durableEnd < w.target) ∧
    (g.wal.poisoned = true → g.waiters = []) := by
  intro run g g'
  obtain ⟨hs, -⟩ := (Inner.sound_opened segmentSizeBytes files).calls before
  obtain ⟨-, hadv⟩ := hs.calls after
  -- a poll says whether the target is durable
  have hpoll : ∀ target waker, (g.poll target waker).2 = .ready (.ok ()) ↔
      target ≤ g.wal.durableEnd := by
    intro target waker
    rw [Inner.poll]
    split_ifs with hd hp
    · exact ⟨fun _ => hd, fun _ => rfl⟩
    · exact ⟨fun h => (nomatch h), fun h => absurd h hd⟩
    · exact ⟨fun h => (nomatch h), fun h => absurd h hd⟩
  refine ⟨⟨hs.covers.durable_le, hadv.durable, hadv.staged⟩, ?_, fun hp => ?_, fun hp => ?_,
    hs.parked, hs.calm⟩
  · intro r hr waker hready
    exact hs.covers.committed hr ((hpoll r.2 waker).1 hready)
  · obtain ⟨f, hf, -, hlen⟩ := hs.covers.staged
    rw [hlen hp, Wal.currentLen, hf]
    rfl
  · refine ⟨hadv.poisoned hp, fun payload rotation landing => ?_, fun ok => ?_, hpoll⟩
    · rw [Inner.append]
      split_ifs with hlarge
      · exact ⟨_, rfl⟩
      · exact ⟨_, rfl⟩
    · rw [Inner.tick, Inner.drainTick, if_pos hp]
      exact ⟨_, rfl⟩

/-- **A commit after the poison.**  A record is appended and fsynced, and the next fsync fails; the
`Commit` of the record, polled only then, resolves. -/
theorem acknowledged_after_poison :
    let g := ((Inner.opened 1024 []).calls
      [.append [7] .done .done, .tick true, .append [8] .done .done, .tick false]).1
    g.wal.poisoned = true ∧ (g.poll (toLex (0, 9)) 0).2 = .ready (.ok ()) := by
  exact ⟨rfl, rfl⟩

end WalLog

end SteleDb
