import Mathlib.Data.List.Basic
import Mathlib.Data.List.Infix

/-!
# Files of frames

An append-only file holds records one after another, each as a self-delimiting frame.  A reader
looks at the front of what is left of the file and finds a frame, the end of what it trusts, or an
error; scanning repeats this.  Reader and writer may carry a state along the file (a chain of
hashes); a file without one has a trivial state.

* `scan read s bytes` : read frames until the reader stops or fails;
* `FrameFormat` : an encoder the reader inverts, whatever follows the frame;
* `FrameFormat.scan_encodeAll_append` : scanning whole frames yields their records and goes on with
  what follows them.  What a torn frame does is up to the reader, at the end of the file and in the
  middle of it.

A writer appends to the end of the file and carries the state along; a new process takes the state
from the file.  An attempt to append may leave any part of its frame.

* `FrameFormat.run_of_untorn` : if a reader stops at a torn frame at the end of the file, and no
  attempt is made on a file with a torn frame at its end, the file reads back as the records whose
  attempts completed.
-/

namespace SteleDb

/-- What a reader finds at the front of the bytes that are left. -/
inductive FrameRead (σ α ε : Type*) where
  /-- Nothing more that counts. -/
  | stop
  /-- The file is damaged. -/
  | fail (e : ε)
  /-- A frame of `len` bytes that holds `a`; the state after it is `s`. -/
  | frame (a : α) (len : ℕ) (s : σ)

/-- The outcome of a scan. -/
structure Scan (β σ α ε : Type*) where
  /-- The records read, in file order. -/
  records : List α
  /-- The state after them. -/
  state : σ
  /-- The bytes that were not read. -/
  rest : List β
  /-- Why the scan gave up, if it did. -/
  error : Option ε

namespace Scan

variable {β σ α ε : Type*}

/-- A record before those of a scan. -/
def prepend (as : List α) (r : Scan β σ α ε) : Scan β σ α ε := { r with records := as ++ r.records }

@[simp] theorem prepend_nil (r : Scan β σ α ε) : r.prepend [] = r := rfl

@[simp] theorem prepend_prepend (as bs : List α) (r : Scan β σ α ε) :
    (r.prepend bs).prepend as = r.prepend (as ++ bs) := by
  simp only [prepend, List.append_assoc]

/-- The records, unless the scan gave up. -/
def result (r : Scan β σ α ε) : Except ε (List α) :=
  match r.error with
  | some e => .error e
  | none => .ok r.records

theorem result_prepend (as : List α) (r : Scan β σ α ε) :
    (r.prepend as).result = r.result.map (as ++ ·) := by
  rw [result, result, prepend]
  cases r.error <;> rfl

end Scan

section Scanning

variable {β σ α ε : Type*} (read : σ → List β → FrameRead σ α ε)

/-- Read at most `fuel` frames. -/
def scanFrames : ℕ → σ → List β → Scan β σ α ε
  | 0, s, bytes => ⟨[], s, bytes, none⟩
  | fuel + 1, s, bytes =>
    match read s bytes with
    | .stop => ⟨[], s, bytes, none⟩
    | .fail e => ⟨[], s, bytes, some e⟩
    | .frame a len s' => (scanFrames fuel s' (bytes.drop len)).prepend [a]

/-- Read frames to the end.  A frame has at least one byte, so there are no more frames than
bytes. -/
def scan (s : σ) (bytes : List β) : Scan β σ α ε := scanFrames read (bytes.length + 1) s bytes

/-- A frame is part of the file, and not empty. -/
def Advances : Prop :=
  ∀ s bytes a len s', read s bytes = .frame a len s' → 0 < len ∧ len ≤ bytes.length

variable {read} {s s' : σ} {bytes : List β} {a : α} {len : ℕ}

/-- More fuel than bytes makes no difference. -/
theorem scanFrames_eq_scan (h : Advances read) {fuel : ℕ} (hf : bytes.length < fuel) :
    scanFrames read fuel s bytes = scan read s bytes := by
  induction fuel using Nat.strong_induction_on generalizing s bytes with
  | _ fuel ih =>
    obtain _ | fuel := fuel
    · omega
    rw [scan, scanFrames, scanFrames]
    rcases hr : read s bytes with _ | e | ⟨a, len, s'⟩
    · rfl
    · rfl
    · obtain ⟨hpos, hle⟩ := h _ _ _ _ _ hr
      have hdrop : (bytes.drop len).length < bytes.length := by
        rw [List.length_drop]
        omega
      dsimp only
      rw [ih fuel (Nat.lt_succ_self _) (by omega), ← ih bytes.length (by omega) hdrop]

theorem scan_of_stop (hr : read s bytes = .stop) : scan read s bytes = ⟨[], s, bytes, none⟩ := by
  rw [scan, scanFrames, hr]

theorem scan_of_fail {e : ε} (hr : read s bytes = .fail e) :
    scan read s bytes = ⟨[], s, bytes, some e⟩ := by
  rw [scan, scanFrames, hr]

theorem scan_of_frame (h : Advances read) (hr : read s bytes = .frame a len s') :
    scan read s bytes = (scan read s' (bytes.drop len)).prepend [a] := by
  obtain ⟨hpos, hle⟩ := h _ _ _ _ _ hr
  rw [scan, scanFrames, hr]
  dsimp only
  rw [scanFrames_eq_scan h]
  rw [List.length_drop]
  omega

end Scanning

/-- A way to write records that a reader inverts. -/
structure FrameFormat (β σ α ε : Type*) where
  /-- The reader. -/
  read : σ → List β → FrameRead σ α ε
  /-- The frame of a record. -/
  encode : σ → α → List β
  /-- The state after a record. -/
  next : σ → α → σ
  /-- The records that can be read back. -/
  Readable : α → Prop
  /-- Reading gets on. -/
  advances : Advances read
  /-- A whole frame is read, whatever follows. -/
  read_encode : ∀ s a rest, Readable a →
    read s (encode s a ++ rest) = .frame a (encode s a).length (next s a)

namespace FrameFormat

variable {β σ α ε : Type*} (F : FrameFormat β σ α ε)

/-- The frames of records written one after another. -/
def encodeAll : σ → List α → List β
  | _, [] => []
  | s, a :: as => F.encode s a ++ encodeAll (F.next s a) as

/-- The state after records. -/
def nextAll (s : σ) (as : List α) : σ := as.foldl F.next s

variable {F}

@[simp] theorem encodeAll_append (s : σ) (as bs : List α) :
    F.encodeAll s (as ++ bs) = F.encodeAll s as ++ F.encodeAll (F.nextAll s as) bs := by
  induction as generalizing s with
  | nil => rfl
  | cons a as ih => simp only [List.cons_append, encodeAll, ih, List.append_assoc, nextAll,
      List.foldl_cons]

@[simp] theorem nextAll_append (s : σ) (as bs : List α) :
    F.nextAll s (as ++ bs) = F.nextAll (F.nextAll s as) bs := List.foldl_append

/-- Whole frames are read; the scan goes on after them. -/
theorem scan_encodeAll_append {as : List α} (s : σ) (h : ∀ a ∈ as, F.Readable a)
    (tail : List β) :
    scan F.read s (F.encodeAll s as ++ tail) =
      (scan F.read (F.nextAll s as) tail).prepend as := by
  induction as generalizing s with
  | nil => rfl
  | cons a as ih =>
    have hr := F.read_encode s a (F.encodeAll (F.next s a) as ++ tail) (h a List.mem_cons_self)
    rw [encodeAll, List.append_assoc, scan_of_frame F.advances hr, List.drop_left,
      ih _ fun b hb => h b (List.mem_cons_of_mem a hb), Scan.prepend_prepend]
    rfl

end FrameFormat

/-! ### Attempts to append -/

/-- How an attempt to append ends. -/
inductive AppendOutcome where
  /-- The frame is appended and fsynced. -/
  | completed
  /-- A crash or a failed append leaves the first `n` units of the frame. -/
  | torn (n : ℕ)
  deriving DecidableEq, Repr

/-- What happens to a file of frames. -/
inductive LogEvent (α : Type*) where
  /-- An attempt to append a record. -/
  | append (a : α) (outcome : AppendOutcome)
  /-- A new process opens the file and reads it. -/
  | reopen

/-- A file of frames and its writer. -/
structure Writer (β σ α : Type*) where
  /-- The file. -/
  file : List β
  /-- The state the writer carries. -/
  state : σ
  /-- The records whose attempts completed, in order. -/
  acknowledged : List α

namespace FrameFormat

variable {β σ α ε : Type*} (F : FrameFormat β σ α ε) (restore : List β → Option σ) (s₀ : σ)

/-- A writer of an empty file. -/
def fresh : Writer β σ α := ⟨[], s₀, []⟩

/-- The state a scan of the file ends in, if it does not fail. -/
def rescan (file : List β) : Option σ :=
  match (scan F.read s₀ file).error with
  | some _ => none
  | none => some (scan F.read s₀ file).state

/-- One event, where a new process takes its state from the file by `restore`; `none` if it
cannot. -/
def step (w : Writer β σ α) : LogEvent α → Option (Writer β σ α)
  | .append a .completed =>
    some ⟨w.file ++ F.encode w.state a, F.next w.state a, w.acknowledged ++ [a]⟩
  | .append a (.torn n) => some { w with file := w.file ++ (F.encode w.state a).take n }
  | .reopen => (restore w.file).map fun state => { w with state }

/-- The events in order. -/
def run : Writer β σ α → List (LogEvent α) → Option (Writer β σ α)
  | w, [] => some w
  | w, e :: es => (F.step restore w e).bind fun w => run w es

/-- The reader stops at a frame that is torn at the end of the file. -/
def StopsAtTorn : Prop :=
  ∀ s a n, F.Readable a → n < (F.encode s a).length → F.read s ((F.encode s a).take n) = .stop

/-- The records can be read back, an attempt that does not complete leaves less than a frame, and
none is made on a file with part of a frame at its end. -/
structure Untorn (events : List (LogEvent α)) : Prop where
  readable : ∀ a o, .append a o ∈ events → F.Readable a
  partial_ : ∀ a n, .append a (.torn n) ∈ events → ∀ s, n < (F.encode s a).length
  debris : events.Pairwise fun e e' =>
    ∀ a n, e = .append a (.torn n) → 0 < n → ∀ b o, e' ≠ .append b o

variable {F restore s₀}

theorem Untorn.tail {e : LogEvent α} {es : List (LogEvent α)} (h : F.Untorn (e :: es)) :
    F.Untorn es where
  readable a o ha := h.readable a o (List.mem_cons_of_mem e ha)
  partial_ a n ha := h.partial_ a n (List.mem_cons_of_mem e ha)
  debris := (List.pairwise_cons.1 h.debris).2

/-- The file holds the acknowledged records and then what the reader stops at; the writer's state is
theirs. -/
structure InStep (F : FrameFormat β σ α ε) (s₀ : σ) (w : Writer β σ α) (tail : List β) : Prop where
  file : w.file = F.encodeAll s₀ w.acknowledged ++ tail
  state : w.state = F.nextAll s₀ w.acknowledged
  readable : ∀ a ∈ w.acknowledged, F.Readable a
  stops : F.read w.state tail = .stop

namespace InStep

variable {w : Writer β σ α} {tail : List β}

theorem scan_file (h : InStep F s₀ w tail) :
    scan F.read s₀ w.file = ⟨w.acknowledged, w.state, tail, none⟩ := by
  rw [h.file, F.scan_encodeAll_append s₀ h.readable, ← h.state, scan_of_stop h.stops]
  simp [Scan.prepend]

theorem rescan (h : InStep F s₀ w tail) : F.rescan s₀ w.file = some w.state := by
  simp only [FrameFormat.rescan, h.scan_file]

theorem completed (h : InStep F s₀ w []) {a : α} (ha : F.Readable a)
    (hnil : ∀ s, F.read s [] = .stop) :
    ∃ w', F.step restore w (.append a .completed) = some w' ∧ InStep F s₀ w' [] ∧
      w'.acknowledged = w.acknowledged ++ [a] := by
  refine ⟨_, rfl, ⟨?_, ?_, ?_, hnil _⟩, rfl⟩
  · rw [h.file]
    simp [encodeAll, h.state]
  · rw [h.state]
    simp [nextAll]
  · intro b hb
    rcases List.mem_append.1 hb with hb | hb
    · exact h.readable b hb
    · rwa [List.mem_singleton.1 hb]

theorem torn (h : InStep F s₀ w []) (hF : F.StopsAtTorn) {a : α} {n : ℕ} (ha : F.Readable a)
    (hn : n < (F.encode w.state a).length) :
    ∃ w', F.step restore w (.append a (.torn n)) = some w' ∧
      InStep F s₀ w' ((F.encode w.state a).take n) ∧ w'.acknowledged = w.acknowledged := by
  refine ⟨_, rfl, ⟨?_, h.state, h.readable, hF _ _ _ ha hn⟩, rfl⟩
  rw [h.file]
  simp

end InStep

/-- A new process finds the state of the records in the file. -/
def Restores (F : FrameFormat β σ α ε) (restore : List β → Option σ) (s₀ : σ) : Prop :=
  ∀ w tail, InStep F s₀ w tail → restore w.file = some w.state

theorem restores_rescan : Restores F (F.rescan s₀) s₀ := fun _ _ h => h.rescan

theorem Restores.reopen (hr : Restores F restore s₀) {w : Writer β σ α} {tail : List β}
    (h : InStep F s₀ w tail) : F.step restore w .reopen = some w := by
  rw [step, hr w tail h]
  rfl

/-- The records whose attempts complete. -/
def completed : List (LogEvent α) → List α
  | [] => []
  | .append a .completed :: es => a :: completed es
  | _ :: es => completed es

/-- Events after which no attempt is made. -/
theorem run_of_no_attempt (hr : Restores F restore s₀) {w : Writer β σ α} {tail : List β}
    (h : InStep F s₀ w tail)
    {es : List (LogEvent α)} (hes : ∀ e ∈ es, ∀ b o, e ≠ .append b o) :
    F.run restore w es = some w ∧ completed es = [] := by
  induction es with
  | nil => exact ⟨rfl, rfl⟩
  | cons e es ih =>
    obtain ⟨hrun, hnone⟩ := ih fun e' he' => hes e' (List.mem_cons_of_mem e he')
    cases e with
    | append a o => exact absurd rfl (hes _ List.mem_cons_self a o)
    | reopen => exact ⟨by rw [run, hr.reopen h]; exact hrun, hnone⟩

theorem run_of_inStep (hr : Restores F restore s₀) (hF : F.StopsAtTorn)
    (hnil : ∀ s, F.read s [] = .stop) {w : Writer β σ α} (h : InStep F s₀ w [])
    {events : List (LogEvent α)} (hu : F.Untorn events) :
    ∃ w' tail, F.run restore w events = some w' ∧ InStep F s₀ w' tail ∧
      w'.acknowledged = w.acknowledged ++ completed events := by
  induction events generalizing w with
  | nil => exact ⟨w, [], rfl, h, (List.append_nil _).symm⟩
  | cons e es ih =>
    cases e with
    | reopen =>
      obtain ⟨w', tail, hrun, hw', hack⟩ := ih h hu.tail
      exact ⟨w', tail, by rw [run, hr.reopen h]; exact hrun, hw', hack⟩
    | append a o =>
      have ha := hu.readable a o List.mem_cons_self
      cases o with
      | completed =>
        obtain ⟨w₁, hstep, hw₁, hack₁⟩ := h.completed ha hnil
        obtain ⟨w', tail, hrun, hw', hack⟩ := ih hw₁ hu.tail
        refine ⟨w', tail, by rw [run, hstep]; exact hrun, hw', ?_⟩
        rw [hack, hack₁, completed, List.append_assoc, List.singleton_append]
      | torn n =>
        have hn := hu.partial_ a n List.mem_cons_self w.state
        obtain ⟨w₁, hstep, hw₁, hack₁⟩ := h.torn hF ha hn
        rcases Nat.eq_zero_or_pos n with rfl | hpos
        · -- nothing was left of the frame
          obtain ⟨w', tail, hrun, hw', hack⟩ := ih (by simpa using hw₁) hu.tail
          exact ⟨w', tail, by rw [run, hstep]; exact hrun, hw', by rw [hack, hack₁]; rfl⟩
        · -- part of the frame was left, so nothing follows it
          have hes := (List.pairwise_cons.1 hu.debris).1
          obtain ⟨hrun, hnone⟩ := run_of_no_attempt hr hw₁ fun e' he' => hes e' he' a n rfl hpos
          have htorn : completed (.append a (.torn n) :: es) = completed es := rfl
          refine ⟨w₁, _, by rw [run, hstep]; exact hrun, hw₁, ?_⟩
          rw [hack₁, htorn, hnone, List.append_nil]

theorem run_append (w : Writer β σ α) (es es' : List (LogEvent α)) :
    F.run restore w (es ++ es') = (F.run restore w es).bind fun w' => F.run restore w' es' := by
  induction es generalizing w with
  | nil => rfl
  | cons e es ih =>
    rw [List.cons_append, run, run, Option.bind_assoc]
    exact congrArg _ (funext fun w' => ih w')

theorem completed_concat (events : List (LogEvent α)) (a : α) :
    completed (events ++ [.append a .completed]) = completed events ++ [a] := by
  induction events with
  | nil => rfl
  | cons e es ih =>
    rcases e with ⟨b, _ | n⟩ | _
    · exact congrArg (b :: ·) ih
    · exact ih
    · exact ih

theorem readable_of_mem_completed {events : List (LogEvent α)} (h : F.Untorn events) {a : α}
    (ha : a ∈ completed events) : F.Readable a := by
  induction events with
  | nil => cases ha
  | cons e es ih =>
    rcases e with ⟨b, _ | n⟩ | _
    · rcases List.mem_cons.1 ha with rfl | ha
      · exact h.readable _ _ List.mem_cons_self
      · exact ih h.tail ha
    · exact ih h.tail ha
    · exact ih h.tail ha

/-- No attempt left part of a frame. -/
def NoDebris (events : List (LogEvent α)) : Prop := ∀ a n, .append a (.torn n) ∈ events → n = 0

/-- One more append, if there is no part of a frame at the end of the file. -/
theorem Untorn.concat {events : List (LogEvent α)} (h : F.Untorn events) (hd : NoDebris events)
    {a : α} (ha : F.Readable a) : F.Untorn (events ++ [.append a .completed]) where
  readable b o hb := by
    rcases List.mem_append.1 hb with hb | hb
    · exact h.readable b o hb
    · cases List.mem_singleton.1 hb
      exact ha
  partial_ b n hb := by
    rcases List.mem_append.1 hb with hb | hb
    · exact h.partial_ b n hb
    · cases List.mem_singleton.1 hb
  debris := by
    refine List.pairwise_append.2 ⟨h.debris, List.pairwise_singleton _ _, ?_⟩
    rintro e he e' - b n rfl hpos
    exact absurd (hd b n he) hpos.ne'

/-- Every process finds its state in the file, and the file holds the records whose attempts
completed. -/
theorem run_of_untorn (hr : Restores F restore s₀) (hF : F.StopsAtTorn)
    (hnil : ∀ s, F.read s [] = .stop) {events : List (LogEvent α)} (hu : F.Untorn events) :
    ∃ w tail, F.run restore (fresh s₀) events = some w ∧ InStep F s₀ w tail ∧
      w.acknowledged = completed events := by
  have hfresh : InStep F s₀ (fresh s₀) [] :=
    ⟨rfl, rfl, fun a ha => absurd ha List.not_mem_nil, hnil s₀⟩
  exact run_of_inStep hr hF hnil hfresh hu

end FrameFormat

end SteleDb
