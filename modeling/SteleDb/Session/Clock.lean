import SteleDb.Storage.Record

/-!
# The commit clock

All tables of a session take their commit times from one clock, which never hands out the same
instant twice and never goes back, whatever the clock below it does.  Its state is a high-water
mark; a fresh read snapshot is folded into the mark, so that every later commit is past it.

The clock below is the list of its readings: arbitrary instants, one for each time it is asked.

* `MonotonicClock.lt_now` : a commit time is past the mark, unless the mark has reached the end of
  the axis;
* `MonotonicClock.le_observe` : a snapshot is not before the mark, which moves up to it.
-/

namespace SteleDb

/-- `i64::saturating_add(1)`. -/
def saturatingSucc (t : SystemTimeMicros) : SystemTimeMicros := if t < i64Max then t + 1 else t

theorem le_saturatingSucc (t : SystemTimeMicros) : t ≤ saturatingSucc t := by
  unfold saturatingSucc
  split
  · exact Int.le_add_one le_rfl
  · exact le_rfl

/-- A clock that hands out strictly increasing instants. -/
structure MonotonicClock where
  /-- What the clock below answers when asked for the `n`-th time. -/
  inner : ℕ → SystemTimeMicros
  /-- How often it has been asked. -/
  asked : ℕ := 0
  /-- The greatest instant handed out. -/
  highWater : SystemTimeMicros := 0

namespace MonotonicClock

/-- The greatest instant handed out. -/
def current (c : MonotonicClock) : SystemTimeMicros := c.highWater

/-- Raise the mark to at least `mark`. -/
def advanceTo (c : MonotonicClock) (mark : SystemTimeMicros) : MonotonicClock :=
  { c with highWater := max c.highWater mark }

/-- A fresh read snapshot. -/
def observe (c : MonotonicClock) : MonotonicClock × SystemTimeMicros :=
  let reading := c.inner c.asked
  ({ c with asked := c.asked + 1, highWater := max c.highWater reading }, max reading c.highWater)

/-- A commit time. -/
def now (c : MonotonicClock) : MonotonicClock × SystemTimeMicros :=
  let next := max (c.inner c.asked) (saturatingSucc c.highWater)
  ({ c with asked := c.asked + 1, highWater := next }, next)

variable (c : MonotonicClock)

@[simp] theorem current_now : c.now.1.current = c.now.2 := rfl

@[simp] theorem current_observe : c.observe.1.current = c.observe.2 := max_comm _ _

@[simp] theorem highWater_now : c.now.1.highWater = c.now.2 := rfl

@[simp] theorem highWater_observe : c.observe.1.highWater = c.observe.2 := max_comm _ _

theorem le_observe : c.highWater ≤ c.observe.2 := le_max_right _ _

/-- The mark never goes back. -/
theorem le_now : c.highWater ≤ c.now.2 := (le_saturatingSucc _).trans (le_max_right _ _)

/-- A commit time is past everything handed out, while there is an instant left. -/
theorem lt_now (h : c.now.2 < i64Max) : c.highWater < c.now.2 := by
  have hsucc : saturatingSucc c.highWater ≤ c.now.2 := le_max_right _ _
  rw [saturatingSucc, if_pos (c.le_now.trans_lt h)] at hsucc
  exact Int.lt_of_add_one_le hsucc

end MonotonicClock

end SteleDb
