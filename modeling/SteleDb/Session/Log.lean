import SteleDb.Storage.Record

/-!
# The session's logs

Two files of a session are logs that are appended and fsynced record by record: the commit log,
whose records say which transactions count, and the catalog log, whose records are the accepted
DDL statements.  Reading one stops at the first record that was torn.

A crash keeps every record covered by an fsync, and any number of those after it.
-/

namespace SteleDb

/-- A log that is fsynced after every record; `none` is a torn record. -/
structure AppendLog (α : Type) where
  /-- The records appended, oldest first. -/
  frames : List (Option α) := []
  /-- Number of records covered by an fsync. -/
  durable : ℕ := 0
  /-- What the disk does with the next appends. -/
  appendFaults : Faults := []
  /-- What the disk does with the next fsyncs. -/
  syncFaults : Faults := []

namespace AppendLog

variable {α : Type}

/-- Append a record and fsync; `false` if either fails. -/
def append (l : AppendLog α) (r : α) : AppendLog α × Bool :=
  let l' := { l with appendFaults := l.appendFaults.tail }
  match l.appendFaults.next with
  | .failed => (l', false)
  | .torn => ({ l' with frames := l.frames ++ [none] }, false)
  | .done =>
    let l' := { l' with frames := l.frames ++ [some r], syncFaults := l.syncFaults.tail }
    match l.syncFaults.next with
    | .done => ({ l' with durable := l'.frames.length }, true)
    | _ => (l', false)

/-- The records before the first torn one. -/
def replay (frames : List (Option α)) : List α :=
  (frames.takeWhile Option.isSome).filterMap fun r => r

end AppendLog

end SteleDb
