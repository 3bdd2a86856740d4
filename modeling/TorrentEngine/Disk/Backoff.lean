import TorrentEngine.Message

/-!
How long a failed job waits before it is tried again: longer after each attempt, up to a limit.
-/

namespace TorrentEngine

/-- The wait after a first failure, and the longest wait. -/
structure Backoff where
  base : Time
  limit : Time
  deriving DecidableEq, Repr

namespace Backoff

/-- Ten milliseconds at first and one second at most. -/
def standard : Backoff := { base := 10000000, limit := 1000000000 }

def delay (b : Backoff) (attempts : Nat) : Time := min (b.base * attempts) b.limit

/-- The grain of the timers: one millisecond. -/
def grain : Time := 1000000

/-- The moment at which a wait that starts `now` ends: the first whole millisecond at which it is
over. -/
def dueAt (b : Backoff) (now : Time) (attempts : Nat) : Time :=
  (now + b.delay attempts + (grain - 1)) / grain * grain

/-- A bound on the number of attempts that one job makes within a span of time, if it waits at all
between them: no wait is shorter than the first one. -/
def attemptLimit (b : Backoff) (span : Time) : Nat := span / max 1 (b.delay 1) + 2

end Backoff

end TorrentEngine
