import TorrentEngine.Peer

/-!
How many blocks to request from a peer at once. Every block that comes leaves a latency sample; the
samples of a sliding window give the mean time that a block takes, the mean gives the number of
blocks worth three seconds, and the limit moves toward this number in bounded steps.
-/

namespace TorrentEngine

/-- A block that came, and how long it took. -/
structure Transfer where
  receivedAt : Time
  duration : Time
  deriving DecidableEq, Repr

namespace RequestBudget

/-- Nanoseconds in a second. -/
def second : Time := 1000000000

/-- The window over which latency is observed unless a setting says otherwise. -/
def defaultWindow : Time := 5 * second

/-- The most by which one block lowers the limit. -/
def maxDecrease : Nat := 2

/-- The most by which one block raises the limit. -/
def maxIncrease : Nat := 25

/-- The mean of some spans of time in whole nanoseconds; there is none of nothing. -/
def mean? (durations : List Time) : Option Time :=
  if durations.isEmpty then none else some (durations.foldr (· + ·) 0 / durations.length)

def seconds (t : Time) : Float :=
  (UInt64.ofNat (t / second)).toFloat + (UInt64.ofNat (t % second)).toFloat / 1e9

/-- The shortest time that a block is taken to need, in seconds. -/
def minBlockSeconds : Float := 0.001

/-- The number of blocks worth three seconds at one block per `mean`. -/
def target (mean : Time) : Nat :=
  let s := seconds mean
  let perBlock := if s < minBlockSeconds then minBlockSeconds else s
  (3.0 * (1.0 / perBlock)).round.toUInt64.toNat

/-- The limit one step closer to the target, and never below one. -/
def adjust (current target : Nat) : Nat :=
  max 1 <|
    if current < target then current + min (target - current) maxIncrease
    else current - min (current - target) maxDecrease

/-- The samples from the first on that is not older than the window. -/
def recent (window now : Time) (samples : List LatencySample) : List LatencySample :=
  samples.dropWhile fun s => window < now - s.recordedAt

/-- The peer after a block came: the sample recorded and the limit moved one step. -/
def receive (window : Time) (p : Peer) (t : Transfer) : Peer :=
  let sample := { recordedAt := t.receivedAt, duration := t.duration }
  let samples := recent window t.receivedAt (p.samples ++ [sample])
  match mean? (samples.map (·.duration)) with
  | none => { p with samples }
  | some mean => { p with samples, requestLimit := adjust p.requestLimit (target mean) }

end RequestBudget

end TorrentEngine
