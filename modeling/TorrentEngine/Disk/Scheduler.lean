import TorrentEngine.Disk.Backoff
import TorrentEngine.Disk.Queue

/-!
One worker for a queue of jobs. The worker takes the first job of the queue and runs it; a job that
failed in passing sleeps for a while and then comes back to its place, while the others go on. Every
job is outstanding from its submission until it has finished one way or another. Time stands still
while jobs run: it moves on only when the queue is empty, to the moment at which the next sleeper
comes back.
-/

namespace TorrentEngine

/-- How a run of a job ended: done, to be tried again, or dropped. -/
inductive Verdict
  | done
  | retry
  | dropped
  deriving DecidableEq, Repr

/-- What one run of a job came to: how it ended, the state after it, and the jobs that it submitted,
with their priorities, before it ended. -/
structure JobRun (α σ : Type) where
  verdict : Verdict
  after : σ
  submitted : List (Nat × α) := []

/-- The jobs of one worker and their counts. -/
structure Scheduler (α : Type) where
  backoff : Backoff := .standard
  queue : JobQueue α := {}
  sleeping : List (Time × QueuedJob α) := []
  now : Time := 0
  outstanding : Nat := 0
  processed : Nat := 0
  retried : Nat := 0
  dropped : Nat := 0
  deriving Repr

namespace Scheduler

variable {α σ : Type}

def submit (s : Scheduler α) (priority : Nat) (job : α) : Scheduler α :=
  { s with queue := s.queue.push priority job, outstanding := s.outstanding + 1 }

def submitAll (s : Scheduler α) (jobs : List (Nat × α)) : Scheduler α :=
  jobs.foldl (fun s job => s.submit job.1 job.2) s

def isIdle (s : Scheduler α) : Bool := s.outstanding == 0

/-- Sleepers whose time has come go back to their places in the queue. -/
def wake (s : Scheduler α) : Scheduler α :=
  let due := s.sleeping.filter fun e => decide (e.1 ≤ s.now)
  { s with
    queue := due.foldl (fun q e => q.requeue e.2) s.queue
    sleeping := s.sleeping.filter fun e => decide (s.now < e.1) }

def settle (s : Scheduler α) (entry : QueuedJob α) : Verdict → Scheduler α
  | .done => { s with processed := s.processed + 1, outstanding := s.outstanding - 1 }
  | .dropped => { s with dropped := s.dropped + 1, outstanding := s.outstanding - 1 }
  | .retry =>
    let entry := { entry with attempts := entry.attempts + 1 }
    { s with
      retried := s.retried + 1
      sleeping := s.sleeping ++ [(s.backoff.dueAt s.now entry.attempts, entry)] }

def nextDue? (s : Scheduler α) : Option Time := (s.sleeping.map (·.1)).min?

/-- One turn of the worker: the first job of the queue before the deadline, or else the next
sleepers that come back by it; `none` when there is neither. -/
def turn? (run : α → σ → JobRun α σ) (deadline : Time) (s : Scheduler α) (state : σ) :
    Option (Scheduler α × σ) :=
  match s.queue.pop? with
  | some (entry, queue) =>
    if s.now < deadline then
      let r := run entry.job state
      some ((({ s with queue }.wake).submitAll r.submitted).settle entry r.verdict, r.after)
    else none
  | none =>
    match s.nextDue? with
    | none => none
    | some due =>
      if due ≤ deadline then some ({ s with now := max s.now due }.wake, state) else none

/-- Turns of the worker until there is nothing to do before the deadline, or their number is used
up. -/
def turns (run : α → σ → JobRun α σ) (deadline : Time) :
    (limit : Nat) → Scheduler α → σ → Scheduler α × σ
  | 0, s, state => (s, state)
  | limit + 1, s, state =>
    match turn? run deadline s state with
    | none => (s, state)
    | some (s, state) => turns run deadline limit s state

/-- A bound on the number of turns within a span of time, where each outstanding job may submit one
more: a turn either is an attempt of a job or ends the sleep after one. -/
def turnLimit (s : Scheduler α) (span : Time) : Nat :=
  2 * (2 * s.outstanding * s.backoff.attemptLimit span) + 1

/-- Runs the worker for at most `span`, or until every job has finished. -/
def drain (run : α → σ → JobRun α σ) (span : Time) (s : Scheduler α) (state : σ) :
    Scheduler α × σ :=
  let deadline := s.now + span
  let (s, state) := turns run deadline (s.turnLimit span) s state
  if s.isIdle then (s, state) else ({ s with now := deadline }, state)

end Scheduler

end TorrentEngine
