import TorrentEngine.Disk.Job
import TorrentEngine.Proofs.Worker

/-!
The scheduler as its callers share it. Submitters, the worker, the timers of failed jobs, waiters
and a shutdown act on the same memory, one atomic action at a time and in any order; how a run of a
job ends, and what it submits before, is open. Whole submissions and whole turns of the worker, as
the scheduler makes them, are runs of such actions.
-/

namespace TorrentEngine

/-- Where the worker stands between two of its actions. -/
inductive Worker (α : Type)
  /-- About to take an entry out of the queue. -/
  | taking
  | running (entry : QueuedJob α)
  /-- The job that runs has counted another one, and is about to push it. -/
  | handing (entry : QueuedJob α) (priority : Nat) (job : α)
  | ended (entry : QueuedJob α) (v : Verdict)
  /-- The result has been counted, and nothing has come of it yet. -/
  | counted (entry : QueuedJob α) (v : Verdict)
  /-- The job is counted as backing off, and no timer has it yet. -/
  | raised (entry : QueuedJob α)
  /-- There was nothing in the queue. -/
  | idle
  /-- There was nothing in the queue, and shutdown has been asked for. -/
  | leaving
  /-- Shutdown has been asked for, and no failed job was backing off. -/
  | calm
  /-- Waiting to be notified. -/
  | resting
  | stopped

namespace Worker

variable {α : Type}

/-- The entry that the worker has taken and not dealt with yet. -/
def inHand : Worker α → List (QueuedJob α)
  | .running entry => [entry]
  | .handing entry _ _ => [entry]
  | .ended entry _ => [entry]
  | .counted entry _ => [entry]
  | .raised entry => [entry]
  | _ => []

/-- The number of jobs that are counted and not pushed yet by the job that runs. -/
def unpushed : Worker α → Nat
  | .handing .. => 1
  | _ => 0

/-- The number of jobs that are counted as backing off while no timer has them. -/
def unslept : Worker α → Nat
  | .raised _ => 1
  | _ => 0

/-- The number of results `v` that are counted while their job is still outstanding. -/
def midway (v : Verdict) : Worker α → Nat
  | .counted _ w => if w = v then 1 else 0
  | _ => 0

end Worker

/-- A scheduler with those who use it, and a record of the jobs. In the record a job goes by its
number in the order in which jobs were pushed. -/
structure Crew (α : Type) where
  scheduler : Scheduler α
  worker : Worker α := .taking
  /-- Jobs that a submitter has counted and not pushed yet. -/
  entering : Multiset (Nat × α) := 0
  /-- The count of failed jobs that are backing off. -/
  backingOff : Nat := 0
  /-- The timers that have put their job back and not lowered the count yet. -/
  returning : Nat := 0
  /-- The number of jobs that had been pushed when shutdown was first asked for. -/
  stopAt : Option Nat := none
  submitted : Nat := 0
  /-- For each job, the one that submitted it, if it was not one of the submitters. -/
  origins : List (Option Nat) := []
  done : List Nat := []
  dropped : List Nat := []
  /-- For each wait that returned, how many jobs had been submitted by then. -/
  returns : List Nat := []

namespace Crew

variable {α σ : Type}

/-- A crew that has done nothing. -/
def start (backoff : Backoff) : Crew α := { scheduler := { backoff } }

/-- The numbers of the jobs that have finished. -/
def finished (c : Crew α) : List Nat := c.done ++ c.dropped

/-- The first half of a submission: the job is counted. -/
def count (c : Crew α) : Crew α :=
  { c with
    scheduler := { c.scheduler with outstanding := c.scheduler.outstanding + 1 }
    submitted := c.submitted + 1 }

/-- The second half of a submission: the job is pushed. -/
def push (c : Crew α) (priority : Nat) (job : α) (origin : Option Nat) : Crew α :=
  { c with
    scheduler := { c.scheduler with queue := c.scheduler.queue.push priority job }
    origins := c.origins ++ [origin] }

/-- A result is counted. -/
def countResult (c : Crew α) (v : Verdict) : Crew α :=
  { c with
    scheduler := match v with
      | .done => { c.scheduler with processed := c.scheduler.processed + 1 }
      | .dropped => { c.scheduler with dropped := c.scheduler.dropped + 1 }
      | .retry => { c.scheduler with retried := c.scheduler.retried + 1 } }

/-- A job is no longer outstanding. -/
def lower (c : Crew α) : Crew α :=
  { c with scheduler := { c.scheduler with outstanding := c.scheduler.outstanding - 1 } }

/-- A failed job is handed to a timer. -/
def putToSleep (c : Crew α) (entry : QueuedJob α) : Crew α :=
  let entry := { entry with attempts := entry.attempts + 1 }
  { c with
    scheduler := { c.scheduler with
      sleeping := c.scheduler.sleeping ++
        [(c.scheduler.backoff.dueAt c.scheduler.now entry.attempts, entry)] } }

/-- Where a worker with an empty queue goes next. Each of the three tests for the exit is an action
of its own. -/
def look? (c : Crew α) : Option (Worker α) :=
  match c.worker with
  | .idle => some (if c.stopAt.isSome then .leaving else .resting)
  | .leaving => some (if c.backingOff = 0 then .calm else .resting)
  | .calm => some (if c.scheduler.queue.entries = [] then .stopped else .resting)
  | .resting => some .taking
  | _ => none

/-- One atomic action. -/
inductive Step (c : Crew α) : Crew α → Prop
  | count (priority : Nat) (job : α) :
      Step c { c.count with entering := (priority, job) ::ₘ c.entering }
  | push {priority : Nat} {job : α} {rest : Multiset (Nat × α)}
      (h : c.entering = (priority, job) ::ₘ rest) :
      Step c { c.push priority job none with entering := rest }
  | shutdown : Step c { c with stopAt := c.stopAt.or (some c.scheduler.queue.nextSequence) }
  | waitReturns (h : c.scheduler.isIdle = true) :
      Step c { c with returns := c.returns ++ [c.submitted] }
  | elapse (now : Time) : Step c { c with scheduler := { c.scheduler with now } }
  | requeue {before after : List (Time × QueuedJob α)} {due : Time} {entry : QueuedJob α}
      (h : c.scheduler.sleeping = before ++ (due, entry) :: after) :
      Step c { c with
        scheduler := { c.scheduler with
          queue := c.scheduler.queue.requeue entry, sleeping := before ++ after }
        returning := c.returning + 1 }
  | lowerBackingOff {n : Nat} (h : c.returning = n + 1) :
      Step c { c with returning := n, backingOff := c.backingOff - 1 }
  | take {entry : QueuedJob α} {queue : JobQueue α} (h : c.worker = .taking)
      (hPop : c.scheduler.queue.pop? = some (entry, queue)) :
      Step c { c with scheduler := { c.scheduler with queue }, worker := .running entry }
  | findNone (h : c.worker = .taking) (hPop : c.scheduler.queue.pop? = none) :
      Step c { c with worker := .idle }
  | countFollowUp {entry : QueuedJob α} (h : c.worker = .running entry) (priority : Nat) (job : α) :
      Step c { c.count with worker := .handing entry priority job }
  | pushFollowUp {entry : QueuedJob α} {priority : Nat} {job : α}
      (h : c.worker = .handing entry priority job) :
      Step c { c.push priority job (some entry.sequence) with worker := .running entry }
  | ends {entry : QueuedJob α} (h : c.worker = .running entry) (e : JobEnd) :
      Step c { c with worker := .ended entry e.verdict }
  | countResult {entry : QueuedJob α} {v : Verdict} (h : c.worker = .ended entry v) :
      Step c { c.countResult v with worker := .counted entry v }
  | finishDone {entry : QueuedJob α} (h : c.worker = .counted entry .done) :
      Step c { c.lower with worker := .taking, done := c.done ++ [entry.sequence] }
  | finishDropped {entry : QueuedJob α} (h : c.worker = .counted entry .dropped) :
      Step c { c.lower with worker := .taking, dropped := c.dropped ++ [entry.sequence] }
  | raise {entry : QueuedJob α} (h : c.worker = .counted entry .retry) :
      Step c { c with worker := .raised entry, backingOff := c.backingOff + 1 }
  | sleep {entry : QueuedJob α} (h : c.worker = .raised entry) :
      Step c { c.putToSleep entry with worker := .taking }
  | look {w : Worker α} (h : c.look? = some w) : Step c { c with worker := w }

/-- A crew that some run reaches. -/
inductive Reachable : Crew α → Prop
  | start (backoff : Backoff) : Reachable (start backoff)
  | step {c c' : Crew α} (h : Reachable c) (hStep : Step c c') : Reachable c'

end Crew

/-! ### Whole operations are runs of actions -/

namespace Scheduler

variable {α σ : Type} {s : Scheduler α} {w : Worker α}

/-- A scheduler that a run of actions leads to, with the worker at `w` and no timer in the middle of
its action. -/
def Arises (s : Scheduler α) (w : Worker α) : Prop :=
  ∃ c : Crew α, c.Reachable ∧ c.scheduler = s ∧ c.worker = w ∧ c.returning = 0 ∧
    c.backingOff = s.sleeping.length

theorem arises_start (backoff : Backoff) : ({ backoff } : Scheduler α).Arises .taking :=
  ⟨_, .start backoff, rfl, rfl, rfl, rfl⟩

theorem Arises.submit (h : s.Arises w) (priority : Nat) (job : α) :
    (s.submit priority job).Arises w := by
  obtain ⟨c, hc, rfl, rfl, hReturning, hBackingOff⟩ := h
  have hCounted := hc.step (.count priority job)
  have hPushed := hCounted.step (.push rfl)
  exact ⟨_, hPushed, rfl, rfl, hReturning, hBackingOff⟩

theorem Arises.elapse (h : s.Arises w) (now : Time) : { s with now }.Arises w := by
  obtain ⟨c, hc, rfl, rfl, hReturning, hBackingOff⟩ := h
  exact ⟨_, hc.step (.elapse now), rfl, rfl, hReturning, hBackingOff⟩

/-- A timer puts its job back and then lowers the count. -/
theorem Arises.comeBack {before after : List (Time × QueuedJob α)} {e : Time × QueuedJob α}
    (h : s.Arises w) (hSleeping : s.sleeping = before ++ e :: after) :
    { s with queue := s.queue.requeue e.2, sleeping := before ++ after }.Arises w := by
  obtain ⟨c, hc, rfl, rfl, hReturning, hBackingOff⟩ := h
  have hBack := hc.step (.requeue hSleeping)
  have hLowered := hBack.step (.lowerBackingOff (n := 0) (by rw [hReturning]))
  refine ⟨_, hLowered, rfl, rfl, rfl, ?_⟩
  rw [hSleeping] at hBackingOff
  simp only [List.length_append, List.length_cons] at hBackingOff ⊢
  omega

/-- Sleepers come back one after the other; those in front of them stay asleep. -/
theorem Arises.comeBackAll (before after : List (Time × QueuedJob α)) (h : s.Arises w)
    (hSleeping : s.sleeping = before ++ after) (due : Time × QueuedJob α → Bool) :
    { s with
      queue := (after.filter due).foldl (fun q (e : Time × QueuedJob α) => q.requeue e.2) s.queue
      sleeping := before ++ after.filter (!due ·) }.Arises w := by
  induction after generalizing s before with
  | nil =>
    simp only [List.filter_nil, List.foldl_nil, ← hSleeping]
    exact h
  | cons e rest ih =>
    by_cases hDue : due e = true
    · have hRest := ih before (h.comeBack hSleeping) rfl
      simpa only [List.filter_cons, hDue, if_true, List.foldl_cons, Bool.not_true,
        Bool.false_eq_true, if_false] using hRest
    · have hRest := ih (before ++ [e]) h (by simpa using hSleeping)
      simpa only [List.filter_cons, hDue, Bool.false_eq_true, if_false, Bool.not_false, if_true,
        List.append_assoc, List.singleton_append] using hRest

theorem Arises.wake (h : s.Arises w) : s.wake.Arises w := by
  have hAll := h.comeBackAll [] s.sleeping rfl fun e => decide (e.1 ≤ s.now)
  have hLater : (fun e : Time × QueuedJob α => !decide (e.1 ≤ s.now)) =
      fun e => decide (s.now < e.1) := by
    funext e
    simp only [← Nat.not_le, decide_not]
  rwa [hLater] at hAll

theorem Arises.take {entry : QueuedJob α} {queue : JobQueue α} (h : s.Arises .taking)
    (hPop : s.queue.pop? = some (entry, queue)) : { s with queue }.Arises (.running entry) := by
  obtain ⟨c, hc, rfl, hWorker, hReturning, hBackingOff⟩ := h
  exact ⟨_, hc.step (.take hWorker hPop), rfl, rfl, hReturning, hBackingOff⟩

theorem Arises.submitFollowUp {entry : QueuedJob α} (h : s.Arises (.running entry))
    (priority : Nat) (job : α) : (s.submit priority job).Arises (.running entry) := by
  obtain ⟨c, hc, rfl, hWorker, hReturning, hBackingOff⟩ := h
  have hCounted := hc.step (.countFollowUp hWorker priority job)
  exact ⟨_, hCounted.step (.pushFollowUp rfl), rfl, rfl, hReturning, hBackingOff⟩

theorem Arises.submitFollowUps {entry : QueuedJob α} (h : s.Arises (.running entry))
    (jobs : List (Nat × α)) : (s.submitAll jobs).Arises (.running entry) := by
  induction jobs generalizing s with
  | nil => exact h
  | cons job rest ih => exact ih (h.submitFollowUp job.1 job.2)

/-- A run of a job can end in every way. -/
theorem exists_end (v : Verdict) : ∃ e : JobEnd, e.verdict = v := by
  cases v with
  | done => exact ⟨.done, rfl⟩
  | retry => exact ⟨.failed (.storage (.io .other)), rfl⟩
  | dropped => exact ⟨.crashed, rfl⟩

theorem Arises.settle {entry : QueuedJob α} (h : s.Arises (.running entry)) (v : Verdict) :
    (s.settle entry v).Arises .taking := by
  obtain ⟨c, hc, rfl, hWorker, hReturning, hBackingOff⟩ := h
  obtain ⟨e, rfl⟩ := exists_end v
  have hEnded := hc.step (.ends hWorker e)
  have hCounted := hEnded.step (.countResult rfl)
  cases hv : e.verdict with
  | done =>
    rw [hv] at hCounted
    exact ⟨_, hCounted.step (.finishDone rfl), rfl, rfl, hReturning, hBackingOff⟩
  | dropped =>
    rw [hv] at hCounted
    exact ⟨_, hCounted.step (.finishDropped rfl), rfl, rfl, hReturning, hBackingOff⟩
  | retry =>
    rw [hv] at hCounted
    have hRaised := hCounted.step (.raise rfl)
    refine ⟨_, hRaised.step (.sleep rfl), rfl, rfl, hReturning, ?_⟩
    simp only [Crew.putToSleep, Crew.countResult, Scheduler.settle, List.length_append,
      List.length_cons, List.length_nil, hBackingOff]

/-- A turn of the worker is a run of actions. -/
theorem Arises.turn {run : α → σ → JobRun α σ} {deadline : Time} {s' : Scheduler α}
    {state state' : σ} (h : s.Arises .taking)
    (hTurn : turn? run deadline s state = some (s', state')) : s'.Arises .taking := by
  simp only [turn?] at hTurn
  split at hTurn
  · next entry queue hPop =>
    split at hTurn
    · obtain ⟨rfl, rfl⟩ := Prod.mk.inj (Option.some.inj hTurn)
      exact ((h.take hPop).wake.submitFollowUps _).settle _
    · cases hTurn
  · split at hTurn
    · cases hTurn
    · split at hTurn
      · obtain ⟨rfl, rfl⟩ := Prod.mk.inj (Option.some.inj hTurn)
        exact (h.elapse _).wake
      · cases hTurn

theorem Arises.turns (h : s.Arises .taking) (run : α → σ → JobRun α σ) (deadline : Time)
    (limit : Nat) (state : σ) : (turns run deadline limit s state).1.Arises .taking := by
  have hTurn : ∀ s (state : σ) s' state', s.Arises .taking →
      turn? run deadline s state = some (s', state') → s'.Arises .taking :=
    fun _ _ _ _ h hTurn => h.turn hTurn
  exact @turns_keep _ _ run deadline s state (fun s _ => s.Arises .taking) hTurn limit h

/-- A drain is a run of actions. -/
theorem Arises.drain (h : s.Arises .taking) (run : α → σ → JobRun α σ) (span : Time) (state : σ) :
    (drain run span s state).1.Arises .taking := by
  have hTurns := h.turns run (s.now + span) (s.turnLimit span) state
  simp only [Scheduler.drain]
  split
  · exact hTurns
  · exact hTurns.elapse _

end Scheduler

end TorrentEngine
