import Mathlib.Data.Multiset.Range
import TorrentEngine.Proofs.Crew

/-!
No job is lost, however the actions of those who share a scheduler interleave. Every job that has
been pushed is held by the scheduler, in the worker's hand, or finished, and in one of these places
only; the counts agree with the places; a wait that returns, and a worker that stops, have nothing
left behind them.
-/

namespace TorrentEngine

namespace Scheduler

variable {α : Type} {s : Scheduler α}

/-- The numbers of the jobs that the scheduler holds. -/
def numbers (s : Scheduler α) : Multiset Nat := (s.held.map (·.sequence) : List Nat)

theorem numbers_eq_cons {t : Scheduler α} {entry : QueuedJob α}
    (h : s.held.Perm (entry :: t.held)) : s.numbers = entry.sequence ::ₘ t.numbers :=
  Multiset.coe_eq_coe.mpr (h.map _)

theorem numbers_push (s : Scheduler α) (priority : Nat) (job : α) :
    { s with queue := s.queue.push priority job }.numbers =
      s.queue.nextSequence ::ₘ s.numbers := by
  have hPerm : { s with queue := s.queue.push priority job }.held.Perm
      ({ priority, sequence := s.queue.nextSequence, attempts := 0, job } :: s.held) :=
    (JobQueue.place_perm _ _).append_right _
  have hNumbers := numbers_eq_cons hPerm
  exact hNumbers

theorem numbers_pop {entry : QueuedJob α} {queue : JobQueue α}
    (h : s.queue.pop? = some (entry, queue)) :
    s.numbers = entry.sequence ::ₘ { s with queue }.numbers :=
  numbers_eq_cons (takes_of_pop h).held_perm

/-- A sleeper that comes back is held as before. -/
theorem numbers_requeue {before after : List (Time × QueuedJob α)} {due : Time}
    {entry : QueuedJob α} (h : s.sleeping = before ++ (due, entry) :: after) :
    { s with queue := s.queue.requeue entry, sleeping := before ++ after }.numbers =
      s.numbers := by
  have hTaken := numbers_eq_cons (Takes.sleeping h).held_perm
  have hPut : { s with queue := s.queue.requeue entry, sleeping := before ++ after }.held.Perm
      (entry :: { s with sleeping := before ++ after }.held) :=
    (JobQueue.entries_requeue_perm _ _).append_right _
  rw [hTaken, numbers_eq_cons hPut]

theorem nextSequence_pop {entry : QueuedJob α} {queue : JobQueue α}
    (h : s.queue.pop? = some (entry, queue)) : queue.nextSequence = s.queue.nextSequence := by
  rw [JobQueue.pop?] at h
  split at h
  · cases h
  · obtain ⟨-, rfl⟩ := Prod.mk.inj (Option.some.inj h)
    rfl

theorem numbers_sleep (s : Scheduler α) (due : Time) (entry : QueuedJob α) :
    { s with sleeping := s.sleeping ++ [(due, entry)] }.numbers =
      entry.sequence ::ₘ s.numbers := by
  refine numbers_eq_cons ?_
  simp only [held, List.map_append, List.map_cons, List.map_nil, ← List.append_assoc]
  exact List.perm_append_singleton _ _

end Scheduler

namespace Worker

variable {α : Type}

/-- The number of the job that the worker has taken and not dealt with yet. -/
def numbers (w : Worker α) : Multiset Nat := (w.inHand.map (·.sequence) : List Nat)

/-- A worker with nothing in hand is in the middle of nothing. -/
theorem of_free {w : Worker α} (h : w.inHand = []) :
    w.numbers = 0 ∧ w.unpushed = 0 ∧ w.unslept = 0 ∧ ∀ v, w.midway v = 0 := by
  cases w <;> first | exact ⟨rfl, rfl, rfl, fun _ => rfl⟩ | cases h

/-- Whether the worker has seen that shutdown was asked for, and nothing to do since. -/
def isLeaving : Worker α → Bool
  | .leaving | .calm | .stopped => true
  | _ => false

end Worker

namespace Crew

variable {α : Type} {c c' : Crew α}

/-- The numbers of the jobs that have been pushed and have not finished. -/
def pending (c : Crew α) : Multiset Nat := c.worker.numbers + c.scheduler.numbers

/-- The next job gets this number. -/
def next (c : Crew α) : Nat := c.scheduler.queue.nextSequence

/-- Every job that was pushed is in one place, and the counts agree with the places. -/
structure Tally (c : Crew α) : Prop where
  places : c.pending + c.finished = Multiset.range c.next
  submitted : c.submitted = c.next + c.entering.card + c.worker.unpushed
  outstanding : c.scheduler.outstanding =
    c.pending.card + c.entering.card + c.worker.unpushed
  processed : c.scheduler.processed = c.done.length + c.worker.midway .done
  dropped : c.scheduler.dropped = c.dropped.length + c.worker.midway .dropped
  origins : c.origins.length = c.next

theorem tally_start (backoff : Backoff) : (start backoff : Crew α).Tally :=
  ⟨rfl, rfl, rfl, rfl, rfl, rfl⟩

/-- The worker goes on without touching a job or a count. -/
theorem Tally.move (h : c.Tally) {w : Worker α} (hHand : w.numbers = c.worker.numbers)
    (hUnpushed : w.unpushed = c.worker.unpushed)
    (hMidway : ∀ v ≠ .retry, w.midway v = c.worker.midway v) : { c with worker := w }.Tally := by
  have hPending : { c with worker := w }.pending = c.pending := by
    rw [pending, pending, hHand]
  refine ⟨?_, ?_, ?_, ?_, ?_, h.origins⟩
  · rw [hPending]
    exact h.places
  · rw [hUnpushed]
    exact h.submitted
  · rw [hPending, hUnpushed]
    exact h.outstanding
  · rw [hMidway .done nofun]
    exact h.processed
  · rw [hMidway .dropped nofun]
    exact h.dropped

/-- A worker that looks for what to do has no job in hand. -/
theorem free_of_look {w : Worker α} (h : c.look? = some w) :
    c.worker.inHand = [] ∧ w.inHand = [] := by
  rw [look?] at h
  cases hWorker : c.worker with
  | idle | leaving | calm | resting =>
    rw [hWorker] at h
    obtain rfl := Option.some.inj h
    exact ⟨rfl, by first | rfl | (split <;> rfl)⟩
  | _ =>
    rw [hWorker] at h
    cases h

theorem Tally.look (h : c.Tally) {w : Worker α} (hLook : c.look? = some w) :
    { c with worker := w }.Tally := by
  obtain ⟨hBefore, hAfter⟩ := free_of_look hLook
  obtain ⟨hHand, hUnpushed, -, hMidway⟩ := Worker.of_free hBefore
  obtain ⟨hHand', hUnpushed', -, hMidway'⟩ := Worker.of_free hAfter
  exact h.move (hHand'.trans hHand.symm) (hUnpushed'.trans hUnpushed.symm)
    fun v _ => (hMidway' v).trans (hMidway v).symm

theorem Tally.take (h : c.Tally) {entry : QueuedJob α} {queue : JobQueue α}
    (hWorker : c.worker = .taking) (hPop : c.scheduler.queue.pop? = some (entry, queue)) :
    { c with scheduler := { c.scheduler with queue }, worker := .running entry }.Tally := by
  have hPending : c.pending =
      (Worker.running entry).numbers + { c.scheduler with queue }.numbers := by
    rw [pending, hWorker, Scheduler.numbers_pop hPop]
    exact (Multiset.zero_add _).trans (Multiset.singleton_add _ _).symm
  have hNext : c.next = queue.nextSequence := (Scheduler.nextSequence_pop hPop).symm
  obtain ⟨hPlaces, hSubmitted, hOutstanding, hProcessed, hDropped, hOrigins⟩ := h
  rw [hWorker] at hSubmitted hOutstanding hProcessed hDropped
  rw [hPending] at hPlaces hOutstanding
  rw [hNext] at hPlaces hSubmitted hOrigins
  exact ⟨hPlaces, hSubmitted, hOutstanding, hProcessed, hDropped, hOrigins⟩

/-- A job is counted, by a submitter or by the job that runs. -/
theorem Tally.count (h : c.Tally) {entering : Multiset (Nat × α)} {w : Worker α}
    (hHand : w.numbers = c.worker.numbers) (hMidway : ∀ v ≠ .retry, w.midway v = c.worker.midway v)
    (hMore : entering.card + w.unpushed = c.entering.card + c.worker.unpushed + 1) :
    { c.count with entering, worker := w }.Tally := by
  obtain ⟨hPlaces, hSubmitted, hOutstanding, hProcessed, hDropped, hOrigins⟩ := h
  rw [pending, ← hHand] at hPlaces hOutstanding
  rw [← hMidway .done nofun] at hProcessed
  rw [← hMidway .dropped nofun] at hDropped
  refine ⟨hPlaces, ?_, ?_, hProcessed, hDropped, hOrigins⟩
  · show c.submitted + 1 = c.next + entering.card + w.unpushed
    omega
  · show c.scheduler.outstanding + 1 =
      (w.numbers + c.scheduler.numbers).card + entering.card + w.unpushed
    omega

/-- A job that was counted is pushed. -/
theorem Tally.push (h : c.Tally) {entering : Multiset (Nat × α)} {w : Worker α} (priority : Nat)
    (job : α) (origin : Option Nat) (hHand : w.numbers = c.worker.numbers)
    (hMidway : ∀ v ≠ .retry, w.midway v = c.worker.midway v)
    (hFewer : c.entering.card + c.worker.unpushed = entering.card + w.unpushed + 1) :
    { c.push priority job origin with entering, worker := w }.Tally := by
  have hPending : { c.push priority job origin with entering, worker := w }.pending =
      c.next ::ₘ c.pending := by
    rw [pending, pending, ← hHand, ← Multiset.add_cons]
    exact congrArg (w.numbers + ·) (Scheduler.numbers_push c.scheduler priority job)
  obtain ⟨hPlaces, hSubmitted, hOutstanding, hProcessed, hDropped, hOrigins⟩ := h
  rw [← hMidway .done nofun] at hProcessed
  rw [← hMidway .dropped nofun] at hDropped
  refine ⟨?_, ?_, ?_, hProcessed, hDropped, ?_⟩
  · rw [hPending, Multiset.cons_add]
    exact (congrArg _ hPlaces).trans (Multiset.range_succ c.next).symm
  · show c.submitted = c.next + 1 + entering.card + w.unpushed
    omega
  · rw [hPending, Multiset.card_cons]
    show c.scheduler.outstanding = c.pending.card + 1 + entering.card + w.unpushed
    omega
  · exact (List.length_append ..).trans (congrArg (· + 1) hOrigins)

theorem Tally.requeue (h : c.Tally) {before after : List (Time × QueuedJob α)} {due : Time}
    {entry : QueuedJob α} (hSleeping : c.scheduler.sleeping = before ++ (due, entry) :: after) :
    { c with
      scheduler := { c.scheduler with
        queue := c.scheduler.queue.requeue entry, sleeping := before ++ after }
      returning := c.returning + 1 }.Tally := by
  obtain ⟨hPlaces, hSubmitted, hOutstanding, hProcessed, hDropped, hOrigins⟩ := h
  rw [pending, ← Scheduler.numbers_requeue hSleeping] at hPlaces hOutstanding
  exact ⟨hPlaces, hSubmitted, hOutstanding, hProcessed, hDropped, hOrigins⟩

theorem Tally.countResult (h : c.Tally) {entry : QueuedJob α} {v : Verdict}
    (hWorker : c.worker = .ended entry v) :
    { c.countResult v with worker := .counted entry v }.Tally := by
  obtain ⟨hPlaces, hSubmitted, hOutstanding, hProcessed, hDropped, hOrigins⟩ := h
  rw [hWorker] at hSubmitted hOutstanding hProcessed hDropped
  rw [pending, hWorker] at hPlaces hOutstanding
  cases v with
  | done =>
    exact ⟨hPlaces, hSubmitted, hOutstanding, congrArg (· + 1) hProcessed, hDropped, hOrigins⟩
  | dropped =>
    exact ⟨hPlaces, hSubmitted, hOutstanding, hProcessed, congrArg (· + 1) hDropped, hOrigins⟩
  | retry => exact ⟨hPlaces, hSubmitted, hOutstanding, hProcessed, hDropped, hOrigins⟩

/-- The job in hand is not in hand any more, and no longer outstanding. -/
theorem Tally.finish (h : c.Tally) {entry : QueuedJob α} {v : Verdict} {done dropped : List Nat}
    (hWorker : c.worker = .counted entry v)
    (hFinished : ((done ++ dropped : List Nat) : Multiset Nat) = entry.sequence ::ₘ c.finished)
    (hDone : done.length = c.done.length + c.worker.midway .done)
    (hDropped : dropped.length = c.dropped.length + c.worker.midway .dropped) :
    { c.lower with worker := .taking, done, dropped }.Tally := by
  have hPending : c.pending = entry.sequence ::ₘ c.scheduler.numbers := by
    rw [pending, hWorker]
    exact Multiset.singleton_add _ _
  refine ⟨?_, ?_, ?_, h.processed.trans hDone.symm, h.dropped.trans hDropped.symm, h.origins⟩
  · have hPlaces := h.places
    rw [hPending, Multiset.cons_add, ← Multiset.add_cons, ← hFinished] at hPlaces
    rw [pending, show (Worker.taking : Worker α).numbers = 0 from rfl, Multiset.zero_add]
    exact hPlaces
  · have hSubmitted := h.submitted
    rw [hWorker] at hSubmitted
    exact hSubmitted
  · have hOutstanding := h.outstanding
    rw [hPending, hWorker, Multiset.card_cons] at hOutstanding
    rw [pending, show (Worker.taking : Worker α).numbers = 0 from rfl, Multiset.zero_add]
    show c.scheduler.outstanding - 1 = c.scheduler.numbers.card + c.entering.card + 0
    simp only [Worker.unpushed] at hOutstanding
    omega

theorem Tally.sleep (h : c.Tally) {entry : QueuedJob α}
    (hWorker : c.worker = .raised entry) :
    { c.putToSleep entry with worker := .taking }.Tally := by
  have hPending : c.pending = { c.putToSleep entry with worker := .taking }.pending := by
    have hAsleep := Scheduler.numbers_sleep c.scheduler
      (c.scheduler.backoff.dueAt c.scheduler.now (entry.attempts + 1))
      { entry with attempts := entry.attempts + 1 }
    rw [pending, hWorker, pending]
    exact (Multiset.singleton_add _ _).trans (hAsleep.symm.trans (Multiset.zero_add _).symm)
  obtain ⟨hPlaces, hSubmitted, hOutstanding, hProcessed, hDropped, hOrigins⟩ := h
  rw [hWorker] at hSubmitted hOutstanding hProcessed hDropped
  rw [hPending] at hPlaces hOutstanding
  exact ⟨hPlaces, hSubmitted, hOutstanding, hProcessed, hDropped, hOrigins⟩

theorem finished_done (c : Crew α) (n : Nat) :
    ((c.done ++ [n] ++ c.dropped : List Nat) : Multiset Nat) = n ::ₘ c.finished := by
  rw [List.append_assoc]
  exact Multiset.coe_eq_coe.mpr List.perm_middle

theorem finished_dropped (c : Crew α) (n : Nat) :
    ((c.done ++ (c.dropped ++ [n]) : List Nat) : Multiset Nat) = n ::ₘ c.finished := by
  rw [← List.append_assoc]
  exact Multiset.coe_eq_coe.mpr (List.perm_append_singleton _ _)

theorem Tally.step (h : c.Tally) (hStep : Step c c') : c'.Tally := by
  cases hStep with
  | count priority job =>
    refine h.count (w := c.worker) rfl (fun _ _ => rfl) ?_
    rw [Multiset.card_cons, Nat.add_right_comm]
  | push hEntering =>
    refine h.push (w := c.worker) _ _ none rfl (fun _ _ => rfl) ?_
    rw [hEntering, Multiset.card_cons, Nat.add_right_comm]
  | shutdown => exact ⟨h.places, h.submitted, h.outstanding, h.processed, h.dropped, h.origins⟩
  | waitReturns => exact ⟨h.places, h.submitted, h.outstanding, h.processed, h.dropped, h.origins⟩
  | elapse now => exact ⟨h.places, h.submitted, h.outstanding, h.processed, h.dropped, h.origins⟩
  | requeue hSleeping => exact h.requeue hSleeping
  | lowerBackingOff =>
    exact ⟨h.places, h.submitted, h.outstanding, h.processed, h.dropped, h.origins⟩
  | take hWorker hPop => exact h.take hWorker hPop
  | findNone hWorker => apply h.move <;> simp only [hWorker] <;> intros <;> rfl
  | countFollowUp hWorker priority job => apply h.count <;> simp only [hWorker] <;> intros <;> rfl
  | pushFollowUp hWorker => apply h.push <;> simp only [hWorker] <;> intros <;> rfl
  | ends hWorker e => apply h.move <;> simp only [hWorker] <;> intros <;> rfl
  | countResult hWorker => exact h.countResult hWorker
  | finishDone hWorker =>
    refine h.finish hWorker (c.finished_done _) ?_ ?_
    · rw [hWorker]
      exact List.length_append ..
    · rw [hWorker]
      rfl
  | finishDropped hWorker =>
    refine h.finish hWorker (c.finished_dropped _) ?_ ?_
    · rw [hWorker]
      rfl
    · rw [hWorker]
      exact List.length_append ..
  | @raise entry hWorker =>
    have hMoved : { c with worker := .raised entry }.Tally := by
      apply h.move
      · rw [hWorker]
        rfl
      · rw [hWorker]
        rfl
      · rw [hWorker]
        intro v hv
        exact (if_neg hv.symm).symm
    exact ⟨hMoved.places, hMoved.submitted, hMoved.outstanding, hMoved.processed, hMoved.dropped,
      hMoved.origins⟩
  | sleep hWorker => exact h.sleep hWorker
  | look hLook => exact h.look hLook

theorem Reachable.tally (h : c.Reachable) : c.Tally := by
  induction h with
  | start backoff => exact tally_start backoff
  | step _ hStep ih => exact ih.step hStep

/-! ### The exit -/

/-- A job that is to be seen through before the worker stops: one pushed before shutdown was first
asked for, or submitted by such a job. -/
inductive Due (c : Crew α) : Nat → Prop
  | early {n stop : Nat} (h : c.stopAt = some stop) (hEarly : n < stop) : Due c n
  | followUp {n parent : Nat} (h : c.origins[n]? = some (some parent)) (hParent : Due c parent) :
      Due c n

/-- What others do does not make more jobs due once shutdown has been asked for. -/
theorem Due.mono (hStop : c'.stopAt = c.stopAt)
    (hOrigins : ∀ n parent : Nat, c'.origins[n]? = some (some parent) →
      c.origins[n]? = some (some parent)) {n : Nat} (h : c'.Due n) : c.Due n := by
  induction h with
  | early h hEarly => exact .early (hStop ▸ h) hEarly
  | followUp h _ ih => exact .followUp (hOrigins _ _ h) ih

/-- Jobs are counted as backing off from before a timer has them until after it has put them back.
-/
def Slept (c : Crew α) : Prop :=
  c.backingOff = c.scheduler.sleeping.length + c.returning + c.worker.unslept

theorem Slept.step (h : c.Slept) (hStep : Step c c') : c'.Slept := by
  rw [Slept] at h ⊢
  cases hStep with
  | requeue hSleeping =>
    rw [hSleeping] at h
    simp only [List.length_append, List.length_cons] at h ⊢
    omega
  | lowerBackingOff hReturning =>
    simp only [hReturning] at h ⊢
    omega
  | sleep hWorker =>
    rw [hWorker] at h
    simp only [putToSleep, List.length_append, List.length_singleton, Worker.unslept] at h ⊢
    omega
  | raise hWorker =>
    rw [hWorker] at h
    exact congrArg (· + 1) h
  | @countResult entry v hWorker =>
    rw [hWorker] at h
    cases v <;> exact h
  | look hLook =>
    obtain ⟨hBefore, hAfter⟩ := free_of_look hLook
    rw [(Worker.of_free hBefore).2.2.1] at h
    rw [(Worker.of_free hAfter).2.2.1]
    exact h
  | count | push | shutdown | waitReturns | elapse => exact h
  | take hWorker | findNone hWorker | countFollowUp hWorker | pushFollowUp hWorker | ends hWorker
  | finishDone hWorker | finishDropped hWorker =>
    rw [hWorker] at h
    exact h

theorem Reachable.slept (h : c.Reachable) : c.Slept := by
  induction h with
  | start backoff => rfl
  | step _ hStep ih => exact ih.step hStep

/-- What a worker on its way out can rely on. Only the worker puts jobs to sleep, so that no job
sleeps once the count of those backing off was seen to be zero, until the worker goes back to work.
-/
structure Closing (c : Crew α) : Prop where
  stopAt_le : ∀ stop, c.stopAt = some stop → stop ≤ c.next
  asked : c.worker.isLeaving = true → c.stopAt.isSome = true
  quiet : c.worker = .calm → c.scheduler.sleeping = []
  through : c.worker = .stopped → ∀ n, c.Due n → n ∈ c.finished

theorem closing_start (backoff : Backoff) : (start backoff : Crew α).Closing := by
  refine ⟨?_, ?_, ?_, ?_⟩ <;> intros <;> contradiction

/-- A worker that is at work has nothing to rely on. -/
theorem Closing.of_working (hStop : ∀ stop, c.stopAt = some stop → stop ≤ c.next)
    (hWorking : c.worker.isLeaving = false) : c.Closing := by
  refine ⟨hStop, ?_, ?_, ?_⟩
  · intro h
    rw [hWorking] at h
    cases h
  · intro h
    rw [h] at hWorking
    cases hWorking
  · intro h
    rw [h] at hWorking
    cases hWorking

/-- Everything that was pushed has finished when nothing is pending. -/
theorem Tally.finished_of_none (h : c.Tally) (hNone : c.pending = 0) {n : Nat} (hn : n < c.next) :
    n ∈ c.finished := by
  have hPlaces := h.places
  rw [hNone, Multiset.zero_add] at hPlaces
  rw [← Multiset.mem_coe, hPlaces]
  exact Multiset.mem_range.mpr hn

/-- A job that is due has been pushed. -/
theorem Due.lt_next (h : c.Due n) (hTally : c.Tally) (hClosing : c.Closing) : n < c.next := by
  cases h with
  | early h hEarly => exact Nat.lt_of_lt_of_le hEarly (hClosing.stopAt_le _ h)
  | followUp h =>
    rw [← hTally.origins]
    exact (List.getElem?_eq_some_iff.mp h).1

/-- The worker stops where nothing that was pushed is pending. -/
theorem Closing.look (h : c.Closing) (hTally : c.Tally) (hSlept : c.Slept) {w : Worker α}
    (hLook : c.look? = some w) : { c with worker := w }.Closing := by
  rw [look?] at hLook
  cases hWorker : c.worker with
  | idle =>
    rw [hWorker] at hLook
    obtain rfl := Option.some.inj hLook
    split
    · next hAsked =>
      exact ⟨h.stopAt_le, fun _ => hAsked, fun hCalm => (by cases hCalm),
        fun hStopped => (by cases hStopped)⟩
    · exact .of_working h.stopAt_le rfl
  | leaving =>
    have hAsked := h.asked (by rw [hWorker]; rfl)
    rw [hWorker] at hLook
    obtain rfl := Option.some.inj hLook
    split
    · next hNone =>
      have hAsleep : c.scheduler.sleeping.length = 0 := by
        rw [Slept, hNone] at hSlept
        omega
      exact ⟨h.stopAt_le, fun _ => hAsked, fun _ => List.length_eq_zero_iff.mp hAsleep,
        fun hStopped => (by cases hStopped)⟩
    · exact .of_working h.stopAt_le rfl
  | calm =>
    have hAsked := h.asked (by rw [hWorker]; rfl)
    rw [hWorker] at hLook
    obtain rfl := Option.some.inj hLook
    split
    · next hEmpty =>
      have hNone : c.pending = 0 := by
        rw [pending, hWorker, Scheduler.numbers, Scheduler.held, hEmpty, h.quiet hWorker]
        rfl
      refine ⟨h.stopAt_le, fun _ => hAsked, fun hCalm => (by cases hCalm),
        fun _ n hDue => ?_⟩
      have hSame : c.Due n :=
        @Due.mono _ c { c with worker := .stopped } rfl (fun _ _ => id) n hDue
      exact hTally.finished_of_none hNone (hSame.lt_next hTally h)
    · exact .of_working h.stopAt_le rfl
  | resting =>
    rw [hWorker] at hLook
    obtain rfl := Option.some.inj hLook
    exact .of_working h.stopAt_le rfl
  | _ =>
    rw [hWorker] at hLook
    cases hLook

/-- What others than the worker do leaves a worker on its way out what it relied on. -/
theorem Closing.aside (h : c.Closing) (hWorker : c'.worker = c.worker)
    (hNext : c.next ≤ c'.next) (hStop : c'.stopAt = c.stopAt)
    (hSleeping : c.scheduler.sleeping = [] → c'.scheduler.sleeping = [])
    (hOrigins : ∀ n parent : Nat, c'.origins[n]? = some (some parent) →
      c.origins[n]? = some (some parent)) (hFinished : c'.finished = c.finished) :
    c'.Closing := by
  refine ⟨?_, ?_, ?_, ?_⟩
  · intro stop hAt
    exact Nat.le_trans (h.stopAt_le stop (hStop ▸ hAt)) hNext
  · rw [hWorker, hStop]
    exact h.asked
  · intro hCalm
    exact hSleeping (h.quiet (hWorker ▸ hCalm))
  · intro hStopped n hDue
    rw [hFinished]
    exact h.through (hWorker ▸ hStopped) n (hDue.mono hStop hOrigins)

theorem Closing.shutdown (h : c.Closing) :
    { c with stopAt := c.stopAt.or (some c.scheduler.queue.nextSequence) }.Closing := by
  cases hStop : c.stopAt with
  | some stop =>
    exact h.aside rfl (Nat.le_refl _) (by rw [hStop]; rfl) id (fun _ _ => id) rfl
  | none =>
    refine .of_working ?_ ?_
    · rintro stop ⟨⟩
      exact Nat.le_refl _
    · rw [← Bool.not_eq_true]
      intro hLeaving
      have hAsked := h.asked hLeaving
      rw [hStop] at hAsked
      cases hAsked

theorem Closing.step (h : c.Closing) (hTally : c.Tally) (hSlept : c.Slept) (hStep : Step c c') :
    c'.Closing := by
  cases hStep with
  | count | waitReturns | elapse | lowerBackingOff =>
    exact h.aside rfl (Nat.le_refl _) rfl id (fun _ _ => id) rfl
  | push hEntering =>
    refine h.aside rfl (Nat.le_succ _) rfl id (fun n parent hn => ?_) rfl
    simp only [Crew.push, List.getElem?_append] at hn
    split at hn
    · exact hn
    · simp [List.getElem?_singleton] at hn
  | shutdown => exact h.shutdown
  | requeue hSleeping =>
    refine h.aside rfl (Nat.le_refl _) rfl (fun hNone => ?_) (fun _ _ => id) rfl
    rw [hSleeping] at hNone
    simp at hNone
  | take hWorker hPop =>
    refine .of_working ?_ rfl
    rw [next, Scheduler.nextSequence_pop hPop]
    exact h.stopAt_le
  | pushFollowUp hWorker =>
    exact .of_working (fun stop hAt => Nat.le_succ_of_le (h.stopAt_le stop hAt)) rfl
  | @countResult entry v hWorker => cases v <;> exact .of_working h.stopAt_le rfl
  | look hLook => exact h.look hTally hSlept hLook
  | _ => exact .of_working h.stopAt_le rfl

theorem Reachable.closing (h : c.Reachable) : c.Closing := by
  induction h with
  | start backoff => exact closing_start backoff
  | step h hStep ih => exact ih.step h.tally h.slept hStep

/-! ### Waits -/

/-- A job that has finished stays finished. -/
theorem Step.finished_subset (h : Step c c') : c.finished ⊆ c'.finished := by
  cases h with
  | finishDone hWorker =>
    exact List.append_subset.mpr ⟨List.subset_append_of_subset_left _ (List.subset_append_left ..),
      List.subset_append_right ..⟩
  | finishDropped hWorker =>
    exact List.append_subset.mpr ⟨List.subset_append_left ..,
      List.subset_append_of_subset_right _ (List.subset_append_left ..)⟩
  | _ => exact List.Subset.refl _

/-- Where nothing is outstanding, everything that was submitted has been pushed and has finished. -/
theorem Tally.finished_of_idle (h : c.Tally) (hIdle : c.scheduler.isIdle = true) :
    c.pending = 0 ∧ c.entering = 0 ∧ c.submitted = c.next ∧ ∀ n < c.submitted, n ∈ c.finished := by
  have hNone : c.scheduler.outstanding = 0 := beq_iff_eq.mp hIdle
  have hOutstanding := h.outstanding
  have hPending : c.pending = 0 := Multiset.card_eq_zero.mp (by omega)
  have hEntering : c.entering = 0 := Multiset.card_eq_zero.mp (by omega)
  have hSubmitted : c.submitted = c.next := by
    have := h.submitted
    omega
  refine ⟨hPending, hEntering, hSubmitted, fun n hn => ?_⟩
  exact h.finished_of_none hPending (hSubmitted ▸ hn)

/-- When a wait returned, every job submitted by then had finished. -/
theorem Reachable.waited (h : c.Reachable) : ∀ n ∈ c.returns, ∀ m < n, m ∈ c.finished := by
  induction h with
  | start backoff => exact nofun
  | @step c c' h hStep ih =>
    intro n hn m hm
    have hReturned : n ∈ c.returns ∨ n = c.submitted ∧ c.scheduler.isIdle = true := by
      cases hStep with
      | waitReturns hIdle =>
        rcases List.mem_append.mp hn with hBefore | hNow
        · exact .inl hBefore
        · exact .inr ⟨List.mem_singleton.mp hNow, hIdle⟩
      | _ => exact .inl hn
    apply hStep.finished_subset
    rcases hReturned with hBefore | ⟨rfl, hIdle⟩
    · exact ih n hBefore m hm
    · exact (h.tally.finished_of_idle hIdle).2.2.2 m hm

/-! ### Nothing is lost -/

/-- As many jobs are outstanding as were submitted and have not finished. -/
theorem Tally.outstanding_add_finished (h : c.Tally) :
    c.scheduler.outstanding + c.finished.length = c.submitted := by
  have hPlaces := congrArg Multiset.card h.places
  rw [Multiset.card_add, Multiset.coe_card, Multiset.card_range] at hPlaces
  rw [h.outstanding, h.submitted]
  omega

theorem Tally.nodup (h : c.Tally) : (c.pending + c.finished).Nodup := by
  rw [h.places]
  exact Multiset.nodup_range _

/-- Whatever the actions and outcomes were so far: a job that was pushed is pending or has finished,
and only once; as many jobs are counted as outstanding as were submitted and have not finished; but
for the result of a job that is just finishing, every job submitted is counted as processed, as
dropped or as outstanding; a wait returns where everything submitted so far has finished; and where
the worker has stopped, the jobs pushed before shutdown was asked for, and all that were submitted
by such jobs, have been processed or dropped. -/
theorem Reachable.nothing_lost (h : c.Reachable) :
    c.pending + c.finished = Multiset.range c.next ∧ c.finished.Nodup ∧
      c.scheduler.outstanding + c.finished.length = c.submitted ∧
      c.scheduler.outstanding = c.pending.card + c.entering.card + c.worker.unpushed ∧
      c.scheduler.processed + c.scheduler.dropped + c.scheduler.outstanding =
        c.submitted + (c.worker.midway .done + c.worker.midway .dropped) ∧
      (c.scheduler.isIdle = true → c.pending = 0 ∧ c.entering = 0 ∧ c.submitted = c.next ∧
        ∀ n < c.submitted, n ∈ c.finished) ∧
      (∀ n ∈ c.returns, ∀ m < n, m ∈ c.finished) ∧
      (c.worker = .stopped → ∀ n, c.Due n → n ∉ c.pending ∧ (n ∈ c.done ∨ n ∈ c.dropped)) := by
  have hTally := h.tally
  have hFinished := hTally.outstanding_add_finished
  have hNodup := hTally.nodup
  refine ⟨hTally.places, ?_, hFinished, hTally.outstanding, ?_, hTally.finished_of_idle, h.waited,
    fun hStopped n hDue => ?_⟩
  · exact Multiset.coe_nodup.mp (Multiset.nodup_add.mp hNodup).2.1
  · rw [finished, List.length_append] at hFinished
    have hProcessed := hTally.processed
    have hDropped := hTally.dropped
    omega
  · have hThrough := h.closing.through hStopped n hDue
    refine ⟨fun hPending => ?_, List.mem_append.mp hThrough⟩
    exact Multiset.disjoint_left.mp (Multiset.nodup_add.mp hNodup).2.2 hPending hThrough

/-- A crew whose worker has stopped: a job failed in passing after it had submitted another one,
which crashed; shutdown was asked for while the first one was queued, and a wait returned at the
end. -/
def seenThrough : Crew Nat where
  scheduler := { queue := { nextSequence := 2 }, processed := 1, retried := 1, dropped := 1 }
  worker := .stopped
  stopAt := some 1
  submitted := 2
  origins := [none, some 0]
  done := [0]
  dropped := [1]
  returns := [2]

theorem seenThrough_reachable : seenThrough.Reachable := by
  have hQueued := ((Reachable.start .standard).step (.count 10 7)).step
    (@Step.push _ _ 10 7 0 rfl)
  have hHanding := ((hQueued.step .shutdown).step (.take rfl rfl)).step (.countFollowUp rfl 3 8)
  have hFailed := (hHanding.step (.pushFollowUp rfl)).step
    (.ends rfl (.failed (.storage (.io .other))))
  have hAsleep := ((hFailed.step (.countResult rfl)).step (.raise rfl)).step (.sleep rfl)
  have hCrashed := (hAsleep.step (.take rfl rfl)).step (.ends rfl .crashed)
  have hDropped := (hCrashed.step (.countResult rfl)).step (.finishDropped rfl)
  have hResting := ((hDropped.step (.findNone rfl rfl)).step (.look rfl)).step (.look rfl)
  have hBack :=
    (hResting.step (.requeue (List.nil_append _).symm)).step (.lowerBackingOff (n := 0) rfl)
  have hAgain := ((hBack.step (.look rfl)).step (.take rfl rfl)).step (.ends rfl .done)
  have hDone := (hAgain.step (.countResult rfl)).step (.finishDone rfl)
  have hIdle := (hDone.step (.waitReturns rfl)).step (.findNone rfl rfl)
  exact ((hIdle.step (.look rfl)).step (.look rfl)).step (.look rfl)

theorem nothing_lost_seenThrough :
    seenThrough.Reachable ∧ seenThrough.scheduler.outstanding + seenThrough.finished.length = 2 ∧
      seenThrough.Due 0 ∧ seenThrough.Due 1 ∧
      ∀ n, seenThrough.Due n → n ∈ seenThrough.done ∨ n ∈ seenThrough.dropped := by
  have hFirst : seenThrough.Due 0 := .early rfl (by decide)
  have hSecond : seenThrough.Due 1 := .followUp rfl hFirst
  obtain ⟨-, -, hCounted, -, -, -, -, hStopped⟩ :=
    Reachable.nothing_lost seenThrough_reachable
  exact ⟨seenThrough_reachable, hCounted, hFirst, hSecond, fun n hDue => (hStopped rfl n hDue).2⟩

end Crew

/-- A scheduler with which only its callers and whole turns of the worker had to do has processed or
dropped every job that was ever pushed, once it is idle. -/
theorem Scheduler.Arises.finished_of_idle {α : Type} {s : Scheduler α} (h : s.Arises .taking)
    (hIdle : s.isIdle = true) :
    s.held = [] ∧ s.processed + s.dropped = s.queue.nextSequence := by
  obtain ⟨c, hc, rfl, hWorker, -⟩ := h
  have hTally := hc.tally
  obtain ⟨hNone, -, hSubmitted, -⟩ := hTally.finished_of_idle hIdle
  rw [Crew.pending, hWorker] at hNone
  have hHeld : (c.scheduler.held.map (·.sequence) : Multiset Nat) = 0 :=
    (Multiset.zero_add _).symm.trans hNone
  refine ⟨List.map_eq_nil_iff.mp (Multiset.coe_eq_zero _ |>.mp hHeld), ?_⟩
  have hFinished := hTally.outstanding_add_finished
  rw [show c.scheduler.outstanding = 0 from beq_iff_eq.mp hIdle, Nat.zero_add, Crew.finished,
    List.length_append] at hFinished
  have hProcessed := hTally.processed
  have hDropped := hTally.dropped
  rw [hWorker] at hProcessed hDropped
  rw [hProcessed, hDropped]
  exact hFinished.trans hSubmitted

end TorrentEngine
