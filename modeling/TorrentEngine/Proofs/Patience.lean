import Mathlib.Algebra.BigOperators.Group.Multiset.Basic
import Mathlib.Algebra.GroupWithZero.Nat
import Mathlib.Algebra.Order.BigOperators.Group.Multiset
import Mathlib.Algebra.Order.Group.Nat
import TorrentEngine.Proofs.Worker

/-!
Waiting long enough. Jobs that leave less work than they were when they finish, and that fail in
passing only so many times together, are all done in the end: the worker is through with them if it
may work for longer than that many of the longest waits.
-/

namespace TorrentEngine

/-- A wait ends within the longest wait and one grain. -/
theorem Backoff.dueAt_le (b : Backoff) (now : Time) (attempts : Nat) :
    b.dueAt now attempts ≤ now + (b.limit + grain) :=
  calc b.dueAt now attempts
    _ ≤ now + b.delay attempts + (grain - 1) := Nat.div_mul_le_self ..
    _ ≤ now + b.limit + grain :=
      Nat.add_le_add (Nat.add_le_add_left (Nat.min_le_right ..) now) (Nat.sub_le ..)
    _ = now + (b.limit + grain) := Nat.add_assoc ..

/-- An attempt is made within each of the longest waits. -/
theorem Backoff.le_attemptLimit (b : Backoff) {n : Nat} {span : Time}
    (h : n * (b.limit + grain) ≤ span) : n + 2 ≤ b.attemptLimit span := by
  have hWait : max 1 (b.delay 1) ≤ b.limit + grain :=
    Nat.max_le.mpr ⟨Nat.le_add_left_of_le (by decide), Nat.le_add_right_of_le (Nat.min_le_right ..)⟩
  have hPos : 0 < max 1 (b.delay 1) := Nat.lt_of_lt_of_le Nat.one_pos (Nat.le_max_left ..)
  refine Nat.add_le_add_right ((Nat.le_div_iff_mul_le hPos).mpr ?_) 2
  exact (Nat.mul_le_mul_left n hWait).trans h

namespace Scheduler

variable {α σ : Type} {run : α → σ → JobRun α σ} {deadline : Time} {s : Scheduler α} {state : σ}
  {inv : Multiset α → Nat → σ → Prop} {work : α → Nat} {n : Nat}

/-- Runs that finish their jobs, with less work submitted than the job was, or fail in passing.
`inv` tells with which jobs outstanding a state may come up, and how many runs fail at most from
then on. -/
def Patient (run : α → σ → JobRun α σ) (work : α → Nat)
    (inv : Multiset α → Nat → σ → Prop) : Prop :=
  ∀ job rest n state, inv (job ::ₘ rest) n state →
    (run job state).verdict = .done ∧
        ((run job state).submitted.map fun e => work e.2).sum < work job ∧
        (∃ m ≤ n,
          inv (((run job state).submitted.map (·.2) : List α) + rest) m (run job state).after) ∨
      (run job state).verdict = .retry ∧ (run job state).submitted = [] ∧
        ∃ m < n, inv (job ::ₘ rest) m (run job state).after

/-- The jobs held are counted, and after `n` more of the longest waits it is not too late for any of
them. -/
structure Timely (s : Scheduler α) (deadline : Time) (n : Nat) : Prop where
  honest : s.Honest
  now_lt : s.now + n * (s.backoff.limit + Backoff.grain) < deadline
  due_lt : ∀ e ∈ s.sleeping, e.1 + n * (s.backoff.limit + Backoff.grain) < deadline

/-- The work of the jobs held, with a turn for each that is to come back, now or after a failure. -/
def load (s : Scheduler α) (work : α → Nat) (n : Nat) : Nat :=
  (s.bag.map work).sum + s.sleeping.length + 2 * n

/-- A turn that attempts the first job of the queue. -/
theorem turn?_of_entry (run : α → σ → JobRun α σ) (state : σ) {entry : QueuedJob α}
    {rest : List (QueuedJob α)} (hNow : s.now < deadline)
    (hEntries : s.queue.entries = entry :: rest) :
    ∃ others : Scheduler α, s.bag = entry.job ::ₘ others.bag ∧ others.sleeping ⊆ s.sleeping ∧
      others.sleeping.length ≤ s.sleeping.length ∧ others.now = s.now ∧
      others.backoff = s.backoff ∧
      turn? run deadline s state =
        some ((others.submitAll (run entry.job state).submitted).settle entry
          (run entry.job state).verdict, (run entry.job state).after) := by
  have hPop : s.queue.pop? = some (entry, { s.queue with entries := rest }) := by
    simp only [JobQueue.pop?, hEntries]
  refine ⟨{ s with queue := { s.queue with entries := rest } }.wake, ?_, ?_, ?_, rfl, rfl, ?_⟩
  · rw [bag_wake]
    exact (takes_of_pop hPop).bag
  · exact fun e he => (List.mem_filter.mp he).1
  · exact List.length_filter_le ..
  · simp only [turn?, hPop, if_pos hNow]

/-- A turn that ends the sleep of a job, where none is left in the queue. -/
theorem turn?_of_sleepers (run : α → σ → JobRun α σ) (state : σ)
    (hEntries : s.queue.entries = []) (hSleepers : s.sleeping ≠ [])
    (hDue : ∀ e ∈ s.sleeping, e.1 ≤ deadline) :
    ∃ e ∈ s.sleeping,
      turn? run deadline s state = some ({ s with now := max s.now e.1 }.wake, state) := by
  have hPop : s.queue.pop? = none := by simp only [JobQueue.pop?, hEntries]
  cases hNext : s.nextDue? with
  | none =>
    rw [nextDue?, List.min?_eq_none_iff, List.map_eq_nil_iff] at hNext
    exact absurd hNext hSleepers
  | some due =>
    obtain ⟨e, he, rfl⟩ := List.mem_map.mp (List.min?_mem hNext)
    refine ⟨e, he, ?_⟩
    simp only [turn?, hPop, hNext, if_pos (hDue e he)]

/-- It is not too late either after an attempt that failed, or when a sleep ends. -/
theorem Timely.of_sleepers {s' : Scheduler α} {m : Nat} (h : s.Timely deadline n)
    (hHonest : s'.Honest) (hBackoff : s'.backoff = s.backoff) (hNow : s'.now = s.now) (hm : m ≤ n)
    (hSleepers : ∀ e ∈ s'.sleeping, e ∈ s.sleeping ∨
      m < n ∧ e.1 ≤ s.now + (s.backoff.limit + Backoff.grain)) : s'.Timely deadline m := by
  have hLess := Nat.mul_le_mul_right (s.backoff.limit + Backoff.grain) hm
  refine ⟨hHonest, ?_, fun e he => ?_⟩
  · rw [hBackoff, hNow]
    exact (Nat.add_le_add_left hLess s.now).trans_lt h.now_lt
  · rw [hBackoff]
    rcases hSleepers e he with hOld | ⟨hFailed, hDue⟩
    · exact (Nat.add_le_add_left hLess e.1).trans_lt (h.due_lt e hOld)
    · have hWaits := Nat.mul_le_mul_right (s.backoff.limit + Backoff.grain) hFailed
      rw [Nat.succ_mul, Nat.add_comm] at hWaits
      refine Nat.lt_of_le_of_lt ?_ h.now_lt
      calc e.1 + m * (s.backoff.limit + Backoff.grain)
        _ ≤ s.now + (s.backoff.limit + Backoff.grain) + m * (s.backoff.limit + Backoff.grain) :=
          Nat.add_le_add_right hDue _
        _ ≤ s.now + n * (s.backoff.limit + Backoff.grain) := by
          rw [Nat.add_assoc]
          exact Nat.add_le_add_left hWaits s.now

theorem sum_work_append (work : α → Nat) (jobs : List (Nat × α)) (bag : Multiset α) :
    (((jobs.map (·.2) : List α) + bag).map work).sum =
      (jobs.map fun e => work e.2).sum + (bag.map work).sum := by
  rw [Multiset.map_add, Multiset.sum_add, Multiset.map_coe, List.map_map, Multiset.sum_coe]
  rfl

/-- Where all jobs held sleep, one of them is roused in time. -/
theorem Timely.rouse (h : s.Timely deadline n) (hEntries : s.queue.entries = [])
    (hBusy : s.bag ≠ 0) (run : α → σ → JobRun α σ) (work : α → Nat) (state : σ) :
    ∃ s', turn? run deadline s state = some (s', state) ∧ s'.Timely deadline n ∧
      s'.bag = s.bag ∧ s'.load work n < s.load work n := by
  have hSleepers : s.sleeping ≠ [] := by
    intro hNone
    rw [bag, held, hEntries, hNone] at hBusy
    exact hBusy rfl
  have hDue (e : Time × QueuedJob α) (he : e ∈ s.sleeping) : e.1 < deadline :=
    (Nat.le_add_right ..).trans_lt (h.due_lt e he)
  obtain ⟨e, he, hTurn⟩ := turn?_of_sleepers run state hEntries hSleepers fun e he => (hDue e he).le
  have hBag : { s with now := max s.now e.1 }.wake.bag = s.bag := bag_wake _
  refine ⟨_, hTurn, ⟨honest_wake h.honest _, ?_, fun e' he' => ?_⟩, hBag, ?_⟩
  · rcases Nat.le_total s.now e.1 with hLater | hSooner
    · rw [Nat.max_eq_right hLater]
      exact h.due_lt e he
    · rw [Nat.max_eq_left hSooner]
      exact h.now_lt
  · exact h.due_lt e' (List.mem_filter.mp he').1
  · have hShorter : { s with now := max s.now e.1 }.wake.sleeping.length < s.sleeping.length :=
      List.length_filter_lt_length_iff_exists.mpr ⟨e, he, by simp⟩
    rw [load, load, hBag]
    omega

/-- One turn is enough for some of the work. -/
theorem Timely.turn (h : s.Timely deadline n) (hPatient : Patient run work inv)
    (hInv : inv s.bag n state) (hBusy : s.bag ≠ 0) :
    ∃ s' state' m, turn? run deadline s state = some (s', state') ∧ s'.Timely deadline m ∧
      inv s'.bag m state' ∧ s'.load work m < s.load work n := by
  cases hEntries : s.queue.entries with
  | nil =>
    obtain ⟨s', hTurn, hTimely, hBag, hLess⟩ := h.rouse hEntries hBusy run work state
    exact ⟨s', state, n, hTurn, hTimely, hBag ▸ hInv, hLess⟩
  | cons entry rest =>
    obtain ⟨others, hBag, hOld, hShort, hNow, hBackoff, hTurn⟩ :=
      turn?_of_entry run state (Nat.lt_of_le_of_lt (Nat.le_add_right ..) h.now_lt) hEntries
    have hHonest := honest_turn h.honest hTurn
    have hBag' := others.bag_settle_submitAll entry (run entry.job state).verdict
      (run entry.job state).submitted
    rw [hBag] at hInv
    rcases hPatient entry.job others.bag n state hInv with
      ⟨hVerdict, hLess, m, hm, hInv'⟩ | ⟨hVerdict, hNone, m, hm, hInv'⟩
    · obtain ⟨queue, hSubmitted⟩ := others.submitAll_eq (run entry.job state).submitted
      rw [hVerdict] at hTurn hHonest hBag'
      rw [if_neg (by decide), Multiset.zero_add] at hBag'
      rw [hSubmitted] at hTurn hHonest hBag'
      refine ⟨_, _, m, hTurn, h.of_sleepers hHonest hBackoff hNow hm fun e he => .inl (hOld he), ?_,
        ?_⟩
      · rw [hBag']
        exact hInv'
      · rw [load, load, hBag', hBag, sum_work_append, Multiset.map_cons, Multiset.sum_cons]
        simp only [settle]
        omega
    · rw [hVerdict, hNone] at hTurn hHonest hBag'
      rw [if_pos rfl, List.map_nil, Multiset.coe_nil, Multiset.zero_add,
        Multiset.singleton_add] at hBag'
      have hSleeping : ((others.submitAll []).settle entry .retry).sleeping =
          others.sleeping ++ [(others.backoff.dueAt others.now (entry.attempts + 1),
            { entry with attempts := entry.attempts + 1 })] := rfl
      refine ⟨_, _, m, hTurn, h.of_sleepers hHonest hBackoff hNow hm.le fun e he => ?_, ?_, ?_⟩
      · rw [hSleeping, List.mem_append, List.mem_singleton] at he
        rcases he with hMem | rfl
        · exact .inl (hOld hMem)
        · rw [← hNow, ← hBackoff]
          exact .inr ⟨hm, others.backoff.dueAt_le _ _⟩
      · rw [hBag']
        exact hInv'
      · rw [load, load, hBag', hBag, hSleeping, List.length_append, List.length_singleton]
        omega

/-- Nothing sleeps, or waits in the queue, where no job is held. -/
theorem held_of_bag (h : s.bag = 0) : s.queue.entries = [] ∧ s.sleeping = [] := by
  have hHeld : s.held = [] := List.map_eq_nil_iff.mp ((Multiset.coe_eq_zero _).mp h)
  rw [held, List.append_eq_nil_iff, List.map_eq_nil_iff] at hHeld
  exact hHeld

/-- As many turns as there is work are enough. -/
theorem turns_patient (hPatient : Patient run work inv) (h : s.Timely deadline n)
    (hInv : inv s.bag n state) {limit : Nat} (hLimit : s.bag ≠ 0 → s.load work n ≤ limit) :
    (turns run deadline limit s state).1.Awake ∧ (turns run deadline limit s state).1.bag = 0 ∧
      ∃ m, inv 0 m (turns run deadline limit s state).2 := by
  induction limit generalizing s state n with
  | zero =>
    have hNone : s.bag = 0 := by
      by_contra hBusy
      obtain ⟨s', state', m, -, -, -, hLess⟩ := h.turn hPatient hInv hBusy
      have := hLimit hBusy
      omega
    exact ⟨⟨h.honest, (held_of_bag hNone).2⟩, hNone, n, hNone ▸ hInv⟩
  | succ limit ih =>
    by_cases hNone : s.bag = 0
    · obtain ⟨hEntries, hSleeping⟩ := held_of_bag hNone
      have hStop : turn? run deadline s state = none := by
        simp only [turn?, JobQueue.pop?, hEntries, nextDue?, hSleeping]
        rfl
      simp only [turns, hStop]
      exact ⟨⟨h.honest, hSleeping⟩, hNone, n, hNone ▸ hInv⟩
    · obtain ⟨s', state', m, hTurn, hTimely, hInv', hLess⟩ := h.turn hPatient hInv hNone
      have := hLimit hNone
      simp only [turns, hTurn]
      exact ih hTimely hInv' fun _ => by omega

/-- A drain gets through such jobs, if none of them is more work than two, and if it may last for
longer than as many of the longest waits as there are failures to come. -/
theorem drain_patient (hPatient : Patient run work inv) (hWork : ∀ job, work job ≤ 2)
    (hAwake : s.Awake) (hInv : inv s.bag n state) {span : Time}
    (hSpan : n * (s.backoff.limit + Backoff.grain) < span) :
    (drain run span s state).1.Awake ∧ (drain run span s state).1.bag = 0 ∧
      ∃ m, inv 0 m (drain run span s state).2 := by
  have hTimely : s.Timely (s.now + span) n := by
    refine ⟨hAwake.honest, Nat.add_lt_add_left hSpan s.now, fun e he => ?_⟩
    rw [hAwake.sleeping] at he
    cases he
  have hLimit : s.bag ≠ 0 → s.load work n ≤ s.turnLimit span := by
    intro hBusy
    have hPos : 1 ≤ s.outstanding := by
      rw [hAwake.honest]
      exact Multiset.card_pos.mpr hBusy
    have hEach : ∀ weight ∈ s.bag.map work, weight ≤ 2 := by
      simpa using fun job _ => hWork job
    have hSum : (s.bag.map work).sum ≤ (s.bag.map work).card * 2 :=
      Multiset.sum_le_card_nsmul _ 2 hEach
    have hAttempts := s.backoff.le_attemptLimit hSpan.le
    have hTurns : s.outstanding * (n + 2) ≤ s.outstanding * s.backoff.attemptLimit span :=
      Nat.mul_le_mul_left _ hAttempts
    have hOne : n ≤ s.outstanding * n := Nat.le_mul_of_pos_left n hPos
    rw [Multiset.card_map, ← hAwake.honest] at hSum
    rw [load, hAwake.sleeping, List.length_nil, turnLimit, Nat.mul_assoc 2]
    rw [Nat.mul_add] at hTurns
    omega
  obtain ⟨hThrough, hNone, hEnd⟩ := turns_patient hPatient hTimely hInv hLimit
  have hIdle := hThrough.isIdle hNone
  simp only [drain, hIdle, if_true]
  exact ⟨hThrough, hNone, hEnd⟩

end Scheduler

end TorrentEngine
