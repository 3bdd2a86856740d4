import TorrentEngine.Proofs.Outstanding

/-!
Runs of the worker. Jobs that finish at their first attempt are through after one turn for each; a
job that asks to be tried again whenever it is run never finishes, however long the worker runs.
-/

namespace TorrentEngine.Scheduler

variable {α σ : Type} {run : α → σ → JobRun α σ} {deadline : Time} {s s' : Scheduler α}
  {state state' : σ}

/-! ### Single turns -/

theorem takes_of_pop {entry : QueuedJob α} {queue : JobQueue α}
    (h : s.queue.pop? = some (entry, queue)) : s.Takes entry { s with queue } := by
  simp only [JobQueue.pop?] at h
  split at h
  · cases h
  · next first others hQueue =>
    obtain ⟨rfl, rfl⟩ := Prod.mk.inj (Option.some.inj h)
    have hFirst : s.queue.entries = [] ++ first :: others := hQueue
    exact .waiting hFirst

/-- A turn is an attempt of one job, or sleepers come back. -/
theorem turn_cases (h : turn? run deadline s state = some (s', state')) :
    (∃ entry rest, s.Takes entry rest ∧ state' = (run entry.job state).after ∧
      s' = (rest.wake.submitAll (run entry.job state).submitted).settle entry
        (run entry.job state).verdict) ∨
    (state' = state ∧ ∃ now, s' = { s with now }.wake) := by
  simp only [turn?] at h
  split at h
  · next entry queue hPop =>
    split at h
    · obtain ⟨rfl, rfl⟩ := Prod.mk.inj (Option.some.inj h)
      exact .inl ⟨entry, _, takes_of_pop hPop, rfl, rfl⟩
    · cases h
  · split at h
    · cases h
    · split at h
      · obtain ⟨rfl, rfl⟩ := Prod.mk.inj (Option.some.inj h)
        exact .inr ⟨rfl, _, rfl⟩
      · cases h

/-- What every turn keeps is kept by any number of them. -/
theorem turns_keep {inv : Scheduler α → σ → Prop}
    (hTurn : ∀ s state s' state', inv s state → turn? run deadline s state = some (s', state') →
      inv s' state') (limit : Nat) (h : inv s state) :
    inv (turns run deadline limit s state).1 (turns run deadline limit s state).2 := by
  induction limit generalizing s state with
  | zero => exact h
  | succ limit ih =>
    simp only [turns]
    split
    · exact h
    · next s' state' hNext => exact ih (hTurn _ _ _ _ h hNext)

/-! ### The count of jobs -/

/-- As many jobs are counted as outstanding as are held. -/
def Honest (s : Scheduler α) : Prop := s.outstanding = s.bag.card

theorem honest_wake (h : s.Honest) (now : Time) : { s with now }.wake.Honest := by
  rw [Honest, bag_wake]
  exact h

/-- Submitting jobs touches the queue and the count of outstanding jobs alone. -/
theorem submitAll_eq (s : Scheduler α) (jobs : List (Nat × α)) :
    ∃ queue, s.submitAll jobs = { s with queue, outstanding := s.outstanding + jobs.length } := by
  induction jobs generalizing s with
  | nil => exact ⟨s.queue, rfl⟩
  | cons job rest ih =>
    obtain ⟨queue, hRest⟩ := ih (s.submit job.1 job.2)
    refine ⟨queue, ?_⟩
    simp only [submitAll, List.foldl_cons, submit, List.length_cons] at hRest ⊢
    rw [hRest, Nat.add_right_comm, Nat.add_assoc]

theorem outstanding_submitAll (s : Scheduler α) (jobs : List (Nat × α)) :
    (s.submitAll jobs).outstanding = s.outstanding + jobs.length := by
  obtain ⟨queue, h⟩ := s.submitAll_eq jobs
  rw [h]

/-- A job that is settled was outstanding itself. -/
theorem honest_settle (h : s.outstanding = s.bag.card + 1) (entry : QueuedJob α) (v : Verdict) :
    (s.settle entry v).Honest := by
  rw [Honest, bag_settle]
  cases v with
  | retry =>
    rw [if_pos rfl, Multiset.card_cons]
    exact h
  | _ =>
    rw [if_neg (by decide)]
    simp only [settle, h]
    omega

theorem Takes.outstanding_eq {rest : Scheduler α} {entry : QueuedJob α} (h : s.Takes entry rest) :
    rest.outstanding = s.outstanding := by
  cases h <;> rfl

theorem honest_turn (hHonest : s.Honest) (h : turn? run deadline s state = some (s', state')) :
    s'.Honest := by
  rcases turn_cases h with ⟨entry, rest, hTake, -, rfl⟩ | ⟨-, now, rfl⟩
  · rw [Honest, hTake.bag, Multiset.card_cons, ← hTake.outstanding_eq] at hHonest
    apply honest_settle
    rw [outstanding_submitAll, bag_submitAll, bag_wake, Multiset.card_add, Multiset.coe_card,
      List.length_map]
    simp only [wake]
    omega
  · exact honest_wake hHonest now

/-! ### A job that never finishes -/

/-- A job that asks to be tried again whenever it is run stays outstanding, whatever others among
`allowed` do. -/
theorem turns_stuck {inv : σ → Prop} {allowed : α → Prop} {job : α}
    (hRetry : ∀ state, inv state → (run job state).verdict = .retry)
    (hKeeps : ∀ other state, allowed other → inv state →
      inv (run other state).after ∧ (run other state).submitted = [])
    (hHonest : s.Honest) (hHeld : job ∈ s.bag) (hAllowed : ∀ other ∈ s.bag, allowed other)
    (h : inv state) (limit : Nat) :
    job ∈ (turns run deadline limit s state).1.bag ∧
      (turns run deadline limit s state).1.Honest := by
  have hTurn : ∀ s state s' state',
      (job ∈ s.bag ∧ s.Honest) ∧ (∀ other ∈ s.bag, allowed other) ∧ inv state →
      turn? run deadline s state = some (s', state') →
      (job ∈ s'.bag ∧ s'.Honest) ∧ (∀ other ∈ s'.bag, allowed other) ∧ inv state' := by
    rintro s state s' state' ⟨⟨hHeld, hHonest⟩, hAllowed, h⟩ hTurn
    have hHonest' := honest_turn hHonest hTurn
    rcases turn_cases hTurn with ⟨entry, rest, hTake, rfl, rfl⟩ | ⟨rfl, now, rfl⟩
    · rw [hTake.bag] at hHeld hAllowed
      have hEntry := hAllowed _ (Multiset.mem_cons_self _ _)
      obtain ⟨h', hNone⟩ := hKeeps _ _ hEntry h
      refine ⟨⟨?_, hHonest'⟩, ?_, h'⟩
      · rw [bag_settle_submitAll]
        rcases Multiset.mem_cons.mp hHeld with rfl | hRest
        · rw [if_pos (hRetry state h)]
          exact Multiset.mem_add.mpr (.inl (Multiset.mem_singleton_self _))
        · rw [bag_wake]
          exact Multiset.mem_add.mpr (.inr (Multiset.mem_add.mpr (.inr hRest)))
      · intro other hOther
        rw [bag_settle_submitAll, hNone, List.map_nil, Multiset.coe_nil, Multiset.zero_add,
          bag_wake] at hOther
        apply hAllowed
        rcases Multiset.mem_add.mp hOther with hSame | hRest
        · split at hSame
          · rw [Multiset.mem_singleton.mp hSame]
            exact Multiset.mem_cons_self _ _
          · exact absurd hSame (Multiset.notMem_zero _)
        · exact Multiset.mem_cons_of_mem hRest
    · rw [bag_wake]
      exact ⟨⟨hHeld, hHonest'⟩, hAllowed, h⟩
  exact (turns_keep hTurn limit ⟨⟨hHeld, hHonest⟩, hAllowed, h⟩).1

/-- A worker with such a job is never through. -/
theorem isIdle_of_held (hHonest : s.Honest) {job : α} (hHeld : job ∈ s.bag) : s.isIdle = false := by
  have hPos := Multiset.card_pos_iff_exists_mem.mpr ⟨job, hHeld⟩
  rw [← hHonest] at hPos
  simp only [isIdle, beq_eq_false_iff_ne]
  omega

theorem drain_stuck {inv : σ → Prop} {allowed : α → Prop} {job : α}
    (hRetry : ∀ state, inv state → (run job state).verdict = .retry)
    (hKeeps : ∀ other state, allowed other → inv state →
      inv (run other state).after ∧ (run other state).submitted = [])
    (hHonest : s.Honest) (hHeld : job ∈ s.bag) (hAllowed : ∀ other ∈ s.bag, allowed other)
    (h : inv state) (span : Time) :
    job ∈ (drain run span s state).1.bag ∧ (drain run span s state).1.isIdle = false := by
  obtain ⟨hStays, hCounted⟩ :
      job ∈ (turns run (s.now + span) (s.turnLimit span) s state).1.bag ∧
        (turns run (s.now + span) (s.turnLimit span) s state).1.Honest :=
    turns_stuck hRetry hKeeps hHonest hHeld hAllowed h (s.turnLimit span)
  have hIdle := isIdle_of_held hCounted hStays
  simp only [drain, hIdle]
  exact ⟨hStays, hIdle⟩

/-! ### Jobs that finish at once -/

/-- The worker once the jobs in its queue are done. -/
def finished (s : Scheduler α) : Scheduler α :=
  { s with
    queue := { s.queue with entries := [] }
    outstanding := s.outstanding - s.queue.entries.length
    processed := s.processed + s.queue.entries.length }

theorem wake_of_awake (h : s.sleeping = []) : s.wake = s := by
  obtain ⟨_, _, _⟩ := s
  obtain rfl := h
  rfl

/-- A job that finishes when it is run takes one turn. -/
theorem turn_done {entry : QueuedJob α} {rest : List (QueuedJob α)}
    (hEntries : s.queue.entries = entry :: rest) (hNow : s.now < deadline)
    (hAwake : s.sleeping = []) (hVerdict : (run entry.job state).verdict = .done)
    (hNone : (run entry.job state).submitted = []) :
    turn? run deadline s state =
      some ({ s with
              queue := { s.queue with entries := rest }
              outstanding := s.outstanding - 1
              processed := s.processed + 1 }, (run entry.job state).after) := by
  have hPop : s.queue.pop? = some (entry, { s.queue with entries := rest }) := by
    simp only [JobQueue.pop?, hEntries]
  simp only [turn?, hPop]
  rw [if_pos hNow, hNone, hVerdict]
  rw [wake_of_awake (s := { s with queue := { s.queue with entries := rest } }) hAwake]
  rfl

/-- Jobs that finish when they are first run are all done after one turn for each. -/
theorem turns_done {inv : List α → σ → Prop}
    (hRun : ∀ job rest state, inv (job :: rest) state →
      (run job state).verdict = .done ∧ (run job state).submitted = [] ∧
        inv rest (run job state).after)
    (hNow : s.now < deadline) (hAwake : s.sleeping = [])
    (h : inv (s.queue.entries.map (·.job)) state) {limit : Nat}
    (hLimit : s.queue.entries.length ≤ limit) :
    (turns run deadline limit s state).1 = s.finished ∧
      inv [] (turns run deadline limit s state).2 := by
  induction hEntries : s.queue.entries generalizing s state limit with
  | nil =>
    have hStop : turn? run deadline s state = none := by
      simp only [turn?, JobQueue.pop?, hEntries, nextDue?, hAwake]
      rfl
    have hFinished : s.finished = s := by
      obtain ⟨_, ⟨_, _⟩⟩ := s
      obtain rfl := hEntries
      rfl
    rw [hEntries] at h
    rw [hFinished]
    cases limit with
    | zero => exact ⟨rfl, h⟩
    | succ limit =>
      simp only [turns, hStop]
      exact ⟨trivial, h⟩
  | cons entry rest ih =>
    rw [hEntries] at h hLimit
    obtain ⟨hVerdict, hNone, hRest⟩ := hRun _ _ _ h
    cases limit with
    | zero => simp at hLimit
    | succ limit =>
      have hLimit : rest.length ≤ limit := by simpa using hLimit
      simp only [turns, turn_done hEntries hNow hAwake hVerdict hNone]
      have hOthers := ih (s := { s with
        queue := { s.queue with entries := rest }
        outstanding := s.outstanding - 1
        processed := s.processed + 1 }) hNow hAwake hRest hLimit rfl
      refine ⟨hOthers.1.trans ?_, hOthers.2⟩
      simp only [finished, hEntries, List.length_cons, Scheduler.mk.injEq]
      refine ⟨trivial, trivial, trivial, trivial, ?_, ?_, trivial, trivial⟩ <;> omega

/-- The turns of a drain suffice for one attempt of each job and of one that it submits. -/
theorem outstanding_le_turnLimit (s : Scheduler α) (span : Time) :
    2 * s.outstanding ≤ s.turnLimit span := by
  have hAttempts : 1 ≤ s.backoff.attemptLimit span :=
    Nat.le_trans (by decide) (Nat.le_add_left 2 _)
  have := Nat.mul_le_mul_left (2 * s.outstanding) hAttempts
  rw [turnLimit]
  omega

/-- A drain gets through such jobs. -/
theorem drain_done {inv : List α → σ → Prop}
    (hRun : ∀ job rest state, inv (job :: rest) state →
      (run job state).verdict = .done ∧ (run job state).submitted = [] ∧
        inv rest (run job state).after)
    (hAwake : s.sleeping = []) (hCount : s.outstanding = s.queue.entries.length)
    (h : inv (s.queue.entries.map (·.job)) state) {span : Time} (hSpan : 0 < span) :
    (drain run span s state).1 = s.finished ∧ inv [] (drain run span s state).2 := by
  have hNow : s.now < s.now + span := Nat.lt_add_of_pos_right hSpan
  have hLimit : s.queue.entries.length ≤ s.turnLimit span := by
    have hTurns := s.outstanding_le_turnLimit span
    omega
  obtain ⟨hFinished, hInv⟩ := turns_done hRun hNow hAwake h hLimit
  have hIdle : s.finished.isIdle = true := by
    simp only [isIdle, finished, hCount, Nat.sub_self, beq_self_eq_true]
  simp only [drain, hFinished, hIdle, if_true]
  exact ⟨trivial, hInv⟩

/-! ### Workers without sleepers -/

/-- The jobs held are counted, and none of them sleeps. -/
structure Awake (s : Scheduler α) : Prop where
  honest : s.Honest
  sleeping : s.sleeping = []

theorem Awake.submit (h : s.Awake) (priority : Nat) (job : α) : (s.submit priority job).Awake := by
  refine ⟨?_, h.sleeping⟩
  rw [Honest, bag_submit, Multiset.card_cons, ← h.honest]
  rfl

/-- Nothing is left of a worker without jobs. -/
theorem Awake.isIdle (h : s.Awake) (hNone : s.bag = 0) : s.isIdle = true := by
  have hCount := h.honest
  rw [Honest, hNone, Multiset.card_zero] at hCount
  rw [Scheduler.isIdle, hCount]
  rfl

end TorrentEngine.Scheduler
