import TorrentEngine.Proofs.Memories
import TorrentEngine.Proofs.Patience

/-!
Failures that pass leave no trace. A run that asks to be tried again has changed nothing but what
the storage holds; after any number of such attempts the job ends as it would have at once, however
much of its own range a failed write has covered. The worker makes one attempt for each failure and
one more.
-/

namespace TorrentEngine

namespace Scheduler

variable {α σ : Type} {run : α → σ → JobRun α σ} {deadline : Time} {s : Scheduler α} {state : σ}
  {job : α}

/-- The state after some attempts of one job, with nothing else in between. -/
def again (run : α → σ → JobRun α σ) (job : α) : Nat → σ → σ
  | 0, state => state
  | n + 1, state => again run job n (run job state).after

theorem again_succ (run : α → σ → JobRun α σ) (job : α) (n : Nat) (state : σ) :
    again run job (n + 1) state = (run job (again run job n state)).after := by
  induction n generalizing state with
  | zero => rfl
  | succ n ih => exact ih (run job state).after

/-- The way to run a job that also counts the runs. -/
def counting (run : α → σ → JobRun α σ) (job : α) (x : σ × Nat) : JobRun α (σ × Nat) :=
  { verdict := (run job x.1).verdict
    after := ((run job x.1).after, x.2 + 1)
    submitted := (run job x.1).submitted }

theorem again_counting (run : α → σ → JobRun α σ) (job : α) (n : Nat) (x : σ × Nat) :
    again (counting run) job n x = (again run job n x.1, x.2 + n) := by
  induction n generalizing x with
  | zero => rfl
  | succ n ih =>
    rw [again, ih, again]
    simp only [counting, Nat.add_assoc, Nat.add_comm 1 n]

/-- One job waits in the queue, and there are no others. -/
structure Alone (s : Scheduler α) (job : α) : Prop where
  waiting : ∃ entry, s.queue.entries = [entry] ∧ entry.job = job
  awake : s.sleeping = []

/-- One job sleeps until `due`, and there are no others. -/
structure Dozing (s : Scheduler α) (job : α) (due : Time) : Prop where
  empty : s.queue.entries = []
  sleeper : ∃ entry, s.sleeping = [(due, entry)] ∧ entry.job = job

/-- An attempt that fails in passing takes one turn, after which the job sleeps. -/
theorem Alone.doze (h : s.Alone job) (hNow : s.now < deadline)
    (hRetry : (run job state).verdict = .retry) (hNone : (run job state).submitted = []) :
    ∃ s' due, turn? run deadline s state = some (s', (run job state).after) ∧ s'.Dozing job due ∧
      due ≤ s.now + (s.backoff.limit + Backoff.grain) ∧ s'.now = s.now ∧ s'.backoff = s.backoff ∧
      s'.retried = s.retried + 1 ∧ s'.processed = s.processed ∧ s'.dropped = s.dropped := by
  obtain ⟨⟨entry, hEntries, rfl⟩, hAwake⟩ := h
  let taken : Scheduler α := { s with queue := { s.queue with entries := [] } }
  have hPop : s.queue.pop? = some (entry, { s.queue with entries := [] }) := by
    simp only [JobQueue.pop?, hEntries]
  have hTurn : turn? run deadline s state =
      some (taken.settle entry .retry, (run entry.job state).after) := by
    simp only [turn?, hPop, if_pos hNow, hNone, hRetry]
    rw [wake_of_awake (s := taken) hAwake]
    rfl
  refine ⟨_, _, hTurn, ⟨rfl, { entry with attempts := entry.attempts + 1 }, ?_, rfl⟩,
    s.backoff.dueAt_le s.now (entry.attempts + 1), rfl, rfl, rfl, rfl, rfl⟩
  simp only [settle, show taken.sleeping = [] from hAwake]
  rfl

/-- The end of the sleep takes another turn. -/
theorem Dozing.rouse {due : Time} (h : s.Dozing job due) (run : α → σ → JobRun α σ) (state : σ)
    (hDue : due ≤ deadline) :
    ∃ s', turn? run deadline s state = some (s', state) ∧ s'.Alone job ∧
      s'.now = max s.now due ∧ s'.backoff = s.backoff ∧ s'.retried = s.retried ∧
      s'.processed = s.processed ∧ s'.dropped = s.dropped := by
  obtain ⟨hEmpty, entry, hSleeping, rfl⟩ := h
  have hNext : s.nextDue? = some due := by
    rw [nextDue?, hSleeping]
    rfl
  have hTurn : turn? run deadline s state = some ({ s with now := max s.now due }.wake, state) := by
    simp only [turn?, JobQueue.pop?, hEmpty, hNext, if_pos hDue]
  have hAfter : due ≤ max s.now due := Nat.le_max_right ..
  refine ⟨_, hTurn, ⟨⟨entry, ?_, rfl⟩, ?_⟩, rfl, rfl, rfl, rfl, rfl⟩
  · simp only [wake, hSleeping, List.filter_cons, hAfter, decide_true, if_true, List.filter_nil,
      List.foldl_cons, List.foldl_nil, JobQueue.requeue, hEmpty]
    rfl
  · simp only [wake, hSleeping, List.filter_cons, Nat.not_lt.mpr hAfter, decide_false,
      Bool.false_eq_true, if_false, List.filter_nil]

/-- After both turns the job waits as before. -/
theorem Alone.fail (h : s.Alone job) (hTime : s.now + (s.backoff.limit + Backoff.grain) ≤ deadline)
    (hRetry : (run job state).verdict = .retry) (hNone : (run job state).submitted = []) :
    ∃ s', s'.Alone job ∧ s'.backoff = s.backoff ∧
      s'.now ≤ s.now + (s.backoff.limit + Backoff.grain) ∧ s'.retried = s.retried + 1 ∧
      s'.processed = s.processed ∧ s'.dropped = s.dropped ∧
      ∀ n, turns run deadline (n + 2) s state = turns run deadline n s' (run job state).after := by
  have hGrain : 0 < s.backoff.limit + Backoff.grain := Nat.add_pos_right _ (by decide)
  have hNow : s.now < deadline := Nat.lt_of_lt_of_le (Nat.lt_add_of_pos_right hGrain) hTime
  obtain ⟨s₁, due, hFirst, hDozing, hDue, hNow₁, hBackoff₁, hRetried₁, hProcessed₁, hDropped₁⟩ :=
    h.doze hNow hRetry hNone
  obtain ⟨s₂, hSecond, hAlone, hNow₂, hBackoff₂, hRetried₂, hProcessed₂, hDropped₂⟩ :=
    hDozing.rouse run (run job state).after (hDue.trans hTime)
  refine ⟨s₂, hAlone, hBackoff₂.trans hBackoff₁, ?_, hRetried₂.trans hRetried₁,
    hProcessed₂.trans hProcessed₁, hDropped₂.trans hDropped₁, fun n => ?_⟩
  · rw [hNow₂, hNow₁]
    exact max_le (Nat.le_add_right ..) hDue
  · simp only [turns, hFirst, hSecond]

/-- The last attempt takes one turn, and leaves the jobs that it submitted. -/
theorem Alone.succeed (h : s.Alone job) (hNow : s.now < deadline)
    (hDone : (run job state).verdict = .done) :
    ∃ s', turn? run deadline s state = some (s', (run job state).after) ∧
      s'.bag = ((run job state).submitted.map (·.2) : List α) ∧ s'.sleeping = [] ∧
      s'.retried = s.retried ∧ s'.processed = s.processed + 1 ∧ s'.dropped = s.dropped := by
  obtain ⟨⟨entry, hEntries, rfl⟩, hAwake⟩ := h
  let taken : Scheduler α := { s with queue := { s.queue with entries := [] } }
  have hPop : s.queue.pop? = some (entry, { s.queue with entries := [] }) := by
    simp only [JobQueue.pop?, hEntries]
  have hEmpty : taken.bag = 0 := by
    rw [bag, held, show taken.sleeping = [] from hAwake]
    rfl
  have hTurn : turn? run deadline s state =
      some ((taken.submitAll (run entry.job state).submitted).settle entry .done,
        (run entry.job state).after) := by
    simp only [turn?, hPop, if_pos hNow, hDone]
    rw [wake_of_awake (s := taken) hAwake]
  obtain ⟨queue, hSubmitted⟩ := taken.submitAll_eq (run entry.job state).submitted
  refine ⟨_, hTurn, ?_, ?_, ?_, ?_, ?_⟩
  · rw [bag_settle_submitAll, if_neg (by decide), hEmpty, Multiset.zero_add, Multiset.add_zero]
  · rw [hSubmitted]
    exact hAwake
  all_goals
    rw [hSubmitted]
    rfl

/-- A job that is alone, fails in passing some times, and then is done: the worker makes one attempt
more than it fails, and leaves what the last one submitted. -/
theorem Alone.turns (h : s.Alone job) (run : α → σ → JobRun α σ) (state : σ) (k : Nat)
    (hTime : s.now + k * (s.backoff.limit + Backoff.grain) < deadline)
    (hRetry : ∀ j < k, (run job (again run job j state)).verdict = .retry ∧
      (run job (again run job j state)).submitted = [])
    (hDone : (run job (again run job k state)).verdict = .done) :
    ∃ s', turns run deadline (2 * k + 1) s state = (s', again run job (k + 1) state) ∧
      s'.bag = ((run job (again run job k state)).submitted.map (·.2) : List α) ∧
      s'.sleeping = [] ∧ s'.retried = s.retried + k ∧ s'.processed = s.processed + 1 ∧
      s'.dropped = s.dropped := by
  induction k generalizing s state with
  | zero =>
    rw [Nat.zero_mul] at hTime
    have hDone : (run job state).verdict = .done := hDone
    obtain ⟨s', hTurn, hLeft⟩ := h.succeed hTime hDone
    refine ⟨s', ?_, hLeft⟩
    simp only [Scheduler.turns, hTurn, again]
  | succ k ih =>
    rw [Nat.succ_mul] at hTime
    have hSoon : s.now + (s.backoff.limit + Backoff.grain) ≤ deadline :=
      Nat.le_trans (Nat.add_le_add_left (Nat.le_add_left ..) _) (Nat.le_of_lt hTime)
    obtain ⟨hFails, hNone⟩ := hRetry 0 (Nat.succ_pos k)
    obtain ⟨s₁, hAlone, hBackoff, hNow, hRetried, hProcessed, hDropped, hTurns⟩ :=
      h.fail hSoon hFails hNone
    have hLater : s₁.now + k * (s₁.backoff.limit + Backoff.grain) < deadline := by
      rw [hBackoff]
      generalize s.backoff.limit + Backoff.grain = wait at hNow hTime ⊢
      rw [Nat.add_comm (k * wait), ← Nat.add_assoc] at hTime
      exact Nat.lt_of_le_of_lt (Nat.add_le_add_right hNow _) hTime
    obtain ⟨s', hRest, hBag, hAwake, hRetried', hProcessed', hDropped'⟩ :=
      ih hAlone _ hLater (fun j hj => hRetry (j + 1) (Nat.succ_lt_succ hj)) hDone
    refine ⟨s', (hTurns (2 * k + 1)).trans hRest, hBag, hAwake, ?_, ?_, ?_⟩
    · rw [hRetried', hRetried, Nat.add_right_comm, Nat.add_assoc]
    · rw [hProcessed', hProcessed]
    · rw [hDropped', hDropped]

end Scheduler

namespace Job

variable {t t' : Torrent} {job : Job} {disk disk' disk'' : Bytes} {o : Outcome}

/-! ### One attempt -/

theorem finishStore_retry {kind : FileSetKind} {i b length : Nat} {fs : FileSet} {p : Piece}
    {block : Block} {reply : Reply Unit} (h : OpenBlock t.download kind i b length fs p block)
    (hRetry : (finishStore t kind i b length reply).ended.verdict = .retry) :
    finishStore t kind i b length reply =
      { ended := (finishStore t kind i b length reply).ended, after := t } := by
  cases reply with
  | done =>
    rw [finishStore, commitStore_eq h] at hRetry
    cases hRetry
  | failed e => rfl
  | crashed => cases hRetry

theorem finishCheck_retry {kind : FileSetKind} {i : Nat} {fs : FileSet} {p : Piece}
    {reply : Reply Bytes} (h : StoredPiece t.download kind i fs p)
    (hLength : ∀ bytes, reply = .done bytes → bytes.length = p.length)
    (hRetry : (finishCheck t kind i reply).ended.verdict = .retry) :
    finishCheck t kind i reply =
      { ended := (finishCheck t kind i reply).ended, after := t } := by
  cases reply with
  | done bytes =>
    rw [finishCheck, commitCheck_eq h (hLength bytes rfl)] at hRetry
    cases hRetry
  | failed e =>
    cases e with
    | io kind => rfl
    | outOfBounds offset length => cases hRetry
  | crashed => cases hRetry

theorem finishSend_retry {peer : PeerId} {line : LineId} {i offset : Nat} {reply : Reply Bytes}
    (hRetry : (finishSend t peer line i offset reply).ended.verdict = .retry) :
    finishSend t peer line i offset reply =
      { ended := (finishSend t peer line i offset reply).ended, after := t } := by
  cases reply with
  | done bytes =>
    rw [finishSend, commitSend] at hRetry
    split at hRetry <;> cases hRetry
  | failed e => rfl
  | crashed => cases hRetry

/-- A run that asks to be tried again has changed nothing but the storage and the files, and has
submitted nothing. -/
theorem run_retry (h : (job.run t).ended.verdict = .retry) :
    (job.run t).submitted = [] ∧
      ∃ storage tree, (job.run t).after = { t with tree }.setStorage storage := by
  cases job with
  | store kind i b data =>
    by_cases hOpen : ∃ fs p block, OpenBlock t.download kind i b data.length fs p block
    · obtain ⟨fs, p, block, hOpen⟩ := hOpen
      have hStays : OpenBlock { t with tree := (written t fs p i b data).2.2 }.download kind i b
        data.length fs p block := hOpen
      rw [run_store_of_open hOpen] at h ⊢
      rw [finishStore_retry (hStays.setStorage _) h]
      exact ⟨rfl, _, _, rfl⟩
    · obtain ⟨d, ended, hPrepared, hRun⟩ :=
        run_store_of_closed fun fs p block h => hOpen ⟨fs, p, block, h⟩
      rw [hRun] at h
      exact absurd h (prepareStore_error hPrepared).1
  | check kind i =>
    by_cases hStored : ∃ fs p, StoredPiece t.download kind i fs p
    · obtain ⟨fs, p, hStored⟩ := hStored
      have hLength : ∀ bytes, (readBack t fs p i).1 = .done bytes → bytes.length = p.length :=
        fun _ => Storage.length_read
      rw [run_check_of_stored hStored] at h ⊢
      rw [finishCheck_retry (hStored.setStorage _) hLength h]
      exact ⟨rfl, _, t.tree, rfl⟩
    · obtain ⟨d, ended, hPrepared, hRun⟩ := run_check_of_open fun fs p h => hStored ⟨fs, p, h⟩
      rw [hRun] at h
      exact absurd h (prepareCheck_error hPrepared).1
  | send peer line i offset length =>
    cases hPrepared : prepareSend t.download i offset length with
    | error e =>
      rw [run_send_of_error hPrepared] at h
      cases h
    | ok position =>
      obtain ⟨fs, -, hRun⟩ := run_send_of_ready hPrepared
      rw [hRun] at h ⊢
      rw [finishSend_retry h]
      exact ⟨rfl, _, t.tree, rfl⟩

/-! ### Attempts on a device that fails in passing -/

/-- What failed attempts of a job may have made of a torrent and its disk: those of a store may have
written anything inside its range. -/
inductive Smudged (t : Torrent) (disk : Bytes) : Job → Torrent → Bytes → Prop
  | clean (job : Job) : Smudged t disk job t disk
  | store {kind : FileSetKind} {i b : Nat} {data content : Bytes} {fs : FileSet} {p : Piece}
      {block : Block} (h : OpenBlock t.download kind i b data.length fs p block)
      (hContent : (fs.storage.content disk).AgreeOutside content
        (i * fs.pieceLength + p.blockOffset b) data.length) :
      Smudged t disk (.store kind i b data) (t.setStorage (fs.storage.put content))
        (fs.storage.diskAfter disk content)

theorem setStorage_setStorage (t : Torrent) (s s' : Storage) :
    (t.setStorage s).setStorage s' = t.setStorage s' := by
  simp only [Torrent.setStorage, Torrent.change, Download.changeFileSet, Option.map_map]
  rfl

theorem put_put (s : Storage) (b b' : Bytes) : (s.put b).put b' = s.put b' := by
  cases s <;> rfl

theorem diskAfter_put (s : Storage) (disk b b' : Bytes) :
    (s.put b).diskAfter (s.diskAfter disk b) b' = s.diskAfter disk b' := by
  cases s <;> rfl

variable {may : Miss → Prop}

/-- A write of a store that does not settle: where it goes, and what becomes of it. -/
theorem Executes.store_cases {kind : FileSetKind} {i b : Nat} {data : Bytes}
    (h : Executes may t disk (.store kind i b data) o disk') :
    (∃ d ended, prepareStore t.download kind i b data.length = (d, .error ended) ∧
      o = { ended, after := { t with download := d } } ∧ disk' = disk) ∨
    ∃ fs p block reply content, OpenBlock t.download kind i b data.length fs p block ∧
      Writes may (fs.storage.content disk) (i * fs.pieceLength + p.blockOffset b) data reply
        content ∧
      o = finishStore (t.setStorage (fs.storage.put content)) kind i b data.length reply ∧
      disk' = fs.storage.diskAfter disk content := by
  cases h with
  | storeSettled h => exact .inl ⟨_, _, h, rfl, rfl⟩
  | storeWritten h hfs hWrite =>
    obtain ⟨rfl, fs, p, block, hOpen, rfl⟩ := prepareStore_ok h
    obtain rfl := Option.some.inj (hfs.symm.trans hOpen.fileSet)
    exact .inr ⟨_, p, block, _, _, hOpen, hWrite, rfl, rfl⟩

theorem Executes.check_cases {kind : FileSetKind} {i : Nat}
    (h : Executes may t disk (.check kind i) o disk') :
    disk' = disk ∧ ((∃ d ended, prepareCheck t.download kind i = (d, .error ended) ∧
      o = { ended, after := { t with download := d } }) ∨
    ∃ fs p reply, StoredPiece t.download kind i fs p ∧
      Reads may (fs.storage.content disk) (i * fs.pieceLength) p.length reply ∧
      o = finishCheck t kind i reply) := by
  cases h with
  | checkSettled h => exact ⟨rfl, .inl ⟨_, _, h, rfl⟩⟩
  | checkRead h hfs hRead =>
    obtain ⟨rfl, fs, p, hStored, rfl, rfl⟩ := prepareCheck_ok h
    obtain rfl := Option.some.inj (hfs.symm.trans hStored.fileSet)
    exact ⟨rfl, .inr ⟨_, p, _, hStored, hRead, rfl⟩⟩

theorem Executes.send_cases {peer : PeerId} {line : LineId} {i offset length : Nat}
    (h : Executes may t disk (.send peer line i offset length) o disk') :
    disk' = disk ∧ ((∃ e, prepareSend t.download i offset length = .error e ∧
      o = { ended := .failed (.piece e), after := t }) ∨
    ∃ position fs reply, prepareSend t.download i offset length = .ok position ∧
      t.download.fileSet = some fs ∧ Reads may (fs.storage.content disk) position length reply ∧
      o = finishSend t peer line i offset reply) := by
  cases h with
  | sendSettled h => exact ⟨rfl, .inl ⟨_, h, rfl⟩⟩
  | sendRead h hfs hRead => exact ⟨rfl, .inr ⟨_, _, _, h, hfs, hRead, rfl⟩⟩

/-- Another failed attempt leaves no more behind than those before it. -/
theorem Smudged.attempt (h : Smudged t disk job t' disk')
    (hRun : Executes may t' disk' job o disk'')
    (hRetry : o.ended.verdict = .retry) : o.submitted = [] ∧ Smudged t disk job o.after disk'' := by
  cases job with
  | store kind i b data =>
    rcases hRun.store_cases with ⟨d, ended, hPrepared, rfl, -⟩ |
      ⟨fs', p', block', reply, content', hOpen', hWrite, rfl, rfl⟩
    · exact absurd hRetry (prepareStore_error hPrepared).1
    · rw [finishStore_retry (hOpen'.setStorage _) hRetry]
      refine ⟨rfl, ?_⟩
      cases h with
      | clean => exact .store hOpen' hWrite.agreeOutside
      | @store _ _ _ _ content fs p block hOpen hContent =>
        obtain ⟨rfl, rfl⟩ := (hOpen.setStorage (fs.storage.put content)).unique
          (current?_eq_some.mpr ⟨hOpen'.fileSet, hOpen'.kind_eq⟩) hOpen'.hasPiece
        have hOutside := hWrite.agreeOutside
        rw [Storage.content_put] at hOutside
        rw [setStorage_setStorage, put_put, diskAfter_put]
        exact .store hOpen (hContent.trans hOutside)
  | check kind i =>
    cases h with
    | clean =>
      obtain ⟨rfl, ⟨d, ended, hPrepared, rfl⟩ | ⟨fs, p, reply, hStored, hRead, rfl⟩⟩ :=
        hRun.check_cases
      · exact absurd hRetry (prepareCheck_error hPrepared).1
      · rw [finishCheck_retry hStored hRead.length_eq hRetry]
        exact ⟨rfl, .clean _⟩
  | send peer line i offset length =>
    cases h with
    | clean =>
      obtain ⟨rfl, ⟨e, -, rfl⟩ | ⟨position, fs, reply, -, -, -, rfl⟩⟩ := hRun.send_cases
      · cases hRetry
      · rw [finishSend_retry hRetry]
        exact ⟨rfl, .clean _⟩

/-! ### The attempt that succeeds -/

theorem finishStore_done {kind : FileSetKind} {i b length : Nat} {reply : Reply Unit}
    (hDone : (finishStore t kind i b length reply).ended.verdict = .done) : reply = .done () := by
  cases reply with
  | done => rfl
  | failed e => cases e <;> cases hDone
  | crashed => cases hDone

theorem finishCheck_done {kind : FileSetKind} {i : Nat} {reply : Reply Bytes}
    (hDone : (finishCheck t kind i reply).ended.verdict = .done) :
    ∃ bytes, reply = .done bytes := by
  cases reply with
  | done bytes => exact ⟨bytes, rfl⟩
  | failed e => cases e <;> cases hDone
  | crashed => cases hDone

theorem finishSend_done {peer : PeerId} {line : LineId} {i offset : Nat} {reply : Reply Bytes}
    (hDone : (finishSend t peer line i offset reply).ended.verdict = .done) :
    ∃ bytes, reply = .done bytes := by
  cases reply with
  | done bytes => exact ⟨bytes, rfl⟩
  | failed e => cases e <;> cases hDone
  | crashed => cases hDone

/-- An attempt that succeeds after failed ones is one that would have succeeded at once. -/
theorem Smudged.succeed (h : Smudged t disk job t' disk')
    (hRun : Executes may t' disk' job o disk'')
    (hDone : o.ended.verdict = .done) : Executes Faultless t disk job o disk'' := by
  cases job with
  | store kind i b data =>
    rcases hRun.store_cases with ⟨d, ended, hPrepared, rfl, rfl⟩ |
      ⟨fs', p', block', reply, content', hOpen', hWrite, rfl, rfl⟩
    · cases h with
      | clean => exact .storeSettled hPrepared
      | @store _ _ _ _ content fs p block hOpen hContent =>
        rw [prepareStore_of_open (hOpen.setStorage _)] at hPrepared
        cases hPrepared
    · obtain rfl := finishStore_done hDone
      obtain ⟨hInside, rfl⟩ := hWrite.of_done
      cases h with
      | clean => exact .storeWritten (prepareStore_of_open hOpen') hOpen'.fileSet (.done hInside)
      | @store _ _ _ _ content fs p block hOpen hContent =>
        obtain ⟨rfl, rfl⟩ := (hOpen.setStorage (fs.storage.put content)).unique
          (current?_eq_some.mpr ⟨hOpen'.fileSet, hOpen'.kind_eq⟩) hOpen'.hasPiece
        rw [Storage.content_put] at hInside ⊢
        have hInside₀ := hContent.length_eq ▸ hInside
        rw [setStorage_setStorage, put_put, diskAfter_put, hContent.overwrite_eq hInside₀]
        exact .storeWritten (prepareStore_of_open hOpen) hOpen.fileSet (.done hInside₀)
  | check kind i =>
    cases h with
    | clean =>
      obtain ⟨rfl, ⟨d, ended, hPrepared, rfl⟩ | ⟨fs, p, reply, hStored, hRead, rfl⟩⟩ :=
        hRun.check_cases
      · exact .checkSettled hPrepared
      · obtain ⟨bytes, rfl⟩ := finishCheck_done hDone
        obtain ⟨hInside, rfl⟩ := hRead.of_done
        exact .checkRead (prepareCheck_of_stored hStored) hStored.fileSet (.done hInside)
  | send peer line i offset length =>
    cases h with
    | clean =>
      obtain ⟨rfl, ⟨e, -, rfl⟩ | ⟨position, fs, reply, hPrepared, hfs, hRead, rfl⟩⟩ :=
        hRun.send_cases
      · cases hDone
      · obtain ⟨bytes, rfl⟩ := finishSend_done hDone
        obtain ⟨hInside, rfl⟩ := hRead.of_done
        exact .sendRead hPrepared hfs (.done hInside)

/-! ### The one result without failures -/

theorem Executes.store_unique {kind : FileSetKind} {i b : Nat} {data : Bytes}
    (h : Executes Faultless t disk (.store kind i b data) o disk')
    (hDone : o.ended.verdict = .done) {o' : Outcome}
    (h' : Executes Faultless t disk (.store kind i b data) o' disk'') :
    o' = o ∧ disk'' = disk' := by
  rcases h.store_cases with ⟨d, ended, hPrepared, rfl, rfl⟩ |
    ⟨fs, p, block, reply, content, hOpen, hWrite, rfl, rfl⟩
  · rcases h'.store_cases with ⟨d', ended', hPrepared', rfl, rfl⟩ | ⟨_, _, _, _, _, hOpen', -⟩
    · obtain ⟨rfl, hEnded⟩ := Prod.mk.inj (hPrepared.symm.trans hPrepared')
      obtain rfl := Except.error.inj hEnded
      exact ⟨rfl, rfl⟩
    · rw [prepareStore_of_open hOpen'] at hPrepared
      cases hPrepared
  · obtain rfl := finishStore_done hDone
    obtain ⟨hInside, rfl⟩ := hWrite.of_done
    rcases h'.store_cases with ⟨d', ended', hPrepared', -⟩ |
      ⟨fs', p', block', reply', content', hOpen', hWrite', rfl, rfl⟩
    · rw [prepareStore_of_open hOpen] at hPrepared'
      cases hPrepared'
    · obtain ⟨rfl, rfl⟩ := hOpen.unique
        (current?_eq_some.mpr ⟨hOpen'.fileSet, hOpen'.kind_eq⟩) hOpen'.hasPiece
      obtain ⟨rfl, rfl⟩ := hWrite'.faultless hInside
      exact ⟨rfl, rfl⟩

theorem Executes.check_unique {kind : FileSetKind} {i : Nat}
    (h : Executes Faultless t disk (.check kind i) o disk')
    (hDone : o.ended.verdict = .done) {o' : Outcome}
    (h' : Executes Faultless t disk (.check kind i) o' disk'') : o' = o ∧ disk'' = disk' := by
  obtain ⟨rfl, hCases⟩ := h.check_cases
  obtain ⟨rfl, hCases'⟩ := h'.check_cases
  rcases hCases with ⟨d, ended, hPrepared, rfl⟩ | ⟨fs, p, reply, hStored, hRead, rfl⟩
  · rcases hCases' with ⟨d', ended', hPrepared', rfl⟩ | ⟨_, _, _, hStored', -⟩
    · obtain ⟨rfl, hEnded⟩ := Prod.mk.inj (hPrepared.symm.trans hPrepared')
      obtain rfl := Except.error.inj hEnded
      exact ⟨rfl, rfl⟩
    · rw [prepareCheck_of_stored hStored'] at hPrepared
      cases hPrepared
  · obtain ⟨bytes, rfl⟩ := finishCheck_done hDone
    obtain ⟨hInside, rfl⟩ := hRead.of_done
    rcases hCases' with ⟨d', ended', hPrepared', rfl⟩ | ⟨fs', p', reply', hStored', hRead', rfl⟩
    · rw [prepareCheck_of_stored hStored] at hPrepared'
      cases hPrepared'
    · obtain ⟨rfl, rfl⟩ := hStored.unique hStored'
      rw [hRead'.faultless hInside]
      exact ⟨rfl, rfl⟩

theorem Executes.send_unique {peer : PeerId} {line : LineId} {i offset length : Nat}
    (h : Executes Faultless t disk (.send peer line i offset length) o disk')
    (hDone : o.ended.verdict = .done) {o' : Outcome}
    (h' : Executes Faultless t disk (.send peer line i offset length) o' disk'') :
    o' = o ∧ disk'' = disk' := by
  obtain ⟨rfl, hCases⟩ := h.send_cases
  obtain ⟨rfl, hCases'⟩ := h'.send_cases
  rcases hCases with ⟨e, -, rfl⟩ | ⟨position, fs, reply, hPrepared, hfs, hRead, rfl⟩
  · cases hDone
  · obtain ⟨bytes, rfl⟩ := finishSend_done hDone
    obtain ⟨hInside, rfl⟩ := hRead.of_done
    rcases hCases' with ⟨e, hPrepared', -⟩ |
      ⟨position', fs', reply', hPrepared', hfs', hRead', rfl⟩
    · rw [hPrepared] at hPrepared'
      cases hPrepared'
    · obtain rfl := Except.ok.inj (hPrepared.symm.trans hPrepared')
      obtain rfl := Option.some.inj (hfs.symm.trans hfs')
      rw [hRead'.faultless hInside]
      exact ⟨rfl, rfl⟩

/-- Without failures there is one way to succeed. -/
theorem Executes.unique (h : Executes Faultless t disk job o disk')
    (hDone : o.ended.verdict = .done) {o' : Outcome}
    (h' : Executes Faultless t disk job o' disk'') : o' = o ∧ disk'' = disk' := by
  cases job with
  | store kind i b data => exact h.store_unique hDone h'
  | check kind i => exact h.check_unique hDone h'
  | send peer line i offset length => exact h.send_unique hDone h'

/-! ### Retries -/

/-- A run of a job, where `view` shows the torrent and its disk, is an attempt on a device that
fails only in passing. -/
def Attempts {σ : Type} (view : σ → Torrent × Bytes) (run : Job → σ → JobRun Job σ) (job : Job)
    (x : σ) : Prop :=
  ∃ o disk, Executes Miss.Transient (view x).1 (view x).2 job o disk ∧
    run job x =
      { verdict := o.ended.verdict
        after := (run job x).after
        submitted := o.submitted.map fun job => (job.priority, job) } ∧
    view (run job x).after = (o.after, disk)

/-- The jobs of a torrent on a memory whose faults pass are such attempts. -/
theorem attempts_work {job : Job}
    (hPassing : ∀ fs, t.download.fileSet = some fs → fs.storage.Passing) :
    Attempts (fun t => (t.plain, [])) work job t :=
  ⟨_, [], executes_run job hPassing, rfl, rfl⟩

variable {σ : Type} {view : σ → Torrent × Bytes} {run : Job → σ → JobRun Job σ} {x : σ}

theorem smudged_again {n : Nat}
    (hDevice : ∀ j < n, Attempts view run job (Scheduler.again run job j x))
    (hRetry : ∀ j < n, (run job (Scheduler.again run job j x)).verdict = .retry) :
    Smudged (view x).1 (view x).2 job (view (Scheduler.again run job n x)).1
        (view (Scheduler.again run job n x)).2 ∧
      ∀ j < n, (run job (Scheduler.again run job j x)).submitted = [] := by
  induction n with
  | zero => exact ⟨.clean job, nofun⟩
  | succ n ih =>
    obtain ⟨hBefore, hNone⟩ :=
      ih (fun j hj => hDevice j (Nat.lt_succ_of_lt hj)) fun j hj => hRetry j (Nat.lt_succ_of_lt hj)
    obtain ⟨o, disk, hRun, hResult, hView⟩ := hDevice n (Nat.lt_succ_self n)
    have hVerdict := hRetry n (Nat.lt_succ_self n)
    rw [hResult] at hVerdict
    obtain ⟨hSubmitted, hAfter⟩ := hBefore.attempt hRun hVerdict
    rw [Scheduler.again_succ, hView]
    refine ⟨hAfter, fun j hj => ?_⟩
    rcases Nat.lt_succ_iff_lt_or_eq.mp hj with hEarlier | rfl
    · exact hNone j hEarlier
    · rw [hResult, hSubmitted]
      rfl

end Job

open Scheduler in
/-- Failures that pass are invisible. A run that asks to be tried again has submitted nothing and
changed nothing but what the storage and the files hold: statuses, counters, lines to peers and
events are as before. And where a job is alone with a device that fails some times in passing,
whatever that leaves of the range to be written, and then succeeds, the worker comes to the one
result that an execution without failures has; it has made one attempt more than there were
failures, counts each of these as retried and the job as processed once, and is left with the jobs
that the execution submits. -/
theorem Job.failures_invisible :
    (∀ (job : Job) (t : Torrent), (job.run t).ended.verdict = .retry →
      (job.run t).submitted = [] ∧
        ∃ storage tree, (job.run t).after = { t with tree }.setStorage storage) ∧
    ∀ {σ : Type} (view : σ → Torrent × Bytes) (run : Job → σ → JobRun Job σ) (job : Job) (x : σ)
      (s : Scheduler Job) (deadline : Time) (k : Nat), s.Alone job →
      s.now + k * (s.backoff.limit + Backoff.grain) < deadline →
      (∀ j ≤ k, Attempts view run job (again run job j x)) →
      (∀ j < k, (run job (again run job j x)).verdict = .retry) →
      (run job (again run job k x)).verdict = .done →
      ∃ o disk s' x', Executes Faultless (view x).1 (view x).2 job o disk ∧
        (∀ o' disk', Executes Faultless (view x).1 (view x).2 job o' disk' →
          o' = o ∧ disk' = disk) ∧
        turns (counting run) deadline (2 * k + 1) s (x, 0) = (s', (x', k + 1)) ∧
        view x' = (o.after, disk) ∧ s'.bag = (o.submitted : List Job) ∧ s'.sleeping = [] ∧
        s'.retried = s.retried + k ∧ s'.processed = s.processed + 1 ∧ s'.dropped = s.dropped := by
  refine ⟨fun job t => run_retry, ?_⟩
  intro σ view run job x s deadline k hAlone hTime hDevice hRetry hDone
  obtain ⟨hSmudged, hNone⟩ := smudged_again (fun j hj => hDevice j (Nat.le_of_lt hj)) hRetry
  obtain ⟨o, disk, hRun, hResult, hView⟩ := hDevice k (Nat.le_refl k)
  have hVerdict : o.ended.verdict = .done := by
    rw [hResult] at hDone
    exact hDone
  have hClean := hSmudged.succeed hRun hVerdict
  have hCounting (n : Nat) : counting run job (again (counting run) job n (x, 0)) =
      { verdict := (run job (again run job n x)).verdict
        after := ((run job (again run job n x)).after, n + 1)
        submitted := (run job (again run job n x)).submitted } := by
    rw [again_counting, Nat.zero_add]
    rfl
  have hFails : ∀ j < k, (counting run job (again (counting run) job j (x, 0))).verdict = .retry ∧
      (counting run job (again (counting run) job j (x, 0))).submitted = [] := by
    intro j hj
    rw [hCounting]
    exact ⟨hRetry j hj, hNone j hj⟩
  obtain ⟨s', hTurns, hBag, hLeft⟩ :=
    hAlone.turns (counting run) (x, 0) k hTime hFails (by rw [hCounting]; exact hDone)
  rw [again_succ, hCounting] at hTurns
  rw [hCounting] at hBag
  refine ⟨o, disk, s', _, hClean, fun o' disk' h => hClean.unique hVerdict h, hTurns, hView, ?_,
    hLeft⟩
  rw [hBag, hResult, List.map_map]
  exact congrArg _ (List.map_id _)

namespace Job

/-- A torrent of one block on a memory that fails twice. -/
def flaky : Torrent where
  download :=
    { Download.named Digest.zero 5 with
      fileSet := some
        { kind := .data, pieceLength := 4, totalLength := 4
          pieces := [Piece.fresh 0 4 Digest.zero 4]
          storage := .scripted { bytes := [0, 0, 0, 0], writePlan := [.device, .device] } } }
  events := { capacity := 1 }
  tree := { home := [] }

/-- The store of its block, alone in the queue. -/
def flakyQueue : Scheduler Job := ({} : Scheduler Job).submit 10 (.store .data 0 0 [1, 2, 3, 4])

/-- The store is run three times, and ends as on a memory that does not fail. -/
theorem failures_invisible_flaky :
    ∃ o s t, Executes Faultless flaky.plain [] (.store .data 0 0 [1, 2, 3, 4]) o [] ∧
      Scheduler.turns (Scheduler.counting work) 3000000000 5 flakyQueue (flaky, 0) = (s, (t, 3)) ∧
      t.plain = o.after ∧ s.bag = (o.submitted : List Job) ∧ s.retried = 2 ∧ s.processed = 1 ∧
      s.dropped = 0 := by
  have hPassing : ∀ j ≤ 2, ∀ fs,
      (Scheduler.again work (.store .data 0 0 [1, 2, 3, 4]) j flaky).download.fileSet = some fs →
        fs.storage.Passing := by
    intro j hj fs hfs
    have hCases : j = 0 ∨ j = 1 ∨ j = 2 := by omega
    rcases hCases with rfl | rfl | rfl
    all_goals
      obtain rfl := Option.some.inj hfs
      exact .scripted (by decide) (by decide)
  have hRetry : ∀ j < 2, (work (.store .data 0 0 [1, 2, 3, 4])
      (Scheduler.again work (.store .data 0 0 [1, 2, 3, 4]) j flaky)).verdict = .retry := by
    intro j hj
    have hCases : j = 0 ∨ j = 1 := by omega
    rcases hCases with rfl | rfl <;> rfl
  have hAlone : flakyQueue.Alone (.store .data 0 0 [1, 2, 3, 4]) := ⟨⟨_, rfl, rfl⟩, rfl⟩
  obtain ⟨o, disk, s, t, hRun, -, hTurns, hView, hBag, -, hCounts⟩ :=
    failures_invisible.2 (fun t => (t.plain, [])) work _ flaky flakyQueue 3000000000 2 hAlone
      (by decide) (fun j hj => attempts_work (hPassing j hj)) hRetry rfl
  obtain ⟨hAfter, rfl⟩ := Prod.mk.inj hView
  exact ⟨o, s, t, hRun, hTurns, hAfter, hBag, hCounts⟩

end Job

end TorrentEngine
