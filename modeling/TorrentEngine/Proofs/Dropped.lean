import TorrentEngine.Proofs.Calls
import TorrentEngine.Proofs.Labels
import TorrentEngine.Proofs.Requests
import TorrentEngine.Proofs.Worker

/-!
What jobs that are dropped leave behind. A job that is refused for a mistake gives back what waited
for it. A job whose call to the storage is lost, because the range is outside of it or because the
job crashed there, does not: the block of a store stays requested, a check that crashed stays
counted, and a piece whose last check was lost stays all stored with no check to come.
`Job.awaited_iff` says that there are no other ways.
-/

namespace TorrentEngine

/-- Whether the job that made a call is dropped for the reply. -/
def Reply.isLost {α : Type} : Reply α → Bool
  | .done _ => false
  | .failed e => !(JobError.storage e).isRetryable
  | .crashed => true

namespace Job

variable {t : Torrent} {d d' : Download} {kind : FileSetKind} {i b : Nat} {data : Bytes}
  {fs : FileSet} {p : Piece} {block : Block} {others : Multiset Job}

/-- What still waits for a job that is over, where `others` are the outstanding jobs. -/
inductive Awaited (d : Download) (others : Multiset Job) : Job → Prop
  | requested {kind : FileSetKind} {i b : Nat} {data : Bytes}
      (h : d.status? (i, b) = some .requested) : Awaited d others (.store kind i b data)
  | counted {kind : FileSetKind} {i : Nat}
      (h : d.pendingChecks ≠ others.countP fun job => job.isCheck = true) :
      Awaited d others (.check kind i)
  | unchecked {kind : FileSetKind} {i : Nat} {fs : FileSet} {p : Piece}
      (h : StoredPiece d kind i fs p) (hOpen : p.isDone = false)
      (hNone : .check kind i ∉ others) : Awaited d others (.check kind i)

/-- The ways in which a job loses its call to the storage and does not give back what waits for it.
-/
inductive Abandons (t : Torrent) (others : Multiset Job) : Job → Prop
  | store {kind : FileSetKind} {i b : Nat} {data : Bytes} {fs : FileSet} {p : Piece} {block : Block}
      (h : OpenBlock t.download kind i b data.length fs p block)
      (hRequested : block.status = .requested) (hLost : (written t fs p i b data).1.isLost = true) :
      Abandons t others (.store kind i b data)
  | crash {kind : FileSetKind} {i : Nat} {fs : FileSet} {p : Piece}
      (h : StoredPiece t.download kind i fs p) (hCrashed : (readBack t fs p i).1 = .crashed) :
      Abandons t others (.check kind i)
  | check {kind : FileSetKind} {i : Nat} {fs : FileSet} {p : Piece}
      (h : StoredPiece t.download kind i fs p) (hLost : (readBack t fs p i).1.isLost = true)
      (hOpen : p.isDone = false) (hNone : .check kind i ∉ others) :
      Abandons t others (.check kind i)

/-! ### Stores -/

theorem status?_setStorage (t : Torrent) (s : Storage) (x : BlockPlace) :
    (t.setStorage s).download.status? x = t.download.status? x := by
  simp only [Torrent.setStorage, Torrent.change, Download.changeFileSet, Download.status?,
    Option.bind_map]
  rfl

theorem OpenBlock.status?_eq {length : Nat} (h : OpenBlock d kind i b length fs p block) :
    d.status? (i, b) = some block.status := by
  rw [Download.status?, h.fileSet]
  exact FileSet.status?_of_block h.hasPiece h.hasBlock

/-- A store that is refused does not leave its block requested. -/
theorem status?_of_refused {length : Nat} {ended : JobEnd}
    (h : prepareStore d kind i b length = (d', .error ended))
    (hDropped : ended.verdict = .dropped) :
    d'.status? (i, b) ≠ some .requested := by
  rw [prepareStore] at h
  split at h
  · obtain ⟨rfl, rfl⟩ := by simpa using h
    cases hDropped
  · next fs hCurrent =>
    have hfs := (current?_eq_some.mp hCurrent).1
    split at h
    · next hp =>
      obtain ⟨rfl, rfl⟩ := by simpa using h
      simp [Download.status?, hfs, FileSet.status?, FileSet.piece_eq_error hp]
    · next p hp =>
      split at h
      · obtain ⟨rfl, rfl⟩ := by simpa using h
        -- the block is needed again, if it exists at all
        intro hRequested
        rw [Download.status?, Download.changeFileSet, hfs] at hRequested
        obtain ⟨q, block, hq, hb, hStatus⟩ := FileSet.status?_eq_some hRequested
        rw [FileSet.getElem?_setPiece (FileSet.piece_eq_ok.mp hp), if_pos rfl] at hq
        obtain rfl := Option.some.inj hq
        rw [Piece.getElem?_blocks_mark, if_pos rfl] at hb
        obtain ⟨_, -, rfl⟩ := Option.map_eq_some_iff.mp hb
        cases hStatus
      · split at h
        · obtain ⟨rfl, rfl⟩ := by simpa using h
          cases hDropped
        · cases h

/-- A store that loses its write leaves its block as it was. -/
theorem finishStore_dropped {length : Nat} {reply : Reply Unit}
    (h : OpenBlock t.download kind i b length fs p block)
    (hDropped : (finishStore t kind i b length reply).ended.verdict = .dropped) :
    reply.isLost = true ∧ (finishStore t kind i b length reply).after = t := by
  cases reply with
  | done =>
    rw [finishStore, commitStore_eq h] at hDropped
    cases hDropped
  | failed e =>
    refine ⟨?_, rfl⟩
    cases e with
    | io kind => cases hDropped
    | outOfBounds offset length => rfl
  | crashed => exact ⟨rfl, rfl⟩

theorem store_awaited_iff
    (hDropped : (run (.store kind i b data) t).ended.verdict = .dropped) :
    Awaited (run (.store kind i b data) t).after.download others (.store kind i b data) ↔
      Abandons t others (.store kind i b data) := by
  by_cases hOpen : ∃ fs p block, OpenBlock t.download kind i b data.length fs p block
  · obtain ⟨fs, p, block, hOpen⟩ := hOpen
    have hStays : OpenBlock { t with tree := (written t fs p i b data).2.2 }.download kind i b
      data.length fs p block := hOpen
    rw [run_store_of_open hOpen] at hDropped ⊢
    obtain ⟨hLost, hAfter⟩ :=
      finishStore_dropped (hStays.setStorage (written t fs p i b data).2.1) hDropped
    have hStatus := status?_setStorage { t with tree := (written t fs p i b data).2.2 }
      (written t fs p i b data).2.1 (i, b)
    rw [hAfter]
    constructor
    · rintro ⟨hRequested⟩
      have hBlock := (hStatus.trans hStays.status?_eq).symm.trans hRequested
      exact .store hOpen (Option.some.inj hBlock) hLost
    · rintro ⟨hOpen', hRequested, -⟩
      exact .requested (hStatus.trans (hOpen'.status?_eq.trans (congrArg some hRequested)))
  · have hClosed : ∀ fs p block, ¬ OpenBlock t.download kind i b data.length fs p block :=
      fun fs p block h => hOpen ⟨fs, p, block, h⟩
    obtain ⟨d, ended, hPrepared, hRun⟩ := run_store_of_closed hClosed
    rw [hRun] at hDropped ⊢
    constructor
    · rintro ⟨hRequested⟩
      exact absurd hRequested (status?_of_refused hPrepared hDropped)
    · rintro ⟨h, -, -⟩
      exact absurd h (hClosed _ _ _)

/-! ### Checks -/

/-- A check that loses its read is counted off unless it crashed. -/
theorem finishCheck_dropped {reply : Reply Bytes} (h : StoredPiece t.download kind i fs p)
    (hLength : ∀ bytes, reply = .done bytes → bytes.length = p.length)
    (hDropped : (finishCheck t kind i reply).ended.verdict = .dropped) :
    reply = .crashed ∧ (finishCheck t kind i reply).after = t ∨
      (∃ e, reply = .failed e) ∧ reply.isLost = true ∧
        (finishCheck t kind i reply).after = t.change (·.endCheck) := by
  cases reply with
  | done bytes =>
    rw [finishCheck, commitCheck_eq h (hLength bytes rfl)] at hDropped
    cases hDropped
  | failed e =>
    cases e with
    | io kind => cases hDropped
    | outOfBounds offset length => exact .inr ⟨⟨_, rfl⟩, rfl, rfl⟩
  | crashed => exact .inl ⟨rfl, rfl⟩

/-- A check submits no other jobs. -/
theorem submitted_check (t : Torrent) (kind : FileSetKind) (i : Nat) :
    (run (.check kind i) t).submitted = [] := by
  by_cases hStored : ∃ fs p, StoredPiece t.download kind i fs p
  · obtain ⟨fs, p, hStored⟩ := hStored
    rw [run_check_of_stored hStored]
    cases (readBack t fs p i).1 with
    | done data =>
      simp only [finishCheck, commitCheck]
      split
      · rfl
      · split <;> rfl
    | failed e => rfl
    | crashed => rfl
  · obtain ⟨d, ended, -, hRun⟩ := run_check_of_open fun fs p h => hStored ⟨fs, p, h⟩
    rw [hRun]

theorem check_awaited_iff
    (hCounted : t.download.pendingChecks = (others.countP fun job => job.isCheck = true) + 1)
    (hDropped : (run (.check kind i) t).ended.verdict = .dropped) :
    Awaited (run (.check kind i) t).after.download others (.check kind i) ↔
      Abandons t others (.check kind i) := by
  by_cases hStored : ∃ fs p, StoredPiece t.download kind i fs p
  · obtain ⟨fs, p, hStored⟩ := hStored
    have hAfter := hStored.setStorage (readBack t fs p i).2
    have hLength : ∀ bytes, (readBack t fs p i).1 = .done bytes → bytes.length = p.length :=
      fun _ => Storage.length_read
    rw [run_check_of_stored hStored] at hDropped ⊢
    obtain ⟨hCrashed, hSame⟩ | ⟨⟨e, hFailed⟩, hLost, hSame⟩ :=
      finishCheck_dropped hAfter hLength hDropped
    · rw [hSame]
      refine ⟨fun _ => .crash hStored hCrashed, fun _ => .counted ?_⟩
      have hSameCount : (t.setStorage (readBack t fs p i).2).download.pendingChecks =
          t.download.pendingChecks := rfl
      omega
    · rw [hSame]
      constructor
      · rintro (⟨_⟩ | hCount | ⟨h, hOpen, hAlone⟩)
        · refine absurd ?_ hCount
          show t.download.pendingChecks - 1 = _
          omega
        · have h : StoredPiece (t.setStorage (readBack t fs p i).2).download kind i _ _ :=
            ⟨h.fileSet, h.kind_eq, h.hasPiece, h.full⟩
          obtain ⟨-, rfl⟩ := hAfter.unique h
          exact .check hStored hLost hOpen hAlone
      · rintro (⟨_⟩ | ⟨h, hCrashed⟩ | ⟨h, -, hOpen, hAlone⟩)
        · obtain ⟨rfl, rfl⟩ := hStored.unique h
          rw [hFailed] at hCrashed
          cases hCrashed
        · obtain ⟨rfl, rfl⟩ := hStored.unique h
          exact .unchecked ⟨hAfter.fileSet, hAfter.kind_eq, hAfter.hasPiece, hAfter.full⟩ hOpen
            hAlone
  · have hOpen : ∀ fs p, ¬ StoredPiece t.download kind i fs p := fun fs p h => hStored ⟨fs, p, h⟩
    obtain ⟨d, ended, hPrepared, hRun⟩ := run_check_of_open hOpen
    obtain ⟨-, rfl, -⟩ := prepareCheck_error hPrepared
    rw [hRun]
    constructor
    · rintro (⟨_⟩ | hCount | ⟨h, -, -⟩)
      · refine absurd ?_ hCount
        show t.download.pendingChecks - 1 = _
        omega
      · exact absurd ⟨h.fileSet, h.kind_eq, h.hasPiece, h.full⟩ (hOpen _ _)
    · rintro (⟨_⟩ | ⟨h, -⟩ | ⟨h, -, -, -⟩)
      · exact absurd h (hOpen _ _)
      · exact absurd h (hOpen _ _)

end Job

/-! ### The worker -/

/-- A turn that drops a job has run it, and leaves the other jobs and those that it submitted. -/
theorem Scheduler.dropped_of_turn {α σ : Type} {run : α → σ → JobRun α σ} {deadline : Time}
    {s s' : Scheduler α} {state state' : σ} {entry : QueuedJob α} {queue : JobQueue α}
    (hPop : s.queue.pop? = some (entry, queue))
    (hTurn : turn? run deadline s state = some (s', state'))
    (hDropped : s'.dropped = s.dropped + 1) :
    state' = (run entry.job state).after ∧ (run entry.job state).verdict = .dropped ∧
      entry.job ::ₘ s'.bag = ((run entry.job state).submitted.map (·.2) : List α) + s.bag := by
  simp only [turn?, hPop] at hTurn
  split at hTurn
  · obtain ⟨rfl, rfl⟩ := Prod.mk.inj (Option.some.inj hTurn)
    obtain ⟨others, hSubmitted⟩ :=
      { s with queue }.wake.submitAll_eq (run entry.job state).submitted
    have hBefore : ({ s with queue }.wake.submitAll (run entry.job state).submitted).dropped =
        s.dropped := by
      rw [hSubmitted]
      rfl
    have hVerdict : (run entry.job state).verdict = .dropped := by
      cases hVerdict : (run entry.job state).verdict with
      | dropped => rfl
      | done | retry =>
        rw [hVerdict] at hDropped
        simp only [settle, hBefore] at hDropped
        omega
    refine ⟨rfl, hVerdict, ?_⟩
    rw [bag_settle_submitAll, if_neg (by rw [hVerdict]; decide), Multiset.zero_add, bag_wake,
      (takes_of_pop hPop).bag, Multiset.add_cons]
  · cases hTurn

namespace Job

/-- When the worker has dropped a job, something still waits for it just if the job was a store
whose write of a requested block was lost, a check that crashed, or a check whose read was lost
while its piece was not verified and had no other check coming. -/
theorem awaited_iff {s s' : Scheduler Job} {t t' : Torrent} {deadline : Time}
    {entry : QueuedJob Job} {queue : JobQueue Job} (hPop : s.queue.pop? = some (entry, queue))
    (hTurn : Scheduler.turn? work deadline s t = some (s', t'))
    (hDropped : s'.dropped = s.dropped + 1)
    (hCounted : entry.job.isCheck = true →
      t.download.pendingChecks = s.bag.countP fun job => job.isCheck = true) :
    entry.job.Awaited t'.download s'.bag ↔ entry.job.Abandons t s'.bag := by
  obtain ⟨rfl, hVerdict, hBag⟩ := Scheduler.dropped_of_turn hPop hTurn hDropped
  cases hJob : entry.job with
  | store kind i b data =>
    rw [hJob] at hVerdict
    exact store_awaited_iff hVerdict
  | check kind i =>
    rw [hJob] at hVerdict hCounted hBag
    refine check_awaited_iff ?_ hVerdict
    have hRest : s.bag = .check kind i ::ₘ s'.bag := by
      rw [work, submitted_check] at hBag
      exact ((Multiset.zero_add _).symm.trans hBag.symm)
    rw [hCounted rfl, hRest]
    exact Multiset.countP_cons_of_pos _ rfl
  | send => exact ⟨nofun, nofun⟩

/-- A torrent of one block, which was requested, with a memory that has no room for it. -/
def roomless : Torrent where
  download :=
    { Download.named Digest.zero 5 with
      fileSet := some
        { kind := .data, pieceLength := 4, totalLength := 4
          pieces := [(Piece.fresh 0 4 Digest.zero 4).mark 0 .requested], storage := .memory [] } }
  events := { capacity := 1 }
  tree := { home := [] }

/-- The store of its block, alone in the queue. -/
def roomlessQueue : Scheduler Job := ({} : Scheduler Job).submit 10 (.store .data 0 0 [1, 2, 3, 4])

/-- The store is dropped, and its block stays requested. -/
theorem awaited_roomless :
    ∃ s t, Scheduler.turn? work 1 roomlessQueue roomless = some (s, t) ∧ s.dropped = 1 ∧
      s.bag = 0 ∧ t.download.status? (0, 0) = some .requested := by
  have hOpen : OpenBlock roomless.download .data 0 0 4
      { kind := .data, pieceLength := 4, totalLength := 4
        pieces := [(Piece.fresh 0 4 Digest.zero 4).mark 0 .requested], storage := .memory [] }
      ((Piece.fresh 0 4 Digest.zero 4).mark 0 .requested)
      { index := 0, size := 4, status := .requested } := ⟨rfl, rfl, rfl, rfl, rfl, rfl⟩
  have hTurn : ∃ s t, Scheduler.turn? work 1 roomlessQueue roomless = some (s, t) ∧
      s.dropped = 1 ∧ s.bag = 0 := ⟨_, _, rfl, rfl, rfl⟩
  obtain ⟨s, t, hTurn, hDropped, hNone⟩ := hTurn
  cases (awaited_iff rfl hTurn hDropped nofun).mpr (.store hOpen rfl rfl) with
  | requested h => exact ⟨s, t, hTurn, hDropped, hNone, h⟩

end Job

end TorrentEngine
