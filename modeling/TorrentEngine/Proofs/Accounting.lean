import TorrentEngine.Proofs.Labels

/-!
The count of checks is exact. As long as devices fail only in passing and no job crashes, the number
of pending checks is the number of outstanding checks of the current file set, and every piece that
is all stored but not verified has a check outstanding.
-/

namespace TorrentEngine

namespace FileSet

variable {fs fs' : FileSet}

/-- Whether a piece is all stored and not verified. -/
def awaits (fs : FileSet) (i : Nat) : Bool :=
  fs.pieces[i]?.any fun p => p.isFullyStored && !p.isDone

theorem awaits_of_piece {i : Nat} {p : Piece} (hp : fs.pieces[i]? = some p) :
    fs.awaits i = (p.isFullyStored && !p.isDone) := by
  rw [awaits, hp, Option.any_some]

theorem piece_of_awaits {i : Nat} (h : fs.awaits i = true) : ∃ p, fs.pieces[i]? = some p := by
  rw [awaits, Option.any_eq_true] at h
  obtain ⟨p, hp, _⟩ := h
  exact ⟨p, hp⟩

theorem awaits_setPiece {i : Nat} {p : Piece} (hp : fs.pieces[i]? = some p) (q : Piece) (j : Nat) :
    (fs.setPiece i q).awaits j =
      if j = i then q.isFullyStored && !q.isDone else fs.awaits j := by
  rw [awaits, getElem?_setPiece hp]
  split
  · rfl
  · rfl

theorem awaits_of_settled (h : fs'.settled = fs.settled) (i : Nat) :
    fs'.awaits i = fs.awaits i := by
  have hReset (f : FileSet) : f.settled.awaits i = f.awaits i := by
    simp only [awaits, settled, List.getElem?_map, Option.any_map,
      Piece.isFullyStored_resetRequested, Piece.isDone_resetRequested]
  rw [← hReset, h, hReset]

theorem awaits_of_isDone {i : Nat} (h : ∀ p, fs.pieces[i]? = some p → p.isDone = true) :
    fs.awaits i = false := by
  rw [awaits]
  cases hp : fs.pieces[i]? with
  | none => rfl
  | some p => simp [h p hp]

theorem awaits_of_open {i b : Nat} {p : Piece} {block : Block} (hp : fs.pieces[i]? = some p)
    (hb : p.blocks[b]? = some block) (h : block.status.isHeld = false) : fs.awaits i = false := by
  rw [awaits_of_piece hp, Piece.not_isFullyStored hb h, Bool.false_and]

/-- Of a content that was just cut nothing is stored. -/
theorem awaits_create {kind : FileSetKind} {pieceLength total blockSize : Nat}
    {digests : List Digest} {storage : Storage}
    (h : create kind pieceLength total digests blockSize storage = .ok fs) (i : Nat) :
    fs.awaits i = false := by
  rw [Bool.eq_false_iff]
  intro hAwaits
  obtain ⟨p, hp⟩ := piece_of_awaits hAwaits
  obtain ⟨block, hb, hNeeded⟩ := needed_create h hp
  rw [awaits_of_open hp hb (by rw [hNeeded]; rfl)] at hAwaits
  cases hAwaits

end FileSet

namespace Session

variable {fs : FileSet} {i : Nat}

/-- A piece that was taken for stored is one of those that were not verified. -/
theorem mem_unverified (h : (setUnverified .stored fs).awaits i = true) : i ∈ unverified fs := by
  rw [FileSet.awaits, getElem?_setUnverified, Option.any_map, Option.any_eq_true] at h
  obtain ⟨p, hp, h⟩ := h
  have hDone : p.isDone = false := by
    by_contra hDone
    simp_all
  exact mem_unverified_iff.mpr ⟨p, hp, hDone⟩

/-- After a check of the disk no piece awaits one. -/
theorem awaits_setUnverified {blockSize : Nat} {digests : List Digest}
    (hCut : fs.CutFrom blockSize digests) : (setUnverified .needed fs).awaits i = false := by
  rw [FileSet.awaits, getElem?_setUnverified]
  cases hp : fs.pieces[i]? with
  | none => rfl
  | some p =>
    rw [Option.map_some, Option.any_some]
    split
    · next hDone => simp [hDone]
    · have hPos := hCut.blocks_pos hp
      have hNeeded : (setAll .needed p).blocks[0]? =
          some { p.blocks[0] with status := .needed } := by
        rw [setAll, List.getElem?_map, List.getElem?_eq_getElem hPos, Option.map_some]
      rw [Piece.not_isFullyStored hNeeded rfl, Bool.false_and]

end Session

/-- The outstanding checks. -/
def View.checks (v : View) : Multiset Job := v.jobs.filter fun job => job.isCheck = true

theorem View.mem_checks {v : View} {kind : FileSetKind} {i : Nat} :
    .check kind i ∈ v.checks ↔ .check kind i ∈ v.jobs := by
  rw [checks, Multiset.mem_filter]
  exact and_iff_left rfl

/-- The count of checks is right: it is the number of outstanding checks, a piece of the content
that awaits a check has one outstanding, and a piece of the metadata has one exactly as long as it
awaits it. -/
structure Counted (v : View) : Prop where
  count : v.download.pendingChecks = v.checks.card
  awaited : ∀ fs i p, v.download.fileSet = some fs → fs.kind = .data → fs.pieces[i]? = some p →
    fs.awaits i = true → i * fs.pieceLength + p.length ≤ v.disk.length →
    .check .data i ∈ v.checks
  single : ∀ fs i, v.download.fileSet = some fs → fs.kind = .metadata →
    v.checks.count (.check .metadata i) = if fs.awaits i then 1 else 0

/-- `d'` has the file set of `d` further on, with the same pieces awaiting a check but for piece
`i`. -/
structure Download.KeepsBut (d d' : Download) (i : Nat) : Prop where
  keeps : d.Keeps d'
  awaits : ∀ fs fs', d.fileSet = some fs → d'.fileSet = some fs' → ∀ j, j ≠ i →
    fs'.awaits j = fs.awaits j

namespace Counted

variable {v v' : View}

/-- What a piece is after a step, it was before. -/
theorem piece_before (hKeeps : v.download.Keeps v'.download) {fs' : FileSet} {i : Nat} {p' : Piece}
    (hfs' : v'.download.fileSet = some fs') (hp' : fs'.pieces[i]? = some p') :
    ∃ fs p, v.download.fileSet = some fs ∧ fs'.kind = fs.kind ∧
      fs'.pieceLength = fs.pieceLength ∧ fs.pieces[i]? = some p ∧ p'.length = p.length := by
  cases hKeeps with
  | none _ _ hNone =>
    rw [hfs'] at hNone
    cases hNone
  | some _ hfs hSome hCut _ =>
    obtain rfl := Option.some.inj (hSome.symm.trans hfs')
    obtain ⟨p, hp, hOutline⟩ := FileSet.piece_of_outlines hCut.outlines_eq hp'
    exact ⟨_, p, hfs, hCut.kind_eq, hCut.pieceLength_eq, hp, Piece.length_of_outline hOutline⟩

/-- A step that neither asks for nor ends a check. -/
theorem calm (h : Counted v) (hKeeps : v.download.Keeps v'.download)
    (hAwaits : ∀ fs fs', v.download.fileSet = some fs → v'.download.fileSet = some fs' →
      ∀ i, fs'.awaits i = fs.awaits i)
    (hPending : v'.download.pendingChecks = v.download.pendingChecks)
    (hChecks : v'.checks = v.checks) (hDisk : v'.disk.length = v.disk.length) : Counted v' := by
  refine ⟨?_, ?_, ?_⟩
  · rw [hPending, hChecks, h.count]
  · intro fs' i p' hfs' hData hp' hWaits hInside
    obtain ⟨fs, p, hfs, hKind, hLength, hp, hSize⟩ := piece_before hKeeps hfs' hp'
    rw [hAwaits fs fs' hfs hfs'] at hWaits
    rw [hLength, hSize, hDisk] at hInside
    rw [hChecks]
    exact h.awaited fs i p hfs (hKind.symm.trans hData) hp hWaits hInside
  · intro fs' i hfs' hMetadata
    cases hKeeps with
    | none _ _ hNone =>
      rw [hfs'] at hNone
      cases hNone
    | some _ hfs hSome hCut _ =>
      obtain rfl := Option.some.inj (hSome.symm.trans hfs')
      rw [hChecks, hAwaits _ _ hfs hfs']
      exact h.single _ i hfs (hCut.kind_eq.symm.trans hMetadata)

/-- A step that ends a check of a piece that no longer awaits one, or cannot be read. -/
theorem finished (h : Counted v) {kind : FileSetKind} {i : Nat}
    (hKeeps : v.download.KeepsBut v'.download i)
    (hPending : v'.download.pendingChecks = v.download.pendingChecks - 1)
    (hChecks : v.checks = .check kind i ::ₘ v'.checks) (hKind : v.download.kind? = some kind)
    (hEnds : ∀ fs' p', v'.download.fileSet = some fs' → fs'.pieces[i]? = some p' →
      fs'.awaits i = true → fs'.kind = .data ∧ v'.disk.length < i * fs'.pieceLength + p'.length)
    (hDisk : v'.disk.length = v.disk.length) : Counted v' := by
  refine ⟨?_, ?_, ?_⟩
  · rw [hPending, h.count, hChecks, Multiset.card_cons, Nat.add_sub_cancel]
  · intro fs' j p' hfs' hData hp' hWaits hInside
    by_cases hj : j = i
    · subst hj
      have := (hEnds fs' p' hfs' hp' hWaits).2
      omega
    · obtain ⟨fs, p, hfs, hSame, hLength, hp, hSize⟩ := piece_before hKeeps.keeps hfs' hp'
      rw [hKeeps.awaits fs fs' hfs hfs' j hj] at hWaits
      rw [hLength, hSize, hDisk] at hInside
      have hMem := h.awaited fs j p hfs (hSame.symm.trans hData) hp hWaits hInside
      rw [hChecks] at hMem
      rcases Multiset.mem_cons.mp hMem with hEq | hMem
      · cases hEq
        exact absurd rfl hj
      · exact hMem
  · intro fs' j hfs' hMetadata
    cases hKeeps.keeps with
    | none _ _ hNone =>
      rw [hfs'] at hNone
      cases hNone
    | @some fs after _ hfs hSome hCut _ =>
      obtain rfl : after = fs' := Option.some.inj (hSome.symm.trans hfs')
      have hSingle := h.single fs j hfs (hCut.kind_eq.symm.trans hMetadata)
      rw [hChecks] at hSingle
      by_cases hj : j = i
      · subst hj
        have hEnded : after.awaits j = false := by
          rw [Bool.eq_false_iff]
          intro hWaits
          obtain ⟨p', hp'⟩ := FileSet.piece_of_awaits hWaits
          rw [(hEnds _ p' hfs' hp' hWaits).1] at hMetadata
          cases hMetadata
        have hKindEq : kind = .metadata := by
          rw [Download.kind?, hfs, Option.map_some, ← hCut.kind_eq, hMetadata] at hKind
          exact (Option.some.inj hKind).symm
        rw [hKindEq, Multiset.count_cons_self] at hSingle
        rw [hEnded]
        split at hSingle
        · simpa using hSingle
        · cases hSingle
      · have hOther : Job.check .metadata j ≠ .check kind i := by
          intro hEq
          cases hEq
          exact hj rfl
        rw [Multiset.count_cons_of_ne hOther] at hSingle
        rw [hKeeps.awaits fs _ hfs hfs' j hj]
        exact hSingle

/-- A step that asks for a check of a piece that awaits one from now on. -/
theorem asked (h : Counted v) {kind : FileSetKind} {i : Nat}
    (hKeeps : v.download.KeepsBut v'.download i)
    (hPending : v'.download.pendingChecks = v.download.pendingChecks + 1)
    (hChecks : v'.checks = .check kind i ::ₘ v.checks) (hKind : v.download.kind? = some kind)
    (hBefore : ∀ fs, v.download.fileSet = some fs → fs.awaits i = false)
    (hAfter : ∀ fs', v'.download.fileSet = some fs' → fs'.awaits i = true)
    (hDisk : v'.disk.length = v.disk.length) : Counted v' := by
  refine ⟨?_, ?_, ?_⟩
  · rw [hPending, h.count, hChecks, Multiset.card_cons]
  · intro fs' j p' hfs' hData hp' hWaits hInside
    obtain ⟨fs, p, hfs, hSame, hLength, hp, hSize⟩ := piece_before hKeeps.keeps hfs' hp'
    rw [hChecks]
    by_cases hj : j = i
    · rw [Download.kind?, hfs, Option.map_some, ← hSame, hData] at hKind
      rw [hj, ← Option.some.inj hKind]
      exact Multiset.mem_cons_self _ _
    · rw [hKeeps.awaits fs fs' hfs hfs' j hj] at hWaits
      rw [hLength, hSize, hDisk] at hInside
      exact Multiset.mem_cons_of_mem
        (h.awaited fs j p hfs (hSame.symm.trans hData) hp hWaits hInside)
  · intro fs' j hfs' hMetadata
    cases hKeeps.keeps with
    | none _ _ hNone =>
      rw [hfs'] at hNone
      cases hNone
    | @some fs after _ hfs hSome hCut _ =>
      obtain rfl : after = fs' := Option.some.inj (hSome.symm.trans hfs')
      have hSingle := h.single fs j hfs (hCut.kind_eq.symm.trans hMetadata)
      rw [hChecks]
      by_cases hj : j = i
      · subst hj
        have hKindEq : kind = .metadata := by
          rw [Download.kind?, hfs, Option.map_some, ← hCut.kind_eq, hMetadata] at hKind
          exact (Option.some.inj hKind).symm
        rw [hKindEq, Multiset.count_cons_self, hSingle, hBefore fs hfs, hAfter after hfs']
        rfl
      · have hOther : Job.check .metadata j ≠ .check kind i := by
          intro hEq
          cases hEq
          exact hj rfl
        rw [Multiset.count_cons_of_ne hOther, hKeeps.awaits fs after hfs hfs' j hj]
        exact hSingle

/-! ### Runs of jobs -/

theorem keepsBut_setPiece {d d' : Download} {fs fs' : FileSet} {i : Nat} {p q : Piece}
    (hKeeps : d.Keeps d') (hfs : d.fileSet = some fs) (hfs' : d'.fileSet = some fs')
    (hPieces : fs'.pieces = (fs.setPiece i q).pieces) (hp : fs.pieces[i]? = some p) :
    d.KeepsBut d' i := by
  refine ⟨hKeeps, fun before after hBefore hAfter j hj => ?_⟩
  obtain rfl := Option.some.inj (hfs.symm.trans hBefore)
  obtain rfl := Option.some.inj (hfs'.symm.trans hAfter)
  have hSet := FileSet.awaits_setPiece hp q j
  rw [if_neg hj] at hSet
  rw [← hSet, FileSet.awaits, FileSet.awaits, hPieces]

theorem keepsBut_endCheck (d : Download) (i : Nat) : d.KeepsBut d.endCheck i := by
  have hKeeps : d.Keeps d.endCheck := by
    apply Download.keeps_of_fileSet
    · rfl
    · rfl
  refine ⟨hKeeps, fun fs fs' hfs hfs' j _ => ?_⟩
  have hSame : d.fileSet = some fs' := hfs'
  rw [Option.some.inj (hfs.symm.trans hSame)]

/-- The outstanding checks after a run of a job that is no check. -/
theorem checks_of_left {job : Job} {rest left : Multiset Job} {d : Download} {disk : Bytes}
    (hJobs : v.jobs = job ::ₘ rest) (hJob : job.isCheck = false) (hLeft : left ≤ {job}) :
    View.checks { v with download := d, jobs := left + rest, disk } = v.checks := by
  have hNone : left.filter (fun job => job.isCheck = true) = 0 := by
    rw [Multiset.filter_eq_nil]
    intro job' hMem
    rw [Multiset.mem_singleton.mp (Multiset.mem_of_le hLeft hMem), hJob]
    decide
  simp only [View.checks, hJobs, Multiset.filter_add, hNone, Multiset.zero_add]
  rw [Multiset.filter_cons_of_neg]
  rw [hJob]
  decide

/-- The outstanding checks before a run of a check that leaves nothing. -/
theorem checks_of_check {kind : FileSetKind} {i : Nat} {rest : Multiset Job} {d : Download}
    {disk : Bytes} (hJobs : v.jobs = .check kind i ::ₘ rest) :
    v.checks = .check kind i ::ₘ View.checks { v with download := d, jobs := 0 + rest, disk } := by
  simp only [View.checks, hJobs, Multiset.zero_add]
  rw [Multiset.filter_cons_of_pos]
  rfl

/-- A check whose piece cannot be read is not one of a piece inside the storage. -/
theorem outside_data {fs : FileSet} {i : Nat} {p : Piece} (hFramed : Framed v)
    (hfs : v.download.fileSet = some fs) (hp : fs.pieces[i]? = some p)
    (hOutside : (fs.storage.content v.disk).length < i * fs.pieceLength + p.length) :
    fs.kind = .data ∧ v.disk.length < i * fs.pieceLength + p.length := by
  obtain ⟨blockSize, digests, hCut, _⟩ := hFramed.cut fs hfs
  have hHoused := hFramed.housed fs hfs
  have hEnd := hCut.end_le hp
  cases hKind : fs.kind with
  | metadata =>
    simp only [FileSet.Housed, hKind] at hHoused
    obtain ⟨b, hMemory, hTotal⟩ := hHoused
    rw [hMemory] at hOutside
    simp only [Storage.content] at hOutside
    omega
  | data =>
    simp only [FileSet.Housed, hKind] at hHoused
    obtain ⟨layout, hDisk⟩ := hHoused
    rw [hDisk] at hOutside
    exact ⟨rfl, hOutside⟩

theorem storedPiece_of_awaits {kind : FileSetKind} {fs : FileSet} {i : Nat} {p : Piece}
    (hfs : v.download.fileSet = some fs) (hKind : v.download.kind? = some kind)
    (hp : fs.pieces[i]? = some p) (h : fs.awaits i = true) :
    Job.StoredPiece v.download kind i fs p := by
  rw [FileSet.awaits_of_piece hp, Bool.and_eq_true] at h
  rw [Download.kind?, hfs, Option.map_some] at hKind
  exact ⟨hfs, Option.some.inj hKind, hp, h.1⟩

/-- A block that was stored asks for a check exactly if its piece is all stored with it. -/
theorem stored {kind : FileSetKind} {i b : Nat} {data disk : Bytes} {d : Download}
    {fs fs' : FileSet} {p : Piece} {block : Block} {rest : Multiset Job} (h : Counted v)
    (hKeeps : v.download.Keeps d) (hDisk : disk.length = v.disk.length)
    (hJobs : v.jobs = .store kind i b data ::ₘ rest)
    (hOpen : Job.OpenBlock v.download kind i b data.length fs p block)
    (hfs' : d.fileSet = some fs')
    (hPieces : fs'.pieces = (fs.setPiece i (p.mark b .stored)).pieces)
    (hPending : d.pendingChecks =
      v.download.pendingChecks + if (p.mark b .stored).isFullyStored then 1 else 0) :
    Counted { v with
      download := d
      jobs := (if (p.mark b .stored).isFullyStored then {.check kind i} else 0) + rest
      disk } := by
  have hBut := keepsBut_setPiece hKeeps hOpen.fileSet hfs' hPieces hOpen.hasPiece
  have hBefore : fs.awaits i = false :=
    FileSet.awaits_of_open hOpen.hasPiece hOpen.hasBlock hOpen.notHeld
  have hNotDone : (p.mark b .stored).isDone = false := by
    rw [Bool.eq_false_iff]
    intro hDone
    have hFull := Piece.isFullyStored_of_isDone (Piece.isDone_of_mark (by decide) hDone)
    rw [Piece.not_isFullyStored hOpen.hasBlock hOpen.notHeld] at hFull
    cases hFull
  have hAfter : fs'.awaits i = (p.mark b .stored).isFullyStored := by
    have hMarked := FileSet.awaits_setPiece hOpen.hasPiece (p.mark b .stored) i
    rw [if_pos rfl, hNotDone, Bool.not_false, Bool.and_true] at hMarked
    rw [← hMarked, FileSet.awaits, FileSet.awaits, hPieces]
  have hRest : View.checks { v with jobs := 0 + rest } = v.checks :=
    checks_of_left hJobs rfl (Multiset.zero_le _)
  cases hFull : (p.mark b .stored).isFullyStored with
  | true =>
    rw [hFull] at hPending hAfter
    have hKind : v.download.kind? = some kind := by
      rw [Download.kind?, hOpen.fileSet, Option.map_some, hOpen.kind_eq]
    refine h.asked hBut hPending ?_ hKind ?_ ?_ hDisk
    · rw [← hRest]
      simp only [View.checks, Multiset.filter_add, Multiset.zero_add]
      rfl
    · intro before hfs
      rw [← Option.some.inj (hOpen.fileSet.symm.trans hfs), hBefore]
    · intro after hAfter'
      rw [← Option.some.inj (hfs'.symm.trans hAfter'), hAfter]
  | false =>
    rw [hFull] at hPending hAfter
    refine h.calm hKeeps (fun before after hfs hAfter' j => ?_) hPending hRest hDisk
    obtain rfl := Option.some.inj (hOpen.fileSet.symm.trans hfs)
    obtain rfl := Option.some.inj (hfs'.symm.trans hAfter')
    by_cases hj : j = i
    · rw [hj, hBefore, hAfter]
    · exact hBut.awaits _ _ hfs hfs' j hj

/-- A run of a job keeps the count right, if its device fails only in passing. -/
theorem turns {job : Job} {rest left : Multiset Job} {d : Download} {disk : Bytes} (h : Counted v)
    (hFramed : Framed v) (hLabelled : Labelled v) (hJobs : v.jobs = job ::ₘ rest)
    (hTurn : Job.Turns Miss.Transient v.download v.disk job d disk left) :
    Counted { v with download := d, jobs := left + rest, disk } := by
  have hKeeps := hTurn.keeps
  have hDisk := hTurn.length_disk
  have hSelf : job ∈ v.jobs := by
    rw [hJobs]
    exact Multiset.mem_cons_self job rest
  cases hTurn with
  | storeIdle =>
    refine h.calm hKeeps (fun fs fs' hfs hfs' i => ?_) rfl
      (checks_of_left hJobs rfl (Multiset.zero_le _)) hDisk
    rw [Option.some.inj (hfs.symm.trans hfs')]
  | storeMisfit hCurrent hp hMisfit =>
    rcases hLabelled.stores _ _ _ _ hSelf with hFits | ⟨rfl, hData⟩
    · cases hFits with
      | store hCurrent' hp' hBlock =>
        obtain rfl := Option.some.inj (hCurrent.symm.trans hCurrent')
        obtain rfl := Option.some.inj (hp.symm.trans hp')
        exact absurd hBlock hMisfit
    · obtain ⟨hfs, hKind⟩ := Job.current?_eq_some.mp hCurrent
      rw [Download.kind?, hfs, Option.map_some, hKind] at hData
      cases hData
  | storeMissed hOpen hContent hLeft =>
    refine h.calm hKeeps (fun fs fs' hfs hfs' i => ?_) rfl
      (checks_of_left hJobs rfl hLeft) hDisk
    obtain rfl := Option.some.inj (hOpen.fileSet.symm.trans hfs)
    obtain rfl := Option.some.inj hfs'
    rfl
  | stored hOpen hInside => exact h.stored hKeeps hDisk hJobs hOpen rfl rfl rfl
  | @checkVoid kind i hVoid =>
    have hKind := hLabelled.checks _ _ hSelf
    refine h.finished (keepsBut_endCheck _ i) rfl (checks_of_check hJobs) hKind ?_ hDisk
    intro fs p hfs hp hWaits
    have hCurrent : v.download.fileSet = some fs := hfs
    exact absurd (storedPiece_of_awaits hCurrent hKind hp hWaits) (hVoid fs p)
  | checkRetried hStored hMay =>
    have hSame : ({_} : Multiset Job) + rest = v.jobs := hJobs.symm
    rw [hSame]
    exact h
  | @checkFailed kind i _ _ _ _ hStored hOutside =>
    have hKind := hLabelled.checks _ _ hSelf
    refine h.finished (keepsBut_endCheck _ i) rfl (checks_of_check hJobs) hKind ?_ hDisk
    intro fs p hfs hp _
    obtain rfl := Option.some.inj (hStored.fileSet.symm.trans hfs)
    obtain rfl := Option.some.inj (hStored.hasPiece.symm.trans hp)
    rcases hOutside with hOutside | hMay
    · exact outside_data (v := v) hFramed hStored.fileSet hp hOutside
    · cases hMay
  | checkCrashed _ hMay => cases hMay
  | @verified kind i fs p hStored =>
    have hKind := hLabelled.checks _ _ hSelf
    refine h.finished (keepsBut_setPiece hKeeps hStored.fileSet rfl rfl hStored.hasPiece) rfl
      (checks_of_check hJobs) hKind ?_ hDisk
    intro fs' p' hfs' _ hWaits
    obtain rfl := Option.some.inj hfs'
    rw [FileSet.awaits_setPiece hStored.hasPiece, if_pos rfl, Piece.isDone_markVerified,
      Bool.not_true, Bool.and_false] at hWaits
    cases hWaits
  | @mismatched kind i fs p hStored =>
    have hKind := hLabelled.checks _ _ hSelf
    refine h.finished (keepsBut_setPiece hKeeps hStored.fileSet rfl rfl hStored.hasPiece) rfl
      (checks_of_check hJobs) hKind ?_ hDisk
    intro fs' p' hfs' _ hWaits
    obtain rfl := Option.some.inj hfs'
    obtain ⟨blockSize, digests, hCut, _⟩ := hFramed.cut fs hStored.fileSet
    have hCursor := hCut.cursors p (List.mem_of_getElem? hStored.hasPiece)
    rw [FileSet.awaits_setPiece hStored.hasPiece, if_pos rfl,
      Piece.not_isFullyStored_reopen hCursor, Bool.false_and] at hWaits
    cases hWaits
  | sent hCore hLeft =>
    have hPending : d.pendingChecks = v.download.pendingChecks := by
      change d.core.pendingChecks = v.download.core.pendingChecks
      rw [hCore]
    refine h.calm hKeeps (fun fs fs' hfs hfs' i => ?_) hPending
      (checks_of_left hJobs rfl hLeft) hDisk
    obtain ⟨before, hBefore, hSettled⟩ := Download.fileSet_of_core hCore hfs'
    obtain rfl := Option.some.inj (hfs.symm.trans hBefore)
    exact FileSet.awaits_of_settled hSettled i

/-! ### Steps -/

/-- Metadata that are done have no check outstanding. -/
theorem no_checks (h : Counted v) (hFramed : Framed v) (hLabelled : Labelled v)
    (hPhase : v.phase = .metadata) (hDone : PhaseId.isDone .metadata v.download = true) :
    ∀ kind i, .check kind i ∉ v.jobs := by
  intro kind i hMem
  have hKind := hFramed.kind_eq
  rw [hPhase, hLabelled.checks kind i hMem] at hKind
  obtain rfl : kind = .metadata := Option.some.inj hKind
  simp only [PhaseId.isDone, Bool.and_eq_true, Option.any_eq_true, beq_iff_eq] at hDone
  obtain ⟨_, fs, hfs, hMetadata, hAll⟩ := hDone
  have hAwaits : fs.awaits i = false :=
    FileSet.awaits_of_isDone fun p hp => List.all_eq_true.mp hAll p (List.mem_of_getElem? hp)
  have hCount := h.single fs i hfs hMetadata
  rw [hAwaits] at hCount
  exact Multiset.count_eq_zero.mp hCount (View.mem_checks.mpr hMem)

theorem checks_eq_zero (hNone : ∀ kind i, .check kind i ∉ v.jobs) : v.checks = 0 := by
  rw [View.checks, Multiset.filter_eq_nil]
  intro job hMem hCheck
  cases job with
  | check kind i => exact hNone kind i hMem
  | _ => cases hCheck

theorem moved {c : PhaseConfig} {phase : PhaseId} {d : Download} (h : Counted v)
    (hFramed : Framed v) (hLabelled : Labelled v)
    (hMoves : PhaseId.Moves c v.download v.phase phase d) :
    Counted { v with phase, download := d } := by
  have hKind := hFramed.kind_eq
  have hNone := h.no_checks hFramed hLabelled
  obtain ⟨current, download, jobs, disk, verifying⟩ := v
  cases hMoves with
  | @toMetadata fs hfs =>
    have hZero := checks_eq_zero fun kind i hMem => by
      cases hKind.symm.trans (hLabelled.checks kind i hMem)
    obtain ⟨b, created, hCreated, hEq⟩ := PhaseId.metadataFileSet_ok hfs
    refine ⟨h.count, ?_, ?_⟩
    · intro fs' i p hfs' hData
      obtain rfl := Option.some.inj hfs'
      obtain ⟨_, _, rfl⟩ := FileSet.create_eq_ok hCreated
      rcases hEq with rfl | rfl <;> cases hData
    · intro fs' i hfs' _
      obtain rfl := Option.some.inj hfs'
      have hAwaits : fs.awaits i = false := by
        rcases hEq with rfl | rfl
        · exact FileSet.awaits_create hCreated i
        · refine FileSet.awaits_of_isDone fun p hp => ?_
          obtain ⟨q, _, rfl⟩ := List.mem_map.mp (List.mem_of_getElem? hp)
          exact Piece.isDone_markVerified q
      rw [hAwaits]
      have hCount : Multiset.count (Job.check .metadata i) 0 = 0 := Multiset.count_zero _
      rw [← hZero] at hCount
      exact hCount
  | @toData m fs hDone _ hfs =>
    have hZero := checks_eq_zero (hNone rfl hDone)
    have hCreated := PhaseId.forTorrent_ok hfs
    refine ⟨?_, ?_, ?_⟩
    · have hCard : Multiset.card (0 : Multiset Job) = 0 := Multiset.card_zero
      rw [← hZero] at hCard
      exact hCard.symm
    · intro fs' i p hfs' _ _ hWaits
      obtain rfl := Option.some.inj hfs'
      rw [FileSet.awaits_create hCreated i] at hWaits
      cases hWaits
    · intro fs' i hfs' hMetadata
      obtain rfl := Option.some.inj hfs'
      obtain ⟨_, _, rfl⟩ := FileSet.create_eq_ok hCreated
      cases hMetadata
  | toSeed => exact ⟨h.count, h.awaited, h.single⟩

/-- Steps keep the count right, if devices fail only in passing. -/
theorem change {c : PhaseConfig} (h : Counted v) (hFramed : Framed v) (hLabelled : Labelled v)
    (hChange : Change c Miss.Transient v v') : Counted v' := by
  cases hChange with
  | @quiet d added hCore hFits =>
    have hPending : d.pendingChecks = v.download.pendingChecks := by
      change d.core.pendingChecks = v.download.core.pendingChecks
      rw [hCore]
    have hAdded : added.filter (fun job => job.isCheck = true) = 0 := by
      rw [Multiset.filter_eq_nil]
      intro job hMem
      rw [(hFits job hMem).not_isCheck]
      decide
    refine h.calm (Download.keeps_of_core hCore) (fun fs fs' hfs hfs' i => ?_) hPending ?_ rfl
    · obtain ⟨before, hBefore, hSettled⟩ := Download.fileSet_of_core hCore hfs'
      obtain rfl := Option.some.inj (hfs.symm.trans hBefore)
      exact FileSet.awaits_of_settled hSettled i
    · rw [View.checks, Multiset.filter_add, hAdded, Multiset.zero_add]
      rfl
  | moved hMoves => exact h.moved hFramed hLabelled hMoves
  | @begun fs hCurrent =>
    obtain ⟨hfs, hData⟩ := Job.current?_eq_some.mp hCurrent
    have hAdded : Multiset.filter (fun job => job.isCheck = true)
        ((Session.unverified fs).map (Job.check .data) : Multiset Job) =
        ((Session.unverified fs).map (Job.check .data) : List Job) := by
      rw [Multiset.filter_eq_self]
      intro job hMem
      obtain ⟨i, _, rfl⟩ := List.mem_map.mp (Multiset.mem_coe.mp hMem)
      rfl
    refine ⟨?_, ?_, ?_⟩
    · simp only [View.checks, Multiset.filter_add, Multiset.card_add, hAdded, Multiset.coe_card,
        List.length_map]
      rw [h.count, Nat.add_comm]
      rfl
    · intro fs' i p hfs' _ _ hWaits _
      obtain rfl := Option.some.inj hfs'
      rw [View.mem_checks]
      refine Multiset.mem_add.mpr (.inl (Multiset.mem_coe.mpr ?_))
      exact List.mem_map_of_mem (Session.mem_unverified hWaits)
    · intro fs' i hfs' hMetadata
      obtain rfl := Option.some.inj hfs'
      cases hData.symm.trans hMetadata
  | @ended fs hfs hBegun =>
    have hData := hLabelled.verifying hBegun
    rw [Download.kind?, hfs, Option.map_some] at hData
    obtain ⟨blockSize, digests, hCut, _⟩ := hFramed.cut fs hfs
    refine ⟨h.count, ?_, ?_⟩
    · intro fs' i p hfs' _ _ hWaits
      obtain rfl := Option.some.inj hfs'
      rw [Session.awaits_setUnverified hCut] at hWaits
      cases hWaits
    · intro fs' i hfs' hMetadata
      obtain rfl := Option.some.inj hfs'
      cases (Option.some.inj hData).symm.trans hMetadata
  | executed hJobs hTurn => exact h.turns hFramed hLabelled hJobs hTurn

end Counted

namespace World

variable {c : PhaseConfig} {w : World}

theorem Reachable.counted (h : Reachable c Miss.Transient w) :
    Framed w.view ∧ Labelled w.view ∧ Counted w.view := by
  refine h.view_induction (motive := fun v => Framed v ∧ Labelled v ∧ Counted v) ?_ ?_
  · intro w hFresh
    have hJobs : w.view.jobs = 0 := hFresh.noJobs
    have hNone : w.view.download.fileSet = none := hFresh.fileSet_eq
    refine ⟨hFresh.framed, ⟨?_, ?_, ?_⟩, ⟨?_, ?_, ?_⟩⟩
    · intro kind i hMem
      rw [hJobs] at hMem
      cases Multiset.notMem_zero _ hMem
    · intro kind i b data hMem
      rw [hJobs] at hMem
      cases Multiset.notMem_zero _ hMem
    · intro hPos
      have hZero : w.view.verifying = 0 := hFresh.notVerifying
      omega
    · rw [View.checks, hJobs, Multiset.filter_zero, Multiset.card_zero]
      exact hFresh.pendingChecks_eq
    · intro fs i p hfs
      rw [hNone] at hfs
      cases hfs
    · intro fs i hfs
      rw [hNone] at hfs
      cases hfs
  · intro v v' ⟨hFramed, hLabelled, hCounted⟩ hChange
    exact ⟨hFramed.change hChange,
      hLabelled.change hFramed (hCounted.no_checks hFramed hLabelled) hChange,
      hCounted.change hFramed hLabelled hChange⟩

/-- Whether a job is a check of a kind. -/
def isCheckOf (kind : FileSetKind) : Job → Bool
  | .check k _ => k == kind
  | _ => false

/-- The count of checks is exact in every world that is reached while devices fail only in passing:
it is the number of outstanding checks of the current file set, no check of another one is
outstanding, and a piece that is all stored but not verified has a check outstanding if the disk
holds the content. -/
theorem Reachable.checks_counted (h : Reachable c Miss.Transient w) :
    (∀ fs, w.download.fileSet = some fs →
      w.download.pendingChecks = w.jobs.countP (fun job => isCheckOf fs.kind job = true)) ∧
    (w.download.fileSet = none → w.download.pendingChecks = 0) ∧
    (∀ fs, w.download.fileSet = some fs → ∀ kind i, .check kind i ∈ w.jobs → kind = fs.kind) ∧
    (∀ fs, w.download.fileSet = some fs → (fs.kind = .data → fs.totalLength ≤ w.disk.length) →
      ∀ p ∈ fs.pieces, p.isFullyStored = true → p.isDone = false →
        .check fs.kind p.index ∈ w.jobs) := by
  obtain ⟨hFramed, hLabelled, hCounted⟩ := h.counted
  have hOther : ∀ fs, w.download.fileSet = some fs → ∀ kind i, .check kind i ∈ w.jobs →
      kind = fs.kind := by
    intro fs hfs kind i hMem
    have hKind : w.download.kind? = some kind := hLabelled.checks kind i hMem
    rw [Download.kind?, hfs, Option.map_some] at hKind
    exact (Option.some.inj hKind).symm
  refine ⟨?_, ?_, hOther, ?_⟩
  · intro fs hfs
    have hCount : w.download.pendingChecks = w.view.checks.card := hCounted.count
    rw [hCount, View.checks, ← Multiset.countP_eq_card_filter]
    refine Multiset.countP_congr rfl fun job hMem => ?_
    cases job with
    | check kind i => simp [Job.isCheck, isCheckOf, hOther fs hfs kind i hMem]
    | _ => rfl
  · intro hNone
    have hCount : w.download.pendingChecks = w.view.checks.card := hCounted.count
    have hZero := Counted.checks_eq_zero (v := w.view) fun kind i hMem => by
      have hKind : w.download.kind? = some kind := hLabelled.checks kind i hMem
      rw [Download.kind?, hNone] at hKind
      cases hKind
    rw [hCount, hZero, Multiset.card_zero]
  · intro fs hfs hCovered p hp hFull hDone
    obtain ⟨i, hi⟩ := List.getElem?_of_mem hp
    obtain ⟨blockSize, digests, hCut, _⟩ := hFramed.cut fs hfs
    have hAwaits : fs.awaits i = true := by
      rw [FileSet.awaits_of_piece hi, hFull, hDone]
      rfl
    rw [hCut.index_eq hi]
    cases hKind : fs.kind with
    | metadata =>
      have hOne := hCounted.single fs i hfs hKind
      rw [hAwaits, if_pos rfl] at hOne
      have hPos : 0 < w.view.checks.count (.check .metadata i) := by
        rw [hOne]
        exact Nat.one_pos
      exact View.mem_checks.mp (Multiset.count_pos.mp hPos)
    | data =>
      have hEnd := hCut.end_le hi
      have hTotal := hCovered hKind
      exact View.mem_checks.mp (hCounted.awaited fs i p hfs hKind hi hAwaits (hEnd.trans hTotal))

/-- While the disk of the short run is checked, one check is counted: that of the piece. -/
theorem checks_counted_oneByte :
    oneByteChecking.download.pendingChecks = 1 ∧
      oneByteChecking.jobs.countP (fun job => isCheckOf .data job = true) = 1 ∧
      ∃ fs, oneByteChecking.download.fileSet = some fs ∧
        ∃ p ∈ fs.pieces, p.isFullyStored = true ∧ p.isDone = false ∧
          .check fs.kind p.index ∈ oneByteChecking.jobs := by
  have hfs : oneByteChecking.download.fileSet =
      some (Session.setUnverified .stored oneByteContent) := rfl
  obtain ⟨hCount, _, _, hAwaited⟩ := Reachable.checks_counted reachable_oneByteChecking
  refine ⟨rfl, (hCount _ hfs).symm, _, hfs, ?_⟩
  have hPiece : (Session.setUnverified .stored oneByteContent).pieces.any
      (fun p => p.isFullyStored && !p.isDone) = true := by decide +kernel
  obtain ⟨p, hp, hWaits⟩ := List.any_eq_true.mp hPiece
  rw [Bool.and_eq_true, Bool.not_eq_true'] at hWaits
  refine ⟨p, hp, hWaits.1, hWaits.2, ?_⟩
  exact hAwaited _ hfs (fun _ => by decide) p hp hWaits.1 hWaits.2

end World

end TorrentEngine
