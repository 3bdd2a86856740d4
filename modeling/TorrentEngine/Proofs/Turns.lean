import TorrentEngine.Proofs.Device
import TorrentEngine.Proofs.Outstanding
import TorrentEngine.Proofs.Progress

/-!
What one run of a job can do. `Job.Turns` lists the ways in which a job changes the state of the
torrent and the bytes on disk, and what is left outstanding in its place; `Job.Executes.turns` says
that there are no others.
-/

namespace TorrentEngine

namespace Job

theorem current?_eq_some {d : Download} {kind : FileSetKind} {fs : FileSet} :
    current? d kind = some fs ↔ d.fileSet = some fs ∧ fs.kind = kind := by
  simp [current?, Option.filter_eq_some_iff]

/-- Block `b` of piece `i` of the current file set is open to `length` bytes. -/
structure OpenBlock (d : Download) (kind : FileSetKind) (i b length : Nat) (fs : FileSet)
    (p : Piece) (block : Block) : Prop where
  fileSet : d.fileSet = some fs
  kind_eq : fs.kind = kind
  hasPiece : fs.pieces[i]? = some p
  hasBlock : p.blocks[b]? = some block
  size : block.size = length
  notHeld : block.status.isHeld = false

/-- Piece `i` of the current file set is all stored. -/
structure StoredPiece (d : Download) (kind : FileSetKind) (i : Nat) (fs : FileSet) (p : Piece) :
    Prop where
  fileSet : d.fileSet = some fs
  kind_eq : fs.kind = kind
  hasPiece : fs.pieces[i]? = some p
  full : p.isFullyStored = true

/-- The verified metadata once a piece of a kind was verified to be `data`. -/
def learned (d : Download) (data : Bytes) : FileSetKind → Option Bytes
  | .metadata => some data
  | .data => d.metadataBytes

/-- One run of a job: the state and the disk before it, the job, and the state, the disk and the
outstanding jobs in place of this one after it. -/
inductive Turns (may : Miss → Prop) (d : Download) (disk : Bytes) :
    Job → Download → Bytes → Multiset Job → Prop
  | storeIdle {kind : FileSetKind} {i b : Nat} {data : Bytes}
      (h : ∀ fs p block, ¬ OpenBlock d kind i b data.length fs p block) :
      Turns may d disk (.store kind i b data) d disk 0
  | storeMisfit {kind : FileSetKind} {i b : Nat} {data : Bytes} {fs : FileSet} {p : Piece}
      (hfs : current? d kind = some fs) (hp : fs.pieces[i]? = some p)
      (h : p.checkBlock b data.length ≠ .ok ()) :
      Turns may d disk (.store kind i b data)
        { d with fileSet := some (fs.setPiece i (p.mark b .needed)) } disk 0
  | storeMissed {kind : FileSetKind} {i b : Nat} {data : Bytes} {fs : FileSet} {p : Piece}
      {block : Block} {content : Bytes} {left : Multiset Job}
      (h : OpenBlock d kind i b data.length fs p block)
      (hContent : (fs.storage.content disk).AgreeOutside content
        (i * fs.pieceLength + p.blockOffset b) data.length)
      (hLeft : left ≤ {.store kind i b data}) :
      Turns may d disk (.store kind i b data)
        { d with fileSet := some { fs with storage := fs.storage.put content } }
        (fs.storage.diskAfter disk content) left
  | stored {kind : FileSetKind} {i b : Nat} {data : Bytes} {fs : FileSet} {p : Piece}
      {block : Block}
      (h : OpenBlock d kind i b data.length fs p block)
      (hInside : i * fs.pieceLength + p.blockOffset b + data.length ≤
        (fs.storage.content disk).length) :
      Turns may d disk (.store kind i b data)
        { d with
          fileSet := some { fs with
            pieces := fs.pieces.set i (p.mark b .stored)
            storage := fs.storage.put ((fs.storage.content disk).overwrite
              (i * fs.pieceLength + p.blockOffset b) data) }
          pendingChecks := d.pendingChecks + if (p.mark b .stored).isFullyStored then 1 else 0 }
        (fs.storage.diskAfter disk ((fs.storage.content disk).overwrite
          (i * fs.pieceLength + p.blockOffset b) data))
        (if (p.mark b .stored).isFullyStored then {.check kind i} else 0)
  | checkVoid {kind : FileSetKind} {i : Nat} (h : ∀ fs p, ¬ StoredPiece d kind i fs p) :
      Turns may d disk (.check kind i) d.endCheck disk 0
  | checkRetried {kind : FileSetKind} {i : Nat} {fs : FileSet} {p : Piece} {e : IoError}
      (h : StoredPiece d kind i fs p) (hMay : may (.failed (.io e))) :
      Turns may d disk (.check kind i) d disk {.check kind i}
  | checkFailed {kind : FileSetKind} {i : Nat} {fs : FileSet} {p : Piece} {offset length : Nat}
      (h : StoredPiece d kind i fs p)
      (hOutside : (fs.storage.content disk).length < i * fs.pieceLength + p.length ∨
        may (.failed (.outOfBounds offset length))) :
      Turns may d disk (.check kind i) d.endCheck disk 0
  | checkCrashed {kind : FileSetKind} {i : Nat} {fs : FileSet} {p : Piece}
      (h : StoredPiece d kind i fs p) (hMay : may .crashed) :
      Turns may d disk (.check kind i) d disk 0
  | verified {kind : FileSetKind} {i : Nat} {fs : FileSet} {p : Piece}
      (h : StoredPiece d kind i fs p)
      (hInside : i * fs.pieceLength + p.length ≤ (fs.storage.content disk).length)
      (hDigest : sha1 ((fs.storage.content disk).slice (i * fs.pieceLength) p.length) = p.digest) :
      Turns may d disk (.check kind i)
        { d.endCheck with
          fileSet := some (fs.setPiece i p.markVerified)
          metadataBytes :=
            learned d ((fs.storage.content disk).slice (i * fs.pieceLength) p.length) kind }
        disk 0
  | mismatched {kind : FileSetKind} {i : Nat} {fs : FileSet} {p : Piece}
      (h : StoredPiece d kind i fs p)
      (hInside : i * fs.pieceLength + p.length ≤ (fs.storage.content disk).length)
      (hDigest : sha1 ((fs.storage.content disk).slice (i * fs.pieceLength) p.length) ≠ p.digest) :
      Turns may d disk (.check kind i)
        { d.endCheck with fileSet := some (fs.setPiece i p.reopen.2) } disk 0
  | sent {peer : PeerId} {line : LineId} {i offset length : Nat} {d' : Download}
      {left : Multiset Job} (h : d'.core = d.core)
      (hLeft : left ≤ {.send peer line i offset length}) :
      Turns may d disk (.send peer line i offset length) d' disk left

/-- The jobs outstanding in place of one that was run once. -/
def Outcome.left (job : Job) (o : Outcome) : Multiset Job :=
  (if o.ended.verdict = .retry then {job} else 0) + (o.submitted : List Job)

theorem OpenBlock.unique {d : Download} {kind : FileSetKind} {i b length : Nat}
    {fs fs' : FileSet} {p p' : Piece} {block : Block}
    (h : OpenBlock d kind i b length fs p block) (hfs : current? d kind = some fs')
    (hp : fs'.piece? i = some p') : fs' = fs ∧ p' = p := by
  have hfs' := (current?_eq_some.mp hfs).1
  obtain rfl : fs' = fs := Option.some.inj (hfs'.symm.trans h.fileSet)
  exact ⟨rfl, Option.some.inj (hp.symm.trans h.hasPiece)⟩

/-- A store that asks for a write has found an open block. -/
theorem prepareStore_ok {d d' : Download} {kind : FileSetKind} {i b length offset : Nat}
    (h : prepareStore d kind i b length = (d', .ok offset)) :
    d' = d ∧ ∃ fs p block, OpenBlock d kind i b length fs p block ∧
      offset = i * fs.pieceLength + p.blockOffset b := by
  simp only [prepareStore] at h
  split at h
  · cases h
  · next fs hfs =>
    obtain ⟨hfs, hKind⟩ := current?_eq_some.mp hfs
    split at h
    · cases h
    · next p hp =>
      split at h
      · cases h
      · next hBlock =>
        obtain ⟨block, hb, hSize⟩ := Piece.checkBlock_eq_ok.mp hBlock
        split at h
        · cases h
        · next hHeld =>
          obtain ⟨rfl, rfl⟩ := by simpa using h
          refine ⟨rfl, fs, p, block, ⟨hfs, hKind, FileSet.piece_eq_ok.mp hp, hb, hSize, ?_⟩, rfl⟩
          simpa [hb] using hHeld

/-- A store that ends at once leaves its block alone or finds that it does not fit. -/
theorem prepareStore_error {d d' : Download} {kind : FileSetKind} {i b length : Nat}
    {ended : JobEnd} (h : prepareStore d kind i b length = (d', .error ended)) :
    ended.verdict ≠ .retry ∧
      ((d' = d ∧ ∀ fs p block, ¬ OpenBlock d kind i b length fs p block) ∨
        ∃ fs p, current? d kind = some fs ∧ fs.pieces[i]? = some p ∧
          p.checkBlock b length ≠ .ok () ∧
          d' = { d with fileSet := some (fs.setPiece i (p.mark b .needed)) }) := by
  simp only [prepareStore] at h
  split at h
  · next hNone =>
    obtain ⟨rfl, rfl⟩ := by simpa using h
    refine ⟨by decide, .inl ⟨rfl, fun fs p block hOpen => ?_⟩⟩
    rw [current?_eq_some.mpr ⟨hOpen.fileSet, hOpen.kind_eq⟩] at hNone
    cases hNone
  · next fs hfs =>
    split at h
    · next e hp =>
      obtain ⟨rfl, rfl⟩ := by simpa using h
      refine ⟨by simp [JobEnd.verdict, JobError.isRetryable], .inl ⟨rfl, ?_⟩⟩
      intro fs' p block hOpen
      obtain rfl : fs = fs' :=
        Option.some.inj ((current?_eq_some.mp hfs).1.symm.trans hOpen.fileSet)
      have hPiece := hOpen.hasPiece
      rw [FileSet.piece_eq_error hp] at hPiece
      cases hPiece
    · next p hp =>
      split at h
      · next e hBlock =>
        obtain ⟨rfl, rfl⟩ := by simpa using h
        have hMisfit : p.checkBlock b length ≠ .ok () := by simp [hBlock]
        refine ⟨by simp [JobEnd.verdict, JobError.isRetryable], .inr ?_⟩
        refine ⟨fs, p, hfs, FileSet.piece_eq_ok.mp hp, hMisfit, ?_⟩
        simp [Download.changeFileSet, (current?_eq_some.mp hfs).1]
      · split at h
        · next hHeld =>
          obtain ⟨rfl, rfl⟩ := by simpa using h
          refine ⟨by decide, .inl ⟨rfl, fun fs' p' block hOpen => ?_⟩⟩
          obtain ⟨rfl, rfl⟩ := hOpen.unique hfs (FileSet.piece_eq_ok.mp hp)
          simp [hOpen.hasBlock, hOpen.notHeld] at hHeld
        · cases h

/-- Committing a store marks its block, and asks for a check when the piece is all stored then. -/
theorem commitStore_eq {t : Torrent} {kind : FileSetKind} {i b length : Nat} {fs : FileSet}
    {p : Piece} {block : Block} (h : OpenBlock t.download kind i b length fs p block) :
    commitStore t kind i b length =
      { ended := .done
        after := { t with download :=
          { t.download with
            fileSet := some (fs.setPiece i (p.mark b .stored))
            pendingChecks :=
              t.download.pendingChecks + if (p.mark b .stored).isFullyStored then 1 else 0 } }
        submitted := if (p.mark b .stored).isFullyStored then [.check kind i] else [] } := by
  have hCurrent : (current? t.download kind).bind (·.piece? i) = some p := by
    rw [current?_eq_some.mpr ⟨h.fileSet, h.kind_eq⟩]
    exact h.hasPiece
  have hStore : p.store b length = .ok (p.mark b .stored) := by
    have hLt : b < p.blocks.length := (List.getElem?_eq_some_iff.mp h.hasBlock).1
    simp [Piece.store, Piece.checkBlock_eq_ok.mpr ⟨block, h.hasBlock, h.size⟩, Piece.setStatus, hLt]
  have hNotDone : (p.mark b .stored).isDone = false := by
    rw [Bool.eq_false_iff]
    intro hDone
    have hMarked : (p.mark b .stored).blocks[b]? = some { block with status := .stored } := by
      rw [Piece.getElem?_blocks_mark, if_pos rfl, h.hasBlock]
      rfl
    have := Piece.isDone_iff.mp hDone _ (List.mem_of_getElem? hMarked)
    cases this
  simp only [commitStore, hCurrent, hStore, hNotDone, Bool.not_false, Bool.and_true,
    Download.changeFileSet, h.fileSet, Option.map_some]
  split <;> simp

/-- The block stays open while the storage of the file set changes. -/
theorem OpenBlock.setStorage {t : Torrent} {kind : FileSetKind} {i b length : Nat} {fs : FileSet}
    {p : Piece} {block : Block} (h : OpenBlock t.download kind i b length fs p block)
    (s : Storage) :
    OpenBlock (t.setStorage s).download kind i b length { fs with storage := s } p block := by
  refine ⟨?_, h.kind_eq, h.hasPiece, h.hasBlock, h.size, h.notHeld⟩
  simp [Torrent.setStorage, Torrent.change, Download.changeFileSet, h.fileSet]

theorem download_setStorage {t : Torrent} {fs : FileSet} (h : t.download.fileSet = some fs)
    (s : Storage) :
    (t.setStorage s).download =
      { t.download with fileSet := some { fs with storage := s } } := by
  simp [Torrent.setStorage, Torrent.change, Download.changeFileSet, h]

theorem store_turns {may : Miss → Prop} {t : Torrent} {disk disk' : Bytes} {kind : FileSetKind}
    {i b : Nat} {data : Bytes} {o : Outcome}
    (h : Executes may t disk (.store kind i b data) o disk') :
    Turns may t.download disk (.store kind i b data) o.after.download disk'
      (o.left (.store kind i b data)) := by
  cases h with
  | storeSettled h =>
    obtain ⟨hVerdict, ⟨rfl, hClosed⟩ | ⟨fs, p, hfs, hp, hMisfit, rfl⟩⟩ := prepareStore_error h
    · simpa [Outcome.left, hVerdict] using Turns.storeIdle hClosed
    · simpa [Outcome.left, hVerdict] using Turns.storeMisfit hfs hp hMisfit
  | storeWritten h hfs hWrite =>
    obtain ⟨rfl, fs', p, block, hOpen, rfl⟩ := prepareStore_ok h
    obtain rfl := Option.some.inj (hfs.symm.trans hOpen.fileSet)
    have hOutside := hWrite.agreeOutside
    cases hWrite with
    | done hInside =>
      simp only [finishStore]
      rw [commitStore_eq (hOpen.setStorage _)]
      simp only [Outcome.left, download_setStorage hfs]
      have : Turns may t.download disk _ _ _ _ := .stored hOpen hInside
      split at this <;> simp_all [JobEnd.verdict, FileSet.setPiece]
    | outside =>
      simp only [finishStore, Outcome.left, download_setStorage hfs]
      exact Turns.storeMissed hOpen hOutside (by simp [JobEnd.verdict, JobError.isRetryable])
    | @missed m =>
      cases m with
      | failed e =>
        simp only [finishStore, Miss.reply, Outcome.left, download_setStorage hfs]
        refine Turns.storeMissed hOpen hOutside ?_
        by_cases hRetry : (JobEnd.failed (.storage e)).verdict = .retry <;> simp [hRetry]
      | crashed =>
        simp only [finishStore, Miss.reply, Outcome.left, download_setStorage hfs]
        exact Turns.storeMissed hOpen hOutside (by simp [JobEnd.verdict])

/-- A check that asks for a read has found its piece all stored. -/
theorem prepareCheck_ok {d d' : Download} {kind : FileSetKind} {i offset length : Nat}
    (h : prepareCheck d kind i = (d', .ok (offset, length))) :
    d' = d ∧ ∃ fs p, StoredPiece d kind i fs p ∧ offset = i * fs.pieceLength ∧
      length = p.length := by
  simp only [prepareCheck] at h
  split at h
  · cases h
  · next fs hfs =>
    obtain ⟨hfs, hKind⟩ := current?_eq_some.mp hfs
    split at h
    · cases h
    · next p hp =>
      split at h
      · next hFull =>
        obtain ⟨rfl, rfl, rfl⟩ := by simpa using h
        exact ⟨rfl, fs, p, ⟨hfs, hKind, FileSet.piece_eq_ok.mp hp, hFull⟩, rfl, rfl⟩
      · cases h

/-- A check that ends at once is counted off, and has not found its piece all stored. -/
theorem prepareCheck_error {d d' : Download} {kind : FileSetKind} {i : Nat} {ended : JobEnd}
    (h : prepareCheck d kind i = (d', .error ended)) :
    ended.verdict ≠ .retry ∧ d' = d.endCheck ∧ ∀ fs p, ¬ StoredPiece d kind i fs p := by
  simp only [prepareCheck] at h
  split at h
  · next hNone =>
    obtain ⟨rfl, rfl⟩ := by simpa using h
    refine ⟨by decide, rfl, fun fs p hStored => ?_⟩
    rw [current?_eq_some.mpr ⟨hStored.fileSet, hStored.kind_eq⟩] at hNone
    cases hNone
  · next fs hfs =>
    have hfs := (current?_eq_some.mp hfs).1
    split at h
    · next e hp =>
      obtain ⟨rfl, rfl⟩ := by simpa using h
      refine ⟨by simp [JobEnd.verdict, JobError.isRetryable], rfl, fun fs' p hStored => ?_⟩
      obtain rfl := Option.some.inj (hfs.symm.trans hStored.fileSet)
      have hPiece := hStored.hasPiece
      rw [FileSet.piece_eq_error hp] at hPiece
      cases hPiece
    · next p hp =>
      split at h
      · cases h
      · next hShort =>
        obtain ⟨rfl, rfl⟩ := by simpa using h
        refine ⟨by simp [JobEnd.verdict, JobError.isRetryable], rfl, fun fs' p' hStored => ?_⟩
        obtain rfl := Option.some.inj (hfs.symm.trans hStored.fileSet)
        obtain rfl := Option.some.inj ((FileSet.piece_eq_ok.mp hp).symm.trans hStored.hasPiece)
        exact hShort hStored.full

theorem download_announcePiece (t : Torrent) (kind : FileSetKind) (i : Nat) (data : Bytes) :
    (announcePiece t kind i data).download =
      { t.download with metadataBytes := learned t.download data kind } := by
  cases kind with
  | metadata => rfl
  | data =>
    have hSendToAll (ids : List PeerId) (m : Message) (t : Torrent) :
        (ids.foldl (fun t peer => t.send peer m) t).download = t.download := by
      induction ids generalizing t with
      | nil => rfl
      | cons id rest ih => rw [List.foldl_cons, ih, Engine.download_send]
    exact hSendToAll _ _ _

/-- A check that has read its piece verifies it or opens a block of it again. -/
theorem commitCheck_eq {t : Torrent} {kind : FileSetKind} {i : Nat} {fs : FileSet} {p : Piece}
    {data : Bytes} (h : StoredPiece t.download kind i fs p) (hLength : data.length = p.length) :
    commitCheck t kind i data =
      { ended := .done
        after :=
          if sha1 data = p.digest then
            announcePiece
              (t.change fun d => { d.endCheck with fileSet := some (fs.setPiece i p.markVerified) })
              kind i data
          else
            t.change fun d =>
              { d.endCheck with fileSet := some (fs.setPiece i p.reopen.2) } } := by
  have hCurrent : (current? (t.change (·.endCheck)).download kind).bind (·.piece? i) = some p := by
    have : current? (t.change (·.endCheck)).download kind = some fs :=
      current?_eq_some.mpr ⟨h.fileSet, h.kind_eq⟩
    rw [this]
    exact h.hasPiece
  have hDigest : p.checkDigest data =
      if sha1 data = p.digest then .ok (true, p.markVerified) else .ok (false, p) := by
    simp only [Piece.checkDigest, h.full, hLength, ne_eq, not_true_eq_false, Bool.not_true,
      Bool.false_eq_true, if_false]
  have hSet (q : Piece) :
      (t.change (·.endCheck)).change (·.changeFileSet (·.setPiece i q)) =
        t.change fun d => { d.endCheck with fileSet := some (fs.setPiece i q) } := by
    simp [Torrent.change, Download.changeFileSet, Download.endCheck, h.fileSet]
  simp only [commitCheck, hCurrent, hDigest]
  by_cases hMatch : sha1 data = p.digest
  · simp only [if_pos hMatch, hSet]
  · simp only [if_neg hMatch, hSet]

theorem commitCheck_turns {may : Miss → Prop} {t : Torrent} {disk : Bytes} {kind : FileSetKind}
    {i : Nat} {fs : FileSet} {p : Piece} (h : StoredPiece t.download kind i fs p)
    (hInside : i * fs.pieceLength + p.length ≤ (fs.storage.content disk).length) :
    let o := commitCheck t kind i
      ((fs.storage.content disk).slice (i * fs.pieceLength) p.length)
    Turns may t.download disk (.check kind i) o.after.download disk (o.left (.check kind i)) := by
  have hLength : ((fs.storage.content disk).slice (i * fs.pieceLength) p.length).length =
      p.length := by
    rw [Bytes.length_slice]
    omega
  rw [commitCheck_eq h hLength]
  by_cases hMatch :
      sha1 ((fs.storage.content disk).slice (i * fs.pieceLength) p.length) = p.digest
  · simp only [if_pos hMatch, download_announcePiece]
    have : Turns may t.download disk _ _ _ _ := .verified h hInside hMatch
    cases kind <;>
      simpa [Outcome.left, JobEnd.verdict, Torrent.change, learned, Download.endCheck] using this
  · simp only [if_neg hMatch]
    have : Turns may t.download disk _ _ _ _ := .mismatched h hInside hMatch
    simpa [Outcome.left, JobEnd.verdict, Torrent.change] using this

theorem check_turns {may : Miss → Prop} {t : Torrent} {disk disk' : Bytes} {kind : FileSetKind}
    {i : Nat} {o : Outcome} (h : Executes may t disk (.check kind i) o disk') :
    Turns may t.download disk (.check kind i) o.after.download disk'
      (o.left (.check kind i)) := by
  cases h with
  | checkSettled h =>
    obtain ⟨hVerdict, rfl, hNone⟩ := prepareCheck_error h
    simpa [Outcome.left, hVerdict] using Turns.checkVoid hNone
  | checkRead h hfs hRead =>
    obtain ⟨rfl, fs', p, hStored, rfl, rfl⟩ := prepareCheck_ok h
    obtain rfl := Option.some.inj (hfs.symm.trans hStored.fileSet)
    cases hRead with
    | done hInside => exact commitCheck_turns hStored hInside
    | outside hOutside =>
      have hFails : _ ∨ may (.failed (.outOfBounds 0 0)) := .inl hOutside
      have := Turns.checkFailed hStored hFails
      simpa [finishCheck, failCheck, JobError.isRetryable, Outcome.left, JobEnd.verdict,
        Torrent.change] using this
    | @missed m hMay =>
      cases m with
      | failed e =>
        cases e with
        | io kind =>
          have : Turns may t.download disk _ _ _ _ := .checkRetried hStored hMay
          simpa [Miss.reply, finishCheck, failCheck, JobError.isRetryable, Outcome.left,
            JobEnd.verdict, Torrent.change] using this
        | outOfBounds offset length =>
          have : Turns may t.download disk _ _ _ _ := .checkFailed hStored (.inr hMay)
          simpa [Miss.reply, finishCheck, failCheck, JobError.isRetryable, Outcome.left,
            JobEnd.verdict, Torrent.change] using this
      | crashed =>
        have : Turns may t.download disk _ _ _ _ := .checkCrashed hStored hMay
        simpa [Miss.reply, finishCheck, Outcome.left, JobEnd.verdict] using this

theorem send_turns {may : Miss → Prop} {t : Torrent} {disk disk' : Bytes} {peer : PeerId}
    {line : LineId} {i offset length : Nat} {o : Outcome}
    (h : Executes may t disk (.send peer line i offset length) o disk') :
    Turns may t.download disk (.send peer line i offset length) o.after.download disk'
      (o.left (.send peer line i offset length)) := by
  have hLeft (ended : JobEnd) (after : Torrent) :
      Outcome.left (.send peer line i offset length) { ended, after } ≤
        {.send peer line i offset length} := by
    by_cases hRetry : ended.verdict = .retry <;> simp [Outcome.left, hRetry]
  cases h with
  | sendSettled h => exact .sent rfl (hLeft _ _)
  | sendRead h hfs hRead =>
    cases hRead with
    | done hInside =>
      simp only [finishSend, commitSend]
      split
      · exact .sent rfl (hLeft _ _)
      · exact .sent (Download.core_changePeer ..) (hLeft _ _)
    | outside hOutside => exact .sent rfl (hLeft _ _)
    | @missed m hMay => cases m <;> exact .sent rfl (hLeft _ _)

/-- Every run of a job is one of its turns. -/
theorem Executes.turns {may : Miss → Prop} {t : Torrent} {disk disk' : Bytes} {job : Job}
    {o : Outcome} (h : Executes may t disk job o disk') :
    Turns may t.download disk job o.after.download disk' (o.left job) := by
  cases job with
  | store kind i b data => exact store_turns h
  | check kind i => exact check_turns h
  | send peer line i offset length => exact send_turns h

/-- The disk keeps its length. -/
theorem Turns.length_disk {may : Miss → Prop} {d d' : Download} {disk disk' : Bytes} {job : Job}
    {left : Multiset Job} (h : Turns may d disk job d' disk' left) :
    disk'.length = disk.length := by
  cases h with
  | storeMissed _ hContent => exact Storage.length_diskAfter hContent.length_eq
  | stored _ hInside => exact Storage.length_diskAfter (Bytes.length_overwrite hInside)
  | _ => rfl

end Job

end TorrentEngine
