import TorrentEngine.Proofs.Results
import TorrentEngine.Proofs.Turns

/-!
The one call of a job to its storage. A store of an open block ends by the reply to its write, a
check of a stored piece and a ready send by the reply to their read; every other run settles without
a call, and is not to be tried again. Whatever the storage, a read that succeeds gives as many bytes
as were asked for.
-/

namespace TorrentEngine

theorem FileTree.length_readAt {t : FileTree} {path : Path} {offset length : Nat} {bytes : Bytes}
    (h : t.readAt path offset length = .ok bytes) : bytes.length = length := by
  obtain ⟨content, -, h⟩ := bind_eq_ok.mp h
  dsimp only at h
  split at h
  · next hLength =>
    obtain rfl := Except.ok.inj h
    exact hLength
  · cases h

theorem Layout.length_readFiles {t : FileTree} {files : List LaidFile} {pos count : Nat}
    {bytes : Bytes} (h : readFiles t files pos count = .ok (some bytes)) :
    bytes.length = count := by
  induction files generalizing pos count bytes with
  | nil => cases h
  | cons f rest ih =>
    rw [readFiles] at h
    split at h
    · obtain ⟨here, hHere, h⟩ := bind_eq_ok.mp h
      have hLength := FileTree.length_readAt hHere
      split at h
      · next hAll =>
        obtain rfl := Option.some.inj (Except.ok.inj h)
        exact hLength.trans hAll
      · obtain ⟨more, hMore, h⟩ := bind_eq_ok.mp h
        obtain ⟨others, rfl, rfl⟩ := Option.map_eq_some_iff.mp (Except.ok.inj h)
        rw [List.length_append, hLength, ih hMore]
        omega
    · exact ih h

theorem Layout.length_read {l : Layout} {t : FileTree} {offset length : Nat} {bytes : Bytes}
    (h : l.read t offset length = .ok bytes) : bytes.length = length := by
  rw [Layout.read] at h
  split at h
  · next hNone =>
    obtain rfl := Except.ok.inj h
    exact hNone.symm
  · split at h
    · next hRead =>
      obtain rfl := Except.ok.inj h
      exact length_readFiles hRead
    · cases h
    · cases h

theorem Memory.length_read {b bytes : Bytes} {offset length : Nat}
    (h : Memory.read b offset length = .ok bytes) : bytes.length = length := by
  rw [Memory.read] at h
  split at h
  · obtain rfl := Except.ok.inj h
    rw [Bytes.length_slice]
    omega
  · cases h

theorem Reply.ofExcept_eq_done {α : Type} {x : Except StorageError α} {a : α} :
    Reply.ofExcept x = .done a ↔ x = .ok a := by
  cases x <;> simp [Reply.ofExcept]

/-- A read that succeeds gives as many bytes as were asked for. -/
theorem Storage.length_read {s : Storage} {t : FileTree} {offset length : Nat} {bytes : Bytes}
    (h : (s.read t offset length).1 = .done bytes) : bytes.length = length := by
  cases s with
  | memory b => exact Memory.length_read (Reply.ofExcept_eq_done.mp h)
  | disk l => exact Layout.length_read (Reply.ofExcept_eq_done.mp h)
  | scripted m =>
    simp only [Storage.read, ScriptedMemory.read] at h
    split at h
    · exact Memory.length_read (Reply.ofExcept_eq_done.mp h)
    · cases h
    · cases h

namespace Job

variable {t : Torrent} {d : Download} {kind : FileSetKind} {i b offset length : Nat} {data : Bytes}
  {fs : FileSet} {p : Piece} {block : Block}

/-! ### Storing -/

/-- The reply to the write of a store, and what it leaves of the storage and the file system. -/
def written (t : Torrent) (fs : FileSet) (p : Piece) (i b : Nat) (data : Bytes) :
    Reply Unit × Storage × FileTree :=
  fs.storage.write t.tree (i * fs.pieceLength + p.blockOffset b) data

theorem prepareStore_of_open (h : OpenBlock d kind i b data.length fs p block) :
    prepareStore d kind i b data.length = (d, .ok (i * fs.pieceLength + p.blockOffset b)) := by
  have hCurrent := current?_eq_some.mpr ⟨h.fileSet, h.kind_eq⟩
  have hPiece := FileSet.piece_eq_ok.mpr h.hasPiece
  have hBlock := Piece.checkBlock_eq_ok.mpr ⟨block, h.hasBlock, h.size⟩
  simp only [prepareStore, hCurrent, hPiece, hBlock, h.hasBlock, Option.any_some, h.notHeld,
    FileSet.globalOffset, Nat.add_zero]
  rfl

theorem run_store_of_open (h : OpenBlock t.download kind i b data.length fs p block) :
    run (.store kind i b data) t =
      finishStore ({ t with tree := (written t fs p i b data).2.2 }.setStorage
        (written t fs p i b data).2.1) kind i b data.length (written t fs p i b data).1 := by
  simp only [run, runStore, prepareStore_of_open h, h.fileSet]
  rfl

/-- A store that finds no open block settles. -/
theorem run_store_of_closed
    (h : ∀ fs p block, ¬ OpenBlock t.download kind i b data.length fs p block) :
    ∃ d ended, prepareStore t.download kind i b data.length = (d, .error ended) ∧
      run (.store kind i b data) t = { ended, after := { t with download := d } } := by
  cases hPrepared : prepareStore t.download kind i b data.length with
  | mk d result =>
    cases result with
    | ok offset =>
      obtain ⟨-, fs, p, block, hOpen, -⟩ := prepareStore_ok hPrepared
      exact absurd hOpen (h fs p block)
    | error ended => exact ⟨d, ended, rfl, by simp only [run, runStore, hPrepared]⟩

/-! ### Checking -/

/-- The reply to the read of a check, and what it leaves of the storage. -/
def readBack (t : Torrent) (fs : FileSet) (p : Piece) (i : Nat) : Reply Bytes × Storage :=
  fs.storage.read t.tree (i * fs.pieceLength) p.length

theorem prepareCheck_of_stored (h : StoredPiece d kind i fs p) :
    prepareCheck d kind i = (d, .ok (i * fs.pieceLength, p.length)) := by
  have hCurrent := current?_eq_some.mpr ⟨h.fileSet, h.kind_eq⟩
  have hPiece := FileSet.piece_eq_ok.mpr h.hasPiece
  simp only [prepareCheck, hCurrent, hPiece, h.full, if_true, FileSet.globalOffset, Nat.add_zero]

theorem StoredPiece.setStorage (h : StoredPiece t.download kind i fs p) (s : Storage) :
    StoredPiece (t.setStorage s).download kind i { fs with storage := s } p := by
  refine ⟨?_, h.kind_eq, h.hasPiece, h.full⟩
  rw [download_setStorage h.fileSet]

theorem StoredPiece.unique {fs' : FileSet} {p' : Piece} (h : StoredPiece d kind i fs p)
    (h' : StoredPiece d kind i fs' p') : fs' = fs ∧ p' = p := by
  obtain rfl : fs' = fs := Option.some.inj (h'.fileSet.symm.trans h.fileSet)
  exact ⟨rfl, Option.some.inj (h'.hasPiece.symm.trans h.hasPiece)⟩

theorem run_check_of_stored (h : StoredPiece t.download kind i fs p) :
    run (.check kind i) t =
      finishCheck (t.setStorage (readBack t fs p i).2) kind i (readBack t fs p i).1 := by
  simp only [run, runCheck, prepareCheck_of_stored h, h.fileSet]
  rfl

/-- A check that does not find its piece all stored settles. -/
theorem run_check_of_open (h : ∀ fs p, ¬ StoredPiece t.download kind i fs p) :
    ∃ d ended, prepareCheck t.download kind i = (d, .error ended) ∧
      run (.check kind i) t = { ended, after := { t with download := d } } := by
  cases hPrepared : prepareCheck t.download kind i with
  | mk d result =>
    cases result with
    | ok range =>
      obtain ⟨-, fs, p, hStored, -⟩ := prepareCheck_ok hPrepared
      exact absurd hStored (h fs p)
    | error ended => exact ⟨d, ended, rfl, by simp only [run, runCheck, hPrepared]⟩

/-! ### Sending -/

theorem run_send_of_ready {peer : PeerId} {line : LineId} {position : Nat}
    (h : prepareSend t.download i offset length = .ok position) :
    ∃ fs, t.download.fileSet = some fs ∧ run (.send peer line i offset length) t =
      finishSend (t.setStorage (fs.storage.read t.tree position length).2) peer line i offset
        (fs.storage.read t.tree position length).1 := by
  have hCurrent : ∃ fs, current? t.download .data = some fs := by
    rw [prepareSend] at h
    split at h
    · cases h
    · next fs hfs => exact ⟨fs, hfs⟩
  obtain ⟨fs, hCurrent⟩ := hCurrent
  have hfs := (current?_eq_some.mp hCurrent).1
  exact ⟨fs, hfs, by simp only [run, runSend, h, hfs]⟩

/-- A send that finds nothing to send settles. -/
theorem run_send_of_error {peer : PeerId} {line : LineId} {e : PieceError}
    (h : prepareSend t.download i offset length = .error e) :
    run (.send peer line i offset length) t = { ended := .failed (.piece e), after := t } := by
  simp only [run, runSend, h]

end Job

end TorrentEngine
