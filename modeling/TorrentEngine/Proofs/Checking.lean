import TorrentEngine.Proofs.Calls
import TorrentEngine.Proofs.Stream

/-!
Checks of a content on disk. A check reads its piece if the disk has all of it, and then verifies it
or opens it again; where bytes are missing the read runs into the end of a file, which counts as a
failure that passes, so the check asks to be tried again.
-/

namespace TorrentEngine

namespace FileSet

/-- A content in the files of a layout, all of which are there. -/
structure OnDisk (fs : FileSet) (l : Layout) (t : FileTree) : Prop where
  kind_eq : fs.kind = .data
  storage_eq : fs.storage = .disk l
  laid : Layout.Laid 0 l.files
  readable : ∀ f ∈ l.files, ∃ content, t.readFile f.path = .ok content
  total : fs.totalLength = (Layout.cells t l.files).length
  cut : ∃ blockSize digests, fs.CutFrom blockSize digests

variable {fs fs' : FileSet} {l : Layout} {t : FileTree} {i : Nat} {p : Piece}

theorem OnDisk.sameCut (h : fs.OnDisk l t) (hCut : SameCut fs fs')
    (hStorage : fs'.storage = fs.storage) : fs'.OnDisk l t := by
  obtain ⟨blockSize, digests, hFrom⟩ := h.cut
  refine ⟨?_, ?_, h.laid, h.readable, ?_, blockSize, digests, hFrom.sameCut hCut⟩
  · rw [hCut.kind_eq, h.kind_eq]
  · rw [hStorage, h.storage_eq]
  · rw [hCut.totalLength_eq, h.total]

/-- The bytes of a piece, if the disk has all of them. -/
def bytesOf? (fs : FileSet) (l : Layout) (t : FileTree) (i : Nat) (p : Piece) : Option Bytes :=
  l.bytes? t (i * fs.pieceLength) p.length

/-- Whether the disk has all bytes of a piece, and the right ones. -/
def isIntact (fs : FileSet) (l : Layout) (t : FileTree) (i : Nat) (p : Piece) : Bool :=
  (fs.bytesOf? l t i p).any fun bytes => sha1 bytes = p.digest

theorem OnDisk.inside (h : fs.OnDisk l t) (hp : fs.pieces[i]? = some p) :
    i * fs.pieceLength + p.length ≤ (Layout.cells t l.files).length := by
  obtain ⟨_, _, hFrom⟩ := h.cut
  rw [← h.total]
  exact hFrom.end_le hp

theorem OnDisk.length_bytesOf? (h : fs.OnDisk l t) (hp : fs.pieces[i]? = some p) {bytes : Bytes}
    (hBytes : fs.bytesOf? l t i p = some bytes) : bytes.length = p.length :=
  Layout.length_bytes? (h.inside hp) hBytes

/-- A piece is read as far as the disk has its bytes. -/
theorem OnDisk.read_eq (h : fs.OnDisk l t) (hp : fs.pieces[i]? = some p) :
    l.read t (i * fs.pieceLength) p.length =
      match fs.bytesOf? l t i p with
      | some bytes => .ok bytes
      | none => .error (.io .unexpectedEof) := by
  obtain ⟨_, _, hFrom⟩ := h.cut
  exact Layout.read_eq h.laid h.readable (hFrom.length_pos hp) (h.inside hp)

end FileSet

namespace Job

variable {t : Torrent} {fs : FileSet} {l : Layout} {i : Nat} {p : Piece}

/-- A check of a stored piece ends by what the layout gives. -/
theorem run_check (h : StoredPiece t.download .data i fs p) (hDisk : fs.OnDisk l t.tree) :
    run (.check .data i) t = finishCheck t .data i
      (match fs.bytesOf? l t.tree i p with
        | some bytes => .done bytes
        | none => .failed (.io .unexpectedEof)) := by
  have hStorage := Torrent.setStorage_self h.fileSet
  rw [hDisk.storage_eq] at hStorage
  rw [run_check_of_stored h]
  simp only [readBack, hDisk.storage_eq, Storage.read, hDisk.read_eq h.hasPiece, hStorage]
  cases fs.bytesOf? l t.tree i p <;> rfl

/-- Where bytes are missing a check asks to be tried again, and changes nothing. -/
theorem work_missing (h : StoredPiece t.download .data i fs p) (hDisk : fs.OnDisk l t.tree)
    (hMissing : fs.bytesOf? l t.tree i p = none) :
    work (.check .data i) t = { verdict := .retry, after := t } := by
  simp only [work, run_check h hDisk, hMissing]
  rfl

theorem tree_send (t : Torrent) (peer : PeerId) (m : Message) : (t.send peer m).tree = t.tree := by
  simp only [Torrent.send]
  split <;> rfl

theorem tree_announcePiece (t : Torrent) (i : Nat) (data : Bytes) :
    (announcePiece t .data i data).tree = t.tree := by
  have hSendToAll (ids : List PeerId) (m : Message) (t : Torrent) :
      (ids.foldl (fun t peer => t.send peer m) t).tree = t.tree := by
    induction ids generalizing t with
    | nil => rfl
    | cons id rest ih => rw [List.foldl_cons, ih, tree_send]
  exact hSendToAll _ _ _

/-- A piece as the check of its bytes leaves it. -/
def judged (p : Piece) (data : Bytes) : Piece :=
  if sha1 data = p.digest then p.markVerified else p.reopen.2

/-- The torrent after a check that has read its piece: the piece is judged, and told of if it is
right. -/
def afterCheck (t : Torrent) (fs : FileSet) (p : Piece) (i : Nat) (data : Bytes) : Torrent :=
  let t := t.change fun d => { d.endCheck with fileSet := some (fs.setPiece i (judged p data)) }
  if sha1 data = p.digest then announcePiece t .data i data else t

theorem commitCheck_judged (h : StoredPiece t.download .data i fs p) {data : Bytes}
    (hLength : data.length = p.length) :
    commitCheck t .data i data = { ended := .done, after := afterCheck t fs p i data } := by
  rw [commitCheck_eq h hLength, afterCheck, judged]
  by_cases hMatch : sha1 data = p.digest
  · simp only [if_pos hMatch]
  · simp only [if_neg hMatch]

theorem tree_afterCheck (t : Torrent) (fs : FileSet) (p : Piece) (i : Nat) (data : Bytes) :
    (afterCheck t fs p i data).tree = t.tree := by
  rw [afterCheck]
  split
  · exact tree_announcePiece _ i data
  · rfl

theorem download_afterCheck (t : Torrent) (fs : FileSet) (p : Piece) (i : Nat) (data : Bytes) :
    (afterCheck t fs p i data).download =
      { t.download.endCheck with fileSet := some (fs.setPiece i (judged p data)) } := by
  rw [afterCheck]
  split
  · rw [download_announcePiece]
    rfl
  · rfl

/-- Where no bytes are missing a check is done, and has judged its piece. -/
theorem work_whole (h : StoredPiece t.download .data i fs p) (hDisk : fs.OnDisk l t.tree)
    {bytes : Bytes} (hBytes : fs.bytesOf? l t.tree i p = some bytes) :
    ∃ after, work (.check .data i) t = { verdict := .done, after } ∧ after.tree = t.tree ∧
      after.download.fileSet = some (fs.setPiece i (judged p bytes)) := by
  have hLength := hDisk.length_bytesOf? h.hasPiece hBytes
  simp only [work, run_check h hDisk, hBytes, finishCheck, commitCheck_judged h hLength]
  exact ⟨_, rfl, tree_afterCheck .., by rw [download_afterCheck]⟩

/-- A check that finds nothing to read is done or dropped, and leaves all pieces alone. -/
theorem work_void (h : ∀ fs p, ¬ StoredPiece t.download .data i fs p) :
    ∃ after v, work (.check .data i) t = { verdict := v, after } ∧ after.tree = t.tree ∧
      after.download.fileSet = t.download.fileSet := by
  cases hPrepared : prepareCheck t.download .data i with
  | mk d result =>
    cases result with
    | error ended =>
      obtain ⟨_, rfl, _⟩ := prepareCheck_error hPrepared
      simp only [work, run, runCheck, hPrepared]
      exact ⟨_, _, rfl, rfl, rfl⟩
    | ok range =>
      obtain ⟨-, fs, p, hStored, -, -⟩ := prepareCheck_ok hPrepared
      exact absurd hStored (h fs p)

theorem sameCut_judged (bytes : Bytes) (hp : fs.pieces[i]? = some p) :
    FileSet.SameCut fs (fs.setPiece i (judged p bytes)) := by
  rw [judged]
  split
  · exact FileSet.sameCut_setPiece hp (Piece.outline_markVerified p) (by simp [Piece.markVerified])
  · exact FileSet.sameCut_setPiece hp (Piece.outline_reopen p) Piece.reopen_cursor_lt

/-- A piece is verified by its check exactly if its bytes are right. -/
theorem isDone_judged {bytes : Bytes} (hCursor : p.mismatchCursor < p.blocks.length) :
    (judged p bytes).isDone = decide (sha1 bytes = p.digest) := by
  rw [judged]
  split
  · next hMatch => rw [Piece.isDone_markVerified, decide_eq_true hMatch]
  · next hMismatch =>
    rw [decide_eq_false hMismatch, Bool.eq_false_iff]
    intro hDone
    have hFull := Piece.isFullyStored_of_isDone hDone
    rw [Piece.not_isFullyStored_reopen hCursor] at hFull
    cases hFull

end Job

end TorrentEngine
