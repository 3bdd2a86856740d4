import TorrentEngine.Proofs.Filling
import TorrentEngine.Proofs.Rotation

/-!
Mending a piece. A check that finds the wrong bytes opens one block again, and storing that block
has the piece checked once more. The cursor goes from block to block, so no block is opened twice
before all of them were; by then all of them have been stored with the right bytes, and the piece is
verified.
-/

namespace TorrentEngine

theorem Bytes.slice_slice {b : Bytes} {offset length start count : Nat}
    (h : start + count ≤ length) :
    (b.slice offset length).slice start count = b.slice (offset + start) count := by
  apply List.ext_getElem?
  intro k
  rw [getElem?_slice, getElem?_slice, getElem?_slice]
  split
  · rw [if_pos (by omega), Nat.add_assoc]
  · rfl

namespace Piece

theorem isFullyStored_mark {p : Piece} {s : BlockStatus} (h : p.isFullyStored = true)
    (hHeld : s.isHeld = true) (b : Nat) : (p.mark b s).isFullyStored = true := by
  refine isFullyStored_iff.mpr fun block hBlock => ?_
  obtain ⟨k, hk⟩ := List.getElem?_of_mem hBlock
  rw [getElem?_blocks_mark] at hk
  split at hk
  · obtain ⟨_, _, rfl⟩ := Option.map_eq_some_iff.mp hk
    exact hHeld
  · exact isFullyStored_iff.mp h block (List.mem_of_getElem? hk)

/-- The piece after the block under its cursor was opened and stored again. -/
def refill (p : Piece) : Piece := p.reopen.2.mark p.mismatchCursor .stored

theorem refill_eq {p : Piece} (h : p.mismatchCursor < p.blocks.length) :
    p.refill = { p.mark p.mismatchCursor .stored with
      mismatchCursor := (p.mismatchCursor + 1) % p.blocks.length } := by
  rw [refill, reopen_eq h]
  simp only [mark, List.modify_modify_eq]
  rfl

end Piece

/-! ### The process -/

namespace Job

/-- A piece is mended: it is checked, and as long as that finds the wrong bytes, the one block that
the check opened is stored with its bytes in `data`, which has the piece checked again. Lists the
blocks that were opened. -/
inductive Mends (data : Nat → Bytes) (i : Nat) : Torrent → List Nat → Torrent → Prop
  | right {t final : Torrent} (hCheck : run (.check .data i) t = { ended := .done, after := final })
      (hDone : final.download.fileSet.any (·.hasPiece i) = true) : Mends data i t [] final
  | wrong {t opened stored final : Torrent} {b : Nat} {reopened : List Nat}
      (hCheck : run (.check .data i) t = { ended := .done, after := opened })
      (hOpened : ∀ x, opened.download.status? x =
        if x = (i, b) then some .needed else t.download.status? x)
      (hStore : run (.store .data i b (data b)) opened =
        { ended := .done, after := stored, submitted := [.check .data i] })
      (hMore : Mends data i stored reopened final) : Mends data i t (b :: reopened) final

end Job

/-- A piece that is all stored, `k` blocks of which were opened and stored again from `start` on,
with their bytes in `whole`. -/
structure Mended (plan : FileSet) (whole : Bytes) (i start k : Nat) (fs : FileSet) (p : Piece)
    (stored : Bytes) : Prop where
  sameCut : FileSet.SameCut plan fs
  hasPiece : fs.pieces[i]? = some p
  inside : i * fs.pieceLength + p.length ≤ stored.length
  covered : i * fs.pieceLength + p.length ≤ whole.length
  cursor : p.mismatchCursor = (start + k) % p.blocks.length
  right : ∀ j < k, fs.bytesAt stored (i, (start + j) % p.blocks.length) =
    fs.bytesAt whole (i, (start + j) % p.blocks.length)

namespace Mended

variable {plan fs : FileSet} {whole stored : Bytes} {i start k : Nat} {p : Piece}
  {blockSize : Nat} {digests : List Digest}

/-- Once all blocks were stored again, all bytes are right. -/
theorem slice_eq (h : Mended plan whole i start k fs p stored)
    (hCut : plan.CutFrom blockSize digests) (hAll : p.blocks.length ≤ k) :
    stored.slice (i * fs.pieceLength) p.length = whole.slice (i * fs.pieceLength) p.length := by
  refine (hCut.sameCut h.sameCut).slice_eq h.hasPiece fun b block hb => ?_
  obtain ⟨j, hj, rfl⟩ := exists_rotated start (List.getElem?_eq_some_iff.mp hb).1
  exact h.right j (hj.trans_le hAll)

theorem length_bytesAt (h : Mended plan whole i start k fs p stored)
    (hCut : plan.CutFrom blockSize digests) {b : Nat} {block : Block}
    (hb : p.blocks[b]? = some block) : block.size = (fs.bytesAt whole (i, b)).length := by
  have := (hCut.sameCut h.sameCut).block_le h.hasPiece hb
  have := h.covered
  rw [FileSet.bytesAt_of_block h.hasPiece hb, Bytes.length_slice]
  omega

/-- One more block is stored again. -/
theorem refill (h : Mended plan whole i start k fs p stored) (hCut : plan.CutFrom blockSize digests)
    {block : Block} (hb : p.blocks[p.mismatchCursor]? = some block) (storage : Storage) :
    Mended plan whole i start (k + 1) ({ fs with storage }.setPiece i p.refill) p.refill
      (stored.overwrite (i * fs.pieceLength + p.blockOffset p.mismatchCursor)
        (fs.bytesAt whole (i, p.mismatchCursor))) := by
  have hCut' := hCut.sameCut h.sameCut
  have hLow := (List.getElem?_eq_some_iff.mp hb).1
  have hOutline : p.refill.outline = p.outline := by
    rw [Piece.refill, Piece.outline_mark, Piece.outline_reopen]
  have hCount : p.refill.blocks.length = p.blocks.length := by
    rw [Piece.refill_eq hLow, Piece.mark, List.length_modify]
  have hCursor : p.refill.mismatchCursor = (p.mismatchCursor + 1) % p.blocks.length := by
    rw [Piece.refill_eq hLow]
  have hSame : FileSet.SameCut fs ({ fs with storage }.setPiece i p.refill) := by
    refine (fs.sameCut_storage storage).trans (FileSet.sameCut_setPiece h.hasPiece hOutline ?_)
    intro hOld
    rw [hCursor, hCount]
    exact Nat.mod_lt _ (by omega)
  have hData := h.length_bytesAt hCut hb
  have hInside : i * fs.pieceLength + p.blockOffset p.mismatchCursor +
      (fs.bytesAt whole (i, p.mismatchCursor)).length ≤ stored.length := by
    have := hCut'.block_le h.hasPiece hb
    have := h.inside
    omega
  refine
    { sameCut := h.sameCut.trans hSame
      hasPiece := ?hasPiece
      inside := ?inside
      covered := ?covered
      cursor := ?cursor
      right := ?right }
  case hasPiece => exact FileSet.getElem?_setPiece_self h.hasPiece p.refill storage
  case inside =>
    rw [Bytes.length_overwrite hInside, Piece.length_of_outline hOutline]
    exact h.inside
  case covered =>
    rw [Piece.length_of_outline hOutline]
    exact h.covered
  case cursor => rw [hCursor, hCount, h.cursor, Nat.mod_add_mod, Nat.add_assoc]
  case right =>
    intro j hj
    rw [hCount, hSame.bytesAt_eq]
    have hExists : (fs.status? (i, (start + j) % p.blocks.length)).isSome = true := by
      have hc := List.getElem?_eq_getElem (Nat.mod_lt (start + j) (by omega : 0 < p.blocks.length))
      rw [FileSet.status?_of_block h.hasPiece hc]
      rfl
    rw [hCut'.bytesAt_overwrite h.hasPiece hb hData hInside hExists]
    split
    · next hHere => rw [hHere]
    · next hOther =>
      refine h.right j (Nat.lt_of_le_of_ne (Nat.le_of_lt_succ hj) ?_)
      rintro rfl
      exact hOther (by rw [h.cursor])

end Mended

/-! ### Runs -/

namespace Job

variable {holds : Storage → FileTree → Bytes → Prop} {t : Torrent} {fs : FileSet} {p : Piece}
  {block : Block} {stored data : Bytes} {i : Nat}

/-- A check that finds the right bytes ends the mending. -/
theorem mends_of_right (hReliable : Storage.Reliable holds)
    (h : StoredPiece t.download .data i fs p) (hHolds : holds fs.storage t.tree stored)
    (hInside : i * fs.pieceLength + p.length ≤ stored.length)
    (hRight : sha1 (stored.slice (i * fs.pieceLength) p.length) = p.digest) (data : Nat → Bytes) :
    ∃ final, Mends data i t [] final := by
  obtain ⟨storage, final, -, hCheck, -, hDownload⟩ := run_check_stored hReliable h hHolds hInside
  refine ⟨final, .right hCheck ?_⟩
  have hPiece := FileSet.getElem?_setPiece_self h.hasPiece p.markVerified storage
  rw [hDownload, judged, if_pos hRight, Option.any_some, FileSet.hasPiece, FileSet.piece?, hPiece,
    Option.any_some, Piece.isDone_markVerified]

/-- A check that finds the wrong bytes opens one block; storing that leaves the piece all stored and
has it checked again. -/
theorem reopen_and_store (hReliable : Storage.Reliable holds)
    (h : StoredPiece t.download .data i fs p) (hHolds : holds fs.storage t.tree stored)
    (hInside : i * fs.pieceLength + p.length ≤ stored.length)
    (hWrong : sha1 (stored.slice (i * fs.pieceLength) p.length) ≠ p.digest)
    (hb : p.blocks[p.mismatchCursor]? = some block) (hSize : block.size = data.length)
    (hBlock : p.blockOffset p.mismatchCursor + block.size ≤ p.length) :
    ∃ storage opened after, run (.check .data i) t = { ended := .done, after := opened } ∧
      (∀ x, opened.download.status? x =
        if x = (i, p.mismatchCursor) then some .needed else t.download.status? x) ∧
      run (.store .data i p.mismatchCursor data) opened =
        { ended := .done, after, submitted := [.check .data i] } ∧
      StoredPiece after.download .data i ({ fs with storage }.setPiece i p.refill) p.refill ∧
      holds storage after.tree
        (stored.overwrite (i * fs.pieceLength + p.blockOffset p.mismatchCursor) data) := by
  have hLow := (List.getElem?_eq_some_iff.mp hb).1
  obtain ⟨storage, opened, hHolds', hCheck, hTree, hDownload⟩ :=
    run_check_stored hReliable h hHolds hInside
  rw [judged, if_neg hWrong] at hDownload
  have hReopened : p.reopen.2.blocks[p.mismatchCursor]? =
      some { block with status := .needed } := by
    rw [Piece.reopen_eq hLow]
    simp [Piece.getElem?_blocks_mark, hb]
  have hFull : p.refill.isFullyStored = true := by
    rw [Piece.refill_eq hLow]
    exact Piece.isFullyStored_mark h.full rfl p.mismatchCursor
  have hOpen : OpenBlock opened.download .data i p.mismatchCursor data.length
      ({ fs with storage }.setPiece i p.reopen.2) p.reopen.2 { block with status := .needed } := by
    have hPiece := FileSet.getElem?_setPiece_self h.hasPiece p.reopen.2 storage
    exact ⟨by rw [hDownload], h.kind_eq, hPiece, hReopened, hSize, rfl⟩
  have hRange : i * fs.pieceLength + p.reopen.2.blockOffset p.mismatchCursor + data.length ≤
      stored.length := by
    rw [Piece.blockOffset, Piece.blockSize_of_outline p.outline_reopen, ← Piece.blockOffset]
    omega
  obtain ⟨storage', tree, hHolds'', hStore⟩ :=
    run_store_open hReliable hOpen (hTree ▸ hHolds') hRange
  rw [← Piece.refill, hFull] at hStore
  refine ⟨storage', opened, _, hCheck, ?_, hStore, ?_, ?_⟩
  · intro x
    rw [Download.status?, hDownload, Download.status?, h.fileSet, Option.bind_some]
    exact (FileSet.status?_reopen h.hasPiece x).trans (FileSet.status?_mark h.hasPiece hb _ x)
  · refine ⟨?_, h.kind_eq, FileSet.getElem?_setPiece_self h.hasPiece p.refill storage', hFull⟩
    simp [FileSet.setPiece]
  · rw [Piece.blockOffset, Piece.blockSize_of_outline p.outline_reopen] at hHolds''
    exact hHolds''

end Job

namespace Mended

variable {holds : Storage → FileTree → Bytes → Prop} {t : Torrent} {plan fs : FileSet}
  {whole stored : Bytes} {i start k left : Nat} {p : Piece} {blockSize : Nat}
  {digests : List Digest}

/-- The mending goes on from the next block, and ends at the latest when all were stored again. -/
theorem mends (h : Mended plan whole i start k fs p stored) (hReliable : Storage.Reliable holds)
    (hCut : plan.CutFrom blockSize digests) (hStored : Job.StoredPiece t.download .data i fs p)
    (hHolds : holds fs.storage t.tree stored)
    (hDigest : sha1 (whole.slice (i * fs.pieceLength) p.length) = p.digest)
    (hLeft : p.blocks.length = k + left) :
    ∃ n ≤ left, ∃ final, Job.Mends (fun b => plan.bytesAt whole (i, b)) i t
      ((List.range' k n).map fun j => (start + j) % p.blocks.length) final := by
  induction left generalizing t fs p stored k with
  | zero =>
    rw [← h.slice_eq hCut (by omega)] at hDigest
    obtain ⟨final, hMends⟩ := Job.mends_of_right hReliable hStored hHolds h.inside hDigest _
    exact ⟨0, Nat.le_refl 0, final, hMends⟩
  | succ left ih =>
    by_cases hRight : sha1 (stored.slice (i * fs.pieceLength) p.length) = p.digest
    · obtain ⟨final, hMends⟩ := Job.mends_of_right hReliable hStored hHolds h.inside hRight _
      exact ⟨0, Nat.zero_le _, final, hMends⟩
    have hLow : p.mismatchCursor < p.blocks.length := by
      rw [h.cursor]
      exact Nat.mod_lt _ (by omega)
    have hb := List.getElem?_eq_getElem hLow
    have hBlock := (hCut.sameCut h.sameCut).block_le h.hasPiece hb
    obtain ⟨storage, opened, after, hCheck, hOpened, hStore, hStored', hHolds'⟩ :=
      Job.reopen_and_store hReliable hStored hHolds h.inside hRight hb (h.length_bytesAt hCut hb)
        hBlock
    have hCount : p.refill.blocks.length = p.blocks.length := by
      rw [Piece.refill_eq hLow, Piece.mark, List.length_modify]
    have hDigest' : sha1 (whole.slice (i * fs.pieceLength) p.refill.length) = p.refill.digest := by
      rw [Piece.refill_eq hLow]
      exact hDigest
    obtain ⟨n, hn, final, hMore⟩ :=
      ih (h.refill hCut hb storage) hStored' hHolds' hDigest' (by omega)
    refine ⟨n + 1, Nat.succ_le_succ hn, final, ?_⟩
    rw [List.range'_succ, List.map_cons, ← h.cursor]
    rw [hCount] at hMore
    rw [h.sameCut.bytesAt_eq] at hStore
    exact .wrong hCheck hOpened hStore hMore

end Mended

/-- However wrong the bytes of a piece are, storing the blocks that its checks open makes it
verified after as many mismatches at most as it has blocks, and no block is opened twice. -/
theorem Job.mends_within {holds : Storage → FileTree → Bytes → Prop} {t : Torrent} {fs : FileSet}
    {blockSize : Nat} {digests : List Digest} {i : Nat} {p : Piece} {stored content : Bytes}
    (hReliable : Storage.Reliable holds) (hCut : fs.CutFrom blockSize digests)
    (hStored : Job.StoredPiece t.download .data i fs p) (hHolds : holds fs.storage t.tree stored)
    (hInside : i * fs.pieceLength + p.length ≤ stored.length)
    (hLength : content.length = p.length) (hDigest : sha1 content = p.digest) :
    ∃ reopened final,
      Job.Mends (fun b => content.slice (fs.extent (i, b)).1 (fs.extent (i, b)).2) i t reopened
        final ∧
      reopened.length ≤ p.blocks.length ∧ reopened.Nodup := by
  have hRange : i * fs.pieceLength + content.length ≤ stored.length := by rwa [hLength]
  have hWhole : (stored.overwrite (i * fs.pieceLength) content).slice (i * fs.pieceLength)
      p.length = content := by
    rw [← hLength]
    exact Bytes.slice_overwrite hRange
  have hBytes (b : Nat) : content.slice (fs.extent (i, b)).1 (fs.extent (i, b)).2 =
      fs.bytesAt (stored.overwrite (i * fs.pieceLength) content) (i, b) := by
    cases hb : p.blocks[b]? with
    | none =>
      have hNone : (fs.extent (i, b)).2 = 0 := by
        simp only [FileSet.extent, hStored.hasPiece, hb, Option.map_none, Option.getD_none]
      rw [FileSet.bytesAt, hNone]
      simp [Bytes.slice]
    | some block =>
      have hBlock := hCut.block_le hStored.hasPiece hb
      rw [FileSet.bytesAt_of_block hStored.hasPiece hb, FileSet.extent_of_block hStored.hasPiece hb]
      rw [← hWhole, Bytes.slice_slice hBlock, hWhole]
  have hLow := hCut.cursors p (List.mem_of_getElem? hStored.hasPiece)
  have hMended : Mended fs (stored.overwrite (i * fs.pieceLength) content) i p.mismatchCursor 0 fs p
      stored := by
    refine ⟨.refl fs, hStored.hasPiece, hInside, ?_, (Nat.mod_eq_of_lt hLow).symm, fun _ hj => ?_⟩
    · rwa [Bytes.length_overwrite hRange]
    · exact absurd hj (Nat.not_lt_zero _)
  obtain ⟨n, hn, final, hMends⟩ := hMended.mends hReliable hCut hStored hHolds
    (by rw [hWhole, hDigest]) (Nat.zero_add _).symm
  rw [← funext hBytes] at hMends
  refine ⟨_, final, hMends, by simpa using hn, List.Nodup.map_on ?_ List.nodup_range'⟩
  intro j hj j' hj' hSame
  rw [List.mem_range'_1] at hj hj'
  exact rotated_inj (by omega) (by omega) hSame

/-- A piece of two blocks that is all stored, with its cursor at the second block. -/
def spoiltPiece : Piece :=
  { Piece.fresh 0 4 (sha1 [1, 2, 3, 4]) 2 with
    blocks :=
      [{ index := 0, size := 2, status := .stored }, { index := 1, size := 2, status := .verified }]
    mismatchCursor := 1 }

/-- A content of that piece, all bytes of which are wrong. -/
def spoilt : FileSet :=
  { kind := .data, pieceLength := 4, totalLength := 4, pieces := [spoiltPiece]
    storage := .memory [0, 0, 0, 0] }

/-- A torrent that works on it. -/
def spoiltTorrent : Torrent where
  download := { Download.named Digest.zero 5 with fileSet := some spoilt }
  events := { capacity := 0 }
  tree := { home := [] }

/-- Both blocks are wrong, and two mismatches are enough. -/
theorem Job.mends_within_spoilt :
    spoilt.CutFrom 2 [sha1 [1, 2, 3, 4]] ∧
    Job.StoredPiece spoiltTorrent.download .data 0 spoilt spoiltPiece ∧
    sha1 [1, 2, 3, 4] = spoiltPiece.digest ∧
    ∃ reopened final,
      Job.Mends (fun b => Bytes.slice [1, 2, 3, 4] (spoilt.extent (0, b)).1
        (spoilt.extent (0, b)).2) 0 spoiltTorrent reopened final ∧
      reopened.length ≤ 2 ∧ reopened.Nodup := by
  have hCut : spoilt.CutFrom 2 [sha1 [1, 2, 3, 4]] := by
    refine ⟨by decide, rfl, rfl, fun p hp => ?_⟩
    obtain rfl := List.mem_singleton.mp hp
    exact Nat.one_lt_two
  have hStored : Job.StoredPiece spoiltTorrent.download .data 0 spoilt spoiltPiece :=
    ⟨rfl, rfl, rfl, rfl⟩
  exact ⟨hCut, hStored, rfl, Job.mends_within Storage.reliable_memory hCut hStored rfl
    (Nat.le_refl 4) rfl rfl⟩

end TorrentEngine
