import TorrentEngine.Proofs.Frame

/-!
Verified data is sound. In every world that a run reaches, whatever the devices miss, the bytes of
every verified piece of the content are on the disk and have the digest expected of them; so the
download is over only where the whole content is there.
-/

namespace TorrentEngine

/-- The bytes of a piece are on the disk from `offset` on, and have the digest expected of them. -/
def Piece.StoredAt (p : Piece) (disk : Bytes) (offset : Nat) : Prop :=
  offset + p.length ≤ disk.length ∧ sha1 (disk.slice offset p.length) = p.digest

theorem Piece.StoredAt.of_outline {p p' : Piece} {disk : Bytes} {offset : Nat}
    (h : p.StoredAt disk offset) (hOutline : p'.outline = p.outline) :
    p'.StoredAt disk offset := by
  rw [StoredAt, Piece.length_of_outline hOutline, Piece.digest_of_outline hOutline]
  exact h

/-- A range that does not meet the piece may change. -/
theorem Piece.StoredAt.agreeOutside {p : Piece} {disk disk' : Bytes} {offset start count : Nat}
    (h : p.StoredAt disk offset) (hAgree : disk.AgreeOutside disk' start count)
    (hApart : offset + p.length ≤ start ∨ start + count ≤ offset) : p.StoredAt disk' offset := by
  obtain ⟨hInside, hDigest⟩ := h
  refine ⟨?_, ?_⟩
  · rw [hAgree.length_eq]
    exact hInside
  · rw [hAgree.slice_eq hApart]
    exact hDigest

namespace FileSet

/-- The bytes of every verified piece are on the disk and have the digest expected of them. -/
def Sound (fs : FileSet) (disk : Bytes) : Prop :=
  ∀ (i : Nat) (p : Piece), fs.pieces[i]? = some p → p.isDone = true →
    p.StoredAt disk (i * fs.pieceLength)

variable {fs fs' : FileSet} {disk disk' : Bytes}

theorem Sound.of_done (h : fs.Sound disk) (hLength : fs'.pieceLength = fs.pieceLength)
    (hDone : ∀ (i : Nat) (p' : Piece), fs'.pieces[i]? = some p' → p'.isDone = true →
      ∃ p : Piece, fs.pieces[i]? = some p ∧ p.isDone = true ∧ p'.outline = p.outline) :
    fs'.Sound disk := by
  intro i p' hp' hDone'
  obtain ⟨p, hp, hWas, hOutline⟩ := hDone i p' hp' hDone'
  rw [hLength]
  exact (h i p hp hWas).of_outline hOutline

theorem Sound.setPiece (h : fs.Sound disk) {i : Nat} {p q : Piece} (hp : fs.pieces[i]? = some p)
    (hOutline : q.outline = p.outline)
    (hDone : q.isDone = true → p.isDone = true ∨ p.StoredAt disk (i * fs.pieceLength)) :
    (fs.setPiece i q).Sound disk := by
  intro k r hr hr'
  rw [getElem?_setPiece hp] at hr
  split at hr
  · next hk =>
    obtain rfl := Option.some.inj hr
    rw [hk]
    rcases hDone hr' with hWas | hStored
    · exact (h i p hp hWas).of_outline hOutline
    · exact hStored.of_outline hOutline
  · exact h k r hr hr'

/-- What is written into a piece that is not verified does not meet those that are. -/
theorem Sound.write {blockSize : Nat} {digests : List Digest} (h : fs.Sound disk)
    (hCut : fs.CutFrom blockSize digests) {i b : Nat} {p : Piece} {block : Block}
    (hp : fs.pieces[i]? = some p) (hb : p.blocks[b]? = some block)
    (hOpen : block.status.isHeld = false)
    (hAgree : disk.AgreeOutside disk' (i * fs.pieceLength + p.blockOffset b) block.size) :
    fs.Sound disk' := by
  intro k q hq hDone
  have hne : k ≠ i := by
    rintro rfl
    obtain rfl := Option.some.inj (hq.symm.trans hp)
    have hFull := Piece.isFullyStored_of_isDone hDone
    rw [Piece.not_isFullyStored hb hOpen] at hFull
    cases hFull
  refine (h k q hq hDone).agreeOutside hAgree ?_
  have hApart := hCut.apart hq hp hne
  have hInside := hCut.block_le hp hb
  omega

theorem sound_of_settled (h : fs.Sound disk) (hSettled : fs'.settled = fs.settled) :
    fs'.Sound disk := by
  refine h.of_done (dimensions_of_settled hSettled).2.1 fun i p' hp' hDone => ?_
  obtain ⟨p, hp, hReset⟩ := piece_of_settled hSettled hp'
  refine ⟨p, hp, ?_, ?_⟩
  · rw [← Piece.isDone_resetRequested, ← hReset, Piece.isDone_resetRequested]
    exact hDone
  · rw [← Piece.outline_resetRequested, hReset, Piece.outline_resetRequested]

theorem Sound.setUnverified {blockSize : Nat} {digests : List Digest} (h : fs.Sound disk)
    (hCut : fs.CutFrom blockSize digests) {s : BlockStatus} (hs : s ≠ .verified) :
    (Session.setUnverified s fs).Sound disk := by
  refine h.of_done rfl fun i p' hp' hDone => ?_
  rw [Session.getElem?_setUnverified] at hp'
  obtain ⟨p, hp, rfl⟩ := Option.map_eq_some_iff.mp hp'
  split at hDone
  · next hWas =>
    rw [if_pos hWas]
    exact ⟨p, hp, hWas, rfl⟩
  · rw [Session.isDone_setAll hs (hCut.blocks_pos hp)] at hDone
    cases hDone

/-- Of a content that was just cut nothing is verified. -/
theorem sound_of_create {kind : FileSetKind} {pieceLength total blockSize : Nat}
    {digests : List Digest} {storage : Storage}
    (h : create kind pieceLength total digests blockSize storage = .ok fs) : fs.Sound disk := by
  intro i p hp hDone
  obtain ⟨block, hb, hNeeded⟩ := needed_create h hp
  rw [Piece.isDone_iff.mp hDone block (List.mem_of_getElem? hb)] at hNeeded
  cases hNeeded

end FileSet

/-! ### The invariant -/

/-- The content on disk, as far as there is one yet, is sound. -/
def View.Sound (v : View) : Prop :=
  ∀ fs, Job.current? v.download .data = some fs → fs.Sound v.disk

namespace View.Sound

variable {v v' : View} {may : Miss → Prop}

/-- A run of a job keeps the content sound. -/
theorem turns {d : Download} {disk : Bytes} {job : Job} {left jobs : Multiset Job} (h : v.Sound)
    (hFramed : Framed v) (hTurn : Job.Turns may v.download v.disk job d disk left) :
    Sound { v with download := d, jobs, disk } := by
  intro fs' hfs'
  obtain ⟨hfs', hData⟩ := Job.current?_eq_some.mp hfs'
  have hBefore {fs : FileSet} (hfs : v.download.fileSet = some fs) (hKind : fs.kind = .data) :
      fs.Sound v.disk := h fs (Job.current?_eq_some.mpr ⟨hfs, hKind⟩)
  cases hTurn with
  | storeIdle => exact hBefore hfs' hData
  | storeMisfit hfs hp =>
    obtain rfl := Option.some.inj hfs'
    exact (hBefore (Job.current?_eq_some.mp hfs).1 hData).setPiece hp (Piece.outline_mark ..)
      fun hDone => .inl (Piece.isDone_of_mark (by decide) hDone)
  | storeMissed hOpen hContent =>
    obtain rfl := Option.some.inj hfs'
    obtain ⟨blockSize, m, layout, _, hCut, hDisk⟩ := hFramed.data hOpen.fileSet hData
    rw [hDisk, ← hOpen.size] at hContent
    rw [hDisk]
    exact (hBefore hOpen.fileSet hData).write hCut hOpen.hasPiece hOpen.hasBlock hOpen.notHeld
      hContent
  | @stored kind i b data fs p block hOpen hInside =>
    obtain rfl := Option.some.inj hfs'
    obtain ⟨blockSize, m, layout, _, hCut, hDisk⟩ := hFramed.data hOpen.fileSet hData
    rw [hDisk] at hInside ⊢
    have hContent := Bytes.agreeOutside_overwrite hInside
    rw [← hOpen.size] at hContent
    have hWritten := (hBefore hOpen.fileSet hData).write hCut hOpen.hasPiece hOpen.hasBlock
      hOpen.notHeld hContent
    exact hWritten.setPiece hOpen.hasPiece (Piece.outline_mark ..)
      fun hDone => .inl (Piece.isDone_of_mark (by decide) hDone)
  | checkVoid => exact hBefore hfs' hData
  | checkRetried => exact hBefore hfs' hData
  | checkFailed => exact hBefore hfs' hData
  | checkCrashed => exact hBefore hfs' hData
  | verified hStored hInside hDigest =>
    obtain rfl := Option.some.inj hfs'
    obtain ⟨blockSize, m, layout, _, hCut, hDisk⟩ := hFramed.data hStored.fileSet hData
    rw [hDisk] at hInside hDigest
    exact (hBefore hStored.fileSet hData).setPiece hStored.hasPiece (Piece.outline_markVerified _)
      fun _ => .inr ⟨hInside, hDigest⟩
  | mismatched hStored =>
    obtain rfl := Option.some.inj hfs'
    exact (hBefore hStored.fileSet hData).setPiece hStored.hasPiece (Piece.outline_reopen _)
      fun hDone => .inl (Piece.isDone_of_reopen hDone)
  | sent hCore =>
    obtain ⟨fs, hfs, hSettled⟩ := Download.fileSet_of_core hCore hfs'
    have hKind := (FileSet.dimensions_of_settled hSettled).1
    exact FileSet.sound_of_settled (hBefore hfs (hKind.symm.trans hData)) hSettled

theorem moved {c : PhaseConfig} {phase : PhaseId} {d : Download} (h : v.Sound)
    (hMoves : PhaseId.Moves c v.download v.phase phase d) :
    Sound { v with phase, download := d } := by
  obtain ⟨current, download, jobs, disk, verifying⟩ := v
  cases hMoves with
  | toMetadata hfs =>
    intro fs' hfs'
    obtain ⟨hfs', hData⟩ := Job.current?_eq_some.mp hfs'
    obtain rfl := Option.some.inj hfs'
    obtain ⟨b, created, hCreated, hEq⟩ := PhaseId.metadataFileSet_ok hfs
    obtain ⟨_, _, rfl⟩ := FileSet.create_eq_ok hCreated
    rcases hEq with rfl | rfl <;> cases hData
  | toData hDone hm hfs =>
    intro fs' hfs'
    obtain rfl := Option.some.inj (Job.current?_eq_some.mp hfs').1
    exact FileSet.sound_of_create (PhaseId.forTorrent_ok hfs)
  | toSeed => exact h

/-- Steps keep the content sound. -/
theorem change {c : PhaseConfig} (h : v.Sound) (hFramed : Framed v)
    (hChange : Change c may v v') : v'.Sound := by
  cases hChange with
  | quiet hCore =>
    intro fs' hfs'
    obtain ⟨hfs', hData⟩ := Job.current?_eq_some.mp hfs'
    obtain ⟨fs, hfs, hSettled⟩ := Download.fileSet_of_core hCore hfs'
    have hKind := (FileSet.dimensions_of_settled hSettled).1
    have hCurrent := Job.current?_eq_some.mpr ⟨hfs, hKind.symm.trans hData⟩
    exact FileSet.sound_of_settled (h fs hCurrent) hSettled
  | moved hMoves => exact h.moved hMoves
  | begun hfs =>
    intro fs' hfs'
    obtain rfl := Option.some.inj (Job.current?_eq_some.mp hfs').1
    obtain ⟨hCurrent, hData⟩ := Job.current?_eq_some.mp hfs
    obtain ⟨blockSize, m, layout, _, hCut, _⟩ := hFramed.data hCurrent hData
    exact (h _ hfs).setUnverified hCut (by decide)
  | @ended fs hCurrent =>
    intro fs' hfs'
    obtain ⟨hfs', hData⟩ := Job.current?_eq_some.mp hfs'
    obtain rfl := Option.some.inj hfs'
    have hKind : fs.kind = .data := hData
    obtain ⟨blockSize, m, layout, _, hCut, _⟩ := hFramed.data hCurrent hKind
    exact (h fs (Job.current?_eq_some.mpr ⟨hCurrent, hKind⟩)).setUnverified hCut (by decide)
  | executed hJobs hTurn => exact h.turns hFramed hTurn

end View.Sound

/-! ### Runs -/

namespace World

variable {c : PhaseConfig} {may : Miss → Prop} {w w' : World}

/-- The whole content is on the disk: the bytes of each piece have the digest that the torrent lists
for it. -/
def Complete (w : World) : Prop :=
  ∃ m fs, w.download.metainfo = some m ∧ Job.current? w.download .data = some fs ∧
    ∀ i digest, m.pieceDigests[i]? = some digest →
      let length := min fs.pieceLength (fs.totalLength - i * fs.pieceLength)
      i * fs.pieceLength + length ≤ w.disk.length ∧
        sha1 (w.disk.slice (i * fs.pieceLength) length) = digest

theorem Reachable.framed_sound (h : Reachable c may w) : Framed w.view ∧ w.view.Sound := by
  refine h.view_induction (motive := fun v => Framed v ∧ v.Sound) ?_ ?_
  · intro w hFresh
    refine ⟨hFresh.framed, fun fs hfs => ?_⟩
    have hCurrent := (Job.current?_eq_some.mp hfs).1
    rw [show w.view.download.fileSet = none from hFresh.fileSet_eq] at hCurrent
    cases hCurrent
  · intro v v' hInv hChange
    exact ⟨hInv.1.change hChange, hInv.2.change hInv.1 hChange⟩

/-- A content with every piece verified is complete. -/
theorem complete_of_isDone (h : Reachable c may w)
    (hDone : PhaseId.isDone .data w.download = true) : w.Complete := by
  obtain ⟨hFramed, hSound⟩ := h.framed_sound
  simp only [PhaseId.isDone, Bool.and_eq_true, Option.any_eq_true, beq_iff_eq] at hDone
  obtain ⟨_, fs, hfs, hKind, hAll⟩ := hDone
  obtain ⟨blockSize, m, layout, hm, hCut, _⟩ := hFramed.data hfs hKind
  have hCurrent := Job.current?_eq_some.mpr ⟨hfs, hKind⟩
  refine ⟨m, fs, hm, hCurrent, fun i digest hDigest => ?_⟩
  have hLt : i < fs.pieces.length := by
    rw [hCut.length_pieces]
    exact (List.getElem?_eq_some_iff.mp hDigest).1
  have hp := List.getElem?_eq_getElem hLt
  have hStored := hSound fs hCurrent i _ hp (List.all_eq_true.mp hAll _ (List.getElem_mem hLt))
  have hExpected := Option.some.inj (hDigest.symm.trans (hCut.digest_eq hp))
  rw [Piece.StoredAt, hCut.length_eq hp, ← hExpected] at hStored
  exact hStored

/-- Verified data is sound in every world that is reached, whatever the devices miss: the bytes of a
verified piece are on the disk with their digest, the download is told to be over only where the
whole content is there, and only then is the phase left. -/
theorem Reachable.data_sound (h : Reachable c may w) :
    (∀ fs, Job.current? w.download .data = some fs → ∀ p ∈ fs.pieces, p.isDone = true →
      p.StoredAt w.disk (p.index * fs.pieceLength)) ∧
    (∀ effect ∈ (w.session.chain.advance w.session.phase w.download).2.1, effect.EndsDownload →
      w.Complete) ∧
    (∀ w', Step may w w' → w.session.phase = .data → w'.session.phase ≠ .data →
      w'.Complete) := by
  obtain ⟨hFramed, hSound⟩ := h.framed_sound
  refine ⟨?_, ?_, ?_⟩
  · intro fs hfs p hp hDone
    obtain ⟨hCurrent, hKind⟩ := Job.current?_eq_some.mp hfs
    obtain ⟨blockSize, m, layout, _, hCut, _⟩ := hFramed.data hCurrent hKind
    obtain ⟨i, hi⟩ := List.getElem?_of_mem hp
    rw [hCut.index_eq hi]
    exact hSound fs hfs i p hi hDone
  · rw [h.chain_eq]
    have hAttempts := PhaseId.advance_attempts c w.session.phase w.download
    generalize (PhaseChain.standard c).advance w.session.phase w.download = attempt at hAttempts ⊢
    intro effect hEffect hEnds
    cases hAttempts with
    | stayed => cases hEffect
    | failed e hNone => exact absurd hEnds (hNone effect hEffect)
    | moved hMoves _ hData =>
      rw [hData effect hEffect hEnds] at hMoves
      cases hMoves with
      | toSeed hDone => exact complete_of_isDone h hDone
  · intro w' hStep hData hLeft
    have hChange := hStep.change h.chain_eq
    have hBefore : w.view.phase = .data := hData
    have hAfter : w'.view.phase ≠ .data := hLeft
    have hDone : PhaseId.isDone .data w'.view.download = true := by
      generalize w'.view = v' at hChange hAfter
      cases hChange with
      | moved hMoves =>
        rw [hBefore] at hMoves
        cases hMoves with
        | toSeed hDone => exact hDone
      | _ => exact absurd hBefore hAfter
    exact complete_of_isDone (h.step hStep) hDone

/-- In the short run the piece is verified, its byte is on the disk, and seeding begins. -/
theorem data_sound_oneByte :
    (∃ fs, Job.current? oneByteVerified.download .data = some fs ∧ fs.pieces ≠ [] ∧
      ∀ p ∈ fs.pieces, p.isDone = true ∧
        p.StoredAt oneByteVerified.disk (p.index * fs.pieceLength)) ∧
    oneByteVerified.Complete ∧
    World.Complete
      { oneByteVerified with session := (oneByteVerified.session.advanceUpTo 1).1 } := by
  have hEvaluated : (Job.current? oneByteVerified.download .data).any
      (fun fs => fs.isDone && !fs.pieces.isEmpty) = true := by decide +kernel
  rw [Option.any_eq_true] at hEvaluated
  obtain ⟨fs, hfs, hDone⟩ := hEvaluated
  rw [Bool.and_eq_true] at hDone
  have hAll : ∀ p ∈ fs.pieces, p.isDone = true := List.all_eq_true.mp hDone.1
  have hReached : Reachable oneByteConfig (fun _ => True) oneByteVerified :=
    reachable_oneByteVerified
  obtain ⟨hPieces, hEnds, hLeft⟩ := Reachable.data_sound hReached
  refine ⟨⟨fs, hfs, by simpa using hDone.2, fun p hp => ⟨hAll p hp, ?_⟩⟩, ?_, ?_⟩
  · exact hPieces fs hfs p hp (hAll p hp)
  · refine hEnds (.notify (.downloadComplete Digest.zero)) ?_ trivial
    decide +kernel
  · refine hLeft _ .advance rfl ?_
    decide +kernel

end World

end TorrentEngine
