import TorrentEngine.Proofs.Passes

/-!
Free slots after a scheduling pass. The slots of a peer are filled in a loop, which goes on as long
as a slot is free and the selector finds a piece. Each round takes a slot, so the loop ends; and as
every piece that is found has a needed block, nothing else ends it. Later picks of the pass leave
fewer blocks needed, so nothing that a peer could be asked for turns up after the pass came to it.
-/

namespace TorrentEngine

/-- The loop that repeats a step as long as there is one leads from the first state to the last. -/
inductive Loop {σ : Type} (step : σ → Option σ) : σ → σ → Prop
  | done {s : σ} : step s = none → Loop step s s
  | round {s t u : σ} : step s = some t → Loop step t u → Loop step s u

theorem Loop.exit {σ : Type} {step : σ → Option σ} {s t : σ} (h : Loop step s t) :
    step t = none := by
  induction h with
  | done hNone => exact hNone
  | round _ _ ih => exact ih

/-- Every piece stands at its index. -/
def FileSet.Indexed (fs : FileSet) : Prop :=
  ∀ (i : Nat) (p : Piece), fs.pieces[i]? = some p → p.index = i

namespace FileSet

variable {fs fs' : FileSet}

theorem CutFrom.indexed {blockSize : Nat} {digests : List Digest}
    (h : fs.CutFrom blockSize digests) : fs.Indexed :=
  fun _ _ hp => h.index_eq hp

theorem Indexed.settled (h : fs.Indexed) (hSettled : fs'.settled = fs.settled) : fs'.Indexed := by
  intro i p' hp'
  obtain ⟨p, hp, hOutline⟩ := piece_of_outlines (outlines_of_settled hSettled) hp'
  rw [Piece.index_of_outline hOutline, h i p hp]

end FileSet

namespace Selector

/-- No block is left that a peer could be asked for: none that is needed in the piece of the
metadata, or in any piece that the peer has. -/
def Spent (s : Selector) (p : Peer) (fs : FileSet) : Prop :=
  match s with
  | .null => True
  | .single => ∀ b, fs.status? (0, b) ≠ some .needed
  | .rarest => ∀ i b, p.hasPiece i = true → fs.status? (i, b) ≠ some .needed

variable {s : Selector} {p : Peer} {fs fs' : FileSet} {r : Rarity} {now : Time}

/-- Picks leave no more blocks needed. -/
theorem Spent.picked {picks : List Pick} (h : s.Spent p fs)
    (hPicked : Picked (some fs) (some fs') now picks) : s.Spent p fs' := by
  have hNeeded (x : BlockPlace) (hx : fs'.status? x = some .needed) :
      fs.status? x = some .needed := by
    have hStatus := hPicked.status?_eq x
    rw [Option.bind_some, Option.bind_some, hx] at hStatus
    split at hStatus
    · cases hStatus
    · exact hStatus.symm
  cases s with
  | null => trivial
  | single => exact fun b hb => h b (hNeeded _ hb)
  | rarest => exact fun i b hHas hb => h i b hHas (hNeeded _ hb)

/-- A selector that finds no piece has none to find. -/
theorem spent_of_pick (hIndexed : fs.Indexed) (h : s.pick p fs r = none) : s.Spent p fs := by
  cases s with
  | null => trivial
  | single =>
    intro b hNeeded
    obtain ⟨q, hq, -, hStatus⟩ := Download.not_done_of_needed hNeeded
    simp [pick, FileSet.piece?, hq, hStatus] at h
  | rarest =>
    intro i b hHas hNeeded
    obtain ⟨q, hq, hNotDone, hStatus⟩ := Download.not_done_of_needed hNeeded
    have hCandidate : q ∈ fs.candidates p := by
      simp [FileSet.candidates, FileSet.neededPieces, List.mem_of_getElem? hq, hNotDone, hStatus,
        hIndexed i q hq, hHas]
    obtain ⟨q', -, hPick⟩ := Download.pick_rarest hCandidate r
    rw [h] at hPick
    cases hPick

/-- A piece that is found has a needed block. -/
theorem exists_claim_of_pick (hIndexed : fs.Indexed) {i : Nat} (h : s.pick p fs r = some i) :
    ∃ block claimed, (fs.piece? i).bind Piece.claim = some (block, claimed) := by
  have hClaim {q : Piece} (hq : q ∈ fs.pieces) (hStatus : q.hasStatus .needed = true) :
      ∃ block claimed, (fs.piece? q.index).bind Piece.claim = some (block, claimed) := by
    obtain ⟨j, hj⟩ := List.getElem?_of_mem hq
    rw [FileSet.piece?, hIndexed j q hj, hj]
    exact Piece.exists_claim hStatus
  cases s with
  | null => cases h
  | single =>
    obtain ⟨q, hq, rfl⟩ := Option.map_eq_some_iff.mp h
    obtain ⟨hPiece, hStatus⟩ := Option.filter_eq_some_iff.mp hq
    exact hClaim (List.mem_of_getElem? hPiece) hStatus
  | rarest =>
    obtain ⟨q, hq, rfl⟩ := candidate_of_pick h
    obtain ⟨hMem, -, hStatus⟩ := of_mem_candidates hq
    exact hClaim hMem hStatus

end Selector

namespace Download

variable {d : Download} {fs : FileSet}

/-- One round of the loop that fills the slots of a peer: with a slot free, a needed block of the
piece that the selector finds is asked of the peer. -/
def round (selector : Selector) (r : Rarity) (now : Time) (s : FileSet × Peer) :
    Option (FileSet × Peer) :=
  if s.2.freeSlots = 0 then none
  else
    (selector.pick s.2 s.1 r).bind fun i =>
      ((s.1.piece? i).bind Piece.claim).map fun (block, p) =>
        (s.1.setPiece i p, s.2.addRequest i block.index now)

variable {selector : Selector} {r : Rarity} {now : Time} {peer : Peer}

theorem round_of_free (hFree : peer.freeSlots ≠ 0) :
    round selector r now (fs, peer) = (selector.pick peer fs r).bind fun i =>
      ((fs.piece? i).bind Piece.claim).map fun (block, p) =>
        (fs.setPiece i p, peer.addRequest i block.index now) :=
  if_neg hFree

/-- With as many rounds as a peer has free slots the loop comes to its end. -/
theorem fill_loop (selector : Selector) (r : Rarity) (now : Time) (fs : FileSet) (peer : Peer) :
    Loop (round selector r now) (fs, peer)
      ((fill selector r now peer.freeSlots fs peer).1,
        (fill selector r now peer.freeSlots fs peer).2.1) := by
  generalize hSlots : peer.freeSlots = slots
  induction slots generalizing fs peer with
  | zero => exact .done (if_pos hSlots)
  | succ slots ih =>
    have hFree : peer.freeSlots ≠ 0 := by omega
    simp only [fill]
    split
    · next hPick => exact .done (by rw [round_of_free hFree, hPick, Option.bind_none])
    · next i hPick =>
      split
      · next hClaim =>
        exact .done (by rw [round_of_free hFree, hPick, Option.bind_some, hClaim, Option.map_none])
      · next block p hClaim =>
        have hRest : (peer.addRequest i block.index now).freeSlots = slots := by
          simp only [Peer.freeSlots, Peer.addRequest, List.length_append,
            List.length_singleton] at hSlots ⊢
          omega
        refine .round ?_ (ih _ _ hRest)
        rw [round_of_free hFree, hPick, Option.bind_some, hClaim, Option.map_some]

/-- The loop ends for want of slots or of blocks. -/
theorem spent_of_round (hIndexed : fs.Indexed)
    (h : round selector r now (fs, peer) = none) : peer.freeSlots = 0 ∨ selector.Spent peer fs := by
  by_cases hFree : peer.freeSlots = 0
  · exact .inl hFree
  · refine .inr ?_
    cases hPick : selector.pick peer fs r with
    | none => exact Selector.spent_of_pick hIndexed hPick
    | some i =>
      obtain ⟨block, claimed, hClaim⟩ := Selector.exists_claim_of_pick hIndexed hPick
      rw [round_of_free hFree, hPick, Option.bind_some, hClaim, Option.map_some] at h
      cases h

/-- A peer that may be asked has been asked for what there is when the pass has come to it. -/
theorem serve_spent {id : PeerId} {p' : Peer} (hfs : d.fileSet = some fs) (hIndexed : fs.Indexed)
    (hFind : (d.serve r now id).1.peers.find? id = some p')
    (hInterested : p'.download.interested = true)
    (hUnchoked : fs.kind = .data → p'.download.choked = false) :
    ∃ fs', (d.serve r now id).1.fileSet = some fs' ∧
      (p'.freeSlots = 0 ∨ d.selector.Spent p' fs') := by
  simp only [serve] at hFind ⊢
  cases hOld : d.peers.find? id with
  | none =>
    rw [hOld] at hFind
    cases hOld.symm.trans hFind
  | some old =>
    rw [hOld] at hFind
    dsimp only at hFind ⊢
    split at hFind
    · next hBarred =>
      rw [Roster.find?_insert, if_pos rfl] at hFind
      obtain rfl := Option.some.inj hFind
      have hMay : mayRequest fs (d.choking.update d.fileSet old) = true := by
        cases hKind : fs.kind with
        | metadata => simp [mayRequest, hInterested, hKind]
        | data => simp [mayRequest, hInterested, hUnchoked hKind]
      rw [hfs] at hMay hBarred
      rw [Option.filter_some, if_pos hMay] at hBarred
      cases hBarred
    · next served hServed =>
      obtain rfl : served = fs :=
        Option.some.inj ((Option.filter_eq_some_iff.mp hServed).1.symm.trans hfs)
      rw [Roster.find?_insert, if_pos rfl] at hFind
      obtain rfl := Option.some.inj hFind
      have hExit := (fill_loop d.selector r now served (d.choking.update d.fileSet old)).exit
      exact ⟨_, rfl, spent_of_round (hIndexed.settled (settled_fill ..)) hExit⟩

theorem serveAll_spent (hfs : d.fileSet = some fs) (hIndexed : fs.Indexed) (ids : List PeerId)
    {id : PeerId} {p' : Peer} (hId : id ∈ ids)
    (hFind : (serveAll r now ids d).1.peers.find? id = some p')
    (hInterested : p'.download.interested = true)
    (hUnchoked : fs.kind = .data → p'.download.choked = false) :
    ∃ fs', (serveAll r now ids d).1.fileSet = some fs' ∧
      (p'.freeSlots = 0 ∨ d.selector.Spent p' fs') := by
  induction ids generalizing d fs with
  | nil => cases hId
  | cons first rest ih =>
    simp only [serveAll] at hFind ⊢
    obtain ⟨_, hFirst⟩ := serve_pass d r now first
    obtain ⟨picks, hRest⟩ := serveAll_pass (d.serve r now first).1 r now rest
    obtain ⟨fs₁, hfs₁, hSettled⟩ :=
      Option.map_eq_some_iff.mp (hFirst.files.settled_eq.trans (congrArg _ hfs))
    by_cases hLater : id ∈ rest
    · rw [← hFirst.selector_eq]
      refine ih hfs₁ (hIndexed.settled hSettled) hLater hFind fun hKind => hUnchoked ?_
      exact (FileSet.dimensions_of_settled hSettled).1.symm.trans hKind
    · -- The pass does not come back to the peer, and leaves no more blocks needed.
      obtain rfl := (List.mem_cons.mp hId).resolve_right hLater
      rw [hRest.find?_of_notMem hLater] at hFind
      obtain ⟨served, hServed, hSpent⟩ := serve_spent hfs hIndexed hFind hInterested hUnchoked
      have hFiles := hRest.files
      rw [hServed] at hFiles
      obtain ⟨fs', hfs', -⟩ := Option.map_eq_some_iff.mp hFiles.settled_eq
      rw [hfs'] at hFiles
      exact ⟨fs', hfs', hSpent.imp_right (·.picked hFiles)⟩

/-- A pass leaves no slot idle that could be used. The loop that fills the slots of a peer comes to
its end by itself, and in the end each peer that the pass came to, in which there is interest and
which, if content is being fetched, does not choke us, has no free slot or no block is left that it
could be asked for. -/
theorem tick_idle_free (hfs : d.fileSet = some fs) (hIndexed : fs.Indexed)
    (relevant : List PeerId) (now : Time) :
    (∀ r served peer, Loop (round d.selector r now) (served, peer)
      ((fill d.selector r now peer.freeSlots served peer).1,
        (fill d.selector r now peer.freeSlots served peer).2.1)) ∧
    ∃ fs', (d.tick relevant now).1.fileSet = some fs' ∧
      ∀ id ∈ relevant, ∀ p', (d.tick relevant now).1.peers.find? id = some p' →
        p'.download.interested = true → (fs.kind = .data → p'.download.choked = false) →
        p'.freeSlots = 0 ∨ d.selector.Spent p' fs' := by
  refine ⟨fun r served peer => fill_loop d.selector r now served peer, ?_⟩
  obtain ⟨fs', hfs', -⟩ := fileSet_of_core (core_tick d relevant now).symm hfs
  refine ⟨fs', hfs', fun id hId p' hFind hInterested hUnchoked => ?_⟩
  obtain ⟨left, hLeft, hSpent⟩ :=
    serveAll_spent hfs hIndexed relevant hId hFind hInterested hUnchoked
  obtain rfl : left = fs' := Option.some.inj (hLeft.symm.trans hfs')
  exact hSpent

/-- A piece of two blocks and one of a single block. -/
def twoPieces : FileSet where
  kind := .data
  pieceLength := 2
  totalLength := 3
  pieces := [.fresh 0 2 .zero 1, .fresh 1 1 .zero 1]
  storage := .memory [0, 0, 0]

/-- A peer with the first piece takes one request at a time, another with the second piece three. -/
def twoPeers : Download where
  infoHash := .zero
  initialRequestLimit := 1
  fileSet := some twoPieces
  selector := .rarest
  choking := .permissive
  peers :=
    let one : Peer := { line := 0, requestLimit := 1, download := { choked := false } }
    let two : Peer := { line := 1, requestLimit := 3, download := { choked := false } }
    (Roster.empty.insert "one" (one.learnPiece 0)).insert "two" (two.learnPiece 1)

/-- Each peer is asked for one block. Two slots of the second stay free then, as nothing is left
that it could be asked for. -/
theorem tick_idle_free_twoPeers :
    twoPeers.fileSet = some twoPieces ∧ twoPieces.Indexed ∧
      ∃ fs' p', (twoPeers.tick ["one", "two"] 0).1.fileSet = some fs' ∧
        (twoPeers.tick ["one", "two"] 0).1.peers.find? "two" = some p' ∧
        p'.freeSlots = 2 ∧ Selector.rarest.Spent p' fs' := by
  have hCut : FileSet.create .data 2 3 [.zero, .zero] 1 (.memory [0, 0, 0]) = .ok twoPieces := rfl
  have hIndexed := (FileSet.cutFrom_create hCut).indexed
  obtain ⟨-, fs', hfs', hIdleFree⟩ := tick_idle_free rfl hIndexed (d := twoPeers) ["one", "two"] 0
  have hTwo : ((twoPeers.tick ["one", "two"] 0).1.peers.find? "two").any fun p =>
      p.freeSlots = 2 ∧ p.download.interested = true ∧ p.download.choked = false := by
    decide +kernel
  obtain ⟨p', hFind, hFlags⟩ := (Option.any_eq_true ..).mp hTwo
  obtain ⟨hFree, hInterested, hUnchoked⟩ := of_decide_eq_true hFlags
  refine ⟨rfl, hIndexed, fs', p', hfs', hFind, hFree, ?_⟩
  have hSpent := hIdleFree "two" (by decide) p' hFind hInterested fun _ => hUnchoked
  exact hSpent.resolve_left (by omega)

end Download

end TorrentEngine
