import TorrentEngine.Proofs.Exclusivity
import TorrentEngine.Session

/-!
Input that is refused. A command can be refused for two reasons: it is about a piece or an offset
that there is not, or it brings bytes that do not fit the block they are for. The first kind changes
nothing. The second kind changes nothing either, unless the sender was asked for this very block:
then this one request is taken back, and the block becomes needed if it was requested.
-/

namespace TorrentEngine

/-- Only what stands at the place matters to a change there. -/
theorem modify_congr {α : Type} {l : List α} {i : Nat} {f g : α → α}
    (h : ∀ a, l[i]? = some a → f a = g a) : l.modify i f = l.modify i g := by
  refine List.ext_getElem? fun k => ?_
  rw [List.getElem?_modify, List.getElem?_modify]
  split
  · next hk =>
    subst hk
    exact Option.map_congr h
  · rfl

theorem modify_eq_self {α : Type} {l : List α} {i : Nat} {f : α → α}
    (h : ∀ a, l[i]? = some a → f a = a) : l.modify i f = l :=
  (modify_congr h).trans (List.modify_id ..)

/-- The block, needed again if it was requested. -/
def Block.letGo (b : Block) : Block :=
  if b.status = .requested then { b with status := .needed } else b

/-- The file set with the block at a place, if there is one, needed again if it was requested. -/
def FileSet.letGo (fs : FileSet) (x : BlockPlace) : FileSet :=
  fs.changePiece x.1 fun p => { p with blocks := p.blocks.modify x.2 Block.letGo }

namespace Download

variable {d d' : Download} {fs : FileSet} {now : Time} {c : Command} {id : PeerId}
  {x : BlockPlace} {e e' : PieceError}

/-! ### Letting a block go -/

theorem reopenRequest_eq (fs : FileSet) (r : Request) : reopenRequest fs r = fs.letGo r.place := by
  simp only [reopenRequest, FileSet.piece?, FileSet.letGo, FileSet.changePiece, Request.place]
  cases hp : fs.pieces[r.piece]? with
  | none =>
    rw [modify_eq_self fun p hSome => by rw [hp] at hSome; cases hSome]
  | some p =>
    dsimp only
    split
    · next hAny =>
      obtain ⟨block, hb, hStatus⟩ := (Option.any_eq_true ..).mp hAny
      have hBlocks : p.blocks.modify r.block (fun b => { b with status := .needed }) =
          p.blocks.modify r.block Block.letGo := modify_congr fun b hb' => by
        obtain rfl := Option.some.inj (hb.symm.trans hb')
        exact (if_pos (of_decide_eq_true hStatus)).symm
      rw [FileSet.setPiece, Piece.mark, hBlocks, List.set_eq_modify]
      congr 1
      refine modify_congr fun q hq => ?_
      obtain rfl := Option.some.inj (hp.symm.trans hq)
      rfl
    · next hAny =>
      rw [modify_eq_self]
      intro q hq
      obtain rfl := Option.some.inj (hp.symm.trans hq)
      rw [modify_eq_self]
      intro b hb
      refine if_neg fun hStatus => hAny ?_
      exact (Option.any_eq_true ..).mpr ⟨b, hb, decide_eq_true hStatus⟩

theorem revert_eq (d : Download) (requests : List Request) :
    d.revert requests = d.changeFileSet fun fs => (requests.map Request.place).foldl .letGo fs := by
  simp only [revert, List.foldl_map, ← reopenRequest_eq]

/-! ### Refusals -/

/-- A command names a piece or an offset that the current file set does not have. -/
inductive Strays (d : Download) : Command → PieceError → Prop
  | piece {fs : FileSet} {id : PeerId} {i offset : Nat} {data : Bytes}
      (hfs : d.fileSet.filter (·.kind = .data) = some fs) (hPiece : fs.pieces[i]? = none) :
      Strays d (.block id i offset data) (.unknownPiece i)
  | offset {fs : FileSet} {p : Piece} {id : PeerId} {i offset : Nat} {data : Bytes}
      {e : PieceError} (hfs : d.fileSet.filter (·.kind = .data) = some fs)
      (hPiece : fs.pieces[i]? = some p) (hOffset : p.blockIndexAt offset = .error e) :
      Strays d (.block id i offset data) e
  | metadata {fs : FileSet} {id : PeerId} {b : Nat} {data : Bytes}
      (hfs : d.fileSet.filter (·.kind = .metadata) = some fs) (hPiece : fs.pieces[0]? = none) :
      Strays d (.metadataBlock id b data) (.unknownPiece 0)

/-- A command brings bytes that do not fit the block that it names. -/
inductive Misfits (d : Download) : Command → PeerId → BlockPlace → PieceError → Prop
  | content {fs : FileSet} {p : Piece} {id : PeerId} {i b offset : Nat} {data : Bytes}
      {e : PieceError} (hfs : d.fileSet.filter (·.kind = .data) = some fs)
      (hPiece : fs.pieces[i]? = some p) (hOffset : p.blockIndexAt offset = .ok b)
      (hCheck : p.checkBlock b data.length = .error e) :
      Misfits d (.block id i offset data) id (i, b) e
  | metadata {fs : FileSet} {p : Piece} {id : PeerId} {b : Nat} {data : Bytes} {e : PieceError}
      (hfs : d.fileSet.filter (·.kind = .metadata) = some fs) (hPiece : fs.pieces[0]? = some p)
      (hCheck : p.checkBlock b data.length = .error e) :
      Misfits d (.metadataBlock id b data) id (0, b) e

/-- A connected peer was asked for the block at a place. -/
def Asks (d : Download) (id : PeerId) (x : BlockPlace) : Prop :=
  ∃ p, d.peers.find? id = some p ∧ ∃ r ∈ p.pending, r.place = x

/-- `d'` is `d` with the first request of a peer for a block taken back. -/
structure TakesBack (d d' : Download) (id : PeerId) (x : BlockPlace) : Prop where
  peer : ∃ p before r after, d.peers.find? id = some p ∧ p.pending = before ++ r :: after ∧
    r.place = x ∧ (∀ q ∈ before, q.place ≠ x) ∧
    d'.peers.find? id = some { p with pending := before ++ after }
  others : ∀ k, k ≠ id → d'.peers.find? k = d.peers.find? k
  fileSet : d'.fileSet = d.fileSet.map (·.letGo x)
  rest : { d' with peers := d.peers, fileSet := d.fileSet } = d

theorem release_takesBack (h : d.Asks id x) : d.TakesBack (d.release id x.1 x.2) id x := by
  obtain ⟨p, hFind, r, hMem, rfl⟩ := h
  have hFor : r.isFor r.place.1 r.place.2 = true := Request.isFor_iff.mpr rfl
  obtain ⟨dropped, before, after, hBefore, hDropped, hSplit, hErased⟩ :=
    List.exists_of_eraseP (p := (·.isFor r.place.1 r.place.2)) hMem hFor
  have hPlace : dropped.place = r.place := Request.isFor_iff.mp hDropped
  have hRequest : (d.peers.find? id).bind (·.findRequest? r.place.1 r.place.2) = some dropped := by
    rw [hFind, Option.bind_some, Peer.findRequest?, hSplit, List.find?_append,
      List.find?_eq_none.mpr hBefore, Option.none_or]
    exact List.find?_cons_of_pos (p := fun q : Request => q.isFor r.place.1 r.place.2) hDropped
  rw [release, hRequest]
  dsimp only
  rw [revert_eq]
  refine ⟨⟨p, before, dropped, after, hFind, hSplit, hPlace, ?_, ?_⟩, ?_, ?_, rfl⟩
  · intro q hq hEq
    exact hBefore q hq (Request.isFor_iff.mpr hEq)
  · simp only [changeFileSet, changePeer, Roster.find?_update, if_true, hFind, Option.map_some,
      Peer.dropRequest, hErased]
  · intro k hk
    simp only [changeFileSet, changePeer, Roster.find?_update, if_neg hk]
  · simp only [changeFileSet, changePeer, List.map_cons, List.map_nil, List.foldl_cons,
      List.foldl_nil, hPlace]

theorem release_of_not_asks (h : ¬ d.Asks id x) : d.release id x.1 x.2 = d := by
  have hNone : (d.peers.find? id).bind (·.findRequest? x.1 x.2) = none := by
    rw [Option.bind_eq_none_iff]
    intro p hFind
    refine List.find?_eq_none.mpr fun r hr hFor => ?_
    exact h ⟨p, hFind, r, hr, Request.isFor_iff.mp hFor⟩
  rw [release, hNone]

theorem piece_of_some {i : Nat} {p : Piece} (hPiece : fs.pieces[i]? = some p) :
    fs.piece i = .ok p :=
  FileSet.piece_eq_ok.mpr hPiece

theorem piece_of_none {i : Nat} (hPiece : fs.pieces[i]? = none) :
    fs.piece i = .error (.unknownPiece i) := by
  simp only [FileSet.piece, FileSet.piece?, hPiece]

theorem handle_stray (h : d.Strays c e) (now : Time) : d.handle now c = (d, .error e) := by
  cases h with
  | piece hfs hPiece =>
    simp only [handle, hfs, blockAt, piece_of_none hPiece]
    rfl
  | offset hfs hPiece hOffset =>
    simp only [handle, hfs, blockAt, piece_of_some hPiece, bind, Except.bind, hOffset]
  | metadata hfs hPiece => simp only [handle, hfs, takeBlock, piece_of_none hPiece]

theorem handle_misfit (h : d.Misfits c id x e) (now : Time) :
    d.handle now c = (d.release id x.1 x.2, .error e) := by
  cases h with
  | content hfs hPiece hOffset hCheck =>
    simp only [handle, hfs, blockAt, piece_of_some hPiece, bind, Except.bind, hOffset, takeBlock,
      hCheck]
  | metadata hfs hPiece hCheck =>
    simp only [handle, hfs, takeBlock, piece_of_some hPiece, hCheck]

/-- A block is refused by the file set if its piece does not exist or its bytes do not fit. -/
theorem takeBlock_eq_error {i b : Nat} {data : Bytes}
    (h : (d.takeBlock fs now id i b data).2 = .error e) :
    fs.pieces[i]? = none ∧ e = .unknownPiece i ∨
      ∃ p, fs.pieces[i]? = some p ∧ p.checkBlock b data.length = .error e := by
  cases hPiece : fs.pieces[i]? with
  | none =>
    simp only [takeBlock, piece_of_none hPiece, Except.error.injEq] at h
    exact .inl ⟨rfl, h.symm⟩
  | some p =>
    simp only [takeBlock, piece_of_some hPiece] at h
    cases hCheck : p.checkBlock b data.length with
    | error e' =>
      simp only [hCheck, Except.error.injEq] at h
      exact .inr ⟨p, rfl, hCheck.trans (congrArg _ h)⟩
    | ok =>
      simp only [hCheck] at h
      split at h
      · cases h
      · cases h

/-- There is no other reason to refuse a command. -/
theorem refused_cases (h : (d.handle now c).2 = .error e) :
    d.Strays c e ∨ ∃ id x, d.Misfits c id x e := by
  cases c with
  | block id i offset data =>
    cases hfs : d.fileSet.filter (·.kind = .data) with
    | none =>
      simp only [handle, hfs] at h
      cases h
    | some fs =>
      simp only [handle, hfs, blockAt] at h
      cases hPiece : fs.pieces[i]? with
      | none =>
        simp only [piece_of_none hPiece, bind, Except.bind, Except.error.injEq] at h
        exact .inl (h ▸ .piece hfs hPiece)
      | some p =>
        simp only [piece_of_some hPiece, bind, Except.bind] at h
        cases hOffset : p.blockIndexAt offset with
        | error e' =>
          simp only [hOffset, Except.error.injEq] at h
          exact .inl (.offset hfs hPiece (h ▸ hOffset))
        | ok b =>
          simp only [hOffset] at h
          rcases takeBlock_eq_error h with ⟨hNone, _⟩ | ⟨q, hq, hCheck⟩
          · rw [hPiece] at hNone
            cases hNone
          · obtain rfl := Option.some.inj (hPiece.symm.trans hq)
            exact .inr ⟨id, (i, b), .content hfs hPiece hOffset hCheck⟩
  | metadataBlock id b data =>
    cases hfs : d.fileSet.filter (·.kind = .metadata) with
    | none =>
      simp only [handle, hfs] at h
      cases h
    | some fs =>
      simp only [handle, hfs] at h
      rcases takeBlock_eq_error h with ⟨hPiece, rfl⟩ | ⟨p, hPiece, hCheck⟩
      · exact .inl (.metadata hfs hPiece)
      · exact .inr ⟨id, (0, b), .metadata hfs hPiece hCheck⟩
  | requestUpload id i offset length =>
    simp only [handle] at h
    split at h
    · cases h
    · cases h
  | connect | disconnect | choke | unchoke | interested | notInterested | holds | bitfield
  | reject => cases h

/-- A command that is refused has no effects. It leaves everything as it was, but when its bytes do
not fit a block that its sender was asked for: then one request for the block is taken back. -/
theorem handle_refused (h : (d.handle now c).2 = .error e) :
    (∀ s : Session, s.download = d → s.command now c = s.change fun _ => (d.handle now c).1) ∧
    (∀ id x e', d.Misfits c id x e' → d.Asks id x → d.TakesBack (d.handle now c).1 id x) ∧
    ((∀ id x e', d.Misfits c id x e' → ¬ d.Asks id x) → (d.handle now c).1 = d) := by
  refine ⟨?_, ?_, ?_⟩
  · rintro s rfl
    have hEngine : s.engine.handle now c = (s.engine.setDownload (s.download.handle now c).1,
        .error e) := by
      rw [← h]
      rfl
    rw [Session.command, hEngine]
    rfl
  · intro id x e' hMisfits hAsks
    rw [handle_misfit hMisfits]
    exact release_takesBack hAsks
  · intro hNotAsked
    rcases refused_cases h with hStrays | ⟨id, x, hMisfits⟩
    · rw [handle_stray hStrays]
    · rw [handle_misfit hMisfits]
      exact release_of_not_asks (hNotAsked id x e hMisfits)

/-- The only peer was asked for the only block. -/
def askedOnce : Download :=
  Trail.oneBlock.run [.handle 0 (.connect "p" 0 none), .handle 0 (.holds "p" 0),
    .handle 0 (.unchoke "p"), .tick ["p"] 0]

/-- Three bytes for a block of four take the request back. -/
theorem handle_refused_short :
    (askedOnce.handle 1 (.block "p" 0 0 [1, 2, 3])).2 = .error (.lengthMismatch 4 3) ∧
      askedOnce.status? (0, 0) = some .requested ∧
      askedOnce.TakesBack (askedOnce.handle 1 (.block "p" 0 0 [1, 2, 3])).1 "p" (0, 0) ∧
      (askedOnce.handle 1 (.block "p" 0 0 [1, 2, 3])).1.status? (0, 0) = some .needed := by
  have hFits : (askedOnce.fileSet.filter (·.kind = .data)).any fun fs =>
      fs.pieces[0]?.any fun p => p.blockIndexAt 0 = .ok 0 ∧
        p.checkBlock 0 3 = .error (.lengthMismatch 4 3) := by
    decide +kernel
  obtain ⟨fs, hfs, hFits⟩ := (Option.any_eq_true ..).mp hFits
  obtain ⟨p, hPiece, hFits⟩ := (Option.any_eq_true ..).mp hFits
  obtain ⟨hOffset, hCheck⟩ := of_decide_eq_true hFits
  have hMisfits : askedOnce.Misfits (.block "p" 0 0 [1, 2, 3]) "p" (0, 0) (.lengthMismatch 4 3) :=
    .content hfs hPiece hOffset hCheck
  have hPending : (askedOnce.peers.find? "p").any fun p =>
      p.pending = [{ piece := 0, block := 0, requestedAt := 0 }] := by
    decide +kernel
  obtain ⟨peer, hFind, hPending⟩ := (Option.any_eq_true ..).mp hPending
  have hAsks : askedOnce.Asks "p" (0, 0) :=
    ⟨peer, hFind, _, of_decide_eq_true hPending ▸ List.mem_cons_self, rfl⟩
  have hError : (askedOnce.handle 1 (.block "p" 0 0 [1, 2, 3])).2 =
      .error (.lengthMismatch 4 3) := by
    rw [handle_misfit hMisfits]
  obtain ⟨_, hTakesBack, _⟩ := handle_refused hError
  refine ⟨hError, by decide +kernel, hTakesBack "p" (0, 0) _ hMisfits hAsks, by decide +kernel⟩

end Download

end TorrentEngine
