import TorrentEngine.Download
import TorrentEngine.Proofs.Cuts

/-!
What requests leave alone. The core of a torrent is its state without its peers, with its requested
blocks needed again. Input from peers and scheduling passes do not change it, so what is held and
verified, the strategies and the count of checks are the same after them.
-/

namespace TorrentEngine

namespace FileSet

/-- The file set with its requested blocks needed again. -/
def settled (fs : FileSet) : FileSet := { fs with pieces := fs.pieces.map Piece.resetRequested }

theorem settled_setPiece {fs : FileSet} {i : Nat} {p q : Piece} (hp : fs.pieces[i]? = some p)
    (h : q.resetRequested = p.resetRequested) : (fs.setPiece i q).settled = fs.settled := by
  have hPieces : (fs.pieces.set i q).map Piece.resetRequested =
      fs.pieces.map Piece.resetRequested := by
    apply List.ext_getElem?
    intro k
    rw [List.getElem?_map, List.getElem?_map, List.getElem?_set]
    split
    · next hik =>
      subst hik
      rw [if_pos (List.getElem?_eq_some_iff.mp hp).1, hp, Option.map_some, Option.map_some, h]
    · rfl
  simp only [settled, setPiece, hPieces]

/-- Equal after their requests are dropped, two file sets have pieces that are. -/
theorem piece_of_settled {fs fs' : FileSet} (h : fs'.settled = fs.settled) {i : Nat} {p' : Piece}
    (hp : fs'.pieces[i]? = some p') :
    ∃ p, fs.pieces[i]? = some p ∧ p'.resetRequested = p.resetRequested := by
  have hMap : fs'.pieces[i]?.map Piece.resetRequested =
      fs.pieces[i]?.map Piece.resetRequested := by
    simpa only [settled, List.getElem?_map] using congrArg (fun f => f.pieces[i]?) h
  rw [hp, Option.map_some] at hMap
  obtain ⟨p, hp, hEq⟩ := Option.map_eq_some_iff.mp hMap.symm
  exact ⟨p, hp, hEq.symm⟩

theorem outlines_of_settled {fs fs' : FileSet} (h : fs'.settled = fs.settled) :
    fs'.pieces.map Piece.outline = fs.pieces.map Piece.outline := by
  have := congrArg (fun f => f.pieces.map Piece.outline) h
  simpa [settled, Function.comp_def] using this

/-- The dimensions of a file set, and where its bytes live. -/
theorem dimensions_of_settled {fs fs' : FileSet} (h : fs'.settled = fs.settled) :
    fs'.kind = fs.kind ∧ fs'.pieceLength = fs.pieceLength ∧ fs'.totalLength = fs.totalLength ∧
      fs'.storage = fs.storage := by
  simp only [settled, FileSet.mk.injEq] at h
  exact ⟨h.1, h.2.1, h.2.2.1, h.2.2.2.2⟩

theorem sameCut_of_settled {fs fs' : FileSet} (h : fs'.settled = fs.settled) :
    SameCut fs fs' := by
  obtain ⟨hKind, hLength, hTotal, _⟩ := dimensions_of_settled h
  refine ⟨hKind, hLength, hTotal, outlines_of_settled h, fun hAll p' hp' => ?_⟩
  obtain ⟨i, hi⟩ := List.getElem?_of_mem hp'
  obtain ⟨p, hp, hEq⟩ := piece_of_settled h hi
  have hCursor : p'.mismatchCursor = p.mismatchCursor := by
    simpa [Piece.resetRequested] using congrArg (fun r => r.mismatchCursor) hEq
  have hBlocks : p'.blocks.length = p.blocks.length :=
    Piece.length_blocks_of_outline (Piece.outline_of_resetRequested hEq)
  rw [hCursor, hBlocks]
  exact hAll p (List.mem_of_getElem? hp)

end FileSet

namespace Download

/-! ### Giving blocks back -/

theorem settled_reopenRequest (fs : FileSet) (r : Request) :
    (reopenRequest fs r).settled = fs.settled := by
  simp only [reopenRequest]
  split
  · rfl
  · next p hp =>
    split
    · next hAny =>
      obtain ⟨block, hb, hStatus⟩ := (Option.any_eq_true ..).mp hAny
      refine FileSet.settled_setPiece hp (Piece.resetRequested_mark hb ?_ rfl)
      rw [of_decide_eq_true hStatus]
      rfl
    · rfl

theorem settled_foldl_reopenRequest (requests : List Request) (fs : FileSet) :
    (requests.foldl reopenRequest fs).settled = fs.settled := by
  induction requests generalizing fs with
  | nil => rfl
  | cons r rest ih => rw [List.foldl_cons, ih, settled_reopenRequest]

/-- The state of a torrent without its peers and their requests. -/
def core (d : Download) : Download :=
  { d with peers := .empty, metadataSize := none, fileSet := d.fileSet.map FileSet.settled }

/-- Downloads of one core have file sets that are alike when settled. -/
theorem fileSet_of_core {d d' : Download} (h : d'.core = d.core) {fs' : FileSet}
    (hfs' : d'.fileSet = some fs') : ∃ fs, d.fileSet = some fs ∧ fs'.settled = fs.settled := by
  have hSettled : d'.fileSet.map FileSet.settled = d.fileSet.map FileSet.settled :=
    congrArg Download.fileSet h
  rw [hfs', Option.map_some] at hSettled
  obtain ⟨fs, hfs, hEq⟩ := Option.map_eq_some_iff.mp hSettled.symm
  exact ⟨fs, hfs, hEq.symm⟩

theorem kind?_of_core {d d' : Download} (h : d'.core = d.core) : d'.kind? = d.kind? := by
  have hSettled : d'.fileSet.map FileSet.settled = d.fileSet.map FileSet.settled :=
    congrArg Download.fileSet h
  have hKinds := congrArg (Option.map FileSet.kind) hSettled
  rwa [Option.map_map, Option.map_map] at hKinds

theorem core_revert (d : Download) (requests : List Request) :
    (d.revert requests).core = d.core := by
  simp only [core, revert, changeFileSet, Option.map_map]
  congr 2
  funext fs
  exact settled_foldl_reopenRequest requests fs

@[simp] theorem core_changePeer (d : Download) (id : PeerId) (f : Peer → Peer) :
    (d.changePeer id f).core = d.core := rfl

theorem core_disconnect (d : Download) (id : PeerId) : (d.disconnect id).core = d.core := by
  simp only [disconnect]
  split
  · rfl
  · rw [core_revert]
    rfl

theorem core_choked (d : Download) (id : PeerId) : (d.choked id).core = d.core := by
  simp only [choked]
  split
  · rfl
  · rw [core_revert, core_changePeer]

theorem core_release (d : Download) (id : PeerId) (piece block : Nat) :
    (d.release id piece block).core = d.core := by
  simp only [release]
  split
  · rfl
  · rw [core_revert, core_changePeer]

theorem core_takeBlock (d : Download) (fs : FileSet) (now : Time) (id : PeerId)
    (piece block : Nat) (data : Bytes) :
    (d.takeBlock fs now id piece block data).1.core = d.core := by
  simp only [takeBlock]
  split
  · rfl
  · split
    · exact core_release d id piece block
    · split <;> exact core_changePeer d id _

/-- Input from a peer leaves alone all but peers and requests. -/
theorem core_handle (d : Download) (now : Time) (c : Command) :
    (d.handle now c).1.core = d.core := by
  cases c with
  | disconnect id => exact core_disconnect d id
  | choke id => exact core_choked d id
  | reject id piece block => exact core_release d id piece block
  | block id piece offset data =>
    simp only [handle]
    split
    · rfl
    · split
      · rfl
      · exact core_takeBlock ..
  | metadataBlock id block data =>
    simp only [handle]
    split
    · rfl
    · exact core_takeBlock ..
  | requestUpload id piece offset length =>
    simp only [handle]
    split <;> rfl
  | _ => rfl

/-! ### Requesting blocks -/

theorem settled_fill (selector : Selector) (r : Rarity) (now : Time) (slots : Nat) (fs : FileSet)
    (peer : Peer) : (fill selector r now slots fs peer).1.settled = fs.settled := by
  induction slots generalizing fs peer with
  | zero => rfl
  | succ slots ih =>
    simp only [fill]
    split
    · rfl
    · split
      · rfl
      · next hClaim =>
        obtain ⟨p, hp, hClaim⟩ := Option.bind_eq_some_iff.mp hClaim
        obtain ⟨b, hb, hNeeded, rfl⟩ := Piece.claim_eq_some hClaim
        rw [ih]
        refine FileSet.settled_setPiece hp (Piece.resetRequested_mark hb ?_ rfl)
        rw [hNeeded]
        rfl

theorem core_serve (d : Download) (r : Rarity) (now : Time) (id : PeerId) :
    (d.serve r now id).1.core = d.core := by
  simp only [serve]
  split
  · rfl
  · split
    · rfl
    · next fs hServed =>
      have hfs : d.fileSet = some fs := (Option.filter_eq_some_iff.mp hServed).1
      simp only [core, hfs, Option.map_some, settled_fill]

theorem core_serveAll (r : Rarity) (now : Time) (ids : List PeerId) (d : Download) :
    (serveAll r now ids d).1.core = d.core := by
  induction ids generalizing d with
  | nil => rfl
  | cons id rest ih => rw [serveAll, ih, core_serve]

/-- A scheduling pass leaves alone all but peers and requests. -/
theorem core_tick (d : Download) (relevant : List PeerId) (now : Time) :
    (d.tick relevant now).1.core = d.core :=
  core_serveAll ..

end Download

end TorrentEngine
