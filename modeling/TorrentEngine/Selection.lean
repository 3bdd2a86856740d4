import TorrentEngine.FileSet
import TorrentEngine.Peer

/-!
Which piece to request from a peer. Availability is counted once over the peers at hand;
`Rarity.rank` orders pieces by it, the rarest first, and a `Selector` picks one piece for one peer.
-/

namespace TorrentEngine

/-- The pieces of each peer at hand, a peer named twice counting twice. -/
structure Rarity where
  holdings : List PieceSet

namespace Rarity

def ofPeers (peers : List Peer) : Rarity := ⟨peers.map (·.pieces)⟩

def availability (r : Rarity) (i : Nat) : Nat := r.holdings.countP (·.contains i)

/-- Pieces from the least to the most available; those equally available keep their order. -/
def rank (r : Rarity) (pieces : List Piece) : List Piece :=
  pieces.mergeSort fun a b => r.availability a.index ≤ r.availability b.index

end Rarity

/-- How the next piece is chosen: none at all, the only piece of the metadata, or a piece that is
started already before the rarest. -/
inductive Selector
  | null
  | single
  | rarest
  deriving DecidableEq, Repr

/-- The pieces that can be requested from a peer: those not verified that it has, and of which some
block is needed. -/
def FileSet.candidates (fs : FileSet) (peer : Peer) : List Piece :=
  fs.neededPieces.filter fun p => peer.hasPiece p.index && p.hasStatus .needed

def Selector.pick (s : Selector) (peer : Peer) (fs : FileSet) (r : Rarity) : Option Nat :=
  match s with
  | .null => none
  | .single => ((fs.piece? 0).filter (·.hasStatus .needed)).map (·.index)
  | .rarest =>
    let ranked := r.rank (fs.candidates peer)
    ((ranked.find? Piece.isStarted).or ranked.head?).map (·.index)

end TorrentEngine
