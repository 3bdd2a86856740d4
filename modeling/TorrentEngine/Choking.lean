import TorrentEngine.FileSet
import TorrentEngine.Peer

/-!
Whom to be interested in and whom to choke. Each stage of a torrent has a strategy, which sets the
interest in a peer's data and the choking of ours from what is known about the peer.
-/

namespace TorrentEngine

/-- The strategies: while fetching metadata, while downloading, and while seeding. -/
inductive Choking
  | metadata
  | permissive
  | upload
  deriving DecidableEq, Repr

namespace Choking

/-- The peer choked exactly when it is not interested in our data. -/
def unchokeInterested (p : Peer) : Peer := p.setChoked .upload (!p.upload.interested)

/-- Whether a peer has a piece that is not verified yet. -/
def wantsFrom (fs : Option FileSet) (p : Peer) : Bool :=
  fs.any fun fs => fs.neededPieces.any fun piece => p.hasPiece piece.index

/-- The peer with its flags as the strategy wants them. Seeding leaves the interest in the peer's
data alone. -/
def update (c : Choking) (fs : Option FileSet) (p : Peer) : Peer :=
  match c with
  | .metadata => (p.setInterested .download p.offersMetadata).setChoked .upload true
  | .permissive => unchokeInterested (p.setInterested .download (wantsFrom fs p))
  | .upload => unchokeInterested p

end Choking

end TorrentEngine
