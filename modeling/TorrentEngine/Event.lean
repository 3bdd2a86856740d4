import TorrentEngine.FileSet
import TorrentEngine.Message

/-!
The phases of a torrent's life by name, what it tells the surrounding application, and the effects
that it asks for instead of having them itself.
-/

namespace TorrentEngine

/-- The phases of a torrent's life. -/
inductive PhaseId
  | preMetadata
  | metadata
  | data
  | seed
  deriving DecidableEq, Repr

def PhaseId.label : PhaseId → String
  | .preMetadata => "PreMetadata"
  | .metadata => "Metadata"
  | .data => "Data"
  | .seed => "Seed"

/-- What a torrent tells the surrounding application. -/
inductive Event
  | phaseChanged (infoHash : Digest) (left entered : PhaseId)
  | metadataLoaded (infoHash : Digest)
  | pieceVerified (infoHash : Digest) (piece : Nat)
  | downloadComplete (infoHash : Digest)
  | announceCompleted (infoHash : Digest) (urls : List String)
  deriving DecidableEq, Repr

/-- What a torrent asks to be done for it. -/
inductive Effect
  | send (peer : PeerId) (message : Message)
  | store (kind : FileSetKind) (piece block : Nat) (data : Bytes)
  | upload (peer : PeerId) (piece offset length : Nat)
  | allocate (layout : Layout)
  | persist (path : Path) (bytes : Bytes)
  | notify (event : Event)
  deriving DecidableEq, Repr

end TorrentEngine
