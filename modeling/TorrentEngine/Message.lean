import TorrentEngine.Bytes
import TorrentEngine.Roster

/-!
What passes between a torrent and its peers: the messages it queues for them, and the input that the
network layer delivers from them, already decoded.
-/

namespace TorrentEngine

/-- A moment or a span of time, in nanoseconds. -/
abbrev Time := Nat

/-- The name of an outgoing line to a peer. Each connection has a line of its own. -/
abbrev LineId := Nat

/-- A message for a peer. -/
inductive Message
  | choke
  | unchoke
  | interested
  | notInterested
  | holds (piece : Nat)
  | request (piece offset length : Nat)
  | metadataRequest (block : Nat)
  | block (piece offset : Nat) (data : Bytes)
  deriving DecidableEq, Repr

/-- Input from a peer. Apart from the connection itself each names the peer first. -/
inductive Command
  | connect (peer : PeerId) (line : LineId) (metadataSize : Option Nat)
  | disconnect (peer : PeerId)
  | choke (peer : PeerId)
  | unchoke (peer : PeerId)
  | interested (peer : PeerId)
  | notInterested (peer : PeerId)
  | holds (peer : PeerId) (piece : Nat)
  | bitfield (peer : PeerId) (bits : Bytes)
  | block (peer : PeerId) (piece offset : Nat) (data : Bytes)
  | metadataBlock (peer : PeerId) (block : Nat) (data : Bytes)
  | requestUpload (peer : PeerId) (piece offset length : Nat)
  | reject (peer : PeerId) (piece block : Nat)
  deriving DecidableEq, Repr

end TorrentEngine
