import TorrentEngine.Message
import TorrentEngine.PieceSet

/-!
A connected peer: what either side wants from the other, the pieces the peer has, the blocks that
were requested from it and have not come yet, and how fast it has been delivering.
-/

namespace TorrentEngine

/-- The two directions of a connection: data from the peer, and data to it. -/
inductive Direction
  | download
  | upload
  deriving DecidableEq, Repr

/-- One direction of a connection. The receiving side is interested or not, the sending side chokes
it or not. -/
structure Flow where
  choked : Bool := true
  interested : Bool := false
  deriving DecidableEq, Repr

/-- A block that was requested and has not come yet. -/
structure Request where
  piece : Nat
  block : Nat
  requestedAt : Time
  deriving DecidableEq, Repr

def Request.isFor (r : Request) (piece block : Nat) : Bool := r.piece == piece && r.block == block

/-- How long a block took, and when it came. -/
structure LatencySample where
  recordedAt : Time
  duration : Time
  deriving DecidableEq, Repr

/-- A connected peer. -/
structure Peer where
  line : LineId
  requestLimit : Nat
  download : Flow := {}
  upload : Flow := {}
  pending : List Request := []
  pieces : PieceSet := .empty
  metadataSize : Option Nat := none
  samples : List LatencySample := []
  downloaded : Nat := 0
  uploaded : Nat := 0

namespace Peer

/-- A new peer, choked both ways. At least one block at a time can be requested from it. -/
def connected (line : LineId) (requestLimit : Nat) : Peer :=
  { line, requestLimit := max requestLimit 1 }

def flow (p : Peer) : Direction → Flow
  | .download => p.download
  | .upload => p.upload

/-- The peer with one direction of the connection changed. -/
def withFlow (p : Peer) (dir : Direction) (f : Flow → Flow) : Peer :=
  match dir with
  | .download => { p with download := f p.download }
  | .upload => { p with upload := f p.upload }

def setInterested (p : Peer) (dir : Direction) (v : Bool) : Peer :=
  p.withFlow dir fun f => { f with interested := v }

def setChoked (p : Peer) (dir : Direction) (v : Bool) : Peer :=
  p.withFlow dir fun f => { f with choked := v }

def hasPiece (p : Peer) (i : Nat) : Bool := p.pieces.contains i

def learnPiece (p : Peer) (i : Nat) : Peer := { p with pieces := p.pieces.insert i }

/-- The peer with its pieces replaced by those of a bitfield. -/
def learnBitfield (p : Peer) (bits : Bytes) (pieceCount : Option Nat) : Peer :=
  { p with pieces := .ofBitfield bits pieceCount }

def offersMetadata (p : Peer) : Bool := p.metadataSize.any (0 < ·)

def freeSlots (p : Peer) : Nat := p.requestLimit - p.pending.length

def addRequest (p : Peer) (piece block : Nat) (now : Time) : Peer :=
  { p with pending := p.pending ++ [{ piece, block, requestedAt := now }] }

def findRequest? (p : Peer) (piece block : Nat) : Option Request :=
  p.pending.find? (·.isFor piece block)

/-- The peer without the first outstanding request for a block. -/
def dropRequest (p : Peer) (piece block : Nat) : Peer :=
  { p with pending := p.pending.eraseP (·.isFor piece block) }

def dropRequests (p : Peer) : Peer := { p with pending := [] }

end Peer

end TorrentEngine
