import TorrentEngine.Choking
import TorrentEngine.Event
import TorrentEngine.RequestBudget
import TorrentEngine.Selection

/-!
A torrent being worked on: what is known of its metadata, its current file set, the strategies of
the current phase and its peers. `Download.handle` applies input from peers and `Download.tick` is
one scheduling pass; both give the effects to carry out instead of having them.
-/

namespace TorrentEngine

/-- The state of one torrent. `metadataSize` is the size of the metadata as the first peer to tell
one told it, `metadataBytes` the verified encoded `info` dictionary, and `pendingChecks` the number
of digest checks that were asked for and have not come to an end. -/
structure Download where
  infoHash : Digest
  initialRequestLimit : Nat
  window : Time := RequestBudget.defaultWindow
  metainfo : Option Metainfo := none
  metadataSize : Option Nat := none
  metadataBytes : Option Bytes := none
  fileSet : Option FileSet := none
  selector : Selector := .null
  choking : Choking := .metadata
  peers : Roster Peer := .empty
  pendingChecks : Nat := 0

namespace Download

def named (infoHash : Digest) (initialRequestLimit : Nat) : Download :=
  { infoHash, initialRequestLimit }

def withMetainfo (d : Download) (m : Metainfo) : Download :=
  { d with
    metainfo := some m
    metadataSize := some m.infoBytes.length
    metadataBytes := some m.infoBytes }

def kind? (d : Download) : Option FileSetKind := d.fileSet.map (·.kind)

def worksOn (d : Download) (k : FileSetKind) : Bool := d.kind? == some k

/-- The torrent with one peer, if it is connected, changed. -/
def changePeer (d : Download) (id : PeerId) (f : Peer → Peer) : Download :=
  { d with peers := d.peers.update id f }

/-- The torrent with the current file set, if there is one, changed. -/
def changeFileSet (d : Download) (f : FileSet → FileSet) : Download :=
  { d with fileSet := d.fileSet.map f }

/-- The torrent with one digest check fewer to wait for. -/
def endCheck (d : Download) : Download := { d with pendingChecks := d.pendingChecks - 1 }

/-! ## Peers and their requests -/

/-- The torrent with a peer that has just connected, in place of one of the same name. A size of the
metadata over the limit is ignored; the first usable one is taken for the torrent. -/
def connect (d : Download) (id : PeerId) (line : LineId) (metadataSize : Option Nat) : Download :=
  let size := metadataSize.filter (· ≤ maxMetadataSize)
  let peer := { Peer.connected line d.initialRequestLimit with metadataSize := size }
  { d with
    metadataSize := d.metadataSize.or (size.filter (0 < ·))
    peers := d.peers.insert id peer }

/-- The file set with a requested block needed again. -/
def reopenRequest (fs : FileSet) (r : Request) : FileSet :=
  match fs.piece? r.piece with
  | none => fs
  | some p =>
    if (p.blocks[r.block]?).any (·.status = .requested) then
      fs.setPiece r.piece (p.mark r.block .needed)
    else fs

/-- The torrent with the blocks of requests given back, as far as they are still requested. -/
def revert (d : Download) (requests : List Request) : Download :=
  d.changeFileSet fun fs => requests.foldl reopenRequest fs

/-- The torrent without a peer, whose requested blocks are given back. -/
def disconnect (d : Download) (id : PeerId) : Download :=
  match d.peers.find? id with
  | none => d
  | some peer => { d with peers := d.peers.erase id }.revert peer.pending

/-- The torrent after a peer has stopped sending: its requests are void. -/
def choked (d : Download) (id : PeerId) : Download :=
  match d.peers.find? id with
  | none => d
  | some peer =>
    (d.changePeer id fun p => (p.setChoked .download true).dropRequests).revert peer.pending

/-- The torrent with the request for a block, if it was requested from the peer, given back. -/
def release (d : Download) (id : PeerId) (piece block : Nat) : Download :=
  match (d.peers.find? id).bind (·.findRequest? piece block) with
  | none => d
  | some request => (d.changePeer id (·.dropRequest piece block)).revert [request]

/-- The peer after the bytes of a block came from it. A block that was requested tells how fast the
peer is. -/
def received (window now : Time) (piece block length : Nat) (p : Peer) : Peer :=
  let counted := { p with downloaded := p.downloaded + length }
  match p.findRequest? piece block with
  | none => counted
  | some request =>
    RequestBudget.receive window (counted.dropRequest piece block)
      { receivedAt := now, duration := now - request.requestedAt }

/-! ## Input from peers -/

/-- Takes a block of the current file set. A block that does not fit gives its request back; one
that is held already is not stored again. -/
def takeBlock (d : Download) (fs : FileSet) (now : Time) (id : PeerId) (piece block : Nat)
    (data : Bytes) : Download × Except PieceError (List Effect) :=
  match fs.piece piece with
  | .error e => (d, .error e)
  | .ok p =>
    match p.checkBlock block data.length with
    | .error e => (d.release id piece block, .error e)
    | .ok () =>
      let d := d.changePeer id (received d.window now piece block data.length)
      if (p.blocks[block]?).any (·.status.isHeld) then (d, .ok [])
      else (d, .ok [.store fs.kind piece block data])

/-- The block of the data file set that starts at an offset of a piece. -/
def blockAt (fs : FileSet) (piece offset : Nat) : Except PieceError Nat := do
  (← fs.piece piece).blockIndexAt offset

/-- Applies one input. Input that contradicts the division into pieces is an error, which leaves the
torrent as it is but for a request that the block answered. -/
def handle (d : Download) (now : Time) : Command → Download × Except PieceError (List Effect)
  | .connect id line size => (d.connect id line size, .ok [])
  | .disconnect id => (d.disconnect id, .ok [])
  | .choke id => (d.choked id, .ok [])
  | .unchoke id => (d.changePeer id (·.setChoked .download false), .ok [])
  | .interested id => (d.changePeer id (·.setInterested .upload true), .ok [])
  | .notInterested id => (d.changePeer id (·.setInterested .upload false), .ok [])
  | .holds id piece => (d.changePeer id (·.learnPiece piece), .ok [])
  | .bitfield id bits =>
    let count := (d.fileSet.filter (·.kind = .data)).map (·.pieceCount)
    (d.changePeer id (·.learnBitfield bits count), .ok [])
  | .block id piece offset data =>
    match d.fileSet.filter (·.kind = .data) with
    | none => (d, .ok [])
    | some fs =>
      match blockAt fs piece offset with
      | .error e => (d, .error e)
      | .ok block => d.takeBlock fs now id piece block data
  | .metadataBlock id block data =>
    match d.fileSet.filter (·.kind = .metadata) with
    | none => (d, .ok [])
    | some fs => d.takeBlock fs now id 0 block data
  | .requestUpload id piece offset length =>
    let isServed := (d.peers.find? id).any fun p => !p.upload.choked
    if isServed && d.worksOn .data then (d, .ok [.upload id piece offset length]) else (d, .ok [])
  | .reject id piece block => (d.release id piece block, .ok [])

/-! ## Scheduling -/

/-- The message that tells a peer of a new interest in its data. -/
def interestMessage (isInterested : Bool) : Message :=
  if isInterested then .interested else .notInterested

/-- The message that tells a peer whether it is choked from now on. -/
def chokeMessage (isChoked : Bool) : Message := if isChoked then .choke else .unchoke

def flagMessages (old new : Peer) : List Message :=
  (if new.download.interested = old.download.interested then []
    else [interestMessage new.download.interested])
  ++ (if new.upload.choked = old.upload.choked then [] else [chokeMessage new.upload.choked])

/-- Whether blocks may be requested from a peer. Metadata is served to choked peers too. -/
def mayRequest (fs : FileSet) (p : Peer) : Bool :=
  p.download.interested && (fs.kind == .metadata || !p.download.choked)

/-- The message that asks for a block of the piece at a place. -/
def requestMessage (kind : FileSetKind) (i : Nat) (p : Piece) (b : Block) : Message :=
  match kind with
  | .metadata => .metadataRequest b.index
  | .data => .request i (p.blockOffset b.index) b.size

/-- Requests needed blocks from a peer, up to a number of them, as long as the selector finds a
piece. -/
def fill (selector : Selector) (r : Rarity) (now : Time) :
    (slots : Nat) → FileSet → Peer → FileSet × Peer × List Message
  | 0, fs, peer => (fs, peer, [])
  | slots + 1, fs, peer =>
    match selector.pick peer fs r with
    | none => (fs, peer, [])
    | some i =>
      match (fs.piece? i).bind Piece.claim with
      | none => (fs, peer, [])
      | some (b, p) =>
        let (fs', peer', more) :=
          fill selector r now slots (fs.setPiece i p) (peer.addRequest i b.index now)
        (fs', peer', requestMessage fs.kind i p b :: more)

/-- The pass over one peer: its flags, and then its requests. -/
def serve (d : Download) (r : Rarity) (now : Time) (id : PeerId) : Download × List Message :=
  match d.peers.find? id with
  | none => (d, [])
  | some old =>
    let peer := d.choking.update d.fileSet old
    let told := flagMessages old peer
    match d.fileSet.filter (mayRequest · peer) with
    | none => ({ d with peers := d.peers.insert id peer }, told)
    | some fs =>
      let (fs, peer, requests) := fill d.selector r now peer.freeSlots fs peer
      ({ d with peers := d.peers.insert id peer, fileSet := some fs }, told ++ requests)

def serveAll (r : Rarity) (now : Time) : List PeerId → Download → Download × List Effect
  | [], d => (d, [])
  | id :: rest, d =>
    let (d, messages) := d.serve r now id
    let (d, effects) := serveAll r now rest d
    (d, messages.map (Effect.send id) ++ effects)

/-- One scheduling pass over the peers named: flags are brought up to date and free request slots
filled, by the availability of pieces among these peers. -/
def tick (d : Download) (relevant : List PeerId) (now : Time) : Download × List Effect :=
  serveAll (.ofPeers (relevant.filterMap d.peers.find?)) now relevant d

end Download

end TorrentEngine
