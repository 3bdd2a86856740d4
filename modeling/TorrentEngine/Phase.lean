import TorrentEngine.Download

/-!
The phases of a torrent's life: waiting for the size of the metadata, fetching the metadata,
downloading the content, and seeding it. A phase installs its strategies on entry, decides when it
is done, and hands over on leaving. Entering and leaving either succeed as a whole or change
nothing.
-/

namespace TorrentEngine

/-- What phases need to know besides the torrent. -/
structure PhaseConfig where
  downloadFolder : Path
  metadataFolder : Path
  blockSize : Nat
  deriving DecidableEq, Repr

namespace PhaseId

/-- Whether a phase has nothing left to do. Downloading is done when every piece is verified and no
check is outstanding; seeding is never done. -/
def isDone (phase : PhaseId) (d : Download) : Bool :=
  match phase with
  | .preMetadata => d.metadataBytes.isSome || d.metadataSize.any (0 < ·)
  | .metadata =>
    d.metadataBytes.isSome && d.fileSet.any fun fs => fs.kind == .metadata && fs.isDone
  | .data => d.pendingChecks == 0 && d.fileSet.any fun fs => fs.kind == .data && fs.isDone
  | .seed => false

/-- Whether a phase schedules a peer. -/
def schedules (phase : PhaseId) (p : Peer) : Bool :=
  match phase with
  | .preMetadata | .seed => true
  | .metadata => p.offersMetadata
  | .data => !p.pieces.isEmpty || p.upload.interested || !p.upload.choked

/-- The peers that a phase schedules, in ascending order. -/
def relevantPeers (phase : PhaseId) (d : Download) : List PeerId :=
  (d.peers.entries.filter fun e => phase.schedules e.2).map (·.1)

/-- The torrent that is to be downloaded: the one known, or the one that the verified metadata
describe. -/
def torrentOf (d : Download) : Except PhaseError Metainfo :=
  match d.metainfo, d.metadataBytes with
  | some m, _ => .ok m
  | none, some bytes => (Metainfo.ofInfo bytes).mapError PhaseError.metadata
  | none, none => .error .missingMetadata

/-- The folder of a torrent's files. A torrent with several gets a folder of its own. -/
def rootFolder (c : PhaseConfig) (m : Metainfo) : Path :=
  if m.info.files.isEmpty then c.downloadFolder else c.downloadFolder.push m.info.name

/-- The peer as seeding wants it: nothing requested and no interest in its data. -/
def settle (p : Peer) : Peer := p.dropRequests.setInterested .download false

/-- Begins the download of the content: the file set, its files and the strategies. -/
def enterData (c : PhaseConfig) (d : Download) : Except PhaseError (Download × List Effect) := do
  let m ← torrentOf d
  let fs ← FileSet.forTorrent m (rootFolder c m) c.blockSize
  let begun := { d with
    peers := d.peers.map fun _ p => p.dropRequests
    pendingChecks := 0
    fileSet := some fs
    metainfo := some m
    selector := .rarest
    choking := .permissive }
  return (begun, (fs.layout?.map Effect.allocate).toList)

/-- Begins seeding: peers whose data was wanted are told that it no longer is. -/
def enterSeed (d : Download) : Download × List Effect :=
  let wanted := d.peers.entries.filter fun e => e.2.download.interested
  ({ d with peers := d.peers.map fun _ p => settle p, selector := .null, choking := .upload },
    wanted.map fun e => .send e.1 .notInterested)

def enter (phase : PhaseId) (c : PhaseConfig) (d : Download) :
    Except PhaseError (Download × List Effect) :=
  match phase with
  | .preMetadata => .ok ({ d with selector := .null, choking := .metadata }, [])
  | .metadata =>
    if d.worksOn .metadata then .ok ({ d with selector := .single, choking := .metadata }, [])
    else .error .missingMetadata
  | .data => enterData c d
  | .seed => .ok (enterSeed d)

/-- The file set of the metadata: verified where they are known, and to be fetched where only their
size is. -/
def metadataFileSet (d : Download) : Except PhaseError FileSet :=
  match d.metadataBytes, d.metadataSize with
  | some bytes, _ => (FileSet.forKnownMetadata bytes d.infoHash).mapError PhaseError.invalidGeometry
  | none, some size => (FileSet.forMetadata size d.infoHash).mapError PhaseError.invalidGeometry
  | none, none => .error .missingMetadata

def metadataFile (c : PhaseConfig) (d : Download) : Path :=
  c.metadataFolder.push (d.infoHash.hex ++ ".torrent")

def leave (phase : PhaseId) (c : PhaseConfig) (d : Download) :
    Except PhaseError (Download × List Effect) :=
  match phase with
  | .preMetadata => do
    let fs ← metadataFileSet d
    return ({ d with fileSet := some fs }, [])
  | .metadata =>
    match d.metadataBytes with
    | none => .error .missingMetadata
    | some bytes =>
      .ok (d, [.persist (metadataFile c d) (wrapInfo bytes), .notify (.metadataLoaded d.infoHash)])
  | .data =>
    let urls := (d.metainfo.map (·.trackers)).getD []
    .ok (d, [.notify (.downloadComplete d.infoHash), .notify (.announceCompleted d.infoHash urls)])
  | .seed => .ok (d, [])

end PhaseId

end TorrentEngine
