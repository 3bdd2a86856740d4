import TorrentEngine.Metainfo.Encoding
import TorrentEngine.Session
import TorrentEngine.Settings

/-!
Checking the data of a torrent that is on disk already: the torrent file is read, a session is begun
for it, and every piece is compared with its digest.
-/

namespace TorrentEngine

/-- Why a torrent file cannot be used. -/
inductive LoadError
  | read (cause : IoError)
  | parse (cause : ParseError)
  deriving DecidableEq, Repr

def LoadError.message : LoadError → String
  | .read cause => cause.name
  | .parse cause => "invalid torrent file: " ++ cause.message

def loadTorrent (t : FileTree) (p : Path) : Except LoadError Metainfo := do
  let bytes ← (t.readFile p).mapError LoadError.read
  (Metainfo.parse bytes).mapError LoadError.parse

def checkEventCapacity : Nat := 1024

/-- The state of a torrent whose file is at hand, before anything is checked. -/
def knownDownload (m : Metainfo) (s : Settings) : Download :=
  let named := Download.named m.infoHash s.initialRequestLimit
  { named.withMetainfo m with window := s.latencyWindow }

/-- Where a check finds the data and keeps the metadata. A folder that is given holds the data in
place of the one that is set. -/
def checkConfig (folder : Option Path) (s : Settings) (dataFolder : Path) : PhaseConfig :=
  let config := s.phaseConfig dataFolder
  { config with downloadFolder := folder.getD config.downloadFolder }

/-- The paths at which a check looks, or where it puts something. -/
def checkPaths (m : Metainfo) (s : Settings) (c : PhaseConfig) : List Path :=
  PhaseId.metadataFile c (knownDownload m s)
    :: (Layout.ofMetainfo (PhaseId.rootFolder c m) m).files.map (·.path)

def openSession (m : Metainfo) (s : Settings) (c : PhaseConfig) (t : FileTree) :
    Session × Except SessionError Unit :=
  Session.start
    { download := knownDownload m s
      events := { capacity := checkEventCapacity }
      tree := t }
    (PhaseChain.standard c)

/-- Checks the data of a torrent, waiting at most `span` for it, and gives the files after it and
what came of it: nothing when the wait was in vain. -/
def checkData (m : Metainfo) (s : Settings) (c : PhaseConfig) (span : Time) (t : FileTree) :
    FileTree × Except SessionError (Option VerifyReport) :=
  match openSession m s c t with
  | (session, .error e) => (session.engine.torrent.tree, .error e)
  | (session, .ok ()) =>
    let (session, result) := session.verify span
    (session.engine.torrent.tree, result.mapError SessionError.phase)

end TorrentEngine
