import TorrentEngine.Digest.Sha1

/-!
What a `.torrent` file describes: one file or several, cut into pieces of equal length whose digests
are listed, and the trackers that know about it. A torrent is named by the digest of the encoded
`info` dictionary.
-/

namespace TorrentEngine

/-- One file of a torrent with several: its length and its path below the torrent's own folder. -/
structure InfoFile where
  length : Int
  path : List String
  deriving DecidableEq, Repr

/-- The `info` dictionary: what the torrent's name covers. -/
structure Info where
  pieceLength : Int := 0
  pieces : Bytes := []
  isPrivate : Option Int := none
  files : List InfoFile := []
  name : String := ""
  length : Int := 0
  deriving DecidableEq, Repr

/-- The content of a `.torrent` file, with the encoded `info` dictionary that names it. -/
structure Metainfo where
  infoBytes : Bytes
  info : Info
  announce : Option String := none
  announceList : Option (List (List String)) := none
  deriving DecidableEq, Repr

/-- The unsigned word of sixty-four bits with the same bits as an integer. -/
def unsigned64 (n : Int) : Nat := (n % 0x10000000000000000).toNat

/-- The signed word of sixty-four bits with the same bits as an integer. -/
def signed64 (n : Int) : Int := n.bmod 0x10000000000000000

def Info.totalLength (info : Info) : Int :=
  if info.length > 0 then info.length
  else signed64 ((info.files.map (·.length)).foldr (· + ·) 0)

def chunks (size : Nat) : Nat → Bytes → List Bytes
  | 0, _ => []
  | n + 1, b => b.take size :: chunks size n (b.drop size)

namespace Metainfo

def infoHash (m : Metainfo) : Digest := sha1 m.infoBytes

def hasWholePieces (m : Metainfo) : Bool := m.info.pieces.length % digestLength == 0

def pieceCount (m : Metainfo) : Nat := m.info.pieces.length / digestLength

def pieceDigests (m : Metainfo) : List Digest :=
  (chunks digestLength m.pieceCount m.info.pieces).map Digest.ofBytes

/-- `urls` with `url` at the end unless it is among them. -/
def addTracker (urls : List String) (url : String) : List String :=
  if urls.contains url then urls else urls ++ [url]

/-- Every tracker of the torrent once: the main one, then those of the tiers in order. -/
def trackers (m : Metainfo) : List String :=
  ((m.announceList.getD []).flatten).foldl addTracker m.announce.toList

/-- The files of the torrent with their lengths as unsigned words. A torrent without a file list is
one file under the torrent's name. -/
def fileList (m : Metainfo) : List (List String × Nat) :=
  if m.info.files.isEmpty then [([m.info.name], unsigned64 m.info.length)]
  else m.info.files.map fun f => (f.path, unsigned64 f.length)

end Metainfo

end TorrentEngine
