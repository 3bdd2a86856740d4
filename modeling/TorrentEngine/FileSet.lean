import TorrentEngine.Metainfo.Encoding
import TorrentEngine.Piece
import TorrentEngine.Storage

/-!
File sets: the pieces that one phase of a torrent works on, and the storage that holds their bytes.
While the `info` dictionary is being fetched it is a file set of a single piece in memory; the
torrent's content is one on disk.
-/

namespace TorrentEngine

/-- What a file set holds. -/
inductive FileSetKind
  | metadata
  | data
  deriving DecidableEq, Repr

def FileSetKind.label : FileSetKind → String
  | .metadata => "Metadata"
  | .data => "Data"

/-- Why a division into pieces is impossible. -/
inductive GeometryError
  | zeroPieceLength
  | digestCount (total expected given : Nat)
  | metadataOverLimit (size : Nat)
  | metadataTooLarge (size : Nat)
  | pieceLength (length : Int)
  deriving DecidableEq, Repr

/-- Why a phase cannot begin. -/
inductive PhaseError
  | metadata (cause : ParseError)
  | missingMetadata
  | invalidGeometry (cause : GeometryError)
  deriving DecidableEq, Repr

def metadataBlockSize : Nat := 16384

def maxMetadataSize : Nat := 16 * 1024 * 1024

def GeometryError.message : GeometryError → String
  | .zeroPieceLength => "piece length is zero"
  | .digestCount total expected given =>
    s!"{total} bytes need {expected} pieces but {given} hashes were given"
  | .metadataOverLimit size => s!"metadata size {size} exceeds the {maxMetadataSize} byte limit"
  | .metadataTooLarge size => s!"metadata size {size} is too large"
  | .pieceLength length => s!"piece length {length}"

def PhaseError.message : PhaseError → String
  | .metadata cause => "metadata could not be parsed: " ++ cause.message
  | .missingMetadata => "phase requires metadata that has not been fetched"
  | .invalidGeometry cause => "torrent geometry is invalid: " ++ cause.message

/-- The pieces of one phase, in order, and the storage of their bytes. -/
structure FileSet where
  kind : FileSetKind
  pieceLength : Nat
  totalLength : Nat
  pieces : List Piece
  storage : Storage
  deriving Repr

namespace FileSet

/-- The pieces of a content of `total` bytes, one for each digest. -/
def cut (pieceLength total blockSize : Nat) (digests : List Digest) : List Piece :=
  digests.zipIdx.map fun (digest, i) =>
    Piece.fresh i (min pieceLength (total - i * pieceLength)) digest blockSize

/-- The file set of a content of `total` bytes, which needs one digest for each piece. -/
def create (kind : FileSetKind) (pieceLength total : Nat) (digests : List Digest)
    (blockSize : Nat) (storage : Storage) : Except GeometryError FileSet :=
  if pieceLength = 0 then .error .zeroPieceLength
  else
    let expected := partCount total pieceLength
    if expected = digests.length then
      .ok { kind, pieceLength, totalLength := total
            pieces := cut pieceLength total blockSize digests
            storage }
    else .error (.digestCount total expected digests.length)

/-- The file set of an `info` dictionary: one piece as long as the whole. -/
def ofMetadata (size : Nat) (infoHash : Digest) (storage : Storage) :
    Except GeometryError FileSet :=
  if size < 0x100000000 then
    create .metadata (max size 1) size [infoHash] metadataBlockSize storage
  else .error (.metadataTooLarge size)

/-- The file set for fetching an `info` dictionary of a size that a peer told. -/
def forMetadata (size : Nat) (infoHash : Digest) : Except GeometryError FileSet :=
  if maxMetadataSize < size then .error (.metadataOverLimit size)
  else ofMetadata size infoHash (.memory (List.replicate size 0))

/-- The verified file set of an `info` dictionary that is known already. -/
def forKnownMetadata (infoBytes : Bytes) (infoHash : Digest) : Except GeometryError FileSet := do
  let fs ← ofMetadata infoBytes.length infoHash (.memory infoBytes)
  return { fs with pieces := fs.pieces.map Piece.markVerified }

/-- The file set of a torrent's content, on disk below a folder. -/
def forTorrent (m : Metainfo) (root : Path) (blockSize : Nat) : Except PhaseError FileSet :=
  if !m.hasWholePieces then .error (.metadata (.unevenPieces m.info.pieces.length))
  else if 0 ≤ m.info.pieceLength ∧ m.info.pieceLength < 0x100000000 then
    let layout := Layout.ofMetainfo root m
    (create .data m.info.pieceLength.toNat layout.totalSize m.pieceDigests blockSize
      (.disk layout)).mapError PhaseError.invalidGeometry
  else .error (.invalidGeometry (.pieceLength m.info.pieceLength))

def piece? (fs : FileSet) (i : Nat) : Option Piece := fs.pieces[i]?

/-- The piece at a place; asking for any other is a mistake. -/
def piece (fs : FileSet) (i : Nat) : Except PieceError Piece :=
  match fs.piece? i with
  | some p => .ok p
  | none => .error (.unknownPiece i)

def setPiece (fs : FileSet) (i : Nat) (p : Piece) : FileSet :=
  { fs with pieces := fs.pieces.set i p }

/-- The file set with the piece at a place, if there is one, changed. -/
def changePiece (fs : FileSet) (i : Nat) (f : Piece → Piece) : FileSet :=
  { fs with pieces := fs.pieces.modify i f }

/-- The file set with some pieces verified; places without a piece are ignored. -/
def markVerified (fs : FileSet) (places : List Nat) : FileSet :=
  places.foldl (fun fs i => fs.changePiece i Piece.markVerified) fs

def pieceCount (fs : FileSet) : Nat := fs.pieces.length

def neededPieces (fs : FileSet) : List Piece := fs.pieces.filter fun p => !p.isDone

def hasPiece (fs : FileSet) (i : Nat) : Bool := (fs.piece? i).any Piece.isDone

def isDone (fs : FileSet) : Bool := fs.pieces.all Piece.isDone

def piecesDone (fs : FileSet) : Nat := fs.pieces.countP Piece.isDone

def globalOffset (fs : FileSet) (i offset : Nat) : Nat := i * fs.pieceLength + offset

/-- The layout on disk, which only a torrent's content has. -/
def layout? (fs : FileSet) : Option Layout := fs.storage.layout?

def summary (fs : FileSet) : String :=
  "FileSet \x7b kind: " ++ fs.kind.label
    ++ s!", piece_length: {fs.pieceLength}, total_length: {fs.totalLength}, pieces: {fs.pieceCount}"
    ++ " \x7d"

end FileSet

end TorrentEngine
