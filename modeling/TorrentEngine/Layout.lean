import TorrentEngine.FileTree
import TorrentEngine.Metainfo

/-!
The layout of a torrent on disk: its files one after the other, each at an offset of the torrent's
content taken as one stream. `Layout.allocate` makes the files that are missing, `Layout.read` and
`Layout.write` carry a range of the stream over to the files that it crosses.
-/

namespace TorrentEngine

/-- One file of a layout, and where it starts in the stream. -/
structure LaidFile where
  path : Path
  length : Nat
  start : Nat
  deriving DecidableEq, Repr

/-- The files of a torrent in stream order, and their length together. -/
structure Layout where
  files : List LaidFile
  totalSize : Nat
  deriving DecidableEq, Repr

/-- Why a range cannot be read or written. -/
inductive StorageError
  | io (kind : IoError)
  | outOfBounds (offset length : Nat)
  deriving DecidableEq, Repr

/-- The wording of a storage error; a device failure is worded by its kind. -/
def StorageError.message : StorageError → String
  | .io kind => kind.name
  | .outOfBounds offset length => s!"range {offset}+{length} is outside of the stored data"

namespace Layout

/-- The sum of two words of sixty-four bits; what such a word does not hold is dropped. -/
def addWords (a b : Nat) : Nat := (a + b) % 0x10000000000000000

/-- Files laid out one after the other from offset `start` on. -/
def lay (root : Path) : Nat → List (List String × Nat) → List LaidFile
  | _, [] => []
  | start, (names, length) :: rest =>
    { path := names.foldl Path.push root, length, start } :: lay root (addWords start length) rest

def ofMetainfo (root : Path) (m : Metainfo) : Layout :=
  { files := lay root 0 m.fileList, totalSize := (m.fileList.map (·.2)).foldl addWords 0 }

/-- Makes the folder above a file unless it exists. -/
def allocateParent (t : FileTree) (p : Path) : FileTree × Except IoError Unit :=
  match p.parent? with
  | none => (t, .ok ())
  | some parent =>
    match t.exists? parent with
    | .error e => (t, .error e)
    | .ok true => (t, .ok ())
    | .ok false => t.makeFolders parent

/-- Makes one file, with the folders above it, unless it exists. -/
def allocateFile (t : FileTree) (f : LaidFile) : FileTree × Except IoError Unit :=
  match allocateParent t f.path with
  | (t, .error e) => (t, .error e)
  | (t, .ok ()) =>
    match t.exists? f.path with
    | .error e => (t, .error e)
    | .ok true => (t, .ok ())
    | .ok false => t.createFile f.path f.length

/-- Makes files in order up to the first failure. -/
def allocateFiles (t : FileTree) : List LaidFile → FileTree × Except IoError Unit
  | [] => (t, .ok ())
  | f :: rest =>
    match allocateFile t f with
    | (t, .ok ()) => allocateFiles t rest
    | (t, .error e) => (t, .error e)

/-- Makes every file of the layout that does not exist, with its declared length. -/
def allocate (l : Layout) (t : FileTree) : FileTree × Except IoError Unit :=
  allocateFiles t l.files

/-- Whether position `pos` of the stream lies in a file. -/
def LaidFile.covers (f : LaidFile) (pos : Nat) : Bool :=
  decide (f.start ≤ pos) && decide (pos < f.start + f.length)

/-- Reads `count` bytes of the stream at `pos` from the files that follow; `none` when they end
first. -/
def readFiles (t : FileTree) : List LaidFile → (pos count : Nat) → Except IoError (Option Bytes)
  | [], _, _ => .ok none
  | f :: rest, pos, count =>
    if LaidFile.covers f pos then do
      let here := min count (f.start + f.length - pos)
      let bytes ← t.readAt f.path (pos - f.start) here
      if here = count then return some bytes
      let more ← readFiles t rest (pos + here) (count - here)
      return more.map (bytes ++ ·)
    else readFiles t rest pos count

def read (l : Layout) (t : FileTree) (offset length : Nat) : Except StorageError Bytes :=
  if length = 0 then .ok []
  else
    match readFiles t l.files offset length with
    | .ok (some bytes) => .ok bytes
    | .ok none => .error (.outOfBounds offset length)
    | .error e => .error (.io e)

/-- Writes `data` at `pos` of the stream into the files that follow; `false` when they end first.
What was written before the end or a failure stays. -/
def writeFiles (t : FileTree) :
    List LaidFile → (pos : Nat) → (data : Bytes) → FileTree × Except IoError Bool
  | [], _, _ => (t, .ok false)
  | f :: rest, pos, data =>
    if LaidFile.covers f pos then
      let here := min data.length (f.start + f.length - pos)
      match t.writeAt f.path (pos - f.start) (data.take here) with
      | .error e => (t, .error e)
      | .ok t =>
        if here = data.length then (t, .ok true)
        else writeFiles t rest (pos + here) (data.drop here)
    else writeFiles t rest pos data

def write (l : Layout) (t : FileTree) (offset : Nat) (data : Bytes) :
    FileTree × Except StorageError Unit :=
  if data.isEmpty then (t, .ok ())
  else
    match writeFiles t l.files offset data with
    | (t, .ok true) => (t, .ok ())
    | (t, .ok false) => (t, .error (.outOfBounds offset data.length))
    | (t, .error e) => (t, .error (.io e))

end Layout

end TorrentEngine
