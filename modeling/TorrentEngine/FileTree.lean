import TorrentEngine.Bytes
import TorrentEngine.Path

/-!
A file system as a value: folders and files by their place below the root, and a working folder
from which relative paths start. Every operation gives the new tree or the kind of failure that the
device would report.
-/

namespace TorrentEngine

/-- The kinds of failure that a device reports. -/
inductive IoError
  | notFound
  | notADirectory
  | isADirectory
  | alreadyExists
  | unexpectedEof
  | invalidInput
  | invalidFilename
  | other
  deriving DecidableEq, Repr

def IoError.name : IoError → String
  | .notFound => "NotFound"
  | .notADirectory => "NotADirectory"
  | .isADirectory => "IsADirectory"
  | .alreadyExists => "AlreadyExists"
  | .unexpectedEof => "UnexpectedEof"
  | .invalidInput => "InvalidInput"
  | .invalidFilename => "InvalidFilename"
  | .other => "Other"

/-- A place in the tree: the names on the way from the root. -/
abbrev Place := List String

/-- What stands at a place. -/
inductive Entry
  | folder
  | file (content : Bytes)
  deriving DecidableEq, Repr

/-- Folders and files by place, and the working folder. -/
structure FileTree where
  home : Place
  entries : List (Place × Entry) := []
  deriving DecidableEq, Repr

namespace FileTree

def maxNameLength : Nat := 255

def maxPathLength : Nat := 4095

/-- What stands at a place. The folders down to the working folder always exist. -/
def lookup (t : FileTree) (place : Place) : Option Entry :=
  if place.isPrefixOf t.home then some .folder
  else (t.entries.find? fun e => e.1 = place).map (·.2)

/-- The tree with `entry` at a place, where nothing stands yet. -/
def add (t : FileTree) (place : Place) (entry : Entry) : FileTree :=
  { t with entries := t.entries ++ [(place, entry)] }

/-- The tree with the file at a place holding `content`. -/
def setContent (t : FileTree) (place : Place) (content : Bytes) : FileTree :=
  { t with entries := t.entries.map fun e => if e.1 = place then (place, .file content) else e }

def remove (t : FileTree) (place : Place) : FileTree :=
  { t with entries := t.entries.filter fun e => !place.isPrefixOf e.1 }

/-- Where `names` lead from a place. Every place passed must be a folder; the last one need not
exist. -/
def walk (t : FileTree) : Place → List String → Except IoError Place
  | place, [] => .ok place
  | place, name :: rest =>
    match t.lookup place with
    | none => .error .notFound
    | some (.file _) => .error .notADirectory
    | some .folder =>
      if name = "." then t.walk place rest
      else if name = ".." then t.walk place.dropLast rest
      else if name.utf8ByteSize > maxNameLength then .error .invalidFilename
      else t.walk (place ++ [name]) rest

/-- The place that a path names, and what stands there. -/
def locate (t : FileTree) (p : Path) : Except IoError (Place × Option Entry) := do
  if p.text.isEmpty then throw .notFound
  if '\x00' ∈ p.text.toList then throw .invalidInput
  if p.text.utf8ByteSize > maxPathLength then throw .invalidFilename
  let place ← t.walk (if p.isAbsolute then [] else t.home) p.names
  match t.lookup place with
  | some (.file content) =>
    if p.namesFolder then throw .notADirectory else return (place, some (.file content))
  | found => return (place, found)

/-- Whether a path names something. Only a failure other than absence is an error. -/
def exists? (t : FileTree) (p : Path) : Except IoError Bool :=
  match t.locate p with
  | .ok (_, found) => .ok found.isSome
  | .error .notFound => .ok false
  | .error e => .error e

def isFolder (t : FileTree) (p : Path) : Bool :=
  match t.locate p with
  | .ok (_, some .folder) => true
  | _ => false

def makeFolder (t : FileTree) (p : Path) : Except IoError FileTree := do
  match ← t.locate p with
  | (_, some _) => throw .alreadyExists
  | (place, none) => return t.add place .folder

/-- Makes the first folder of a lineage after those above it, as far as they do not exist. -/
def makeLineage (t : FileTree) : List Path → FileTree × Except IoError Unit
  | [] => (t, .error .other)
  | p :: above =>
    if p.text.isEmpty then (t, .ok ())
    else
      match t.makeFolder p with
      | .ok made => (made, .ok ())
      | .error .notFound =>
        match t.makeLineage above with
        | (t, .error e) => (t, .error e)
        | (t, .ok ()) =>
          match t.makeFolder p with
          | .ok made => (made, .ok ())
          | .error e => if t.isFolder p then (t, .ok ()) else (t, .error e)
      | .error e => if t.isFolder p then (t, .ok ()) else (t, .error e)

/-- Makes a folder and all that are missing above it. What was made before a failure stays. -/
def makeFolders (t : FileTree) (p : Path) : FileTree × Except IoError Unit :=
  if p.text.isEmpty then (t, .ok ()) else t.makeLineage p.lineage

/-- Makes a file of `length` zero bytes where nothing stands, or gives the file that stands there
this length. -/
def createFile (t : FileTree) (p : Path) (length : Nat) : FileTree × Except IoError Unit :=
  match t.locate p with
  | .error e => (t, .error e)
  | .ok (_, some .folder) => (t, .error .isADirectory)
  | .ok (place, some (.file content)) =>
    if length < 0x8000000000000000 then (t.setContent place (content.resize length), .ok ())
    else (t, .error .invalidInput)
  | .ok (place, none) =>
    if p.namesFolder then (t, .error .isADirectory)
    else if length < 0x8000000000000000 then (t.add place (.file (List.replicate length 0)), .ok ())
    else (t.add place (.file []), .error .invalidInput)

def readFile (t : FileTree) (p : Path) : Except IoError Bytes := do
  match ← t.locate p with
  | (_, some (.file content)) => return content
  | (_, some .folder) => throw .isADirectory
  | (_, none) => throw .notFound

/-- Puts a whole file in place in a folder that exists. -/
def writeFile (t : FileTree) (p : Path) (content : Bytes) : Except IoError FileTree := do
  match ← t.locate p with
  | (place, some (.file _)) => return t.setContent place content
  | (_, some .folder) => throw .isADirectory
  | (place, none) =>
    if p.namesFolder then throw .isADirectory else return t.add place (.file content)

/-- Puts a whole file in place after the folders above it, as far as that is possible. -/
def putFile (t : FileTree) (p : Path) (content : Bytes) : FileTree :=
  match (p.parent?.map t.makeFolders).getD (t, .ok ()) with
  | (t, .error _) => t
  | (t, .ok ()) => (t.writeFile p content).toOption.getD t

def removeAt (t : FileTree) (p : Path) : FileTree :=
  match t.locate p with
  | .ok (place, some _) => t.remove place
  | _ => t

/-- Exactly `length` bytes of a file from `offset` on. -/
def readAt (t : FileTree) (p : Path) (offset length : Nat) : Except IoError Bytes := do
  let content ← t.readFile p
  let bytes := content.slice offset length
  if bytes.length = length then return bytes else throw .unexpectedEof

def writeAt (t : FileTree) (p : Path) (offset : Nat) (data : Bytes) : Except IoError FileTree := do
  match ← t.locate p with
  | (place, some (.file content)) => return t.setContent place (content.overwrite offset data)
  | (_, some .folder) => throw .isADirectory
  | (_, none) => throw .notFound

/-- The places below the working folder, relative to it. -/
def listing (t : FileTree) : List (Place × Entry) :=
  (t.entries.filter fun e => t.home.isPrefixOf e.1).map fun e => (e.1.drop t.home.length, e.2)

end FileTree

end TorrentEngine
