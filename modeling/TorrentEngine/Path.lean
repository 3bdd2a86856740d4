/-!
Paths as text. A path is built by pushing names onto it; nothing is normalised on the way. Reading a
path takes it apart at its slashes: empty names and dots in the middle name nothing, two dots name
the folder above.
-/

namespace TorrentEngine

/-- A path, as its text. -/
structure Path where
  text : String
  deriving DecidableEq, Repr

namespace Path

def startsAtRoot (s : String) : Bool := s.startsWith "/"

/-- The path one name further on. A name that starts at the root replaces the whole path; otherwise
a slash is put between, unless the path is empty or ends in one already. -/
def push (p : Path) (name : String) : Path :=
  if startsAtRoot name then ⟨name⟩
  else if p.text.isEmpty || p.text.endsWith "/" then ⟨p.text ++ name⟩
  else ⟨p.text ++ "/" ++ name⟩

def isAbsolute (p : Path) : Bool := startsAtRoot p.text

/-- Whether the path ends in a slash, so that it can only name a folder. -/
def namesFolder (p : Path) : Bool := p.text.endsWith "/"

/-- What is between the slashes of a path. -/
def parts (p : Path) : List String := (p.text.toList.splitOn '/').map String.ofList

/-- The names between the slashes of a path, empty ones left out. -/
def names (p : Path) : List String := p.parts.filter fun s => !s.isEmpty

/-- The names of a path without those that stand for the folder they are in. A relative path may
begin with a dot. -/
def components (p : Path) : List String :=
  match p.names with
  | "." :: rest =>
    let rest := rest.filter (· ≠ ".")
    if p.isAbsolute then rest else "." :: rest
  | all => all.filter (· ≠ ".")

def ofNames (absolute : Bool) (names : List String) : Path :=
  ⟨(if absolute then "/" else "") ++ "/".intercalate names⟩

/-- The path without its last component; there is none for the root and the empty path. -/
def parent? (p : Path) : Option Path :=
  if p.components.isEmpty then none
  else some (ofNames p.isAbsolute p.components.dropLast)

/-- The path and the paths above it, nearest first. -/
def lineage (p : Path) : List Path :=
  let all := p.components
  (List.range all.length).map (fun i => ofNames p.isAbsolute (all.take (all.length - i)))
    ++ [ofNames p.isAbsolute []]

end Path

end TorrentEngine
