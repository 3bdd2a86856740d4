import TorrentEngine.Bencode.Reader
import TorrentEngine.Metainfo

/-!
The bencoded form of a torrent. `Metainfo.encode` writes it, `Metainfo.parse` reads a whole
`.torrent` file, and `Metainfo.ofInfo` reads a bare `info` dictionary as peers hand it over. A
`.torrent` file is read twice: once as a plain value, whose `info` entry is written again in its one
canonical form to name the torrent, and once field by field.
-/

namespace TorrentEngine

open Bencode

/-- Why bytes do not describe a torrent. -/
inductive ParseError
  | bencode (cause : Bencode.Error)
  | missingInfo
  | unevenPieces (length : Nat)
  deriving DecidableEq, Repr

def ParseError.message : ParseError → String
  | .bencode cause => "Bencode parsing error: " ++ cause.message
  | .missingInfo => "Missing 'info' dictionary in torrent file"
  | .unevenPieces length => s!"'pieces' length {length} is not a multiple of 20"

/-! ## Writing -/

def textValue (s : String) : Value := .bytes (Bytes.ofText s)

def dictOf (entries : List (String × Value)) : Value :=
  .dict (entries.foldl (fun d e => Value.insert (Bytes.ofText e.1) e.2 d) [])

def InfoFile.toValue (f : InfoFile) : Value :=
  dictOf [("length", .integer f.length), ("path", .list (f.path.map textValue))]

def Info.toValue (i : Info) : Value :=
  dictOf <|
    [ ("files", .list (i.files.map InfoFile.toValue)), ("length", .integer i.length),
      ("name", textValue i.name), ("piece length", .integer i.pieceLength),
      ("pieces", .bytes i.pieces) ]
    ++ (i.isPrivate.map fun p => ("private", Value.integer p)).toList

def tiersValue (tiers : List (List String)) : Value :=
  .list (tiers.map fun tier => .list (tier.map textValue))

def Metainfo.toValue (m : Metainfo) : Value :=
  dictOf <|
    (m.announce.map fun url => ("announce", textValue url)).toList
    ++ (m.announceList.map fun tiers => ("announce-list", tiersValue tiers)).toList
    ++ [("info", m.info.toValue)]

def Info.encode (i : Info) : Bytes := i.toValue.print

def Metainfo.encode (m : Metainfo) : Bytes := m.toValue.print

/-- The torrent with the given fields, named by the written form of its `info` dictionary. -/
def Metainfo.ofFields (info : Info) (announce : Option String)
    (announceList : Option (List (List String))) : Metainfo :=
  { infoBytes := info.encode, info, announce, announceList }

/-- A `.torrent` file that holds nothing but the given encoded `info` dictionary. -/
def wrapInfo (infoBytes : Bytes) : Bytes := Bytes.ofText "d4:info" ++ infoBytes ++ [101]

/-! ## Reading -/

/-- A file whose fields are still being read. -/
structure InfoFile.Draft where
  length : Option Int := none
  path : Option (List String) := none

def InfoFile.fields : List (KnownField InfoFile.Draft) :=
  [ { key := "length"
      isGiven := (·.length.isSome)
      read := fun _ d b => do
        let (n, rest) ← readNumber b
        return ({ d with length := some n }, rest) },
    { key := "path"
      isGiven := (·.path.isSome)
      read := fun fuel d b => do
        let (names, rest) ← readListWith (fun _ => readText) fuel b
        return ({ d with path := some names }, rest) } ]

/-- The file that a draft makes once all its fields are read. -/
def InfoFile.Draft.finish (d : InfoFile.Draft) : Except Bencode.Error InfoFile := do
  return { length := ← require "length" d.length, path := ← require "path" d.path }

def readInfoFile (fuel : Nat) (b : Bytes) : Except Bencode.Error (InfoFile × Bytes) := do
  let (draft, rest) ← readRecord "InfoFile" InfoFile.fields {} fuel b
  return (← draft.finish, rest)

/-- An `info` dictionary whose fields are still being read. -/
structure Info.Draft where
  pieceLength : Option Int := none
  pieces : Option Bytes := none
  isPrivate : Option Int := none
  files : Option (List InfoFile) := none
  name : Option String := none
  length : Option Int := none

def Info.fields : List (KnownField Info.Draft) :=
  [ { key := "piece length"
      isGiven := (·.pieceLength.isSome)
      read := fun _ d b => do
        let (n, rest) ← readNumber b
        return ({ d with pieceLength := some n }, rest) },
    { key := "pieces"
      isGiven := (·.pieces.isSome)
      read := fun fuel d b => do
        let (pieces, rest) ← readBytes fuel b
        return ({ d with pieces := some pieces }, rest)
      hasDefault := true },
    { key := "private"
      isGiven := (·.isPrivate.isSome)
      read := fun _ d b => do
        let (n, rest) ← readNumber b
        return ({ d with isPrivate := some n }, rest)
      hasDefault := true },
    { key := "files"
      isGiven := (·.files.isSome)
      read := fun fuel d b => do
        let (files, rest) ← readListWith readInfoFile fuel b
        return ({ d with files := some files }, rest)
      hasDefault := true },
    { key := "name"
      isGiven := (·.name.isSome)
      read := fun _ d b => do
        let (s, rest) ← readText b
        return ({ d with name := some s }, rest) },
    { key := "length"
      isGiven := (·.length.isSome)
      read := fun _ d b => do
        let (n, rest) ← readNumber b
        return ({ d with length := some n }, rest)
      hasDefault := true } ]

/-- The `info` dictionary that a draft makes once all its fields are read. -/
def Info.Draft.finish (d : Info.Draft) : Except Bencode.Error Info := do
  return {
    pieceLength := ← require "piece length" d.pieceLength
    name := ← require "name" d.name
    pieces := d.pieces.getD []
    isPrivate := d.isPrivate
    files := d.files.getD []
    length := d.length.getD 0 }

def readInfo (fuel : Nat) (b : Bytes) : Except Bencode.Error (Info × Bytes) := do
  let (draft, rest) ← readRecord "Info" Info.fields {} fuel b
  return (← draft.finish, rest)

/-- A torrent whose fields are still being read. -/
structure Metainfo.Draft where
  info : Option Info := none
  announce : Option String := none
  announceList : Option (List (List String)) := none

def Metainfo.fields : List (KnownField Metainfo.Draft) :=
  [ { key := "info"
      isGiven := (·.info.isSome)
      read := fun fuel d b => do
        let (info, rest) ← readInfo fuel b
        return ({ d with info := some info }, rest) },
    { key := "announce"
      isGiven := (·.announce.isSome)
      read := fun _ d b => do
        let (url, rest) ← readText b
        return ({ d with announce := some url }, rest) },
    { key := "announce-list"
      isGiven := (·.announceList.isSome)
      read := fun fuel d b => do
        let (tiers, rest) ← readListWith (readListWith fun _ => readText) fuel b
        return ({ d with announceList := some tiers }, rest)
      hasDefault := true } ]

/-- The encoded `info` dictionary of a torrent file, in canonical form. -/
def canonicalInfo (b : Bytes) : Except ParseError Bytes := do
  match ← (readValue b).mapError ParseError.bencode with
  | (.dict entries, _) =>
    match Value.lookup (Bytes.ofText "info") entries with
    | some info => .ok info.print
    | none => .error .missingInfo
  | _ => .error .missingInfo

def Metainfo.checkPieces (m : Metainfo) : Except ParseError Metainfo :=
  if m.hasWholePieces then .ok m else .error (.unevenPieces m.info.pieces.length)

/-- The torrent that a `.torrent` file describes; bytes after it are ignored. -/
def Metainfo.parse (b : Bytes) : Except ParseError Metainfo := do
  let infoBytes ← canonicalInfo b
  let (draft, _) ←
    (readRecord "Torrent" Metainfo.fields {} (fuelFor b) b).mapError ParseError.bencode
  let info ← (require "info" draft.info).mapError ParseError.bencode
  Metainfo.checkPieces
    { infoBytes, info, announce := draft.announce, announceList := draft.announceList }

/-- The torrent whose `info` dictionary was received on its own; it is named by exactly these
bytes. -/
def Metainfo.ofInfo (b : Bytes) : Except ParseError Metainfo := do
  let (info, _) ← (readInfo (fuelFor b) b).mapError ParseError.bencode
  Metainfo.checkPieces { infoBytes := b, info }

end TorrentEngine
