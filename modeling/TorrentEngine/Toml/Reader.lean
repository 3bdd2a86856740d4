import TorrentEngine.Toml.Document
import TorrentEngine.Toml.Number

/-!
Reading TOML. A document is read line by line: a key with its value, the header of a table, or
nothing but a comment. `Document.parse` gives nothing for a text that is not a document.
-/

namespace TorrentEngine.Toml

open TorrentEngine.Toml.Text (isBlank isPlain afterBreak?)

/-- The depth at which nesting is refused. -/
def nestingLimit : Nat := 80

def skipBlanks (cs : List Char) : List Char := cs.dropWhile isBlank

def skipComment : List Char → List Char
  | '#' :: rest => rest.dropWhile isPlain
  | cs => cs

def afterLine? (cs : List Char) : Option (List Char) :=
  match skipComment (skipBlanks cs) with
  | [] => some []
  | rest => afterBreak? rest

def skipTrivia : (inComment : Bool) → List Char → List Char
  | _, [] => []
  | _, '\n' :: rest => skipTrivia false rest
  | _, '\r' :: '\n' :: rest => skipTrivia false rest
  | true, c :: rest => if isPlain c then skipTrivia true rest else c :: rest
  | false, c :: rest =>
    if isBlank c then skipTrivia false rest
    else if c == '#' then skipTrivia true rest
    else c :: rest

/-! ## Keys -/

/-- Whether a character may stand in a key without quotes. -/
def isKeyChar (c : Char) : Bool := c.isAlphanum || c == '_' || c == '-'

def readSimpleKey (cs : List Char) : Option (String × List Char) :=
  match cs with
  | '"' :: _ | '\'' :: _ => (Text.readShort cs).map fun (s, rest) => (String.ofList s, rest)
  | _ =>
    let s := cs.takeWhile isKeyChar
    if s.isEmpty then none else some (String.ofList s, cs.dropWhile isKeyChar)

def readKeys : (fuel : Nat) → List Char → Option (List String × List Char)
  | 0, _ => none
  | fuel + 1, cs => do
    let (k, rest) ← readSimpleKey (skipBlanks cs)
    match skipBlanks rest with
    | '.' :: rest =>
      let (ks, rest) ← readKeys fuel rest
      return (k :: ks, rest)
    | rest => return ([k], rest)

def readKey (cs : List Char) : Option (List String × List Char) := do
  let (ks, rest) ← readKeys (cs.length + 1) cs
  if ks.length < nestingLimit then return (ks, rest) else none

/-! ## Values -/

def readNumber (cs : List Char) : Option (Value × List Char) :=
  match Number.afterMoment? cs with
  | some rest => some (.moment, rest)
  | none =>
    match Number.afterFloat? cs with
    | some rest => some (.float, rest)
    | none => (Number.readInteger cs).map fun (n, rest) => (.integer n, rest)

def readPlainValue (cs : List Char) : Option (Value × List Char) :=
  match cs with
  | '"' :: _ | '\'' :: _ => (Text.read cs).map fun (s, rest) => (.text (String.ofList s), rest)
  | 't' :: 'r' :: 'u' :: 'e' :: rest => some (.boolean true, rest)
  | 'f' :: 'a' :: 'l' :: 's' :: 'e' :: rest => some (.boolean false, rest)
  | _ => readNumber cs

mutual

/-- A value whose arrays and tables are nested at most `depth` deep. -/
def readValue : (fuel depth : Nat) → List Char → Option (Value × List Char)
  | 0, _, _ => none
  | fuel + 1, depth + 1, '[' :: rest => (readItems fuel depth rest).map fun rest => (.array, rest)
  | fuel + 1, depth + 1, '{' :: rest =>
    match skipBlanks rest with
    | '}' :: rest => some (.table, rest)
    | rest => (readEntries fuel depth {} rest).map fun rest => (.table, rest)
  | _ + 1, _, cs => readPlainValue cs

/-- What follows the items of an array, the last of which may have a comma after it. -/
def readItems : (fuel depth : Nat) → List Char → Option (List Char)
  | 0, _, _ => none
  | fuel + 1, depth, cs =>
    match skipTrivia false cs with
    | ']' :: rest => some rest
    | cs =>
      match readValue fuel depth cs with
      | none => none
      | some (_, rest) =>
        match skipTrivia false rest with
        | ',' :: rest => readItems fuel depth rest
        | ']' :: rest => some rest
        | _ => none

/-- What follows the entries of a table in braces, whose keys so far are those of `d`. -/
def readEntries : (fuel depth : Nat) → Document → List Char → Option (List Char)
  | 0, _, _, _ => none
  | fuel + 1, depth, d, cs =>
    match readKey cs with
    | some (ks, '=' :: rest) =>
      match readValue fuel depth (skipBlanks rest) with
      | none => none
      | some (v, rest) =>
        match d.addValue [] ks v with
        | none => none
        | some d =>
          match skipBlanks rest with
          | ',' :: rest => readEntries fuel depth d rest
          | '}' :: rest => some rest
          | _ => none
    | _ => none

end

/-! ## Documents -/

def readHeader (closing : List Char) (cs : List Char) : Option (List String × List Char) := do
  let (ks, rest) ← readKey cs
  if closing.isPrefixOf rest then return (ks, rest.drop closing.length) else none

/-- Reads one line below the table of the last header: the document with it, the table of the last
header, and what follows the line's content. -/
def readContent (d : Document) (spot : Spot) (cs : List Char) :
    Option (Document × Spot × List Char) :=
  match cs with
  | '[' :: '[' :: rest => do
    let (ks, rest) ← readHeader [']', ']'] rest
    let (d, spot) ← d.openNextTable ks
    return (d, spot, rest)
  | '[' :: rest => do
    let (ks, rest) ← readHeader [']'] rest
    let (d, spot) ← d.openTable ks
    return (d, spot, rest)
  | _ => do
    match ← readKey cs with
    | (ks, '=' :: rest) =>
      let (v, rest) ← readValue (rest.length + 1) (nestingLimit - 1) (skipBlanks rest)
      return (← d.addValue spot ks v, spot, rest)
    | _ => none

def readLines : (fuel : Nat) → Document → Spot → List Char → Option Document
  | 0, _, _, _ => none
  | fuel + 1, d, spot, cs =>
    match skipBlanks cs with
    | [] => some d
    | c :: rest =>
      if c == '#' || c == '\n' || c == '\r' then do
        readLines fuel d spot (← afterLine? (c :: rest))
      else do
        let (d, spot, rest) ← readContent d spot (c :: rest)
        readLines fuel d spot (← afterLine? rest)

def dropMark : List Char → List Char
  | '\ufeff' :: rest => rest
  | cs => cs

def Document.parse (s : String) : Option Document :=
  let cs := dropMark s.toList
  readLines (cs.length + 1) {} [] cs

end TorrentEngine.Toml
