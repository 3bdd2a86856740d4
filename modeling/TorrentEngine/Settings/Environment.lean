import TorrentEngine.Settings
import TorrentEngine.Toml.Number

/-!
Settings from environment variables. A variable whose name begins with the mark of the program sets
the name that follows it, in any case. Its value is read as a literal: true or false, a number, a
quoted text, a table or an array; what is none of these is a text as it stands.
-/

namespace TorrentEngine.Settings.Environment

open Toml (Value)

/-- The mark of the program at the start of a variable's name. -/
def mark : String := "seedcore_"

def isSpace (c : Char) : Bool :=
  c == ' ' || c == '\t' || c == '\n' || c == '\r' || c == '\x0c'

def skipSpaces (cs : List Char) : List Char := cs.dropWhile isSpace

/-- Whether a character is a space of any width or a line break of any kind. -/
def isWide (c : Char) : Bool :=
  isSpace c || decide (0x2000 ≤ c.toNat ∧ c.toNat ≤ 0x200a)
    || [0x0b, 0x85, 0xa0, 0x1680, 0x2028, 0x2029, 0x202f, 0x205f, 0x3000].contains c.toNat

/-- The text without spaces and line breaks at its ends. -/
def trim (cs : List Char) : List Char :=
  ((cs.dropWhile isWide).reverse.dropWhile isWide).reverse

def isSeparator (c : Char) : Bool := c == ',' || c == '\x7b' || c == '\x7d' || c == '[' || c == ']'

/-- Whether a character may stand in a key without quotes. -/
def isKeyChar (c : Char) : Bool := c.isAlphanum || c == '_' || c == '-'

/-- Whether what follows the digits of a number is an exponent or nothing. -/
def endsNumber (cs : List Char) : Bool :=
  match cs with
  | [] => true
  | c :: rest =>
    let (_, digits) := Toml.Number.sign rest
    (c == 'e' || c == 'E') && !digits.isEmpty && digits.all Toml.Number.isDigit

/-- Whether a text is a number with a point: digits before or after it, and perhaps an exponent. -/
def isFloat (cs : List Char) : Bool :=
  let (_, rest) := Toml.Number.sign cs
  let whole := rest.takeWhile Toml.Number.isDigit
  match rest.dropWhile Toml.Number.isDigit with
  | '.' :: rest =>
    let fraction := rest.takeWhile Toml.Number.isDigit
    !(whole ++ fraction).isEmpty && endsNumber (rest.dropWhile Toml.Number.isDigit)
  | _ => false

/-- The integer that digits after an optional sign spell, if sixty-four bits hold it. -/
def integer? (cs : List Char) : Option Int :=
  let (isNegative, digits) := Toml.Number.sign cs
  let n := Toml.Number.value 10 digits
  if digits.isEmpty || !digits.all Toml.Number.isDigit then none
  else if isNegative then if n ≤ 0x8000000000000000 then some (-n) else none
  else if n < 0x10000000000000000 then some n
  else none

def plain (cs : List Char) : Value :=
  if isFloat cs then .float
  else
    match integer? cs with
    | some n => .integer n
    | none => .text (String.ofList cs)

def afterKey? (cs : List Char) : Option (List Char) :=
  match cs with
  | '"' :: rest => (Toml.Text.readBasic rest).map (·.2)
  | _ => if (cs.takeWhile isKeyChar).isEmpty then none else some (cs.dropWhile isKeyChar)

/-- The longest beginning of a text that takes at most some bytes. -/
def fitting : (bytes : Nat) → List Char → List Char
  | _, [] => []
  | bytes, c :: rest =>
    if c.utf8Size ≤ bytes then c :: fitting (bytes - c.utf8Size) rest else []

/-- The rest of a text in double quotes. Where it has an escape, as many bytes of what stands before
the first one are kept as that has characters. -/
def readQuoted (cs : List Char) : Option (List Char × List Char) :=
  (Toml.Text.readBasic cs).map fun (s, rest) =>
    let isMark := fun c => c == '"' || c == '\\'
    let head := cs.takeWhile fun c => !isMark c
    if cs.find? isMark = some '\\' then (fitting head.length head ++ s.drop head.length, rest)
    else (s, rest)

mutual

def readValue : (fuel : Nat) → List Char → Option (Value × List Char)
  | 0, _ => none
  | fuel + 1, cs =>
    let found : Option (Value × List Char) := match skipSpaces cs with
      | 't' :: 'r' :: 'u' :: 'e' :: rest => some (.boolean true, rest)
      | 'f' :: 'a' :: 'l' :: 's' :: 'e' :: rest => some (.boolean false, rest)
      | '\x7b' :: rest => (readEntries fuel rest).map fun rest => (.table, rest)
      | '[' :: rest => (readItems fuel rest).map fun rest => (.array, rest)
      | '"' :: rest => (readQuoted rest).map fun (s, rest) => (.text (String.ofList s), rest)
      | '\'' :: c :: '\'' :: rest => some (.text (String.singleton c), rest)
      | '\'' :: _ => none
      | rest =>
        let literal := rest.takeWhile fun c => !isSeparator c
        some (plain (trim literal), rest.dropWhile fun c => !isSeparator c)
    found.map fun (v, rest) => (v, skipSpaces rest)

def readItems : (fuel : Nat) → List Char → Option (List Char)
  | 0, _ => none
  | _ + 1, ']' :: rest => some rest
  | fuel + 1, cs =>
    match readValue fuel cs with
    | some (_, ',' :: rest) => readItems fuel rest
    | some (_, ']' :: rest) => some rest
    | _ => none

def readEntries : (fuel : Nat) → List Char → Option (List Char)
  | 0, _ => none
  | _ + 1, '\x7d' :: rest => some rest
  | fuel + 1, cs =>
    match (afterKey? (skipSpaces cs)).map skipSpaces with
    | some ('=' :: rest) =>
      match readValue fuel rest with
      | some (_, ',' :: rest) => readEntries fuel rest
      | some (_, '\x7d' :: rest) => some rest
      | _ => none
    | _ => none

end

def literal (s : String) : Value :=
  let cs := s.toList
  match readValue (2 * cs.length + 2) cs with
  | some (v, []) => v
  | _ => .text s

/-- What a variable sets: the name after the mark, and its value. A name with dots sets a table; one
with nothing on some side of a dot sets nothing. -/
def setting? (name value : String) : Option (String × Value) :=
  let lower := (String.ofList (trim name.toList)).toLower
  if mark.isPrefixOf lower then
    let parts := (String.ofList (trim (lower.toList.drop mark.length))).splitOn "."
    if parts.any (·.isEmpty) then none
    else
      match parts with
      | [] => none
      | [key] => some (key, literal value)
      | key :: _ => some (key, .table)
  else none

/-- The value that variables give a name; the last one counts. -/
def value? (env : List (String × String)) (name : String) : Option Value :=
  let found := (env.filterMap fun v => setting? v.1 v.2).filter (·.1 = name)
  found.getLast?.map (·.2)

end TorrentEngine.Settings.Environment
