/-!
Texts in TOML. A text stands between double quotes, with escapes, or between single quotes as it is;
either quote three times over lets it run across lines. `Text.read` takes any of the four forms and
`Text.print` chooses one.
-/

namespace TorrentEngine.Toml.Text

/-- Whether a character may stand in a text or comment unescaped. -/
def isPlain (c : Char) : Bool := c == '\t' || decide (0x20 ≤ c.toNat) && c.toNat != 0x7f

def hexValue? (c : Char) : Option Nat :=
  if '0' ≤ c ∧ c ≤ '9' then some (c.toNat - 48)
  else if 'a' ≤ c ∧ c ≤ 'f' then some (c.toNat - 87)
  else if 'A' ≤ c ∧ c ≤ 'F' then some (c.toNat - 55)
  else none

/-- The character whose code point hexadecimal digits spell. -/
def scalar? (digits : List Char) : Option Char := do
  let values ← digits.mapM hexValue?
  let n := values.foldl (fun n d => 16 * n + d) 0
  if n < 0xd800 ∨ (0xdfff < n ∧ n < 0x110000) then some (Char.ofNat n) else none

/-- The character that stands for itself or another after a backslash. -/
def escape? : Char → Option Char
  | 'b' => some '\x08'
  | 't' => some '\t'
  | 'n' => some '\n'
  | 'f' => some '\x0c'
  | 'r' => some '\r'
  | '"' => some '"'
  | '\\' => some '\\'
  | _ => none

def put (c : Char) (read : Option (List Char × List Char)) : Option (List Char × List Char) :=
  read.map fun r => (c :: r.1, r.2)

/-! ## Reading -/

def readBasic : List Char → Option (List Char × List Char)
  | [] => none
  | '"' :: rest => some ([], rest)
  | '\\' :: 'u' :: a :: b :: c :: d :: rest => do put (← scalar? [a, b, c, d]) (readBasic rest)
  | '\\' :: 'U' :: a :: b :: c :: d :: e :: f :: g :: h :: rest => do
    put (← scalar? [a, b, c, d, e, f, g, h]) (readBasic rest)
  | '\\' :: e :: rest => do put (← escape? e) (readBasic rest)
  | c :: rest => if isPlain c then put c (readBasic rest) else none

def readLiteral : List Char → Option (List Char × List Char)
  | [] => none
  | '\'' :: rest => some ([], rest)
  | c :: rest => if isPlain c then put c (readLiteral rest) else none

def isBlank (c : Char) : Bool := c == ' ' || c == '\t'

def afterBreak? : List Char → Option (List Char)
  | '\n' :: rest => some rest
  | '\r' :: '\n' :: rest => some rest
  | _ => none

def skipSpace : List Char → List Char
  | '\r' :: '\n' :: rest => skipSpace rest
  | c :: rest => if isBlank c || c == '\n' then skipSpace rest else c :: rest
  | [] => []

/-- What follows a backslash at the end of a line: the line break and all blanks and line breaks
after it are left out. -/
def afterJoin? (cs : List Char) : Option (List Char) :=
  (afterBreak? (cs.dropWhile isBlank)).map skipSpace

/-- The rest of a text in three double quotes, of which up to two may stand before the last
three. -/
def readLongBasic : (fuel : Nat) → List Char → Option (List Char × List Char)
  | 0, _ => none
  | _ + 1, '"' :: '"' :: '"' :: '"' :: '"' :: rest => some (['"', '"'], rest)
  | _ + 1, '"' :: '"' :: '"' :: '"' :: rest => some (['"'], rest)
  | _ + 1, '"' :: '"' :: '"' :: rest => some ([], rest)
  | fuel + 1, '\\' :: rest =>
    match afterJoin? rest, rest with
    | some joined, _ => readLongBasic fuel joined
    | none, 'u' :: a :: b :: c :: d :: rest => do
      put (← scalar? [a, b, c, d]) (readLongBasic fuel rest)
    | none, 'U' :: a :: b :: c :: d :: e :: f :: g :: h :: rest => do
      put (← scalar? [a, b, c, d, e, f, g, h]) (readLongBasic fuel rest)
    | none, e :: rest => do put (← escape? e) (readLongBasic fuel rest)
    | none, [] => none
  | fuel + 1, c :: rest =>
    match afterBreak? (c :: rest) with
    | some rest => put '\n' (readLongBasic fuel rest)
    | none => if isPlain c then put c (readLongBasic fuel rest) else none
  | _ + 1, [] => none

/-- The rest of a text in three single quotes, of which up to two may stand before the last
three. -/
def readLongLiteral : List Char → Option (List Char × List Char)
  | '\'' :: '\'' :: '\'' :: '\'' :: '\'' :: rest => some (['\'', '\''], rest)
  | '\'' :: '\'' :: '\'' :: '\'' :: rest => some (['\''], rest)
  | '\'' :: '\'' :: '\'' :: rest => some ([], rest)
  | '\n' :: rest => put '\n' (readLongLiteral rest)
  | '\r' :: '\n' :: rest => put '\n' (readLongLiteral rest)
  | c :: rest => if isPlain c then put c (readLongLiteral rest) else none
  | [] => none

/-- What follows the opening quotes of a text across lines: a line break right after them does not
belong to it. -/
def skipFirstBreak (cs : List Char) : List Char := (afterBreak? cs).getD cs

def readShort : List Char → Option (List Char × List Char)
  | '"' :: rest => readBasic rest
  | '\'' :: rest => readLiteral rest
  | _ => none

def read : List Char → Option (List Char × List Char)
  | '"' :: '"' :: '"' :: rest => readLongBasic (rest.length + 1) (skipFirstBreak rest)
  | '\'' :: '\'' :: '\'' :: rest => readLongLiteral (skipFirstBreak rest)
  | cs => readShort cs

/-! ## Writing -/

/-- Four upper-case hexadecimal digits of a code point. -/
def codePoint (c : Char) : List Char :=
  let digits := (Nat.toDigits 16 c.toNat).map Char.toUpper
  List.replicate (4 - digits.length) '0' ++ digits

/-- How a character other than a double quote stands between double quotes. Line breaks stay as they
are in a text across lines. -/
def escape (isLong : Bool) (c : Char) : List Char :=
  match c with
  | '\x08' => ['\\', 'b']
  | '\t' => ['\\', 't']
  | '\n' => if isLong then ['\n'] else ['\\', 'n']
  | '\x0c' => ['\\', 'f']
  | '\r' => ['\\', 'r']
  | '\\' => ['\\', '\\']
  | c => if isPlain c then [c] else '\\' :: 'u' :: codePoint c

/-- A text between double quotes, after some double quotes in a row. In a text across lines only a
third one in a row is escaped, and after it they count from none again. -/
def escapeAll (isLong : Bool) : (quotes : Nat) → List Char → List Char
  | _, [] => []
  | quotes, '"' :: rest =>
    if isLong && quotes < 2 then '"' :: escapeAll isLong (quotes + 1) rest
    else '\\' :: '"' :: escapeAll isLong 0 rest
  | _, c :: rest => escape isLong c ++ escapeAll isLong 0 rest

/-- The four forms of a text: between double or single quotes, and either across lines. -/
inductive Form
  | basic
  | literal
  | longBasic
  | longLiteral
  deriving DecidableEq, Repr

/-- The length of the longest row of a character, after `before` of them. -/
def longestRow (q : Char) : (before : Nat) → List Char → Nat
  | before, [] => before
  | before, c :: rest =>
    if c = q then longestRow q (before + 1) rest else max before (longestRow q 0 rest)

/-- Whether a text may take a form: nothing in it has to be escaped there. -/
def Form.fits (form : Form) (s : List Char) : Bool :=
  let isOneLine := !s.contains '\n'
  let isEscapeFree := !s.contains '\\'
  s.all (fun c => isPlain c || c == '\n') &&
    match form with
    | .basic => isOneLine && isEscapeFree && longestRow '"' 0 s == 0
    | .literal => isOneLine && longestRow '\'' 0 s == 0
    | .longBasic => isEscapeFree && longestRow '"' 0 s ≤ 2
    | .longLiteral => longestRow '\'' 0 s ≤ 2

/-- The form that a text is written in: the first that it may take, and double quotes where it may
take none. -/
def formOf (s : List Char) : Form :=
  let usual : Form := if s.contains '\n' then .longBasic else .basic
  (([.basic, .literal, .longBasic, .longLiteral] : List Form).find? (·.fits s)).getD usual

/-- The written form of a text. A text that breaks its line starts on a line of its own. -/
def print (s : List Char) : List Char :=
  let firstBreak := if s.contains '\n' then ['\n'] else []
  match formOf s with
  | .basic => ['"'] ++ escapeAll false 0 s ++ ['"']
  | .literal => ['\''] ++ s ++ ['\'']
  | .longBasic => ['"', '"', '"'] ++ firstBreak ++ escapeAll true 0 s ++ ['"', '"', '"']
  | .longLiteral => ['\'', '\'', '\''] ++ firstBreak ++ s ++ ['\'', '\'', '\'']

end TorrentEngine.Toml.Text
