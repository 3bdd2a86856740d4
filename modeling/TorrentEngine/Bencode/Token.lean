import TorrentEngine.Bencode.Error
import TorrentEngine.Text.Decimal

/-!
The tokens of bencoded data: integers, byte strings, and the marks that open and close lists and
dictionaries. `Token.read` takes one token off the front of a byte string.
-/

namespace TorrentEngine.Bencode

/-- One token. -/
inductive Token
  | integer (n : Int)
  | bytes (b : Bytes)
  | list
  | dict
  | stop
  deriving DecidableEq, Repr

def integerInRange (n : Int) : Bool := -0x8000000000000000 ≤ n && n < 0x8000000000000000

/-- The bytes before the first `mark`, and those after it. -/
def untilMark (mark : UInt8) (b : Bytes) : Except Error (Bytes × Bytes) :=
  match b.dropWhile (· != mark) with
  | [] => .error .endOfStream
  | _ :: rest => .ok (b.takeWhile (· != mark), rest)

def readInteger (b : Bytes) : Except Error (Token × Bytes) := do
  let (numeral, rest) ← untilMark 101 b
  match Bytes.text? numeral with
  | none => .error .numberNotText
  | some text =>
    match Decimal.int? numeral with
    | some n => if integerInRange n then .ok (.integer n, rest) else .error (.badInteger text)
    | none => .error (.badInteger text)

/-- The rest of a byte string token: the length up to the colon, then that many bytes. -/
def readString (first : UInt8) (b : Bytes) : Except Error (Token × Bytes) := do
  let (tail, rest) ← untilMark 58 b
  let numeral := first :: tail
  match Bytes.text? numeral with
  | none => .error .numberNotText
  | some text =>
    match Decimal.nat? numeral with
    | some n =>
      if n < 0x10000000000000000 then
        let content := rest.take n
        if content.length < n then .error .endOfStream else .ok (.bytes content, rest.drop n)
      else .error (.badLength text)
    | none => .error (.badLength text)

/-- The token at the front of `b`, and the bytes after it. -/
def Token.read : Bytes → Except Error (Token × Bytes)
  | [] => .error .endOfStream
  | first :: rest =>
    if first = 105 then readInteger rest
    else if first = 108 then .ok (.list, rest)
    else if first = 100 then .ok (.dict, rest)
    else if first = 101 then .ok (.stop, rest)
    else if Decimal.isDigit first then readString first rest
    else .error (.badCharacter first)

/-- The failure to find `expected` where a token opens something else. -/
def Token.mismatch (token : Token) (expected : Expected) : Error :=
  match token with
  | .integer n => .wrongType (.integer n) expected
  | .bytes _ => .wrongType .byteArray expected
  | .list => .wrongType .sequence expected
  | .dict => .wrongType .map expected
  | .stop => .endOfStream

end TorrentEngine.Bencode
