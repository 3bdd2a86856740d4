/-!
The ways in which reading bencoded data can fail, and their wording.
-/

namespace TorrentEngine.Bencode

/-- What stands at a place where something else was wanted. -/
inductive Shape
  | integer (n : Int)
  | byteArray
  | sequence
  | map
  deriving DecidableEq, Repr

/-- What was wanted at a place. -/
inductive Expected
  | integer
  | text
  | utf8
  | byteArray
  | byte
  | sequence
  | record (name : String)
  deriving DecidableEq, Repr

/-- Why bencoded data cannot be read. -/
inductive Error
  | endOfStream
  | badCharacter (byte : UInt8)
  | numberNotText
  | badInteger (text : String)
  | badLength (text : String)
  | wrongType (found : Shape) (expected : Expected)
  | wrongValue (found : Shape) (expected : Expected)
  | wrongLength (given : Nat) (record : String) (size : Nat)
  | missingField (name : String)
  | duplicateField (name : String)
  | stopForText
  deriving DecidableEq, Repr

def Shape.message : Shape → String
  | .integer n => s!"integer `{n}`"
  | .byteArray => "byte array"
  | .sequence => "sequence"
  | .map => "map"

def Expected.message : Expected → String
  | .integer => "i64"
  | .text => "bytes"
  | .utf8 => "utf-8 string"
  | .byteArray => "byte array"
  | .byte => "u8"
  | .sequence => "a sequence"
  | .record name => s!"struct {name}"

def Error.message : Error → String
  | .endOfStream => "End of stream"
  | .badCharacter byte => "Invalid character `" ++ String.singleton (Char.ofNat byte.toNat) ++ "`"
  | .numberNotText => "Non UTF-8 integer encoding"
  | .badInteger text => "Can't parse `" ++ text ++ "` as integer"
  | .badLength text => "Can't parse `" ++ text ++ "` as string length"
  | .wrongType found expected =>
    "Invalid Type: " ++ found.message ++ " (expected: `" ++ expected.message ++ "`)"
  | .wrongValue found expected =>
    "Invalid Value: " ++ found.message ++ " (expected: `" ++ expected.message ++ "`)"
  | .wrongLength given record size =>
    s!"Invalid Length: {given} (expected: `struct {record} with {size} elements`)"
  | .missingField name => "Missing Field: `" ++ name ++ "`"
  | .duplicateField name => "Duplicate Field: `" ++ name ++ "`"
  | .stopForText => "unexpected end, expected bytes"

end TorrentEngine.Bencode
