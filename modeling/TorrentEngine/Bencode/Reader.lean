import TorrentEngine.Bencode.Token
import TorrentEngine.Bencode.Value

/-!
Reading bencoded data from left to right. Each reader takes its part off the front of the input and
returns the rest, so a failure is always that of the leftmost fault. `readValue` reads any value,
`skipValue` passes over one, the others read a value of one kind, and `readRecord` reads a
dictionary with known fields, or a list of their values. The first argument of a nested reader
bounds its depth and its number of tokens; `fuelFor` is enough for the whole of an input.
-/

namespace TorrentEngine.Bencode

/-- A bound on the steps that reading all of `b` can take: two for each token and two to end. -/
def fuelFor (b : Bytes) : Nat := 2 * b.length + 2

def readNumber (b : Bytes) : Except Error (Int × Bytes) := do
  let (token, rest) ← Token.read b
  match token with
  | .integer n => .ok (n, rest)
  | other => .error (other.mismatch .integer)

def Token.text (token : Token) : Except Error String :=
  match token with
  | .bytes b =>
    match Bytes.text? b with
    | some s => .ok s
    | none => .error (.wrongValue .byteArray .utf8)
  | .stop => .error .stopForText
  | other => .error (other.mismatch .text)

def readText (b : Bytes) : Except Error (String × Bytes) := do
  let (token, rest) ← Token.read b
  return (← token.text, rest)

/-- The bytes up to the end of a list of integers that are bytes. -/
def readByteItems : Nat → Bytes → Except Error (Bytes × Bytes)
  | 0, _ => .error .endOfStream
  | fuel + 1, b => do
    let (token, rest) ← Token.read b
    match token with
    | .stop => .ok ([], rest)
    | .integer n =>
      if 0 ≤ n && n < 256 then
        let (bytes, rest) ← readByteItems fuel rest
        .ok (UInt8.ofNat n.toNat :: bytes, rest)
      else .error (.wrongValue (.integer n) .byte)
    | other => .error (other.mismatch .byte)

/-- The bytes that start with a token: a byte string, or a list of integers that are bytes. -/
def bytesFrom (fuel : Nat) (token : Token) (rest : Bytes) : Except Error (Bytes × Bytes) :=
  match token with
  | .bytes b => .ok (b, rest)
  | .list => readByteItems fuel rest
  | other => .error (other.mismatch .byteArray)

/-- A byte string, written as one or as a list of integers that are bytes. -/
def readBytes (fuel : Nat) (b : Bytes) : Except Error (Bytes × Bytes) := do
  let (token, rest) ← Token.read b
  bytesFrom fuel token rest

mutual

def valueFrom : Nat → Token → Bytes → Except Error (Value × Bytes)
  | 0, _, _ => .error .endOfStream
  | fuel + 1, token, rest =>
    match token with
    | .integer n => .ok (.integer n, rest)
    | .bytes b => .ok (.bytes b, rest)
    | .list => do
      let (items, rest) ← readItems fuel rest
      .ok (.list items, rest)
    | .dict => do
      let (entries, rest) ← readEntries fuel [] rest
      .ok (.dict entries, rest)
    | .stop => .error .endOfStream

def readItems : Nat → Bytes → Except Error (List Value × Bytes)
  | 0, _ => .error .endOfStream
  | fuel + 1, b => do
    let (token, rest) ← Token.read b
    match token with
    | .stop => .ok ([], rest)
    | token =>
      let (item, rest) ← valueFrom fuel token rest
      let (items, rest) ← readItems fuel rest
      .ok (item :: items, rest)

/-- The entries up to the end of a dictionary, added to `entries`; of equal keys the last wins. -/
def readEntries : Nat → List (Bytes × Value) → Bytes →
    Except Error (List (Bytes × Value) × Bytes)
  | 0, _, _ => .error .endOfStream
  | fuel + 1, entries, b => do
    let (token, rest) ← Token.read b
    match token with
    | .stop => .ok (entries, rest)
    | token =>
      let (key, rest) ← bytesFrom fuel token rest
      let (token, rest) ← Token.read rest
      let (value, rest) ← valueFrom fuel token rest
      readEntries fuel (Value.insert key value entries) rest

end

def readValue (b : Bytes) : Except Error (Value × Bytes) := do
  let (token, rest) ← Token.read b
  valueFrom (fuelFor b) token rest

mutual

def skipFrom : Nat → Token → Bytes → Except Error Bytes
  | 0, _, _ => .error .endOfStream
  | fuel + 1, token, rest =>
    match token with
    | .integer _ => .ok rest
    | .bytes _ => .ok rest
    | .list => skipItems fuel rest
    | .dict => skipEntries fuel rest
    | .stop => .error .endOfStream

def skipItems : Nat → Bytes → Except Error Bytes
  | 0, _ => .error .endOfStream
  | fuel + 1, b => do
    let (token, rest) ← Token.read b
    match token with
    | .stop => .ok rest
    | token => skipItems fuel (← skipFrom fuel token rest)

/-- Passes over the rest of a dictionary, whatever its keys are. -/
def skipEntries : Nat → Bytes → Except Error Bytes
  | 0, _ => .error .endOfStream
  | fuel + 1, b => do
    let (token, rest) ← Token.read b
    match token with
    | .stop => .ok rest
    | token =>
      let rest ← skipFrom fuel token rest
      let (token, rest) ← Token.read rest
      skipEntries fuel (← skipFrom fuel token rest)

end

def skipValue (fuel : Nat) (b : Bytes) : Except Error Bytes := do
  let (token, rest) ← Token.read b
  skipFrom fuel token rest

/-- The items up to the end of a list, each read by `item`. -/
def readItemsWith {α : Type} (item : Nat → Bytes → Except Error (α × Bytes)) :
    Nat → Bytes → Except Error (List α × Bytes)
  | 0, _ => .error .endOfStream
  | fuel + 1, b => do
    let (token, rest) ← Token.read b
    match token with
    | .stop => .ok ([], rest)
    | _ =>
      let (x, rest) ← item fuel b
      let (xs, rest) ← readItemsWith item fuel rest
      .ok (x :: xs, rest)

def readListWith {α : Type} (item : Nat → Bytes → Except Error (α × Bytes)) (fuel : Nat)
    (b : Bytes) : Except Error (List α × Bytes) := do
  let (token, rest) ← Token.read b
  match token with
  | .list => readItemsWith item fuel rest
  | other => .error (other.mismatch .sequence)

/-- A known field of a record: its key, whether a draft of the record holds it already, how its
value is read into the draft, and whether a list of values may end where it should stand. -/
structure KnownField (δ : Type) where
  key : String
  isGiven : δ → Bool
  read : Nat → δ → Bytes → Except Error (δ × Bytes)
  hasDefault : Bool := false

/-- The fields up to the end of a dictionary, read into a draft. A known key may stand only once;
the values of other keys are passed over. -/
def readFields {δ : Type} (fields : List (KnownField δ)) :
    Nat → δ → Bytes → Except Error (δ × Bytes)
  | 0, _, _ => .error .endOfStream
  | fuel + 1, draft, b => do
    let (token, rest) ← Token.read b
    match token with
    | .stop => .ok (draft, rest)
    | token =>
      let key ← token.text
      match fields.find? fun f => f.key == key with
      | some field =>
        if field.isGiven draft then .error (.duplicateField key)
        else
          let (draft, rest) ← field.read fuel draft rest
          readFields fields fuel draft rest
      | none => readFields fields fuel draft (← skipValue fuel rest)

/-- The fields of a record of `size` fields from the one at `place` on, as the values of a list in
this order. Where a field with a default should stand the list may end; what the input goes on with
is taken for the next field nevertheless. Nothing is read behind the last field, not even the end of
the list. -/
def readPlaces {δ : Type} (name : String) (size fuel : Nat) :
    Nat → List (KnownField δ) → δ → Bytes → Except Error (δ × Bytes)
  | _, [], draft, b => .ok (draft, b)
  | place, field :: fields, draft, b => do
    let (token, rest) ← Token.read b
    match token with
    | .stop =>
      if field.hasDefault then readPlaces name size fuel (place + 1) fields draft rest
      else .error (.wrongLength place name size)
    | _ =>
      let (draft, rest) ← field.read fuel draft b
      readPlaces name size fuel (place + 1) fields draft rest

/-- A dictionary with known fields, or a list of their values, read into a draft that starts as
`blank`. -/
def readRecord {δ : Type} (name : String) (fields : List (KnownField δ)) (blank : δ) (fuel : Nat)
    (b : Bytes) : Except Error (δ × Bytes) := do
  let (token, rest) ← Token.read b
  match token with
  | .dict => readFields fields fuel blank rest
  | .list => readPlaces name fields.length fuel 0 fields blank rest
  | other => .error (other.mismatch (.record name))

/-- The value of a field that must be there. -/
def require {α : Type} (key : String) : Option α → Except Error α
  | some x => .ok x
  | none => .error (.missingField key)

end TorrentEngine.Bencode
