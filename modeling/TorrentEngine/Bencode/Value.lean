import TorrentEngine.Text.Decimal

/-!
Bencoded values and their one written form. The keys of a dictionary are kept in the order of their
bytes, so that printing needs no further choice.
-/

namespace TorrentEngine.Bencode

/-- A bencoded value. -/
inductive Value
  | integer (n : Int)
  | bytes (b : Bytes)
  | list (items : List Value)
  | dict (entries : List (Bytes × Value))

namespace Value

/-- `entries` with `value` under `key`, replacing what stood there, keys in the order of their
bytes. -/
def insert (key : Bytes) (value : Value) : List (Bytes × Value) → List (Bytes × Value)
  | [] => [(key, value)]
  | (k, v) :: rest =>
    if key = k then (key, value) :: rest
    else if key < k then (key, value) :: (k, v) :: rest
    else (k, v) :: insert key value rest

def lookup (key : Bytes) (entries : List (Bytes × Value)) : Option Value :=
  (entries.find? fun e => e.1 = key).map (·.2)

/-- A byte string in its written form: its length, a colon, its bytes. -/
def printBytes (b : Bytes) : Bytes := Decimal.digits b.length ++ 58 :: b

mutual

def print : Value → Bytes
  | .integer n => 105 :: Decimal.ofInt n ++ [101]
  | .bytes b => printBytes b
  | .list items => 108 :: printItems items ++ [101]
  | .dict entries => 100 :: printEntries entries ++ [101]

/-- The written forms of the items of a list, one after the other. -/
def printItems : List Value → Bytes
  | [] => []
  | v :: rest => v.print ++ printItems rest

/-- The written forms of the entries of a dictionary, each key before its value. -/
def printEntries : List (Bytes × Value) → Bytes
  | [] => []
  | (k, v) :: rest => printBytes k ++ v.print ++ printEntries rest

end

end Value

end TorrentEngine.Bencode
