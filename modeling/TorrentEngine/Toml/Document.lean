/-!
TOML documents. A document is a tree of tables and values, kept flat: what stands at each place,
where a place is the keys, and numbers in arrays of tables, on the way from the root. Tables come to
be by headers, by dotted keys, or on the way to another table, and each way has its own rule about
coming back to a table that is there already.
-/

namespace TorrentEngine.Toml

/-- A value. Of floats, moments, arrays and tables only the kind is kept. -/
inductive Value
  | text (s : String)
  | integer (n : Int)
  | boolean (b : Bool)
  | float
  | moment
  | array
  | table
  deriving DecidableEq, Repr

/-- A step on the way to a place. -/
inductive Step
  | key (k : String)
  | number (n : Nat)
  deriving DecidableEq, Repr

/-- A place: the steps from the root. -/
abbrev Spot := List Step

/-- What stands at a place: a value, a table, or so many tables in a row. A table that only came to
be on the way is implicit, one that came to be by a dotted key is dotted. -/
inductive Node
  | leaf (v : Value)
  | table (isImplicit isDotted : Bool)
  | tables (count : Nat)
  deriving DecidableEq, Repr

/-- What stands at each place. -/
structure Document where
  nodes : List (Spot × Node) := []
  deriving Repr

namespace Document

def node? (d : Document) (spot : Spot) : Option Node :=
  if spot.isEmpty then some (.table false false) else (d.nodes.find? (·.1 = spot)).map (·.2)

def put (d : Document) (spot : Spot) (n : Node) : Document :=
  { nodes := d.nodes.filter (·.1 ≠ spot) ++ [(spot, n)] }

/-- Follows keys down from a place, making the tables that are missing. An array of tables leads to
its last one. Dotted keys do not come back to a table with a header. -/
def descend (isDotted : Bool) : Document → Spot → List String → Option (Document × Spot)
  | d, spot, [] => some (d, spot)
  | d, spot, k :: rest =>
    let below := spot ++ [.key k]
    match d.node? below with
    | none => descend isDotted (d.put below (.table true isDotted)) below rest
    | some (.leaf _) => none
    | some (.tables n) => descend isDotted d (below ++ [.number (n - 1)]) rest
    | some (.table isImplicit _) =>
      if isDotted && !isImplicit then none else descend isDotted d below rest

/-- Whether a place holds a table that came to be by a dotted key. -/
def isDottedAt (d : Document) (spot : Spot) : Bool :=
  match d.node? spot with
  | some (.table _ isDotted) => isDotted
  | _ => false

/-- Gives a key below a place its value. A key has one value, and dotted keys go on only with tables
that came to be by dotted keys. -/
def addValue (d : Document) (spot : Spot) (keys : List String) (v : Value) : Option Document := do
  let (d, table) ← descend true d spot keys.dropLast
  let last ← keys.getLast?
  if d.isDottedAt table = keys.dropLast.isEmpty then none
  else
    match d.node? (table ++ [.key last]) with
    | none => some (d.put (table ++ [.key last]) (.leaf v))
    | some _ => none

/-- Opens the table of a header, and gives its place. Only a table that came to be on the way to
another may be opened later. -/
def openTable (d : Document) (keys : List String) : Option (Document × Spot) := do
  let (d, parent) ← descend false d [] keys.dropLast
  let spot := parent ++ [.key (← keys.getLast?)]
  match d.node? spot with
  | none => some (d.put spot (.table false false), spot)
  | some (.table true false) => some (d.put spot (.table false false), spot)
  | some _ => none

/-- Opens one more table of an array of tables, and gives its place. -/
def openNextTable (d : Document) (keys : List String) : Option (Document × Spot) := do
  let (d, parent) ← descend false d [] keys.dropLast
  let spot := parent ++ [.key (← keys.getLast?)]
  let n ← match d.node? spot with
    | none => some 0
    | some (.tables n) => some n
    | some _ => none
  let spot' := spot ++ [.number n]
  return ((d.put spot (.tables (n + 1))).put spot' (.table false false), spot')

def Node.value : Node → Value
  | .leaf v => v
  | .table .. => .table
  | .tables _ => .array

def value? (d : Document) (k : String) : Option Value := (d.node? [.key k]).map Node.value

end Document

end TorrentEngine.Toml
