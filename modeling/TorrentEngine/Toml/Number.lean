import TorrentEngine.Toml.Text

/-!
Numbers and moments in TOML. Integers are decimal with an optional sign, or hexadecimal, octal or
binary without one; floats have a fraction or an exponent; moments are dates, times of day, or both.
Underscores may stand between digits.
-/

namespace TorrentEngine.Toml.Number

def isDigit (c : Char) : Bool := decide ('0' ≤ c ∧ c ≤ '9')

/-- The digits that go on a run, and what follows them. -/
def moreDigits (p : Char → Bool) : List Char → List Char × List Char
  | '_' :: c :: rest =>
    if p c then
      let (digits, rest) := moreDigits p rest
      (c :: digits, rest)
    else ([], '_' :: c :: rest)
  | c :: rest =>
    if p c then
      let (digits, rest) := moreDigits p rest
      (c :: digits, rest)
    else ([], c :: rest)
  | [] => ([], [])

def digits? (p : Char → Bool) : List Char → Option (List Char × List Char)
  | c :: rest =>
    if p c then
      let (digits, rest) := moreDigits p rest
      some (c :: digits, rest)
    else none
  | [] => none

def value (base : Nat) (digits : List Char) : Nat :=
  digits.foldl (fun n c => base * n + (Text.hexValue? c).getD 0) 0

/-- An optional sign: whether it is a minus, and what follows. -/
def sign : List Char → Bool × List Char
  | '+' :: rest => (false, rest)
  | '-' :: rest => (true, rest)
  | cs => (false, cs)

/-- Digits of a decimal number, which begins with a zero only where it is zero. -/
def wholePart? : List Char → Option (List Char × List Char)
  | '0' :: rest => some (['0'], rest)
  | cs => digits? isDigit cs

/-! ## Integers -/

def inRange (n : Int) : Option Int :=
  if -0x8000000000000000 ≤ n ∧ n < 0x8000000000000000 then some n else none

/-- An integer in a base, without sign. -/
def readBased (base : Nat) (p : Char → Bool) (cs : List Char) : Option (Int × List Char) := do
  let (digits, rest) ← digits? p cs
  return (← inRange (value base digits), rest)

def readInteger : List Char → Option (Int × List Char)
  | '0' :: 'x' :: rest => readBased 16 (fun c => (Text.hexValue? c).isSome) rest
  | '0' :: 'o' :: rest => readBased 8 (fun c => decide ('0' ≤ c ∧ c ≤ '7')) rest
  | '0' :: 'b' :: rest => readBased 2 (fun c => c == '0' || c == '1') rest
  | cs => do
    let (isNegative, rest) := sign cs
    let (digits, rest) ← wholePart? rest
    let n : Int := value 10 digits
    return (← inRange (if isNegative then -n else n), rest)

/-! ## Floats -/

def fraction? : List Char → Option (List Char × List Char)
  | '.' :: rest => digits? isDigit rest
  | _ => none

def exponent? : List Char → Option (Int × List Char)
  | c :: rest =>
    if c == 'e' || c == 'E' then do
      let (isNegative, rest) := sign rest
      let (digits, rest) ← digits? isDigit rest
      let n : Int := value 10 digits
      return (if isNegative then -n else n, rest)
    else none
  | [] => none

/-- The least number that is nearer to infinity than to any double. -/
def overflowBound : Nat := Nat.pow 2 1024 - Nat.pow 2 970

/-- Whether `m` times ten to the power `e` is too large for a double. -/
def overflows (m : Nat) (e : Int) : Bool :=
  let magnitude := (Nat.toDigits 10 m).length + e
  if m = 0 ∨ magnitude < 309 then false
  else if 309 < magnitude then true
  else decide (overflowBound * Nat.pow 10 (-e).toNat ≤ m * Nat.pow 10 e.toNat)

/-- What follows the name of an infinity or of no number. -/
def afterSpecial? : List Char → Option (List Char)
  | 'i' :: 'n' :: 'f' :: rest => some rest
  | 'n' :: 'a' :: 'n' :: rest => some rest
  | _ => none

/-- What follows a float. A positive one must not be too large. -/
def afterFloat? (cs : List Char) : Option (List Char) :=
  let (isNegative, rest) := sign cs
  match afterSpecial? rest with
  | some rest => some rest
  | none => do
    let (whole, rest) ← wholePart? rest
    let (digits, e, rest) ← match fraction? rest with
      | some (digits, rest) =>
        match exponent? rest with
        | some (e, rest) => some (digits, e, rest)
        | none => some (digits, 0, rest)
      | none => (exponent? rest).map fun (e, rest) => ([], e, rest)
    if !isNegative && overflows (value 10 (whole ++ digits)) (e - digits.length) then none
    else some rest

/-! ## Moments -/

def fixed? (n low high : Nat) (cs : List Char) : Option (Nat × List Char) :=
  let digits := cs.take n
  let v := value 10 digits
  if digits.length = n ∧ digits.all isDigit ∧ low ≤ v ∧ v ≤ high then some (v, cs.drop n) else none

def after? (c : Char) : List Char → Option (List Char)
  | d :: rest => if d = c then some rest else none
  | [] => none

def daysIn (year month : Nat) : Nat :=
  if month = 2 then
    if year % 4 = 0 ∧ (year % 100 ≠ 0 ∨ year % 400 = 0) then 29 else 28
  else if [4, 6, 9, 11].contains month then 30
  else 31

def afterDate? (cs : List Char) : Option (List Char) := do
  let (year, rest) ← fixed? 4 0 9999 cs
  let (month, rest) ← fixed? 2 1 12 (← after? '-' rest)
  let (_, rest) ← fixed? 2 1 (daysIn year month) (← after? '-' rest)
  return rest

def afterTime? (cs : List Char) : Option (List Char) := do
  let (_, rest) ← fixed? 2 0 23 cs
  let (_, rest) ← fixed? 2 0 59 (← after? ':' rest)
  let (_, rest) ← fixed? 2 0 60 (← after? ':' rest)
  match rest with
  | '.' :: fraction =>
    if (fraction.takeWhile isDigit).isEmpty then return rest
    else return fraction.dropWhile isDigit
  | _ => return rest

/-- What follows an optional offset from universal time. -/
def afterOffset (cs : List Char) : List Char :=
  match cs with
  | 'Z' :: rest => rest
  | 'z' :: rest => rest
  | c :: rest =>
    if c == '+' || c == '-' then
      let offset := do
        let (_, rest) ← fixed? 2 0 23 rest
        let (_, rest) ← fixed? 2 0 59 (← after? ':' rest)
        return rest
      offset.getD cs
    else cs
  | [] => []

def afterMoment? (cs : List Char) : Option (List Char) :=
  match afterDate? cs with
  | none => afterTime? cs
  | some rest =>
    match rest with
    | c :: more =>
      if c == 'T' || c == 't' || c == ' ' then some (((afterTime? more).map afterOffset).getD rest)
      else some rest
    | [] => some rest

end TorrentEngine.Toml.Number
