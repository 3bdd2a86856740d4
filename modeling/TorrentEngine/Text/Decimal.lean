import TorrentEngine.Bytes

/-!
Decimal numerals as byte strings. Numbers are written without leading zeros; reading allows them,
and for integers also one leading sign.
-/

namespace TorrentEngine.Decimal

def digit (n : Nat) : UInt8 := UInt8.ofNat (48 + n)

/-- The numeral of a natural number, highest digit first. -/
def digits (n : Nat) : Bytes :=
  if n < 10 then [digit n] else digits (n / 10) ++ [digit (n % 10)]

/-- The numeral of an integer: a minus sign only where it is negative. -/
def ofInt (i : Int) : Bytes :=
  if i < 0 then 45 :: digits i.natAbs else digits i.natAbs

def isDigit (b : UInt8) : Bool := 48 ≤ b && b ≤ 57

/-- The number that a non-empty string of digits spells. -/
def nat? (b : Bytes) : Option Nat :=
  if b.isEmpty then none
  else if b.all isDigit then some (b.foldl (fun n x => 10 * n + (x.toNat - 48)) 0)
  else none

/-- The integer that digits after at most one sign spell. -/
def int? : Bytes → Option Int
  | 43 :: rest => (nat? rest).map Int.ofNat
  | 45 :: rest => (nat? rest).map fun n => -Int.ofNat n
  | b => (nat? b).map Int.ofNat

end TorrentEngine.Decimal
