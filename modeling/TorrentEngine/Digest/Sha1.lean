import TorrentEngine.Digest

/-!
The SHA-1 function of FIPS 180-4. A message is padded to whole blocks of sixty-four bytes, and the
blocks are folded one after the other into a state of five words.
-/

namespace TorrentEngine.Sha1

/-- The five words that the blocks are folded into. -/
structure State where
  a : UInt32
  b : UInt32
  c : UInt32
  d : UInt32
  e : UInt32

def State.initial : State := ⟨0x67452301, 0xEFCDAB89, 0x98BADCFE, 0x10325476, 0xC3D2E1F0⟩

def State.add (s t : State) : State := ⟨s.a + t.a, s.b + t.b, s.c + t.c, s.d + t.d, s.e + t.e⟩

def rotate (x n : UInt32) : UInt32 := (x <<< n) ||| (x >>> (32 - n))

def mix (t : Nat) (b c d : UInt32) : UInt32 × UInt32 :=
  if t < 20 then ((b &&& c) ||| (~~~b &&& d), 0x5A827999)
  else if t < 40 then (b ^^^ c ^^^ d, 0x6ED9EBA1)
  else if t < 60 then ((b &&& c) ||| (b &&& d) ||| (c &&& d), 0x8F1BBCDC)
  else (b ^^^ c ^^^ d, 0xCA62C1D6)

def State.round (s : State) (t : Nat) (w : UInt32) : State :=
  let (f, k) := mix t s.b s.c s.d
  ⟨rotate s.a 5 + f + s.e + k + w, s.a, rotate s.b 30, s.c, s.d⟩

/-- The word that four bytes spell, the first of them highest. -/
def word (b : Bytes) : UInt32 := b.foldl (fun w x => (w <<< 8) ||| x.toUInt32) 0

def words (block : Bytes) : Array UInt32 :=
  (Array.range 16).map fun i => word (Bytes.slice block (4 * i) 4)

/-- The eighty words of the schedule: those of the block, then each from four earlier ones. -/
def schedule (block : Bytes) : Array UInt32 :=
  (List.range 64).foldl (fun w i =>
    w.push (rotate (w.getD (i + 13) 0 ^^^ w.getD (i + 8) 0 ^^^ w.getD (i + 2) 0 ^^^ w.getD i 0) 1))
    (words block)

def State.block (s : State) (block : Bytes) : State :=
  let w := schedule block
  s.add ((List.range 80).foldl (fun s t => s.round t (w.getD t 0)) s)

/-- `n` blocks from the front of `b` folded into the state. -/
def State.blocks (s : State) : Nat → Bytes → State
  | 0, _ => s
  | n + 1, b => State.blocks (s.block (b.take 64)) n (b.drop 64)

/-- The `count` low bytes of `n`, the highest first. -/
def bigEndian (count n : Nat) : Bytes :=
  (List.range count).reverse.map fun i => UInt8.ofNat (n >>> (8 * i))

/-- The message, a one bit, zeros, and the length in bits as eight bytes: whole blocks. -/
def pad (m : Bytes) : Bytes :=
  m ++ [0x80] ++ List.replicate ((119 - m.length % 64) % 64) 0 ++ bigEndian 8 (8 * m.length)

end TorrentEngine.Sha1

namespace TorrentEngine

def sha1 (m : Bytes) : Digest :=
  let padded := Sha1.pad m
  let s := Sha1.State.initial.blocks (padded.length / 64) padded
  Digest.ofBytes ([s.a, s.b, s.c, s.d, s.e].flatMap fun w => Sha1.bigEndian 4 w.toNat)

end TorrentEngine
