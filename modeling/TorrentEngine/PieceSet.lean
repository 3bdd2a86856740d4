import TorrentEngine.Bytes

/-!
Sets of piece indices, kept in ascending order so that equal sets are equal values. A set is built
one piece at a time, or at once from a bitfield as peers send it.
-/

namespace TorrentEngine

/-- A finite set of piece indices in ascending order. -/
structure PieceSet where
  members : List Nat := []
  ascending : members.Pairwise (· < ·) := by exact List.Pairwise.nil

namespace PieceSet

def empty : PieceSet := {}

/-- Whether a piece is in the set. -/
def contains (s : PieceSet) (i : Nat) : Bool := s.members.contains i

def isEmpty (s : PieceSet) : Bool := s.members.isEmpty

/-- An ascending list with `i` at its place. -/
def insertAscending (i : Nat) : List Nat → List Nat
  | [] => [i]
  | j :: rest =>
    if i < j then i :: j :: rest
    else if i = j then j :: rest
    else j :: insertAscending i rest

theorem mem_insertAscending {i k : Nat} {l : List Nat} :
    k ∈ insertAscending i l ↔ k = i ∨ k ∈ l := by
  induction l with
  | nil => simp [insertAscending]
  | cons j rest ih =>
    simp only [insertAscending]
    split
    · simp
    · split
      · next h => simp [h]
      · simp only [List.mem_cons, ih]
        constructor
        · rintro (h | h | h) <;> simp [h]
        · rintro (h | h | h) <;> simp [h]

theorem insertAscending_ascending {i : Nat} {l : List Nat} (h : l.Pairwise (· < ·)) :
    (insertAscending i l).Pairwise (· < ·) := by
  induction l with
  | nil => simp [insertAscending]
  | cons j rest ih =>
    have hj {k : Nat} (hk : k ∈ rest) : j < k := List.rel_of_pairwise_cons h hk
    have hrest := List.Pairwise.of_cons h
    simp only [insertAscending]
    split
    · next hij =>
      refine List.Pairwise.cons ?_ h
      intro k hk
      rcases List.mem_cons.mp hk with rfl | hk
      · exact hij
      · exact Nat.lt_trans hij (hj hk)
    · split
      · exact h
      · refine List.Pairwise.cons ?_ (ih hrest)
        intro k hk
        rcases mem_insertAscending.mp hk with rfl | hk
        · omega
        · exact hj hk

def insert (s : PieceSet) (i : Nat) : PieceSet :=
  ⟨insertAscending i s.members, insertAscending_ascending s.ascending⟩

def ofList (pieces : List Nat) : PieceSet := pieces.foldl insert empty

/-- The bits of a byte, the most significant one first. -/
def bitsOfByte (b : UInt8) : List Bool := (List.range 8).map fun k => b.toNat.testBit (7 - k)

/-- The bits of a bitfield with their positions, as far as they are set and below the number of
pieces where that is known. -/
def setBits (bitfield : Bytes) (pieceCount : Option Nat) : List (Bool × Nat) :=
  (bitfield.flatMap bitsOfByte).zipIdx.filter fun bit => bit.1 && pieceCount.all (bit.2 < ·)

theorem setBits_ascending (bitfield : Bytes) (pieceCount : Option Nat) :
    ((setBits bitfield pieceCount).map (·.2)).Pairwise (· < ·) := by
  have h : ((bitfield.flatMap bitsOfByte).zipIdx.map (·.2)).Pairwise (· < ·) := by
    rw [List.zipIdx_map_snd]
    exact List.pairwise_lt_range'
  exact h.sublist (List.filter_sublist.map _)

/-- The set that a bitfield spells: its bits in order, the most significant of each byte first. Bits
at or past the number of pieces, where that is known, are padding. -/
def ofBitfield (bitfield : Bytes) (pieceCount : Option Nat) : PieceSet :=
  ⟨(setBits bitfield pieceCount).map (·.2), setBits_ascending bitfield pieceCount⟩

end PieceSet

end TorrentEngine
