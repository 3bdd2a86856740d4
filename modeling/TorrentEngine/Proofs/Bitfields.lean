import TorrentEngine.Proofs.Claims

/-!
Bitfields. The first bit of a bitfield is the most significant one of its first byte. Bit for bit
in this order it says which pieces a peer has, as far as there are pieces, and it says so anew:
nothing that was known of the peer's pieces before is left.
-/

namespace TorrentEngine

/-- Whether a bitfield names a piece: it has a bit for the piece, the bit is set, and the piece is
one of those that there are, if their number is known. -/
structure PieceSet.Names (bits : Bytes) (count : Option Nat) (i : Nat) : Prop where
  inside : i < 8 * bits.length
  isSet : ∃ byte, bits[i / 8]? = some byte ∧ byte.toNat.testBit (7 - i % 8) = true
  counts : ∀ n, count = some n → i < n

namespace PieceSet

variable {bits : Bytes} {count : Option Nat} {i : Nat}

theorem getElem?_bitsOfByte (byte : UInt8) {k : Nat} (hk : k < 8) :
    (bitsOfByte byte)[k]? = some (byte.toNat.testBit (7 - k)) := by
  rw [bitsOfByte, List.getElem?_map, List.getElem?_range hk]
  rfl

/-- The bits of a bitfield in their order. -/
theorem getElem?_bits (bits : Bytes) (i : Nat) :
    (bits.flatMap bitsOfByte)[i]? =
      bits[i / 8]?.map fun byte => byte.toNat.testBit (7 - i % 8) := by
  induction bits generalizing i with
  | nil => rfl
  | cons byte rest ih =>
    -- The first eight bits are those of the first byte, and the others start anew behind them.
    have hLength : (bitsOfByte byte).length = 8 := rfl
    rw [List.flatMap_cons]
    by_cases hFirst : i < 8
    · rw [List.getElem?_append_left (by omega), getElem?_bitsOfByte byte hFirst,
        Nat.div_eq_of_lt hFirst, Nat.mod_eq_of_lt hFirst]
      rfl
    · have hDiv : i / 8 = (i - 8) / 8 + 1 := by omega
      have hMod : (i - 8) % 8 = i % 8 := by omega
      rw [List.getElem?_append_right (by omega), hLength, ih, hMod, hDiv, List.getElem?_cons_succ]

theorem mem_setBits {bit : Bool} : (bit, i) ∈ setBits bits count ↔
    (bits.flatMap bitsOfByte)[i]? = some bit ∧ bit = true ∧ ∀ n, count = some n → i < n := by
  rw [setBits, List.mem_filter, List.mk_mem_zipIdx_iff_getElem?, Bool.and_eq_true]
  cases count <;> simp

/-- The set that a bitfield spells has just the pieces that it names. -/
theorem contains_ofBitfield :
    (ofBitfield bits count).contains i = true ↔ Names bits count i := by
  have hMem : (ofBitfield bits count).contains i = true ↔ ∃ bit, (bit, i) ∈ setBits bits count := by
    simp [contains, ofBitfield]
  rw [hMem]
  constructor
  · rintro ⟨bit, hBit⟩
    obtain ⟨hAt, rfl, hCounts⟩ := mem_setBits.mp hBit
    rw [getElem?_bits] at hAt
    obtain ⟨byte, hByte, hSet⟩ := Option.map_eq_some_iff.mp hAt
    have hInside : i / 8 < bits.length := (List.getElem?_eq_some_iff.mp hByte).1
    exact ⟨by omega, ⟨byte, hByte, hSet⟩, hCounts⟩
  · rintro ⟨-, ⟨byte, hByte, hSet⟩, hCounts⟩
    refine ⟨true, mem_setBits.mpr ⟨?_, rfl, hCounts⟩⟩
    rw [getElem?_bits, hByte, Option.map_some, hSet]

end PieceSet

/-- A bitfield from a connected peer is learned with the number of pieces of the content, where
that is known, and concerns no other peer. -/
theorem Download.handle_bitfield (d : Download) (now : Time) (id k : PeerId) (bits : Bytes) :
    (d.handle now (.bitfield id bits)).1.peers.find? k =
      if k = id then
        (d.peers.find? k).map
          (·.learnBitfield bits ((d.fileSet.filter (·.kind = .data)).map (·.pieceCount)))
      else d.peers.find? k :=
  Roster.find?_update d.peers id k _

/-- After a bitfield of fewer than `2 ^ 29` bytes a peer has just the pieces that the bitfield
names, whatever it had before; their places fit into words of thirty-two bits. Earlier bitfields,
the same one among them, make no difference. That is what happens to a connected peer when a
bitfield comes from it. -/
theorem Peer.learnBitfield_exact (p : Peer) {bits : Bytes} (hSize : bits.length < 2 ^ 29)
    (count : Option Nat) :
    (∀ i, (p.learnBitfield bits count).hasPiece i = true ↔ PieceSet.Names bits count i) ∧
      (∀ i, (p.learnBitfield bits count).hasPiece i = true → i < 2 ^ 32) ∧
      (∀ earlier : List (Bytes × Option Nat),
        (earlier.foldl (fun q e => q.learnBitfield e.1 e.2) p).learnBitfield bits count =
          p.learnBitfield bits count) ∧
      ∀ (d : Download) (now : Time) (id : PeerId), d.peers.find? id = some p →
        (d.fileSet.filter (·.kind = .data)).map (·.pieceCount) = count →
        (d.handle now (.bitfield id bits)).1.peers.find? id =
          some (p.learnBitfield bits count) := by
  have hNames (i : Nat) :
      (p.learnBitfield bits count).hasPiece i = true ↔ PieceSet.Names bits count i :=
    PieceSet.contains_ofBitfield
  refine ⟨hNames, fun i hHas => ?_, fun earlier => ?_, fun d now id hp hCount => ?_⟩
  · have := ((hNames i).mp hHas).inside
    omega
  · induction earlier generalizing p with
    | nil => rfl
    | cons e earlier ih =>
      rw [List.foldl_cons, ih (p.learnBitfield e.1 e.2) fun i => PieceSet.contains_ofBitfield]
      rfl
  · rw [Download.handle_bitfield, if_pos rfl, hp, hCount]
    rfl

/-- Of the bits 0, 2 and 15 the last one is past the end of ten pieces. -/
theorem Peer.learnBitfield_exact_spareBit :
    ([0xa0, 0x01] : Bytes).length < 2 ^ 29 ∧
      ((Peer.connected 0 4).learnBitfield [0xa0, 0x01] (some 10)).hasPiece 2 = true ∧
      ((Peer.connected 0 4).learnBitfield [0xa0, 0x01] (some 10)).hasPiece 15 ≠ true := by
  have hSize : ([0xa0, 0x01] : Bytes).length < 2 ^ 29 := by decide
  obtain ⟨hNames, -⟩ := Peer.learnBitfield_exact (Peer.connected 0 4) hSize (some 10)
  refine ⟨hSize, (hNames 2).mpr ⟨by decide, ⟨0xa0, rfl, by decide⟩, ?_⟩, fun hHas => ?_⟩
  · intro n hn
    obtain rfl := Option.some.inj hn
    decide
  · exact absurd (((hNames 15).mp hHas).counts 10 rfl) (by decide)

end TorrentEngine
