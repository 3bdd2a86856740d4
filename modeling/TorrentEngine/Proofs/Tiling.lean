import Mathlib.Algebra.Order.Floor.Div
import TorrentEngine.Proofs.Cuts

/-!
Pieces and blocks tile a content. `FileSet.Tiles` says that every byte of the content is in one
block and that places, offsets and indices agree. The numbers that a division into pieces and
blocks goes through are kept in words of 32 and 64 bits: the functions here whose names end in a
question mark compute in such words and give nothing where a word overflows.
-/

namespace TorrentEngine

/-! ### Words -/

namespace Word

/-- `n` as a word of `width` bits. -/
def ofNat? (width n : Nat) : Option Nat := if n < 2 ^ width then some n else none

def add? (width a b : Nat) : Option Nat := ofNat? width (a + b)

def mul? (width a b : Nat) : Option Nat := ofNat? width (a * b)

/-- A difference of words without a sign. -/
def sub? (a b : Nat) : Option Nat := if b ≤ a then some (a - b) else none

/-- A quotient rounded up: rounded down, and one more if there is a remainder. -/
def divCeil? (width a b : Nat) : Option Nat :=
  if b = 0 then none
  else if a % b = 0 then some (a / b)
  else add? width (a / b) 1

variable {width a b : Nat}

theorem ofNat?_of_lt (h : a < 2 ^ width) : ofNat? width a = some a := if_pos h

theorem add?_of_lt (h : a + b < 2 ^ width) : add? width a b = some (a + b) := if_pos h

theorem mul?_of_lt (h : a * b < 2 ^ width) : mul? width a b = some (a * b) := if_pos h

theorem sub?_of_le (h : b ≤ a) : sub? a b = some (a - b) := if_pos h

theorem divCeil?_eq (hb : 0 < b) (ha : a < 2 ^ width) :
    divCeil? width a b = some (partCount a b) := by
  have hSplit := Nat.div_add_mod' a b
  have hRest := Nat.mod_lt a hb
  rw [divCeil?, if_neg (by omega), partCount]
  split
  · have hCount : (a + b - 1) / b = a / b := by
      apply Nat.div_eq_of_lt_le
      · omega
      · rw [Nat.add_mul]
        omega
    rw [hCount]
  · next hSome =>
    have hCount : (a + b - 1) / b = a / b + 1 := by
      apply Nat.div_eq_of_lt_le
      · rw [Nat.add_mul]
        omega
      · rw [Nat.add_mul, Nat.add_mul]
        omega
    -- With a remainder the divisor is not one, so that the quotient has room to grow.
    have hOne : b ≠ 1 := by
      rintro rfl
      exact hSome (Nat.mod_one a)
    have hPos : 0 < a := by
      apply Nat.pos_of_ne_zero
      rintro rfl
      exact hSome (Nat.zero_mod b)
    have hLess : a / b < a := Nat.div_lt_self hPos (by omega)
    rw [hCount]
    exact add?_of_lt (by omega)

end Word

/-- A traversal that succeeds at every element is a map. -/
theorem mapM_eq_some {α β : Type} {f : α → Option β} {g : α → β} :
    ∀ {l : List α}, (∀ a ∈ l, f a = some (g a)) → l.mapM f = some (l.map g)
  | [], _ => rfl
  | a :: l, h => by
    have hRest : l.mapM f = some (l.map g) :=
      mapM_eq_some fun b hb => h b (List.mem_cons_of_mem _ hb)
    rw [List.mapM_cons, h a List.mem_cons_self, hRest]
    rfl

namespace Piece

/-- `Piece.fresh` in words of 32 bits. -/
def fresh? (index length : Nat) (digest : Digest) (blockSize : Nat) : Option Piece := do
  let size := max blockSize 1
  let count ← Word.divCeil? 32 length size
  let blocks ← (List.range count).mapM fun i => do
    let start ← Word.mul? 32 i size
    let rest ← Word.sub? length start
    return { index := i, size := min size rest, status := .needed }
  return { index, length, digest, blockSize := size, blocks, mismatchCursor := 0 }

/-- `Piece.blockOffset` in words of 32 bits. -/
def blockOffset? (p : Piece) (b : Nat) : Option Nat := Word.mul? 32 b p.blockSize

theorem fresh?_eq {index length : Nat} (digest : Digest) (blockSize : Nat)
    (hLength : length < 2 ^ 32) :
    fresh? index length digest blockSize = some (fresh index length digest blockSize) := by
  have hSize : 0 < max blockSize 1 := by omega
  have hBlocks : ((List.range (partCount length (max blockSize 1))).mapM fun i => do
      let start ← Word.mul? 32 i (max blockSize 1)
      let rest ← Word.sub? length start
      return ({ index := i, size := min (max blockSize 1) rest, status := .needed } : Block)) =
        some (fresh index length digest blockSize).blocks := by
    apply mapM_eq_some
    intro i hi
    have hStart := mul_lt_of_lt_partCount hSize (List.mem_range.mp hi)
    rw [Word.mul?_of_lt (by omega), Option.bind_eq_bind, Option.bind_some,
      Word.sub?_of_le (by omega)]
    rfl
  rw [fresh?, Word.divCeil?_eq hSize hLength]
  simp only [Option.bind_eq_bind, Option.bind_some] at hBlocks ⊢
  rw [hBlocks]
  rfl

/-- Looking a block up by its offset undoes taking its offset. -/
theorem blockIndexAt_eq_ok {p : Piece} (hSize : 0 < p.blockSize) (offset b : Nat) :
    p.blockIndexAt offset = .ok b ↔ b < p.blocks.length ∧ offset = p.blockOffset b := by
  simp only [blockIndexAt, blockOffset]
  have hSplit := Nat.div_add_mod' offset p.blockSize
  constructor
  · intro h
    split at h
    · cases h
    · next hFound =>
      obtain rfl := Except.ok.inj h
      omega
  · rintro ⟨hPlace, rfl⟩
    rw [Nat.mul_div_cancel _ hSize, Nat.mul_mod_left, if_neg (by omega)]

end Piece

namespace FileSet

/-- `FileSet.create` in words of 64 bits, with the lengths and indices of pieces in words of 32. -/
def create? (kind : FileSetKind) (pieceLength total : Nat) (digests : List Digest)
    (blockSize : Nat) (storage : Storage) : Option (Except GeometryError FileSet) :=
  if pieceLength = 0 then some (.error .zeroPieceLength)
  else do
    let expected ← Word.divCeil? 64 total pieceLength
    if expected = digests.length then
      let pieces ← digests.zipIdx.mapM fun (digest, i) => do
        let start ← Word.mul? 64 i pieceLength
        let rest ← Word.sub? total start
        let length ← Word.ofNat? 32 (min pieceLength rest)
        let index ← Word.ofNat? 32 i
        Piece.fresh? index length digest blockSize
      return .ok { kind, pieceLength, totalLength := total, pieces, storage }
    else return .error (.digestCount total expected digests.length)

/-- `FileSet.globalOffset` in words of 64 bits. -/
def globalOffset? (fs : FileSet) (i offset : Nat) : Option Nat := do
  let start ← Word.mul? 64 i fs.pieceLength
  Word.add? 64 start offset

/-- No word overflows while a content is cut. -/
theorem create?_eq (kind : FileSetKind) {pieceLength total : Nat} {digests : List Digest}
    (blockSize : Nat) (storage : Storage) (hPiece : pieceLength < 2 ^ 32) (hTotal : total < 2 ^ 64)
    (hDigests : digests.length < 2 ^ 32) :
    create? kind pieceLength total digests blockSize storage =
      some (create kind pieceLength total digests blockSize storage) := by
  by_cases hZero : pieceLength = 0
  · rw [create?, create, if_pos hZero, if_pos hZero]
  have hPos : 0 < pieceLength := by omega
  rw [create?, create, if_neg hZero, if_neg hZero, Word.divCeil?_eq hPos hTotal]
  simp only [Option.bind_eq_bind, Option.bind_some]
  split
  · next hCount =>
    have hPieces : (digests.zipIdx.mapM fun (digest, i) => do
        let start ← Word.mul? 64 i pieceLength
        let rest ← Word.sub? total start
        let length ← Word.ofNat? 32 (min pieceLength rest)
        let index ← Word.ofNat? 32 i
        Piece.fresh? index length digest blockSize) =
          some (cut pieceLength total blockSize digests) := by
      apply mapM_eq_some
      rintro ⟨digest, i⟩ hi
      have hPlace : i < digests.length := by
        have := List.mem_zipIdx hi
        omega
      have hStart : i * pieceLength < total := by
        apply mul_lt_of_lt_partCount hPos
        rw [hCount]
        exact hPlace
      simp only [Option.bind_eq_bind]
      rw [Word.mul?_of_lt (by omega), Option.bind_some, Word.sub?_of_le (by omega),
        Option.bind_some, Word.ofNat?_of_lt (by omega), Option.bind_some,
        Word.ofNat?_of_lt (by omega), Option.bind_some, Piece.fresh?_eq _ _ (by omega)]
    simp only [Option.bind_eq_bind] at hPieces
    rw [hPieces]
    rfl
  · rfl

/-! ### The tiling -/

/-- The byte at `k` of the content is one of those of the block at `place`, a piece and a block of
it. -/
def Covers (fs : FileSet) (place : Nat × Nat) (k : Nat) : Prop :=
  ∃ p block, fs.pieces[place.1]? = some p ∧ p.blocks[place.2]? = some block ∧
    fs.globalOffset place.1 0 + p.blockOffset place.2 ≤ k ∧
      k < fs.globalOffset place.1 0 + p.blockOffset place.2 + block.size

/-- The blocks of a file set make up its content without a gap or an overlap, and the places and
offsets of pieces and blocks agree. -/
structure Tiles (fs : FileSet) : Prop where
  covered_once : ∀ k < fs.totalLength, ∃! place, fs.Covers place k
  inside : ∀ {i b : Nat} {p : Piece} {block : Block}, fs.pieces[i]? = some p →
    p.blocks[b]? = some block →
      0 < block.size ∧ fs.globalOffset i 0 + p.blockOffset b + block.size ≤ fs.totalLength
  blocks_pos : ∀ {i : Nat} {p : Piece}, fs.pieces[i]? = some p → 0 < p.blocks.length
  piece_index : ∀ {i : Nat} {p : Piece}, fs.pieces[i]? = some p → p.index = i
  block_index : ∀ {i b : Nat} {p : Piece} {block : Block}, fs.pieces[i]? = some p →
    p.blocks[b]? = some block → block.index = b
  blockIndexAt_iff : ∀ {i : Nat} {p : Piece}, fs.pieces[i]? = some p → ∀ offset b : Nat,
    p.blockIndexAt offset = .ok b ↔ b < p.blocks.length ∧ offset = p.blockOffset b

/-- The offsets of blocks in their pieces, and all offsets of pieces in the content up to their
ends, are reached without an overflow; the offsets at which blocks are looked up are divided by no
zero. -/
structure InWords (fs : FileSet) : Prop where
  blockSize_pos : ∀ {i : Nat} {p : Piece}, fs.pieces[i]? = some p → 0 < p.blockSize
  blockOffset : ∀ {i b : Nat} {p : Piece}, fs.pieces[i]? = some p → b < p.blocks.length →
    p.blockOffset? b = some (p.blockOffset b)
  globalOffset : ∀ {i offset : Nat} {p : Piece}, fs.pieces[i]? = some p → offset ≤ p.length →
    fs.globalOffset? i offset = some (fs.globalOffset i offset)

variable {fs : FileSet} {blockSize : Nat} {digests : List Digest}

theorem CutFrom.blockSize_pos (h : fs.CutFrom blockSize digests) {i : Nat} {p : Piece}
    (hp : fs.pieces[i]? = some p) : 0 < p.blockSize := by
  rw [h.blockSize_eq hp]
  omega

/-- Every byte is covered by a block of the piece that it lies in. -/
theorem CutFrom.exists_covers (h : fs.CutFrom blockSize digests) {k : Nat}
    (hk : k < fs.totalLength) : ∃ place, fs.Covers place k := by
  obtain ⟨i, p, hp, hLow, hHigh⟩ := h.covered hk
  obtain ⟨b, block, hb, hStart, hEnd⟩ :=
    h.block_covered (k := k - i * fs.pieceLength) hp (by omega)
  refine ⟨(i, b), p, block, hp, hb, ?_, ?_⟩
  · show i * fs.pieceLength + 0 + p.blockOffset b ≤ k
    omega
  · show k < i * fs.pieceLength + 0 + p.blockOffset b + block.size
    omega

/-- Two blocks that cover one byte are the same. -/
theorem CutFrom.covers_unique (h : fs.CutFrom blockSize digests) {k : Nat} {place other : Nat × Nat}
    (hPlace : fs.Covers place k) (hOther : fs.Covers other k) : place = other := by
  obtain ⟨p, block, hp, hb, hLow, hHigh⟩ := hPlace
  obtain ⟨q, block', hq, hc, hLow', hHigh'⟩ := hOther
  by_contra hne
  have hApart := h.blocks_apart hp hb hq hc hne
  simp only [globalOffset] at hLow hHigh hLow' hHigh'
  omega

theorem CutFrom.tiles (h : fs.CutFrom blockSize digests) : fs.Tiles where
  covered_once k hk := by
    obtain ⟨place, hPlace⟩ := h.exists_covers hk
    exact ⟨place, hPlace, fun other hOther => h.covers_unique hOther hPlace⟩
  inside {i b p block} hp hb := by
    obtain ⟨_, hStart, hSize⟩ := h.block hp hb
    have hPos := h.blockSize_pos hp
    have hBlock := h.block_le hp hb
    have hPiece := h.end_le hp
    rw [globalOffset]
    omega
  blocks_pos hp := h.blocks_pos hp
  piece_index hp := h.index_eq hp
  block_index hp hb := (h.block hp hb).1
  blockIndexAt_iff hp offset b := Piece.blockIndexAt_eq_ok (h.blockSize_pos hp) offset b

theorem CutFrom.inWords (h : fs.CutFrom blockSize digests) (hPiece : fs.pieceLength < 2 ^ 32)
    (hTotal : fs.totalLength < 2 ^ 64) : fs.InWords where
  blockSize_pos hp := h.blockSize_pos hp
  blockOffset {i b p} hp hb := by
    obtain ⟨_, hStart, _⟩ := h.block hp (List.getElem?_eq_getElem hb)
    have hLength := h.length_eq hp
    exact Word.mul?_of_lt (by omega)
  globalOffset {i offset p} hp hOffset := by
    have hEnd := h.end_le hp
    rw [globalOffset?, Word.mul?_of_lt (by omega), Option.bind_eq_bind, Option.bind_some,
      Word.add?_of_lt (by omega), globalOffset]

theorem exists_create_iff (kind : FileSetKind) (pieceLength total : Nat) (digests : List Digest)
    (blockSize : Nat) (storage : Storage) :
    (∃ fs, create kind pieceLength total digests blockSize storage = .ok fs) ↔
      1 ≤ pieceLength ∧ digests.length = total ⌈/⌉ pieceLength := by
  rw [Nat.ceilDiv_eq_add_pred_div]
  constructor
  · rintro ⟨fs, h⟩
    obtain ⟨hPos, hCount, _⟩ := create_eq_ok h
    exact ⟨hPos, hCount.symm⟩
  · rintro ⟨hPos, hCount⟩
    rw [create, if_neg (by omega)]
    exact ⟨_, if_pos hCount.symm⟩

/-- A content is cut exactly when it has the right number of digests. Its blocks then tile it, and
no word overflows, neither while it is cut nor when its offsets are taken. -/
theorem create_tiles (kind : FileSetKind) (pieceLength total : Nat) (digests : List Digest)
    (blockSize : Nat) (storage : Storage) (hPiece : pieceLength < 2 ^ 32) (hTotal : total < 2 ^ 64)
    (hDigests : digests.length < 2 ^ 32) :
    create? kind pieceLength total digests blockSize storage =
        some (create kind pieceLength total digests blockSize storage) ∧
      ((∃ fs, create kind pieceLength total digests blockSize storage = .ok fs) ↔
        1 ≤ pieceLength ∧ digests.length = total ⌈/⌉ pieceLength) ∧
      ∀ fs, create kind pieceLength total digests blockSize storage = .ok fs →
        fs.totalLength = total ∧ fs.Tiles ∧ fs.InWords := by
  refine ⟨create?_eq kind blockSize storage hPiece hTotal hDigests,
    exists_create_iff kind pieceLength total digests blockSize storage, ?_⟩
  intro fs h
  have hCut := cutFrom_create h
  obtain ⟨_, _, rfl⟩ := create_eq_ok h
  exact ⟨rfl, hCut.tiles, hCut.inWords hPiece hTotal⟩

/-- Twenty-five bytes in pieces of ten and blocks of four. -/
theorem tiles_twentyFive :
    ∃ fs, create .data 10 25 (List.replicate 3 Digest.zero) 4 (.memory (List.replicate 25 0)) =
      .ok fs ∧ fs.totalLength = 25 ∧ fs.Tiles ∧ fs.InWords := by
  obtain ⟨_, hOk, hTiles⟩ := create_tiles .data 10 25 (List.replicate 3 Digest.zero) 4
    (.memory (List.replicate 25 0)) (by decide) (by decide) (by decide)
  obtain ⟨fs, hfs⟩ := hOk.mpr ⟨by decide, rfl⟩
  exact ⟨fs, hfs, hTiles fs hfs⟩

end FileSet

end TorrentEngine
