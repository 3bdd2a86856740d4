import TorrentEngine.FileSet
import TorrentEngine.Proofs.Pieces

/-!
How a content is cut. `FileSet.CutFrom` says that a file set still has the pieces and blocks that
its content was cut into; every piece then has a range of its own in the content, apart from those
of the others, and every block lies inside its piece.
-/

namespace TorrentEngine

theorem mul_lt_of_lt_partCount {k length size : Nat} (hSize : 0 < size)
    (h : k < partCount length size) : k * size < length := by
  have := (Nat.le_div_iff_mul_le hSize).mp (Nat.succ_le_of_lt h)
  rw [Nat.succ_mul] at this
  omega

/-- A part ends before the next one begins. -/
theorem mul_add_le_of_lt {i j : Nat} (h : i < j) (size : Nat) : i * size + size ≤ j * size := by
  rw [← Nat.succ_mul]
  exact Nat.mul_le_mul_right size h

theorem partCount_pos {length size : Nat} (hSize : 0 < size) (h : 0 < length) :
    0 < partCount length size := by
  apply Nat.div_pos
  · omega
  · exact hSize

namespace Piece

theorem getElem?_blocks_fresh {index length : Nat} {digest : Digest} {blockSize b : Nat}
    {block : Block} (h : (fresh index length digest blockSize).blocks[b]? = some block) :
    b < partCount length (max blockSize 1) ∧
      block = { index := b, size := min (max blockSize 1) (length - b * max blockSize 1),
                status := .needed } := by
  simp only [fresh, List.getElem?_map, Option.map_eq_some_iff] at h
  obtain ⟨k, hk, rfl⟩ := h
  obtain ⟨hlt, rfl⟩ := List.getElem?_eq_some_iff.mp hk
  rw [List.length_range] at hlt
  exact ⟨hlt, by rw [List.getElem_range]⟩

@[simp] theorem outline_fresh (index length : Nat) (digest : Digest) (blockSize : Nat) :
    (fresh index length digest blockSize).outline = fresh index length digest blockSize := by
  simp [outline, fresh, Function.comp_def, Block.blank]

theorem length_blocks_fresh (index length : Nat) (digest : Digest) (blockSize : Nat) :
    (fresh index length digest blockSize).blocks.length = partCount length (max blockSize 1) := by
  simp [fresh]

end Piece

namespace FileSet

/-- The pieces of a file set are those that its content was cut into, but for the statuses of their
blocks. -/
structure CutFrom (fs : FileSet) (blockSize : Nat) (digests : List Digest) : Prop where
  pieceLength_pos : 0 < fs.pieceLength
  count : partCount fs.totalLength fs.pieceLength = digests.length
  outlines : fs.pieces.map Piece.outline =
    cut fs.pieceLength fs.totalLength blockSize digests
  cursors : ∀ p ∈ fs.pieces, p.mismatchCursor < p.blocks.length

theorem getElem?_cut {pieceLength total blockSize : Nat} {digests : List Digest} {i : Nat}
    {p : Piece} (h : (cut pieceLength total blockSize digests)[i]? = some p) :
    ∃ digest, digests[i]? = some digest ∧
      p = Piece.fresh i (min pieceLength (total - i * pieceLength)) digest blockSize := by
  simp only [cut, List.getElem?_map, List.getElem?_zipIdx, Option.map_map,
    Option.map_eq_some_iff] at h
  obtain ⟨digest, hd, rfl⟩ := h
  exact ⟨digest, hd, by simp⟩

theorem create_eq_ok {kind : FileSetKind} {pieceLength total : Nat} {digests : List Digest}
    {blockSize : Nat} {storage : Storage} {fs : FileSet}
    (h : create kind pieceLength total digests blockSize storage = .ok fs) :
    0 < pieceLength ∧ partCount total pieceLength = digests.length ∧
      fs = { kind, pieceLength, totalLength := total,
             pieces := cut pieceLength total blockSize digests, storage } := by
  simp only [create] at h
  split at h
  · cases h
  · next hPos =>
    split at h
    · next hCount =>
      cases h
      exact ⟨by omega, hCount, rfl⟩
    · cases h

theorem piece_eq_ok {fs : FileSet} {i : Nat} {p : Piece} :
    fs.piece i = .ok p ↔ fs.pieces[i]? = some p := by
  simp only [FileSet.piece, FileSet.piece?]
  cases fs.pieces[i]? <;> simp

theorem piece_eq_error {fs : FileSet} {i : Nat} {e : PieceError} (h : fs.piece i = .error e) :
    fs.pieces[i]? = none := by
  simp only [FileSet.piece, FileSet.piece?] at h
  cases hp : fs.pieces[i]? with
  | none => rfl
  | some p => simp [hp] at h

variable {fs : FileSet} {blockSize : Nat} {digests : List Digest}

namespace CutFrom

theorem piece (h : fs.CutFrom blockSize digests) {i : Nat} {p : Piece}
    (hp : fs.pieces[i]? = some p) :
    ∃ digest, digests[i]? = some digest ∧
      p.outline = Piece.fresh i (min fs.pieceLength (fs.totalLength - i * fs.pieceLength)) digest
        blockSize := by
  apply getElem?_cut (h := _)
  rw [← h.outlines, List.getElem?_map, hp]
  rfl

theorem length_pieces (h : fs.CutFrom blockSize digests) : fs.pieces.length = digests.length := by
  have := congrArg List.length h.outlines
  simpa [cut] using this

theorem index_eq (h : fs.CutFrom blockSize digests) {i : Nat} {p : Piece}
    (hp : fs.pieces[i]? = some p) : p.index = i := by
  obtain ⟨_, _, hOutline⟩ := h.piece hp
  simpa [Piece.outline, Piece.fresh] using congrArg Piece.index hOutline

theorem length_eq (h : fs.CutFrom blockSize digests) {i : Nat} {p : Piece}
    (hp : fs.pieces[i]? = some p) :
    p.length = min fs.pieceLength (fs.totalLength - i * fs.pieceLength) := by
  obtain ⟨_, _, hOutline⟩ := h.piece hp
  simpa [Piece.outline, Piece.fresh] using congrArg Piece.length hOutline

theorem blockSize_eq (h : fs.CutFrom blockSize digests) {i : Nat} {p : Piece}
    (hp : fs.pieces[i]? = some p) : p.blockSize = max blockSize 1 := by
  obtain ⟨_, _, hOutline⟩ := h.piece hp
  simpa [Piece.outline, Piece.fresh] using congrArg Piece.blockSize hOutline

theorem digest_eq (h : fs.CutFrom blockSize digests) {i : Nat} {p : Piece}
    (hp : fs.pieces[i]? = some p) : digests[i]? = some p.digest := by
  obtain ⟨digest, hd, hOutline⟩ := h.piece hp
  rw [hd]
  simpa [Piece.outline, Piece.fresh] using (congrArg Piece.digest hOutline).symm

/-- Every piece begins inside the content. -/
theorem start_lt (h : fs.CutFrom blockSize digests) {i : Nat} {p : Piece}
    (hp : fs.pieces[i]? = some p) : i * fs.pieceLength < fs.totalLength := by
  apply mul_lt_of_lt_partCount h.pieceLength_pos
  rw [h.count, ← h.length_pieces]
  exact (List.getElem?_eq_some_iff.mp hp).1

/-- Every piece ends inside the content. -/
theorem end_le (h : fs.CutFrom blockSize digests) {i : Nat} {p : Piece}
    (hp : fs.pieces[i]? = some p) : i * fs.pieceLength + p.length ≤ fs.totalLength := by
  have := h.start_lt hp
  rw [h.length_eq hp]
  omega

theorem length_pos (h : fs.CutFrom blockSize digests) {i : Nat} {p : Piece}
    (hp : fs.pieces[i]? = some p) : 0 < p.length := by
  have := h.start_lt hp
  have := h.pieceLength_pos
  rw [h.length_eq hp]
  omega

theorem blocks_pos (h : fs.CutFrom blockSize digests) {i : Nat} {p : Piece}
    (hp : fs.pieces[i]? = some p) : 0 < p.blocks.length := by
  have := h.cursors p (List.mem_of_getElem? hp)
  omega

/-- Every position of the content lies in a piece. -/
theorem covered (h : fs.CutFrom blockSize digests) {k : Nat} (hk : k < fs.totalLength) :
    ∃ i p, fs.pieces[i]? = some p ∧ i * fs.pieceLength ≤ k ∧
      k < i * fs.pieceLength + p.length := by
  have hPos := h.pieceLength_pos
  have hLow := Nat.div_mul_le_self k fs.pieceLength
  have hHigh : k < k / fs.pieceLength * fs.pieceLength + fs.pieceLength :=
    Nat.lt_div_mul_add hPos
  have hCount : k / fs.pieceLength < fs.pieces.length := by
    rw [h.length_pieces, ← h.count, partCount]
    apply (Nat.le_div_iff_mul_le hPos).mpr
    rw [Nat.succ_mul]
    omega
  have hp := List.getElem?_eq_getElem hCount
  refine ⟨k / fs.pieceLength, _, hp, hLow, ?_⟩
  rw [h.length_eq hp]
  omega

/-- The ranges of two pieces do not meet. -/
theorem apart (h : fs.CutFrom blockSize digests) {i j : Nat} {p q : Piece}
    (hp : fs.pieces[i]? = some p) (hq : fs.pieces[j]? = some q) (hne : i ≠ j) :
    i * fs.pieceLength + p.length ≤ j * fs.pieceLength ∨
      j * fs.pieceLength + q.length ≤ i * fs.pieceLength := by
  have hpLength := h.length_eq hp
  have hqLength := h.length_eq hq
  rcases Nat.lt_or_gt_of_ne hne with hlt | hlt
  · have := mul_add_le_of_lt hlt fs.pieceLength
    omega
  · have := mul_add_le_of_lt hlt fs.pieceLength
    omega

/-- Every block begins inside its piece, and is as long as its piece lets it be. -/
theorem block (h : fs.CutFrom blockSize digests) {i b : Nat} {p : Piece} {block : Block}
    (hp : fs.pieces[i]? = some p) (hb : p.blocks[b]? = some block) :
    block.index = b ∧ b * p.blockSize < p.length ∧
      block.size = min p.blockSize (p.length - b * p.blockSize) := by
  obtain ⟨digest, _, hOutline⟩ := h.piece hp
  have hFresh : (Piece.fresh i (min fs.pieceLength (fs.totalLength - i * fs.pieceLength)) digest
      blockSize).blocks[b]? = some block.blank := by
    rw [← hOutline, Piece.outline, List.getElem?_map, hb]
    rfl
  obtain ⟨hCount, hBlank⟩ := Piece.getElem?_blocks_fresh hFresh
  rw [h.blockSize_eq hp, h.length_eq hp]
  refine ⟨congrArg Block.index hBlank, ?_, congrArg Block.size hBlank⟩
  exact mul_lt_of_lt_partCount (by omega) hCount

/-- Every block lies inside its piece. -/
theorem block_le (h : fs.CutFrom blockSize digests) {i b : Nat} {p : Piece} {block : Block}
    (hp : fs.pieces[i]? = some p) (hb : p.blocks[b]? = some block) :
    p.blockOffset b + block.size ≤ p.length := by
  obtain ⟨_, hStart, hSize⟩ := h.block hp hb
  rw [hSize, Piece.blockOffset]
  omega

/-- Every block lies inside the content. -/
theorem inside (h : fs.CutFrom blockSize digests) {i b : Nat} {p : Piece} {block : Block}
    (hp : fs.pieces[i]? = some p) (hb : p.blocks[b]? = some block) :
    i * fs.pieceLength + p.blockOffset b + block.size ≤ fs.totalLength := by
  have := h.block_le hp hb
  have := h.end_le hp
  omega

/-- Every position of a piece lies in a block. -/
theorem block_covered (h : fs.CutFrom blockSize digests) {i k : Nat} {p : Piece}
    (hp : fs.pieces[i]? = some p) (hk : k < p.length) :
    ∃ b block, p.blocks[b]? = some block ∧ p.blockOffset b ≤ k ∧
      k < p.blockOffset b + block.size := by
  have hSize : p.blockSize = max blockSize 1 := h.blockSize_eq hp
  have hPos : 0 < p.blockSize := by omega
  have hLow := Nat.div_mul_le_self k p.blockSize
  have hHigh : k < k / p.blockSize * p.blockSize + p.blockSize := Nat.lt_div_mul_add hPos
  have hCount : k / p.blockSize < p.blocks.length := by
    obtain ⟨digest, _, hOutline⟩ := h.piece hp
    have hBlocks : p.blocks.length = partCount p.length (max blockSize 1) := by
      rw [h.length_eq hp, ← Piece.length_blocks_fresh i _ digest, ← hOutline]
      simp [Piece.outline]
    rw [hBlocks, ← hSize, partCount]
    apply (Nat.le_div_iff_mul_le hPos).mpr
    rw [Nat.succ_mul]
    omega
  have hb := List.getElem?_eq_getElem hCount
  refine ⟨k / p.blockSize, _, hb, hLow, ?_⟩
  rw [(h.block hp hb).2.2, Piece.blockOffset]
  omega

/-- The ranges of two blocks do not meet. -/
theorem blocks_apart (h : fs.CutFrom blockSize digests) {i j b c : Nat} {p q : Piece}
    {block other : Block} (hp : fs.pieces[i]? = some p) (hb : p.blocks[b]? = some block)
    (hq : fs.pieces[j]? = some q) (hc : q.blocks[c]? = some other) (hne : (i, b) ≠ (j, c)) :
    i * fs.pieceLength + p.blockOffset b + block.size ≤ j * fs.pieceLength + q.blockOffset c ∨
      j * fs.pieceLength + q.blockOffset c + other.size ≤
        i * fs.pieceLength + p.blockOffset b := by
  have hInside := h.block_le hp hb
  have hInside' := h.block_le hq hc
  by_cases hSame : i = j
  · subst hSame
    obtain rfl := Option.some.inj (hp.symm.trans hq)
    have hSize := (h.block hp hb).2.2
    have hSize' := (h.block hp hc).2.2
    have hbc : b ≠ c := fun hEq => hne (by rw [hEq])
    simp only [Piece.blockOffset]
    rcases Nat.lt_or_gt_of_ne hbc with hlt | hlt
    · have := mul_add_le_of_lt hlt p.blockSize
      omega
    · have := mul_add_le_of_lt hlt p.blockSize
      omega
  · have := h.apart hp hq hSame
    omega

end CutFrom

/-! ### Keeping the cut -/

/-- `fs'` is cut like `fs`. The statuses of blocks and the storage may differ. -/
structure SameCut (fs fs' : FileSet) : Prop where
  kind_eq : fs'.kind = fs.kind
  pieceLength_eq : fs'.pieceLength = fs.pieceLength
  totalLength_eq : fs'.totalLength = fs.totalLength
  outlines_eq : fs'.pieces.map Piece.outline = fs.pieces.map Piece.outline
  cursors : (∀ p ∈ fs.pieces, p.mismatchCursor < p.blocks.length) →
    ∀ p ∈ fs'.pieces, p.mismatchCursor < p.blocks.length

theorem SameCut.refl (fs : FileSet) : SameCut fs fs := ⟨rfl, rfl, rfl, rfl, id⟩

/-- Each piece of one file set has its like in the other. -/
theorem piece_of_outlines {pieces pieces' : List Piece}
    (h : pieces'.map Piece.outline = pieces.map Piece.outline) {i : Nat} {p' : Piece}
    (hp : pieces'[i]? = some p') : ∃ p, pieces[i]? = some p ∧ p'.outline = p.outline := by
  have hMap : pieces'[i]?.map Piece.outline = pieces[i]?.map Piece.outline := by
    simpa only [List.getElem?_map] using congrArg (fun l => l[i]?) h
  rw [hp, Option.map_some] at hMap
  obtain ⟨p, hp, hEq⟩ := Option.map_eq_some_iff.mp hMap.symm
  exact ⟨p, hp, hEq.symm⟩

theorem SameCut.trans {fs' fs'' : FileSet} (h : SameCut fs fs') (h' : SameCut fs' fs'') :
    SameCut fs fs'' :=
  ⟨h'.kind_eq.trans h.kind_eq, h'.pieceLength_eq.trans h.pieceLength_eq,
    h'.totalLength_eq.trans h.totalLength_eq, h'.outlines_eq.trans h.outlines_eq,
    fun hAll => h'.cursors (h.cursors hAll)⟩

theorem SameCut.piece {fs' : FileSet} (h : SameCut fs fs') {i : Nat} {p : Piece}
    (hp : fs.pieces[i]? = some p) :
    ∃ p', fs'.pieces[i]? = some p' ∧ p'.outline = p.outline := by
  obtain ⟨p', hp', hOutline⟩ := piece_of_outlines h.outlines_eq.symm hp
  exact ⟨p', hp', hOutline.symm⟩

theorem SameCut.outline_eq {fs' : FileSet} (h : SameCut fs fs') {i : Nat} {p p' : Piece}
    (hp : fs.pieces[i]? = some p)
    (hp' : fs'.pieces[i]? = some p') : p'.outline = p.outline := by
  obtain ⟨q, hq, hOutline⟩ := h.piece hp
  obtain rfl := Option.some.inj (hq.symm.trans hp')
  exact hOutline

theorem SameCut.pieceCount_eq {fs' : FileSet} (h : SameCut fs fs') :
    fs'.pieceCount = fs.pieceCount := by
  have := congrArg List.length h.outlines_eq
  simpa [pieceCount] using this

theorem CutFrom.sameCut {fs' : FileSet} (hCut : fs.CutFrom blockSize digests)
    (h : SameCut fs fs') : fs'.CutFrom blockSize digests := by
  refine ⟨?_, ?_, ?_, h.cursors hCut.cursors⟩
  · rw [h.pieceLength_eq]
    exact hCut.pieceLength_pos
  · rw [h.pieceLength_eq, h.totalLength_eq]
    exact hCut.count
  · rw [h.outlines_eq, h.pieceLength_eq, h.totalLength_eq]
    exact hCut.outlines

theorem getElem?_setPiece {i : Nat} {p : Piece} (hp : fs.pieces[i]? = some p) (q : Piece)
    (k : Nat) : (fs.setPiece i q).pieces[k]? = if k = i then some q else fs.pieces[k]? := by
  simp only [setPiece, List.getElem?_set]
  by_cases hk : i = k
  · subst hk
    rw [if_pos rfl, if_pos rfl, if_pos (List.getElem?_eq_some_iff.mp hp).1]
  · rw [if_neg hk, if_neg (Ne.symm hk)]

theorem getElem?_setPiece_self {i : Nat} {p : Piece} (hp : fs.pieces[i]? = some p) (q : Piece)
    (storage : Storage) : ({ fs with storage }.setPiece i q).pieces[i]? = some q := by
  have hSame : ({ fs with storage } : FileSet).pieces[i]? = some p := hp
  rw [getElem?_setPiece hSame, if_pos rfl]

theorem sameCut_setPiece {i : Nat} {p q : Piece} (hp : fs.pieces[i]? = some p)
    (hOutline : q.outline = p.outline)
    (hCursor : p.mismatchCursor < p.blocks.length → q.mismatchCursor < q.blocks.length) :
    SameCut fs (fs.setPiece i q) := by
  refine ⟨rfl, rfl, rfl, ?_, ?_⟩
  · apply List.ext_getElem?
    intro k
    rw [List.getElem?_map, List.getElem?_map, getElem?_setPiece hp]
    split
    · next hk => rw [hk, hp, Option.map_some, Option.map_some, hOutline]
    · rfl
  · intro hAll r hr
    rcases List.mem_or_eq_of_mem_set hr with hOld | rfl
    · exact hAll r hOld
    · exact hCursor (hAll p (List.mem_of_getElem? hp))

/-- A file set is cut as it was created. -/
theorem cutFrom_create {kind : FileSetKind} {pieceLength total : Nat} {storage : Storage}
    (h : create kind pieceLength total digests blockSize storage = .ok fs) :
    fs.CutFrom blockSize digests := by
  obtain ⟨hPos, hCount, rfl⟩ := create_eq_ok h
  refine ⟨hPos, hCount, ?_, ?_⟩
  · apply List.ext_getElem?
    intro i
    rw [List.getElem?_map]
    cases hp : (cut pieceLength total blockSize digests)[i]? with
    | none => rfl
    | some p =>
      obtain ⟨digest, _, rfl⟩ := getElem?_cut hp
      simp
  · intro p hp
    obtain ⟨i, hi⟩ := List.getElem?_of_mem hp
    have hStart : i * pieceLength < total := by
      apply mul_lt_of_lt_partCount hPos
      rw [hCount]
      simpa [cut] using (List.getElem?_eq_some_iff.mp hi).1
    obtain ⟨digest, _, rfl⟩ := getElem?_cut hi
    rw [Piece.length_blocks_fresh]
    exact partCount_pos (by omega) (by omega)

/-- A piece that was just cut begins with a needed block. -/
theorem needed_create {kind : FileSetKind} {pieceLength total : Nat} {storage : Storage}
    (h : create kind pieceLength total digests blockSize storage = .ok fs) {i : Nat} {p : Piece}
    (hp : fs.pieces[i]? = some p) :
    ∃ block, p.blocks[0]? = some block ∧ block.status = .needed := by
  have hFirst := List.getElem?_eq_getElem ((cutFrom_create h).blocks_pos hp)
  obtain ⟨_, _, rfl⟩ := create_eq_ok h
  obtain ⟨digest, _, rfl⟩ := getElem?_cut hp
  exact ⟨_, hFirst, congrArg Block.status (Piece.getElem?_blocks_fresh hFirst).2⟩

end FileSet

end TorrentEngine
