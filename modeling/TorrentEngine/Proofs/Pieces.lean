import TorrentEngine.Piece

/-!
What the operations on a piece leave alone. The outline of a piece is what it was cut as, without
the statuses of its blocks; no operation changes it. A piece with its requested blocks needed again
shows what is held of it; requests and their return do not change that.
-/

namespace TorrentEngine

/-- The block as it was cut. -/
def Block.blank (b : Block) : Block := { b with status := .needed }

namespace Piece

/-- The piece as it was cut: no block held and the cursor at the first block. -/
def outline (p : Piece) : Piece :=
  { p with blocks := p.blocks.map Block.blank, mismatchCursor := 0 }

/-- The status of a block. -/
def status? (p : Piece) (b : Nat) : Option BlockStatus := p.blocks[b]?.map (·.status)

/-! ### Single blocks -/

theorem getElem?_blocks_mark (p : Piece) (b : Nat) (s : BlockStatus) (k : Nat) :
    (p.mark b s).blocks[k]? =
      if b = k then p.blocks[k]?.map (fun block => { block with status := s })
      else p.blocks[k]? := by
  simp only [mark, List.getElem?_modify]
  split <;> simp

theorem status?_mark (p : Piece) (b : Nat) (s : BlockStatus) (k : Nat) :
    (p.mark b s).status? k = if b = k then (p.status? k).map (fun _ => s) else p.status? k := by
  simp only [status?, getElem?_blocks_mark]
  split <;> simp [Function.comp_def]

theorem status?_mark_self {p : Piece} {b : Nat} {block : Block} (h : p.blocks[b]? = some block)
    (s : BlockStatus) : (p.mark b s).status? b = some s := by
  rw [status?_mark, if_pos rfl, status?, h]
  rfl

/-- A claim takes the first needed block and marks it. -/
theorem claimFirst_eq_some {blocks blocks' : List Block} {block : Block}
    (h : claimFirst blocks = some (block, blocks')) :
    ∃ b, blocks[b]? = some block ∧ block.status = .needed ∧
      (∀ k < b, blocks[k]?.map (·.status) ≠ some .needed) ∧
      blocks' = blocks.modify b fun block => { block with status := .requested } := by
  induction blocks generalizing blocks' with
  | nil => simp [claimFirst] at h
  | cons first rest ih =>
    simp only [claimFirst] at h
    split at h
    · next hNeeded =>
      obtain ⟨rfl, rfl⟩ := by simpa using h
      exact ⟨0, rfl, hNeeded, fun k hk => absurd hk (Nat.not_lt_zero k), rfl⟩
    · next hFirst =>
      obtain ⟨⟨claimed, rest'⟩, hRest, hEq⟩ := Option.map_eq_some_iff.mp h
      obtain ⟨rfl, rfl⟩ := by simpa using hEq
      obtain ⟨b, hb, hNeeded, hBefore, rfl⟩ := ih hRest
      refine ⟨b + 1, by simpa using hb, hNeeded, fun k hk => ?_, rfl⟩
      cases k with
      | zero => simpa using hFirst
      | succ k => simpa using hBefore k (Nat.lt_of_succ_lt_succ hk)

theorem claim_first {p q : Piece} {block : Block} (h : p.claim = some (block, q)) :
    ∃ b, p.blocks[b]? = some block ∧ block.status = .needed ∧
      (∀ k < b, p.status? k ≠ some .needed) ∧ q = p.mark b .requested := by
  obtain ⟨⟨claimed, blocks⟩, hFirst, hEq⟩ := Option.map_eq_some_iff.mp h
  obtain ⟨rfl, rfl⟩ := by simpa using hEq
  obtain ⟨b, hb, hNeeded, hBefore, rfl⟩ := claimFirst_eq_some hFirst
  exact ⟨b, hb, hNeeded, hBefore, rfl⟩

theorem claim_eq_some {p q : Piece} {block : Block} (h : p.claim = some (block, q)) :
    ∃ b, p.blocks[b]? = some block ∧ block.status = .needed ∧ q = p.mark b .requested := by
  obtain ⟨b, hb, hNeeded, -, hMarked⟩ := claim_first h
  exact ⟨b, hb, hNeeded, hMarked⟩

/-- A piece with a needed block has one to claim. -/
theorem exists_claim {p : Piece} (h : p.hasStatus .needed = true) :
    ∃ block q, p.claim = some (block, q) := by
  have hFirst {blocks : List Block} (hNeeded : ∃ b ∈ blocks, b.status = .needed) :
      (claimFirst blocks).isSome = true := by
    induction blocks with
    | nil => simp at hNeeded
    | cons b rest ih =>
      simp only [claimFirst]
      split
      · rfl
      · next hNot =>
        rw [Option.isSome_map]
        exact ih (by simpa [hNot] using hNeeded)
  obtain ⟨⟨block, blocks⟩, hClaimed⟩ :=
    Option.isSome_iff_exists.mp (hFirst (by simpa [hasStatus] using h))
  exact ⟨block, { p with blocks }, by rw [claim, hClaimed]; rfl⟩

/-! ### The outline -/

theorem index_of_outline {p q : Piece} (h : q.outline = p.outline) : q.index = p.index := by
  change q.outline.index = p.outline.index
  rw [h]

theorem length_of_outline {p q : Piece} (h : q.outline = p.outline) : q.length = p.length := by
  change q.outline.length = p.outline.length
  rw [h]

theorem digest_of_outline {p q : Piece} (h : q.outline = p.outline) : q.digest = p.digest := by
  change q.outline.digest = p.outline.digest
  rw [h]

theorem blockSize_of_outline {p q : Piece} (h : q.outline = p.outline) :
    q.blockSize = p.blockSize := by
  change q.outline.blockSize = p.outline.blockSize
  rw [h]

/-- Blocks that differ in their statuses alone have one outline. -/
theorem outline_congr {p q : Piece} (hBlocks : q.blocks.map Block.blank = p.blocks.map Block.blank)
    (hRest : { q with blocks := p.blocks, mismatchCursor := p.mismatchCursor } = p) :
    q.outline = p.outline := by
  cases p
  cases q
  simp_all [outline]

theorem outline_map (p : Piece) (f : Block → Block) (h : ∀ b, (f b).blank = b.blank) :
    { p with blocks := p.blocks.map f }.outline = p.outline := by
  simp [outline, Function.comp_def, h]

@[simp] theorem outline_mark (p : Piece) (b : Nat) (s : BlockStatus) :
    (p.mark b s).outline = p.outline := by
  refine outline_congr (List.ext_getElem? fun k => ?_) rfl
  rw [List.getElem?_map, List.getElem?_map, getElem?_blocks_mark]
  split
  · rw [Option.map_map]
    rfl
  · rfl

@[simp] theorem outline_markVerified (p : Piece) : p.markVerified.outline = p.outline :=
  outline_map p _ fun _ => rfl

@[simp] theorem outline_resetRequested (p : Piece) : p.resetRequested.outline = p.outline := by
  refine outline_map p _ fun b => ?_
  split <;> rfl

@[simp] theorem outline_reopen (p : Piece) : p.reopen.2.outline = p.outline := by
  simp only [reopen]
  split
  · rfl
  · exact outline_mark p p.mismatchCursor .needed

/-- Pieces of one outline have the same blocks but for their statuses. -/
theorem blank_of_outline {p q : Piece} (h : q.outline = p.outline) (b : Nat) :
    q.blocks[b]?.map Block.blank = p.blocks[b]?.map Block.blank := by
  have := congrArg (fun r => r.blocks[b]?) h
  simpa [outline] using this

theorem length_blocks_of_outline {p q : Piece} (h : q.outline = p.outline) :
    q.blocks.length = p.blocks.length := by
  have hLengths := congrArg (fun r => r.blocks.length) h
  simpa [outline] using hLengths

theorem outline_of_resetRequested {p q : Piece} (h : q.resetRequested = p.resetRequested) :
    q.outline = p.outline := by
  rw [← outline_resetRequested, h, outline_resetRequested]

theorem checkBlock_of_outline {p q : Piece} (h : q.outline = p.outline) (b length : Nat) :
    q.checkBlock b length = p.checkBlock b length := by
  have hIndex := index_of_outline h
  have hBlank := blank_of_outline h b
  simp only [checkBlock, block, hIndex]
  cases hq : q.blocks[b]? <;> cases hp : p.blocks[b]? <;> simp [hq, hp, Block.blank] at hBlank ⊢
  rw [hBlank.2]

/-- A block passes the check exactly when it exists and has the length. -/
theorem checkBlock_eq_ok {p : Piece} {b length : Nat} :
    p.checkBlock b length = .ok () ↔ ∃ block, p.blocks[b]? = some block ∧ block.size = length := by
  simp only [checkBlock, block]
  cases h : p.blocks[b]? with
  | none => simp
  | some block => by_cases hs : block.size = length <;> simp [hs]

/-! ### What is held -/

theorem isDone_iff {p : Piece} : p.isDone = true ↔ ∀ b ∈ p.blocks, b.status = .verified := by
  simp [isDone]

theorem isFullyStored_iff {p : Piece} :
    p.isFullyStored = true ↔ ∀ b ∈ p.blocks, b.status.isHeld = true := by
  simp [isFullyStored]

theorem isFullyStored_of_isDone {p : Piece} (h : p.isDone = true) : p.isFullyStored = true := by
  rw [isFullyStored_iff]
  intro b hb
  rw [isDone_iff.mp h b hb]
  rfl

/-- A piece with a block that is not held is not fully stored. -/
theorem not_isFullyStored {p : Piece} {b : Nat} {block : Block} (hb : p.blocks[b]? = some block)
    (h : block.status.isHeld = false) : p.isFullyStored = false := by
  rw [Bool.eq_false_iff]
  intro hAll
  rw [isFullyStored_iff.mp hAll block (List.mem_of_getElem? hb)] at h
  cases h

@[simp] theorem isDone_markVerified (p : Piece) : p.markVerified.isDone = true := by
  simp [isDone_iff, markVerified]

theorem isDone_resetRequested (p : Piece) : p.resetRequested.isDone = p.isDone := by
  simp only [isDone, resetRequested, List.all_map]
  congr 1
  funext b
  by_cases h : b.status = .requested <;> simp [h]

theorem isFullyStored_resetRequested (p : Piece) :
    p.resetRequested.isFullyStored = p.isFullyStored := by
  simp only [isFullyStored, resetRequested, List.all_map]
  congr 1
  funext b
  by_cases h : b.status = .requested <;> simp [h, BlockStatus.isHeld]

/-- A verified piece has no block to claim. -/
theorem claim_of_isDone {p : Piece} (h : p.isDone = true) : p.claim = none := by
  rw [Option.eq_none_iff_forall_ne_some]
  rintro ⟨block, q⟩ hClaim
  obtain ⟨b, hb, hNeeded, _⟩ := claim_eq_some hClaim
  rw [isDone_iff.mp h block (List.mem_of_getElem? hb)] at hNeeded
  cases hNeeded

/-- Marking a block that is not held as one that is not held changes nothing that is. -/
theorem resetRequested_mark {p : Piece} {b : Nat} {block : Block} {s : BlockStatus}
    (hb : p.blocks[b]? = some block) (hOld : block.status.isHeld = false)
    (hNew : s.isHeld = false) : (p.mark b s).resetRequested = p.resetRequested := by
  have hBlocks : (p.mark b s).resetRequested.blocks = p.resetRequested.blocks := by
    apply List.ext_getElem?
    intro k
    simp only [resetRequested, List.getElem?_map, getElem?_blocks_mark]
    split
    · next h =>
      subst h
      obtain ⟨index, size, status⟩ := block
      rw [hb]
      cases status <;> cases s <;> simp_all [BlockStatus.isHeld]
    · rfl
  calc (p.mark b s).resetRequested
      = { p with blocks := (p.mark b s).resetRequested.blocks } := rfl
    _ = p.resetRequested := by rw [hBlocks]; rfl

/-- Opening a block again moves the cursor to the next one, from the last block to the first. -/
theorem reopen_eq {p : Piece} (h : p.mismatchCursor < p.blocks.length) :
    p.reopen = (p.mismatchCursor,
      { p.mark p.mismatchCursor .needed with
        mismatchCursor := (p.mismatchCursor + 1) % p.blocks.length }) := by
  have hNonempty : p.blocks.isEmpty = false := by
    rw [List.isEmpty_eq_false_iff_exists_mem]
    exact ⟨_, List.getElem_mem h⟩
  simp [reopen, hNonempty]

/-- Opening a block again leaves the piece short of a block, if it has one under its cursor. -/
theorem not_isFullyStored_reopen {p : Piece} (h : p.mismatchCursor < p.blocks.length) :
    p.reopen.2.isFullyStored = false := by
  have hb := List.getElem?_eq_getElem h
  have hMarked : (p.mark p.mismatchCursor .needed).blocks[p.mismatchCursor]? =
      some { p.blocks[p.mismatchCursor] with status := .needed } := by
    rw [getElem?_blocks_mark, if_pos rfl, hb]
    rfl
  have hShort := not_isFullyStored hMarked rfl
  rw [reopen_eq h]
  exact hShort

theorem reopen_cursor_lt {p : Piece} (h : p.mismatchCursor < p.blocks.length) :
    p.reopen.2.mismatchCursor < p.reopen.2.blocks.length := by
  have hPos : 0 < p.blocks.length := by omega
  simpa [reopen_eq h, mark] using Nat.mod_lt _ hPos

theorem isDone_of_mark {p : Piece} {b : Nat} {s : BlockStatus} (hs : s ≠ .verified)
    (h : (p.mark b s).isDone = true) : p.isDone = true := by
  rw [isDone_iff] at h ⊢
  intro block hBlock
  obtain ⟨k, hk⟩ := List.getElem?_of_mem hBlock
  have hMarked := getElem?_blocks_mark p b s k
  rw [hk] at hMarked
  split at hMarked
  · exact absurd (h _ (List.mem_of_getElem? hMarked)) hs
  · exact h _ (List.mem_of_getElem? hMarked)

theorem isDone_of_reopen {p : Piece} (h : p.reopen.2.isDone = true) : p.isDone = true := by
  simp only [reopen] at h
  split at h
  · exact h
  · exact isDone_of_mark (by decide) h

end Piece

end TorrentEngine
