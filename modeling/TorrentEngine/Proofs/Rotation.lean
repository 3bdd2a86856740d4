import Mathlib.Data.List.Induction
import Mathlib.Data.List.Nodup
import Mathlib.Data.Nat.ModEq
import TorrentEngine.Proofs.Cuts

/-!
Fair rotation. The cursor of a piece moves on when a mismatch opens a block and at no other time, so
mismatches go round the blocks in turn, whatever is done to the piece between them. What the piece
was cut as never changes, and a claim takes the first block that is needed.
-/

namespace TorrentEngine

/-- Going round from any start meets every place. -/
theorem exists_rotated (start : Nat) {b n : Nat} (hb : b < n) : ∃ j < n, (start + j) % n = b := by
  have hStart := Nat.div_add_mod start n
  have hLow : start % n < n := Nat.mod_lt _ (by omega)
  by_cases hBefore : start % n ≤ b
  · refine ⟨b - start % n, by omega, ?_⟩
    rw [show start + (b - start % n) = n * (start / n) + b by omega, Nat.mul_add_mod,
      Nat.mod_eq_of_lt hb]
  · refine ⟨n + b - start % n, by omega, ?_⟩
    rw [show start + (n + b - start % n) = n * (start / n) + (n + b) by omega, Nat.mul_add_mod,
      Nat.add_mod_left, Nat.mod_eq_of_lt hb]

/-- Within one round no place is met twice. -/
theorem rotated_inj {start j j' n : Nat} (hj : j < n) (hj' : j' < n)
    (h : (start + j) % n = (start + j') % n) : j = j' :=
  (Nat.ModEq.add_left_cancel' start h).eq_of_lt_of_lt hj hj'

/-- One round meets every place once. -/
theorem perm_rotated (start n : Nat) :
    ((List.range n).map fun j => (start + j) % n).Perm (List.range n) := by
  have hNodup : ((List.range n).map fun j => (start + j) % n).Nodup := by
    refine List.Nodup.map_on ?_ List.nodup_range
    intro j hj j' hj' hSame
    exact rotated_inj (List.mem_range.mp hj) (List.mem_range.mp hj') hSame
  refine (List.perm_ext_iff_of_nodup hNodup List.nodup_range).mpr fun b => ?_
  rw [List.mem_map, List.mem_range]
  constructor
  · rintro ⟨j, hj, rfl⟩
    exact Nat.mod_lt _ (Nat.zero_lt_of_lt (List.mem_range.mp hj))
  · intro hb
    obtain ⟨j, hj, hEq⟩ := exists_rotated start hb
    exact ⟨j, List.mem_range.mpr hj, hEq⟩

namespace Piece

/-- What can be done to a piece. -/
inductive Operation
  | claim
  | setStatus (b : Nat) (s : BlockStatus)
  | store (b length : Nat)
  | checkDigest (data : Bytes)
  | markVerified
  | resetRequested
  | reopen
  deriving DecidableEq

/-- The piece after an operation. One that is refused, or finds nothing to do, changes nothing. -/
def after (p : Piece) : Operation → Piece
  | .claim => (p.claim.map (·.2)).getD p
  | .setStatus b s => (p.setStatus b s).toOption.getD p
  | .store b length => (p.store b length).toOption.getD p
  | .checkDigest data => ((p.checkDigest data).toOption.map (·.2)).getD p
  | .markVerified => p.markVerified
  | .resetRequested => p.resetRequested
  | .reopen => p.reopen.2

/-- The piece after some operations in their order. -/
def run (p : Piece) (ops : List Operation) : Piece := ops.foldl after p

/-- The blocks that the mismatches among some operations open, in turn. -/
def opened (p : Piece) : List Operation → List Nat
  | [] => []
  | .reopen :: ops => p.reopen.1 :: p.reopen.2.opened ops
  | op :: ops => (p.after op).opened ops

/-- A claim takes the first block that is needed, and marks it as requested. -/
structure ClaimsFirst (p : Piece) : Prop where
  none_iff : p.claim = none ↔ ∀ b, p.status? b ≠ some .needed
  some : ∀ block q, p.claim = some (block, q) →
    p.blocks[block.index]? = some block ∧ block.status = .needed ∧
      (∀ b < block.index, p.status? b ≠ some .needed) ∧ q = p.mark block.index .requested

variable {p : Piece} {op : Operation} {ops : List Operation} {b : Nat} {s : BlockStatus}

/-! ### One operation -/

theorem setStatus_cases (p : Piece) (b : Nat) (s : BlockStatus) :
    (p.setStatus b s).toOption.getD p = p.mark b s ∨ (p.setStatus b s).toOption.getD p = p := by
  unfold setStatus
  split
  · exact .inl rfl
  · exact .inr rfl

/-- All but a mismatch leave the cursor where it is, and nothing changes what a piece was cut as. -/
theorem after_of_ne (h : op ≠ .reopen) :
    (p.after op).outline = p.outline ∧ (p.after op).mismatchCursor = p.mismatchCursor := by
  have hMark (b : Nat) (s : BlockStatus) : (p.mark b s).outline = p.outline ∧
      (p.mark b s).mismatchCursor = p.mismatchCursor := ⟨outline_mark p b s, rfl⟩
  cases op with
  | claim =>
    cases hClaim : p.claim with
    | none => simp [after, hClaim]
    | some claimed =>
      obtain ⟨block, q⟩ := claimed
      obtain ⟨b, -, -, rfl⟩ := claim_eq_some hClaim
      simpa [after, hClaim] using hMark b .requested
  | setStatus b s =>
    simp only [after]
    rcases setStatus_cases p b s with hSet | hSet <;> rw [hSet]
    · exact hMark b s
    · exact ⟨rfl, rfl⟩
  | store b length =>
    simp only [after, store]
    split
    · exact ⟨rfl, rfl⟩
    · rcases setStatus_cases p b .stored with hSet | hSet <;> rw [hSet]
      · exact hMark b .stored
      · exact ⟨rfl, rfl⟩
  | checkDigest data =>
    simp only [after, checkDigest]
    split
    · exact ⟨rfl, rfl⟩
    split
    · exact ⟨rfl, rfl⟩
    split
    · exact ⟨outline_markVerified p, rfl⟩
    · exact ⟨rfl, rfl⟩
  | markVerified => exact ⟨outline_markVerified p, rfl⟩
  | resetRequested => exact ⟨outline_resetRequested p, rfl⟩
  | reopen => exact absurd rfl h

@[simp] theorem outline_after (p : Piece) (op : Operation) : (p.after op).outline = p.outline := by
  by_cases hOp : op = .reopen
  · subst hOp
    exact outline_reopen p
  · exact (after_of_ne hOp).1

theorem length_blocks_after (p : Piece) (op : Operation) :
    (p.after op).blocks.length = p.blocks.length :=
  length_blocks_of_outline (outline_after p op)

/-- The cursor counts the mismatches, from the last block on to the first. -/
theorem cursor_after (h : p.mismatchCursor < p.blocks.length) (op : Operation) :
    (p.after op).mismatchCursor = (p.mismatchCursor + [op].count .reopen) % p.blocks.length := by
  by_cases hOp : op = .reopen
  · subst hOp
    simp [after, reopen_eq h]
  · rw [(after_of_ne hOp).2, List.count_singleton, if_neg (by simpa using hOp), Nat.add_zero,
      Nat.mod_eq_of_lt h]

/-- A mismatch opens the block under the cursor and no other. -/
theorem status?_reopen (h : p.mismatchCursor < p.blocks.length) (b : Nat) :
    p.reopen.2.status? b = if b = p.mismatchCursor then some .needed else p.status? b := by
  have hReopen : p.reopen.2.status? b = (p.mark p.mismatchCursor .needed).status? b := by
    rw [reopen_eq h]
    rfl
  rw [hReopen, status?_mark]
  by_cases hb : p.mismatchCursor = b
  · subst hb
    rw [if_pos rfl, if_pos rfl, status?, List.getElem?_eq_getElem h]
    rfl
  · rw [if_neg hb, if_neg (Ne.symm hb)]

/-! ### Runs -/

@[simp] theorem outline_run (p : Piece) (ops : List Operation) :
    (p.run ops).outline = p.outline := by
  induction ops generalizing p with
  | nil => rfl
  | cons op ops ih => exact (ih (p.after op)).trans (outline_after p op)

theorem cursor_run (h : p.mismatchCursor < p.blocks.length) (ops : List Operation) :
    (p.run ops).mismatchCursor =
      (p.mismatchCursor + ops.count .reopen) % p.blocks.length := by
  induction ops generalizing p with
  | nil => exact (Nat.mod_eq_of_lt h).symm
  | cons op ops ih =>
    have hCursor := cursor_after h op
    have hLength := length_blocks_after p op
    have hNext : (p.after op).mismatchCursor < (p.after op).blocks.length := by
      rw [hCursor, hLength]
      exact Nat.mod_lt _ (Nat.zero_lt_of_lt h)
    calc (p.run (op :: ops)).mismatchCursor
        = ((p.after op).mismatchCursor + ops.count .reopen) % (p.after op).blocks.length :=
          ih hNext
      _ = (p.mismatchCursor + (op :: ops).count .reopen) % p.blocks.length := by
          rw [hCursor, hLength, Nat.mod_add_mod, Nat.add_assoc, ← List.count_append]
          rfl

theorem opened_cons_of_ne (h : op ≠ .reopen) (ops : List Operation) :
    p.opened (op :: ops) = (p.after op).opened ops := by
  cases op <;> first | rfl | exact absurd rfl h

theorem opened_append (p : Piece) (ops more : List Operation) :
    p.opened (ops ++ more) = p.opened ops ++ (p.run ops).opened more := by
  induction ops generalizing p with
  | nil => rfl
  | cons op ops ih =>
    by_cases hOp : op = .reopen
    · subst hOp
      exact congrArg (p.reopen.1 :: ·) (ih p.reopen.2)
    · rw [List.cons_append, opened_cons_of_ne hOp, opened_cons_of_ne hOp]
      exact ih (p.after op)

/-- The blocks that are opened follow one another in the piece, from the cursor on. -/
theorem opened_eq (h : p.mismatchCursor < p.blocks.length) (ops : List Operation) :
    p.opened ops =
      (List.range (ops.count .reopen)).map fun j => (p.mismatchCursor + j) % p.blocks.length := by
  -- From the end, since it is the last mismatch that needs to know how far the cursor has come.
  induction ops using List.reverseRecOn with
  | nil => rfl
  | append_singleton ops op ih =>
    rw [opened_append, ih, List.count_append]
    by_cases hOp : op = .reopen
    · subst hOp
      have hNext : (p.run ops).mismatchCursor < (p.run ops).blocks.length := by
        rw [cursor_run h, length_blocks_of_outline (outline_run p ops)]
        exact Nat.mod_lt _ (Nat.zero_lt_of_lt h)
      rw [List.count_singleton_self, List.range_succ, List.map_append, List.map_singleton]
      simp only [opened, reopen_eq hNext, cursor_run h]
    · rw [opened_cons_of_ne hOp, List.count_singleton, if_neg (by simpa using hOp)]
      exact List.append_nil _

/-- Any mismatches in a row, as many as there are blocks, open every block once. -/
theorem opened_round {j : Nat} (h : p.mismatchCursor < p.blocks.length)
    (hj : j + p.blocks.length ≤ ops.count .reopen) :
    (((p.opened ops).drop j).take p.blocks.length).Perm (List.range p.blocks.length) := by
  have hWindow : ((List.range (ops.count .reopen)).drop j).take p.blocks.length =
      (List.range p.blocks.length).map (j + ·) := by
    apply List.ext_getElem
    · simp only [List.length_take, List.length_drop, List.length_range, List.length_map]
      omega
    · intro k _ _
      simp
  have hShift : (fun i => (p.mismatchCursor + i) % p.blocks.length) ∘ (j + ·) =
      fun i => (p.mismatchCursor + j + i) % p.blocks.length := by
    funext i
    rw [Function.comp_apply, Nat.add_assoc]
  rw [opened_eq h, ← List.map_drop, ← List.map_take, hWindow, List.map_map, hShift]
  exact perm_rotated (p.mismatchCursor + j) p.blocks.length

/-! ### Pieces as they were cut -/

theorem claimsFirst_of_numbered
    (h : ∀ b (block : Block), p.blocks[b]? = some block → block.index = b) :
    p.ClaimsFirst where
  none_iff := by
    constructor
    · intro hNone b hNeeded
      obtain ⟨block, hb, hStatus⟩ := Option.map_eq_some_iff.mp hNeeded
      have hHas : p.hasStatus .needed = true :=
        List.any_eq_true.mpr ⟨block, List.mem_of_getElem? hb, by simpa using hStatus⟩
      obtain ⟨claimed, q, hClaim⟩ := exists_claim hHas
      rw [hNone] at hClaim
      cases hClaim
    · intro hNot
      rw [Option.eq_none_iff_forall_ne_some]
      rintro ⟨block, q⟩ hClaim
      obtain ⟨b, hb, hNeeded, -⟩ := claim_first hClaim
      apply hNot b
      rw [status?, hb, Option.map_some, hNeeded]
  some block q hClaim := by
    obtain ⟨b, hb, hNeeded, hBefore, hMarked⟩ := claim_first hClaim
    obtain rfl := h b block hb
    exact ⟨hb, hNeeded, hBefore, hMarked⟩

/-- Whatever is done to a piece, its blocks keep their numbers. -/
theorem index_run {index length : Nat} {digest : Digest} {blockSize : Nat} {block : Block}
    (hb : ((fresh index length digest blockSize).run ops).blocks[b]? = some block) :
    block.index = b := by
  have hBlank := blank_of_outline (outline_run (fresh index length digest blockSize) ops) b
  rw [hb, Option.map_some] at hBlank
  obtain ⟨cut, hCut, hSame⟩ := Option.map_eq_some_iff.mp hBlank.symm
  obtain ⟨-, rfl⟩ := getElem?_blocks_fresh hCut
  exact (congrArg Block.index hSame).symm

/-- Whatever is done to a piece of `n` blocks, the mismatch after `k` others opens block `k % n` and
changes no other status. So any `n` mismatches in a row open every block once. Number, places and
sizes of the blocks stay what they were, and a claim takes the first block that is needed. -/
theorem reopen_rotates {index length : Nat} {digest : Digest} {blockSize n : Nat}
    (hBlocks : (fresh index length digest blockSize).blocks.length = n) (hPos : 1 ≤ n)
    (ops : List Operation) :
    let start := fresh index length digest blockSize
    let now := start.run ops
    let k := ops.count .reopen
    now.reopen.1 = k % n ∧
      (∀ b, now.reopen.2.status? b = if b = k % n then some .needed else now.status? b) ∧
      start.opened ops = (List.range k).map (· % n) ∧
      (∀ j, j + n ≤ k → (((start.opened ops).drop j).take n).Perm (List.range n)) ∧
      now.outline = start ∧ now.ClaimsFirst := by
  intro start now k
  have hStart : start.mismatchCursor < start.blocks.length := by
    rw [hBlocks]
    exact hPos
  have hCursor : now.mismatchCursor = k % n := by
    rw [← hBlocks, ← Nat.zero_add k]
    exact cursor_run hStart ops
  have hNow : now.mismatchCursor < now.blocks.length := by
    rw [hCursor, length_blocks_of_outline (outline_run start ops), hBlocks]
    exact Nat.mod_lt k hPos
  refine ⟨?_, fun b => ?_, ?_, fun j hj => ?_, ?_, ?_⟩
  · rw [reopen_eq hNow, hCursor]
  · rw [status?_reopen hNow, hCursor]
  · rw [opened_eq hStart, hBlocks]
    exact List.map_congr_left fun j _ => congrArg (· % n) (Nat.zero_add j)
  · rw [← hBlocks] at hj ⊢
    exact opened_round hStart hj
  · exact (outline_run start ops).trans (outline_fresh ..)
  · exact claimsFirst_of_numbered fun b block hb => index_run hb

/-- Five mismatches, with other operations between them, two of which are refused. -/
def restless : List Operation :=
  [.markVerified, .reopen, .claim, .reopen, .store 0 5, .setStatus 3 .requested, .reopen,
    .checkDigest [], .resetRequested, .reopen, .store 9 5, .reopen]

theorem reopen_rotates_fourBlocks :
    (fresh 0 20 Digest.zero 5).blocks.length = 4 ∧ 1 ≤ 4 ∧
      (fresh 0 20 Digest.zero 5).opened restless = [0, 1, 2, 3, 0] ∧
      ((fresh 0 20 Digest.zero 5).run restless).reopen.1 = 1 := by
  have hBlocks : (fresh 0 20 Digest.zero 5).blocks.length = 4 := by decide
  have hPos : 1 ≤ 4 := by decide
  obtain ⟨hNext, -, hOpened, -⟩ := reopen_rotates hBlocks hPos restless
  exact ⟨hBlocks, hPos, hOpened, hNext⟩

end Piece

end TorrentEngine
