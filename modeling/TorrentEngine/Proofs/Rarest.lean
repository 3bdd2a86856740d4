import Mathlib.Data.Bool.Basic
import Mathlib.Data.Prod.Lex
import TorrentEngine.Proofs.Passes

/-!
The rarest piece first. Ranking is a stable sort by availability, so pieces in ascending order come
out by availability and then by index; the first started one among them, or else the first of all,
is the one that comes first where started pieces are preferred to all others.
-/

namespace TorrentEngine

/-! ### Ranking -/

namespace Rarity

variable (r : Rarity)

theorem availability_ofPeers (peers : List Peer) (i : Nat) :
    (ofPeers peers).availability i = peers.countP (·.hasPiece i) := by
  rw [availability, ofPeers, List.countP_map]
  rfl

theorem availability_trans (a b c : Piece)
    (hab : decide (r.availability a.index ≤ r.availability b.index) = true)
    (hbc : decide (r.availability b.index ≤ r.availability c.index) = true) :
    decide (r.availability a.index ≤ r.availability c.index) = true :=
  decide_eq_true ((of_decide_eq_true hab).trans (of_decide_eq_true hbc))

theorem availability_total (a b : Piece) :
    (decide (r.availability a.index ≤ r.availability b.index) ||
      decide (r.availability b.index ≤ r.availability a.index)) = true := by
  simpa using Nat.le_total (r.availability a.index) (r.availability b.index)

theorem rank_perm (pieces : List Piece) : (r.rank pieces).Perm pieces := List.mergeSort_perm ..

theorem rank_sorted (pieces : List Piece) :
    (r.rank pieces).Pairwise fun a b => r.availability a.index ≤ r.availability b.index :=
  (List.pairwise_mergeSort r.availability_trans r.availability_total pieces).imp of_decide_eq_true

/-- Pieces that are equally available keep their order. -/
theorem rank_stable (pieces : List Piece) (n : Nat) :
    (r.rank pieces).filter (fun p => r.availability p.index = n) =
      pieces.filter fun p => r.availability p.index = n := by
  have hEqual : (pieces.filter fun p => r.availability p.index = n).Pairwise fun a b =>
      decide (r.availability a.index ≤ r.availability b.index) = true := by
    refine List.pairwise_of_forall_mem_list fun a ha b hb => ?_
    have haN := of_decide_eq_true (List.mem_filter.mp ha).2
    have hbN := of_decide_eq_true (List.mem_filter.mp hb).2
    rw [decide_eq_true_eq, haN, hbN]
  have hSublist := (List.sublist_mergeSort r.availability_trans r.availability_total hEqual
    List.filter_sublist).filter fun p => r.availability p.index = n
  rw [List.filter_filter] at hSublist
  simp only [Bool.and_self] at hSublist
  exact (hSublist.eq_of_length ((r.rank_perm pieces).filter _).length_eq.symm).symm

end Rarity

/-! ### Orders by several keys -/

/-- A list in the order of a key, in which the things of each key are in another order, is in the
order of the key and then of the other. -/
theorem pairwise_lex {α β γ : Type} [LinearOrder β] [Preorder γ] {key : α → β} {tie : α → γ}
    {l : List α} (hKey : l.Pairwise fun a b => key a ≤ key b)
    (hTie : ∀ k, (l.filter fun a => key a = k).Pairwise fun a b => tie a < tie b) :
    l.Pairwise fun a b => toLex (key a, tie a) < toLex (key b, tie b) := by
  induction l with
  | nil => exact .nil
  | cons x rest ih =>
    obtain ⟨hFirst, hRest⟩ := List.pairwise_cons.mp hKey
    refine .cons (fun b hb => Prod.Lex.lt_iff.mpr ?_) (ih hRest fun k => ?_)
    · rcases (hFirst b hb).lt_or_eq with hLess | hEqual
      · exact .inl hLess
      · have hSame := hTie (key x)
        rw [List.filter_cons_of_pos (by simp)] at hSame
        refine .inr ⟨hEqual, (List.pairwise_cons.mp hSame).1 b ?_⟩
        exact List.mem_filter.mpr ⟨hb, by simp [hEqual]⟩
    · have hAll := hTie k
      rw [List.filter_cons] at hAll
      split at hAll
      · exact hAll.of_cons
      · exact hAll

/-- The first thing of a kind in an ordered list, or else the first of all, is the least where those
of the kind come before the others. -/
theorem find?_or_head?_least {α β : Type} [LinearOrder β] {key : α → β} {kind : α → Bool}
    {l : List α} (hOrder : l.Pairwise fun a b => key a < key b) {x : α}
    (h : (l.find? kind).or l.head? = some x) :
    ∀ y ∈ l, toLex (!kind x, key x) ≤ toLex (!kind y, key y) := by
  induction l with
  | nil => cases h
  | cons first rest ih =>
    obtain ⟨hFirst, hRest⟩ := List.pairwise_cons.mp hOrder
    intro y hy
    rw [Prod.Lex.le_iff]
    cases hKind : kind first with
    | true =>
      obtain rfl : first = x := by simpa [List.find?_cons, hKind] using h
      rcases List.mem_cons.mp hy with rfl | hy
      · exact .inr ⟨rfl, le_rfl⟩
      · cases hOther : kind y with
        | true => exact .inr ⟨by simp [hKind], (hFirst y hy).le⟩
        | false => exact .inl (by simp [hKind])
    | false =>
      rw [List.find?_cons_of_neg (by simp [hKind])] at h
      cases hFound : rest.find? kind with
      | some z =>
        obtain rfl : z = x := by simpa [hFound] using h
        rcases List.mem_cons.mp hy with rfl | hy
        · exact .inl (by simp [hKind, List.find?_some hFound])
        · exact Prod.Lex.le_iff.mp (ih hRest (by rw [hFound]; rfl) y hy)
      | none =>
        obtain rfl : first = x := by simpa [hFound] using h
        rcases List.mem_cons.mp hy with rfl | hy
        · exact .inr ⟨rfl, le_rfl⟩
        · have hOther : kind y = false := by simpa using List.find?_eq_none.mp hFound y hy
          exact .inr ⟨by simp [hKind, hOther], (hFirst y hy).le⟩

/-! ### What is picked -/

namespace FileSet

/-- Piece `i` is one that a peer can be asked for: the peer has it, it is not verified, and some
block of it is needed. -/
structure Askable (fs : FileSet) (peer : Peer) (i : Nat) (p : Piece) : Prop where
  hasPiece : fs.pieces[i]? = some p
  held : peer.hasPiece i = true
  notDone : p.isDone = false
  needed : ∃ block ∈ p.blocks, block.status = .needed

/-- The order in which pieces are preferred: started ones first, then those that the fewest of the
peers have, then those of the lowest index. -/
def preference (peers : List Peer) (i : Nat) (p : Piece) : Bool ×ₗ Nat ×ₗ Nat :=
  toLex (!p.isStarted, toLex (peers.countP (·.hasPiece i), i))

variable {fs : FileSet} {blockSize : Nat} {digests : List Digest} {peer : Peer} {i : Nat}
  {p : Piece}

theorem askable_iff (h : fs.CutFrom blockSize digests) :
    fs.Askable peer i p ↔ p ∈ fs.candidates peer ∧ p.index = i := by
  constructor
  · rintro ⟨hp, hHeld, hNotDone, block, hBlock, hNeeded⟩
    have hIndex := h.index_eq hp
    refine ⟨?_, hIndex⟩
    simp only [candidates, neededPieces, List.mem_filter, hIndex, hHeld, hNotDone]
    exact ⟨⟨List.mem_of_getElem? hp, rfl⟩,
      List.any_eq_true.mpr ⟨block, hBlock, decide_eq_true hNeeded⟩⟩
  · rintro ⟨hMem, rfl⟩
    obtain ⟨hPiece, hHeld, hStatus⟩ := of_mem_candidates hMem
    obtain ⟨i, hi⟩ := List.getElem?_of_mem hPiece
    rw [← h.index_eq hi] at hi
    obtain ⟨block, hBlock, hNeeded⟩ := List.any_eq_true.mp hStatus
    refine ⟨hi, hHeld, ?_, block, hBlock, of_decide_eq_true hNeeded⟩
    simpa using (List.mem_filter.mp (List.mem_filter.mp hMem).1).2

/-- Candidates stand in the order of their indices. -/
theorem candidates_ascending (h : fs.CutFrom blockSize digests) (peer : Peer) :
    (fs.candidates peer).Pairwise fun a b => a.index < b.index := by
  have hPieces : fs.pieces.Pairwise fun a b => a.index < b.index := by
    rw [List.pairwise_iff_getElem]
    intro i j hi hj hLess
    rwa [h.index_eq (List.getElem?_eq_getElem hi), h.index_eq (List.getElem?_eq_getElem hj)]
  exact (hPieces.filter _).filter _

/-- Ranked candidates stand in the order of availability and, where that is the same, of their
indices. -/
theorem ranked_candidates (h : fs.CutFrom blockSize digests) (peer : Peer) (r : Rarity) :
    (r.rank (fs.candidates peer)).Pairwise fun a b =>
      toLex (r.availability a.index, a.index) < toLex (r.availability b.index, b.index) := by
  refine pairwise_lex (r.rank_sorted _) fun n => ?_
  rw [r.rank_stable]
  exact (candidates_ascending h peer).filter _

/-- The piece that is picked is preferred to every other that the peer can be asked for. -/
theorem preference_of_pick (h : fs.CutFrom blockSize digests) {peers : List Peer}
    (hPick : Selector.rarest.pick peer fs (.ofPeers peers) = some i) :
    ∃ p, fs.Askable peer i p ∧
      ∀ j q, fs.Askable peer j q → preference peers i p ≤ preference peers j q := by
  obtain ⟨p, hFirst, rfl⟩ := Option.map_eq_some_iff.mp hPick
  have hLeast := find?_or_head?_least (ranked_candidates h peer (.ofPeers peers)) hFirst
  refine ⟨p, (askable_iff h).mpr ⟨candidate_of_ranked hFirst, rfl⟩, fun j q hq => ?_⟩
  obtain ⟨hMem, rfl⟩ := (askable_iff h).mp hq
  have hRanked := hLeast q (List.mem_mergeSort.mpr hMem)
  rwa [Rarity.availability_ofPeers, Rarity.availability_ofPeers] at hRanked

theorem exists_pick (h : fs.CutFrom blockSize digests) (hAskable : fs.Askable peer i p)
    (r : Rarity) : ∃ j, Selector.rarest.pick peer fs r = some j := by
  obtain ⟨hMem, -⟩ := (askable_iff h).mp hAskable
  obtain ⟨q, -, hPick⟩ := Download.pick_rarest hMem r
  exact ⟨q.index, hPick⟩

/-- Equally preferred pieces are the same. -/
theorem index_of_preference {peers : List Peer} {j : Nat} {q : Piece}
    (h : preference peers i p ≤ preference peers j q)
    (h' : preference peers j q ≤ preference peers i p) : i = j := by
  have hEqual := le_antisymm h h'
  simp only [preference, toLex_inj, Prod.mk.injEq] at hEqual
  exact hEqual.2.2

end FileSet

/-- The rarest-first selector finds nothing exactly if the peer can be asked for nothing, and
otherwise the piece that is least in the order of preference among those that the peer can be asked
for. Ranking, by the number of peers that have a piece, gives a sorted permutation in which pieces
that equally many peers have keep their order. -/
theorem Selector.pick_least {fs : FileSet} {blockSize : Nat} {digests : List Digest}
    (h : fs.CutFrom blockSize digests) (peer : Peer) (peers : List Peer) :
    (Selector.rarest.pick peer fs (.ofPeers peers) = none ↔ ∀ i p, ¬ fs.Askable peer i p) ∧
    (∀ i, Selector.rarest.pick peer fs (.ofPeers peers) = some i ↔ ∃ p, fs.Askable peer i p ∧
      ∀ j q, fs.Askable peer j q →
        FileSet.preference peers i p ≤ FileSet.preference peers j q) ∧
    ∀ pieces, ((Rarity.ofPeers peers).rank pieces).Perm pieces ∧
      (((Rarity.ofPeers peers).rank pieces).Pairwise fun a b =>
        peers.countP (·.hasPiece a.index) ≤ peers.countP (·.hasPiece b.index)) ∧
      ∀ n, ((Rarity.ofPeers peers).rank pieces).filter
          (fun p => peers.countP (·.hasPiece p.index) = n) =
        pieces.filter fun p => peers.countP (·.hasPiece p.index) = n := by
  refine ⟨⟨fun hNone i p hAskable => ?_, fun hNone => ?_⟩, fun i => ⟨?_, ?_⟩, fun pieces => ?_⟩
  · obtain ⟨j, hPick⟩ := FileSet.exists_pick h hAskable (.ofPeers peers)
    rw [hNone] at hPick
    cases hPick
  · rw [Option.eq_none_iff_forall_ne_some]
    intro i hPick
    obtain ⟨p, hAskable, -⟩ := FileSet.preference_of_pick h hPick
    exact hNone i p hAskable
  · exact FileSet.preference_of_pick h
  · rintro ⟨p, hAskable, hLeast⟩
    obtain ⟨j, hPick⟩ := FileSet.exists_pick h hAskable (.ofPeers peers)
    obtain ⟨q, hOther, hLeast'⟩ := FileSet.preference_of_pick h hPick
    rw [hPick, FileSet.index_of_preference (hLeast j q hOther) (hLeast' i p hAskable)]
  · simp only [← Rarity.availability_ofPeers]
    exact ⟨Rarity.rank_perm _ pieces, Rarity.rank_sorted _ pieces, Rarity.rank_stable _ pieces⟩

/-- Five pieces of two blocks each. The last is verified, the first is not started, and of the
others a block is requested. -/
def FileSet.contested : FileSet :=
  { kind := .data
    pieceLength := 2
    totalLength := 10
    pieces := (FileSet.cut 2 10 1 (List.replicate 5 Digest.zero)).zipWith Piece.withStatuses
      [[], [.requested], [.requested], [.requested], [.verified, .verified]]
    storage := .memory (List.replicate 10 0) }

/-- A peer that has some pieces and nothing else to tell of. -/
def Peer.having (pieces : List Nat) : Peer :=
  { Peer.connected 0 1 with pieces := .ofList pieces }

/-- Two of the started pieces are had by three peers each, of which one is listed twice; the lower
one is picked, though a piece that is not started is rarer. -/
theorem Selector.pick_least_contested :
    FileSet.contested.CutFrom 1 (List.replicate 5 Digest.zero) ∧
    Selector.rarest.pick (.having [0, 1, 2, 3, 4]) FileSet.contested
      (.ofPeers [.having [0, 1, 2, 3, 4], .having [1, 2, 3], .having [1, 2, 3], .having [1]]) =
        some 2 := by
  have hCut : FileSet.contested.CutFrom 1 (List.replicate 5 Digest.zero) :=
    ⟨by decide, by decide, by decide +kernel, by decide⟩
  refine ⟨hCut, ((pick_least hCut _ _).2.1 2).mpr ⟨_, ⟨rfl, by decide, by decide, by decide⟩, ?_⟩⟩
  rintro j q ⟨hPiece, -, hNotDone, -⟩
  have hLow : j < 5 := (List.getElem?_eq_some_iff.mp hPiece).1
  have hCases : j = 4 ∨ j = 0 ∨ j = 1 ∨ j = 2 ∨ j = 3 := by omega
  rcases hCases with rfl | rfl | rfl | rfl | rfl <;> obtain rfl := Option.some.inj hPiece
  · cases hNotDone
  all_goals decide

end TorrentEngine
