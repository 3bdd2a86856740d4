import Mathlib.Algebra.GroupWithZero.Nat
import Mathlib.Data.Finset.Card
import TorrentEngine.Proofs.Asking
import TorrentEngine.Proofs.Reliable

/-!
A content that is being filled in with the right bytes. `Filling` is what holds from the moment at
which blocks are requested to the moment at which their pieces are verified: every block that is
held has the bytes of the content, every requested one is asked for or on its way to the storage,
and every piece that is all stored is verified or about to be checked. Requests, answers and runs of
jobs keep it.
-/

namespace TorrentEngine

namespace FileSet

/-- The file set is cut for a content, by the digests of its pieces. -/
structure Cuts (fs : FileSet) (content : Bytes) : Prop where
  kind_eq : fs.kind = .data
  cut : ∃ blockSize digests, fs.CutFrom blockSize digests
  length_eq : content.length = fs.totalLength
  digest_eq : ∀ (i : Nat) (p : Piece), fs.pieces[i]? = some p →
    sha1 (content.slice (i * fs.pieceLength) p.length) = p.digest

variable {fs fs' plan : FileSet} {content stored : Bytes} {i b : Nat} {p : Piece} {block : Block}

theorem Cuts.sameCut (h : fs.Cuts content) (hCut : SameCut fs fs') : fs'.Cuts content := by
  obtain ⟨blockSize, digests, hFrom⟩ := h.cut
  refine ⟨?_, ⟨blockSize, digests, hFrom.sameCut hCut⟩, ?_, fun i p' hp' => ?_⟩
  · rw [hCut.kind_eq, h.kind_eq]
  · rw [hCut.totalLength_eq, h.length_eq]
  · obtain ⟨p, hp, hOutline⟩ := piece_of_outlines hCut.outlines_eq hp'
    rw [hCut.pieceLength_eq, Piece.length_of_outline hOutline, Piece.digest_of_outline hOutline]
    exact h.digest_eq i p hp

/-- A file set that was created with the digests of a content is cut for it. -/
theorem cuts_create {pieceLength blockSize : Nat} {digests : List Digest} {storage : Storage}
    (h : create .data pieceLength content.length digests blockSize storage = .ok fs)
    (hDigests : ∀ i digest, digests[i]? = some digest → digest =
      sha1 (content.slice (i * pieceLength) (min pieceLength (content.length - i * pieceLength)))) :
    fs.Cuts content := by
  have hFrom := cutFrom_create h
  obtain ⟨_, _, rfl⟩ := create_eq_ok h
  refine ⟨rfl, ⟨blockSize, digests, hFrom⟩, rfl, fun i p hp => ?_⟩
  rw [hFrom.length_eq hp]
  exact (hDigests i p.digest (hFrom.digest_eq hp)).symm

/-- All blocks of a file set that was just created are needed. -/
theorem status?_create {kind : FileSetKind} {pieceLength total blockSize : Nat}
    {digests : List Digest} {storage : Storage}
    (h : create kind pieceLength total digests blockSize storage = .ok fs) {x : BlockPlace}
    {s : BlockStatus} (hs : fs.status? x = some s) : s = .needed := by
  obtain ⟨_, _, rfl⟩ := create_eq_ok h
  obtain ⟨p, block, hp, hb, rfl⟩ := status?_eq_some hs
  obtain ⟨digest, _, rfl⟩ := getElem?_cut hp
  exact congrArg Block.status (Piece.getElem?_blocks_fresh hb).2

theorem sameCut_storage (fs : FileSet) (storage : Storage) : SameCut fs { fs with storage } :=
  ⟨rfl, rfl, rfl, rfl, id⟩

theorem sameCut_mark (hp : fs.pieces[i]? = some p) (storage : Storage) (s : BlockStatus) :
    SameCut fs ({ fs with storage }.setPiece i (p.mark b s)) :=
  (sameCut_storage fs storage).trans
    (sameCut_setPiece hp (Piece.outline_mark p b s) (by simp [Piece.mark]))

theorem sameCut_markVerified (hp : fs.pieces[i]? = some p) (storage : Storage) :
    SameCut fs ({ fs with storage }.setPiece i p.markVerified) :=
  (sameCut_storage fs storage).trans
    (sameCut_setPiece hp (Piece.outline_markVerified p) (by simp [Piece.markVerified]))

theorem SameCut.bytesAt_eq (h : SameCut plan fs) : fs.bytesAt = plan.bytesAt := by
  funext content x
  rw [bytesAt, bytesAt, extent_of_outlines h.outlines_eq, h.pieceLength_eq]

theorem bytesAt_of_block (hp : fs.pieces[i]? = some p) (hb : p.blocks[b]? = some block) :
    fs.bytesAt content (i, b) =
      content.slice (i * fs.pieceLength + p.blockOffset b) block.size := by
  rw [bytesAt, extent_of_block hp hb]

theorem exists_block {x : BlockPlace} (h : (fs.status? x).isSome = true) :
    ∃ p block, fs.pieces[x.1]? = some p ∧ p.blocks[x.2]? = some block := by
  obtain ⟨s, hs⟩ := Option.isSome_iff_exists.mp h
  obtain ⟨p, block, hp, hb, _⟩ := status?_eq_some hs
  exact ⟨p, block, hp, hb⟩

namespace CutFrom

variable {blockSize : Nat} {digests : List Digest} {other : Bytes}

/-- Where all blocks of a piece have the same bytes, the piece has. -/
theorem slice_eq (h : fs.CutFrom blockSize digests) (hp : fs.pieces[i]? = some p)
    (hBlocks : ∀ b block, p.blocks[b]? = some block →
      fs.bytesAt stored (i, b) = fs.bytesAt other (i, b)) :
    stored.slice (i * fs.pieceLength) p.length = other.slice (i * fs.pieceLength) p.length := by
  apply List.ext_getElem?
  intro k
  rw [Bytes.getElem?_slice, Bytes.getElem?_slice]
  split
  · next hk =>
    obtain ⟨b, block, hb, hLow, hHigh⟩ := h.block_covered hp hk
    have hSame := hBlocks b block hb
    rw [bytesAt_of_block hp hb, bytesAt_of_block hp hb] at hSame
    exact Bytes.getElem?_of_slice_eq hSame (by omega) (by omega)
  · rfl

/-- Where all blocks have the same bytes, the content has. -/
theorem getElem?_eq_of_blocks (h : fs.CutFrom blockSize digests)
    (hBlocks : ∀ x, (fs.status? x).isSome = true → fs.bytesAt stored x = fs.bytesAt other x)
    {k : Nat} (hk : k < fs.totalLength) : stored[k]? = other[k]? := by
  obtain ⟨i, p, hp, hLow, hHigh⟩ := h.covered hk
  refine Bytes.getElem?_of_slice_eq (h.slice_eq hp fun b block hb => hBlocks (i, b) ?_) hLow hHigh
  rw [status?_of_block hp hb]
  rfl

/-- Writing one block leaves the others alone. -/
theorem bytesAt_overwrite (h : fs.CutFrom blockSize digests) (hp : fs.pieces[i]? = some p)
    (hb : p.blocks[b]? = some block) {data : Bytes} (hSize : block.size = data.length)
    (hInside : i * fs.pieceLength + p.blockOffset b + data.length ≤ stored.length)
    {x : BlockPlace} (hx : (fs.status? x).isSome = true) :
    fs.bytesAt (stored.overwrite (i * fs.pieceLength + p.blockOffset b) data) x =
      if x = (i, b) then data else fs.bytesAt stored x := by
  split
  · next hSame =>
    rw [hSame, bytesAt_of_block hp hb, hSize]
    exact Bytes.slice_overwrite hInside
  · next hOther =>
    obtain ⟨q, other, hq, hc⟩ := exists_block hx
    have hApart := h.blocks_apart hq hc hp hb hOther
    rw [bytesAt_of_block hq hc, bytesAt_of_block hq hc]
    refine (Bytes.agreeOutside_overwrite hInside).slice_eq ?_
    rw [← hSize]
    omega

end CutFrom

/-- Every block lies inside the content. -/
theorem Cuts.inside (h : fs.Cuts content) (hp : fs.pieces[i]? = some p)
    (hb : p.blocks[b]? = some block) :
    i * fs.pieceLength + p.blockOffset b + block.size ≤ content.length := by
  obtain ⟨_, _, hFrom⟩ := h.cut
  rw [h.length_eq]
  exact hFrom.inside hp hb

theorem Cuts.length_bytesAt (h : fs.Cuts content) (hp : fs.pieces[i]? = some p)
    (hb : p.blocks[b]? = some block) : (fs.bytesAt content (i, b)).length = block.size := by
  have hInside := h.inside hp hb
  rw [bytesAt_of_block hp hb, Bytes.length_slice]
  omega

/-- Where all blocks have the right bytes, all bytes are right. -/
theorem Cuts.eq_of_blocks (h : fs.Cuts content) (hLength : stored.length = content.length)
    (hBlocks : ∀ x, (fs.status? x).isSome = true → fs.bytesAt stored x = fs.bytesAt content x) :
    stored = content := by
  obtain ⟨_, _, hFrom⟩ := h.cut
  refine List.ext_getElem? fun k => ?_
  by_cases hk : k < fs.totalLength
  · exact hFrom.getElem?_eq_of_blocks hBlocks hk
  · have hTotal := h.length_eq
    rw [List.getElem?_eq_none (by omega), List.getElem?_eq_none (by omega)]

/-- The job that stores a block of the content. -/
def storeOf (fs : FileSet) (content : Bytes) (x : BlockPlace) : Job :=
  .store .data x.1 x.2 (fs.bytesAt content x)

theorem storeOf_inj {x y : BlockPlace} (h : fs.storeOf content x = fs.storeOf content y) :
    x = y := by
  simp only [storeOf, Job.store.injEq] at h
  exact Prod.ext h.2.1 h.2.2.1

theorem check_ne_storeOf (i : Nat) (x : BlockPlace) : Job.check .data i ≠ fs.storeOf content x :=
  nofun

/-! ### All blocks -/

/-- The places of all blocks. -/
def places (fs : FileSet) : List BlockPlace :=
  fs.pieces.zipIdx.flatMap fun e => (List.range e.1.blocks.length).map fun b => (e.2, b)

/-- The number of blocks. -/
def blockCount (fs : FileSet) : Nat := (fs.pieces.map fun p => p.blocks.length).sum

theorem length_places (fs : FileSet) : fs.places.length = fs.blockCount := by
  have hCount : (fun e : Piece × Nat =>
      ((List.range e.1.blocks.length).map fun b => (e.2, b)).length) =
        (fun p => p.blocks.length) ∘ Prod.fst := by
    funext e
    simp
  rw [places, List.length_flatMap, hCount, ← List.map_map, List.zipIdx_map_fst, blockCount]

theorem mem_places {x : BlockPlace} : x ∈ fs.places ↔ (fs.status? x).isSome = true := by
  simp only [places, List.mem_flatMap, List.mem_map, List.mem_range, Prod.exists,
    List.mem_zipIdx_iff_getElem?]
  constructor
  · rintro ⟨p, i, hp, b, hLt, rfl⟩
    rw [status?_of_block hp (List.getElem?_eq_getElem hLt)]
    rfl
  · intro h
    obtain ⟨p, block, hp, hb⟩ := exists_block h
    exact ⟨p, x.1, hp, x.2, (List.getElem?_eq_some_iff.mp hb).1, rfl⟩

/-- The places of the needed blocks. -/
def missing (fs : FileSet) : Finset BlockPlace :=
  fs.places.toFinset.filter fun x => fs.status? x = some .needed

theorem mem_missing {x : BlockPlace} : x ∈ fs.missing ↔ fs.status? x = some .needed := by
  rw [missing, Finset.mem_filter, List.mem_toFinset, mem_places]
  constructor
  · exact And.right
  · intro h
    exact ⟨by rw [h]; rfl, h⟩

theorem card_missing_le (fs : FileSet) : fs.missing.card ≤ fs.blockCount := by
  rw [← length_places]
  exact (Finset.card_filter_le _ _).trans (List.toFinset_card_le _)

/-- Where some needed block is requested if any is needed, at least one fewer is missing then. -/
theorem card_missing_asked {asked : Multiset BlockPlace}
    (hAre : ∀ x, fs'.status? x = if x ∈ asked then some .requested else fs.status? x)
    (hNeeded : ∀ x ∈ asked, fs.status? x = some .needed)
    (hSome : ∀ x, fs.status? x = some .needed → asked ≠ 0) :
    fs'.missing.card ≤ fs.missing.card - 1 := by
  have hStill {x : BlockPlace} (hx : x ∈ fs'.missing) : x ∉ asked ∧ x ∈ fs.missing := by
    rw [mem_missing, hAre] at hx
    split at hx
    · cases hx
    · next hOther => exact ⟨hOther, mem_missing.mpr hx⟩
  cases asked using Multiset.induction with
  | empty =>
    have hNone : fs'.missing = ∅ := Finset.eq_empty_of_forall_notMem fun x hx =>
      hSome x (mem_missing.mp (hStill hx).2) rfl
    rw [hNone, Finset.card_empty]
    exact Nat.zero_le _
  | cons y rest =>
    have hAsked := Multiset.mem_cons_self y rest
    have hMissing : y ∈ fs.missing := mem_missing.mpr (hNeeded y hAsked)
    rw [← Finset.card_erase_of_mem hMissing]
    refine Finset.card_le_card fun x hx => Finset.mem_erase.mpr ⟨?_, (hStill hx).2⟩
    rintro rfl
    exact (hStill hx).1 hAsked

/-! ### Blocks that become held -/

/-- Every block has the status it had before, or is held by now. -/
def Raised (fs fs' : FileSet) : Prop :=
  ∀ x, fs'.status? x = fs.status? x ∨
    (fs.status? x).isSome = true ∧ ∃ s, fs'.status? x = some s ∧ s.isHeld = true

theorem Raised.status?_of_open (h : Raised fs fs') {x : BlockPlace} {s : BlockStatus}
    (hs : fs'.status? x = some s) (hOpen : s.isHeld = false) : fs.status? x = some s := by
  rcases h x with hSame | ⟨_, s', hs', hHeld⟩
  · rwa [← hSame]
  · obtain rfl := Option.some.inj (hs.symm.trans hs')
    rw [hOpen] at hHeld
    cases hHeld

theorem Raised.isSome_status? (h : Raised fs fs') {x : BlockPlace}
    (hx : (fs.status? x).isSome = true) : (fs'.status? x).isSome = true := by
  rcases h x with hSame | ⟨_, s, hs, _⟩
  · rwa [hSame]
  · rw [hs]
    rfl

theorem raised_mark (hp : fs.pieces[i]? = some p) (hb : p.blocks[b]? = some block)
    (storage : Storage) {s : BlockStatus} (hHeld : s.isHeld = true) :
    Raised fs ({ fs with storage }.setPiece i (p.mark b s)) := by
  intro x
  have hStatus : (setPiece { fs with storage } i (p.mark b s)).status? x =
      if x = (i, b) then some s else fs.status? x :=
    status?_mark hp hb s x
  by_cases hx : x = (i, b)
  · rw [hStatus, if_pos hx, hx, status?_of_block hp hb]
    exact .inr ⟨rfl, s, rfl, hHeld⟩
  · rw [hStatus, if_neg hx]
    exact .inl rfl

theorem status?_markVerified (hp : fs.pieces[i]? = some p) (storage : Storage) (x : BlockPlace) :
    (setPiece { fs with storage } i p.markVerified).status? x =
      if x.1 = i then (fs.status? x).map fun _ => .verified else fs.status? x := by
  have hPiece : (setPiece { fs with storage } i p.markVerified).pieces[x.1]? =
      if x.1 = i then some p.markVerified else fs.pieces[x.1]? :=
    getElem?_setPiece hp _ x.1
  simp only [status?, hPiece]
  split
  · next hx => simp [hx, hp, Piece.status?, Piece.markVerified, Function.comp_def]
  · rfl

theorem raised_markVerified (hp : fs.pieces[i]? = some p) (storage : Storage) :
    Raised fs ({ fs with storage }.setPiece i p.markVerified) := by
  intro x
  rw [status?_markVerified hp]
  split
  · cases hs : fs.status? x with
    | none => exact .inl rfl
    | some s => exact .inr ⟨rfl, .verified, rfl, rfl⟩
  · exact .inl rfl

end FileSet

/-! ### The invariant -/

/-- The file set `fs`, which `plan` was at first, is being filled with `content`, and its storage
holds `stored`. Blocks outside of `missing` are not needed any more; peers were asked for the blocks
at `asked`, and `jobs` are outstanding. -/
structure Filling (plan : FileSet) (content stored : Bytes) (missing : Finset BlockPlace)
    (asked : Multiset BlockPlace) (jobs : Multiset Job) (fs : FileSet) : Prop where
  sameCut : FileSet.SameCut plan fs
  length_eq : stored.length = content.length
  right : ∀ x s, fs.status? x = some s → s.isHeld = true →
    plan.bytesAt stored x = plan.bytesAt content x
  needed : ∀ x, fs.status? x = some .needed → x ∈ missing
  requested : ∀ x, fs.status? x = some .requested → x ∈ asked ∨ plan.storeOf content x ∈ jobs
  full : ∀ (i : Nat) (p : Piece), fs.pieces[i]? = some p → p.isFullyStored = true →
    p.isDone = true ∨ .check .data i ∈ jobs
  known : ∀ x ∈ asked, (fs.status? x).isSome = true
  known_jobs : ∀ job ∈ jobs, (∃ x, (fs.status? x).isSome = true ∧ job = plan.storeOf content x) ∨
    ∃ i p, job = .check .data i ∧ fs.pieces[i]? = some p ∧ p.isFullyStored = true

namespace Filling

variable {plan fs fs' : FileSet} {content stored : Bytes} {missing : Finset BlockPlace}
  {asked : Multiset BlockPlace} {jobs : Multiset Job}

/-- All blocks are needed at first, so nothing of what is stored matters. -/
theorem start (hCuts : plan.Cuts content) (hLength : stored.length = content.length)
    (hNeeded : ∀ x s, plan.status? x = some s → s = .needed) :
    Filling plan content stored plan.missing 0 0 plan := by
  obtain ⟨_, _, hFrom⟩ := hCuts.cut
  refine
    { sameCut := .refl plan
      length_eq := hLength
      right := ?right
      needed := fun x hx => FileSet.mem_missing.mpr hx
      requested := ?requested
      full := ?full
      known := fun x hx => absurd hx (Multiset.notMem_zero x)
      known_jobs := fun job hJob => absurd hJob (Multiset.notMem_zero job) }
  case right =>
    rintro x s hs hHeld
    rw [hNeeded x s hs] at hHeld
    cases hHeld
  case requested =>
    intro x hx
    cases hNeeded x _ hx
  case full =>
    intro i p hp hFull
    have hb := List.getElem?_eq_getElem (hFrom.blocks_pos hp)
    have hStatus := hNeeded (i, 0) _ (FileSet.status?_of_block hp hb)
    have hHeld := Piece.isFullyStored_iff.mp hFull _ (List.mem_of_getElem? hb)
    rw [hStatus] at hHeld
    cases hHeld

/-- Needed blocks are requested. -/
theorem ask (h : Filling plan content stored missing 0 jobs fs)
    (hSettled : fs'.settled = fs.settled)
    (hAre : ∀ x, fs'.status? x = if x ∈ asked then some .requested else fs.status? x) :
    Filling plan content stored fs'.missing asked jobs fs' := by
  have hSome {x : BlockPlace} (hx : (fs.status? x).isSome = true) :
      (fs'.status? x).isSome = true := by
    rw [hAre]
    split
    · rfl
    · exact hx
  refine
    { sameCut := h.sameCut.trans (FileSet.sameCut_of_settled hSettled)
      length_eq := h.length_eq
      right := ?right
      needed := ?needed
      requested := ?requested
      full := ?full
      known := ?known
      known_jobs := ?known_jobs }
  case right =>
    intro x s hs hHeld
    rw [hAre] at hs
    split at hs
    · cases hs
      cases hHeld
    · exact h.right x s hs hHeld
  case needed =>
    intro x hx
    exact FileSet.mem_missing.mpr hx
  case requested =>
    intro x hx
    rw [hAre] at hx
    split at hx
    · next hMem => exact .inl hMem
    · exact .inr ((h.requested x hx).resolve_left (Multiset.notMem_zero x))
  case full =>
    intro i p' hp' hFull
    obtain ⟨p, hp, hReset⟩ := FileSet.piece_of_settled hSettled hp'
    rw [← Piece.isFullyStored_resetRequested, hReset, Piece.isFullyStored_resetRequested] at hFull
    rw [← Piece.isDone_resetRequested, hReset, Piece.isDone_resetRequested]
    exact h.full i p hp hFull
  case known =>
    intro x hx
    rw [hAre, if_pos hx]
    rfl
  case known_jobs =>
    intro job hJob
    rcases h.known_jobs job hJob with ⟨x, hx, rfl⟩ | ⟨i, p, rfl, hp, hFull⟩
    · exact .inl ⟨x, hSome hx, rfl⟩
    · obtain ⟨p', hp', hReset⟩ := FileSet.piece_of_settled hSettled.symm hp
      refine .inr ⟨i, p', rfl, hp', ?_⟩
      rwa [← Piece.isFullyStored_resetRequested, ← hReset, Piece.isFullyStored_resetRequested]

/-- Nothing is missing, asked for or outstanding: all pieces are verified, and all bytes right. -/
theorem complete (h : Filling plan content stored ∅ 0 0 fs) (hCuts : fs.Cuts content) :
    fs.isDone = true ∧ stored = content := by
  have hHeld {x : BlockPlace} {s : BlockStatus} (hs : fs.status? x = some s) : s.isHeld = true := by
    cases s with
    | needed => cases Finset.notMem_empty x (h.needed x hs)
    | requested =>
      rcases h.requested x hs with hNone | hNone <;> cases Multiset.notMem_zero _ hNone
    | stored | verified => rfl
  refine ⟨List.all_eq_true.mpr fun p hMem => ?_, hCuts.eq_of_blocks h.length_eq fun x hx => ?_⟩
  · obtain ⟨i, hp⟩ := List.getElem?_of_mem hMem
    refine (h.full i p hp ?_).resolve_right (Multiset.notMem_zero _)
    refine Piece.isFullyStored_iff.mpr fun block hBlock => ?_
    obtain ⟨b, hb⟩ := List.getElem?_of_mem hBlock
    exact hHeld (FileSet.status?_of_block hp hb)
  · obtain ⟨s, hs⟩ := Option.isSome_iff_exists.mp hx
    rw [h.sameCut.bytesAt_eq]
    exact h.right x s hs (hHeld hs)

/-- A block that was asked for is on its way to the storage. -/
theorem deliver {x : BlockPlace} (h : Filling plan content stored missing (x ::ₘ asked) jobs fs) :
    Filling plan content stored missing asked (plan.storeOf content x ::ₘ jobs) fs := by
  refine
    { sameCut := h.sameCut
      length_eq := h.length_eq
      right := h.right
      needed := h.needed
      requested := ?requested
      full := ?full
      known := ?known
      known_jobs := ?known_jobs }
  case requested =>
    intro y hy
    rcases h.requested y hy with hAsked | hJob
    · rcases Multiset.mem_cons.mp hAsked with rfl | hAsked
      · exact .inr (Multiset.mem_cons_self _ _)
      · exact .inl hAsked
    · exact .inr (Multiset.mem_cons_of_mem hJob)
  case full =>
    intro i p hp hFull
    exact (h.full i p hp hFull).imp_right Multiset.mem_cons_of_mem
  case known =>
    intro y hy
    exact h.known y (Multiset.mem_cons_of_mem hy)
  case known_jobs =>
    intro job hJob
    rcases Multiset.mem_cons.mp hJob with rfl | hJob
    · exact .inl ⟨x, h.known x (Multiset.mem_cons_self x asked), rfl⟩
    · exact h.known_jobs job hJob

/-- A block that came though it is held already is not stored again. -/
theorem deliver_held {x : BlockPlace} {s : BlockStatus}
    (h : Filling plan content stored missing (x ::ₘ asked) jobs fs) (hs : fs.status? x = some s)
    (hHeld : s.isHeld = true) : Filling plan content stored missing asked jobs fs := by
  refine
    { sameCut := h.sameCut
      length_eq := h.length_eq
      right := h.right
      needed := h.needed
      requested := ?requested
      full := h.full
      known := ?known
      known_jobs := h.known_jobs }
  case requested =>
    intro y hy
    refine (h.requested y hy).imp_left fun hAsked => (Multiset.mem_cons.mp hAsked).resolve_left ?_
    rintro rfl
    rw [hs] at hy
    cases hy
    cases hHeld
  case known =>
    intro y hy
    exact h.known y (Multiset.mem_cons_of_mem hy)

/-- A store that finds its block held leaves. -/
theorem store_held {x : BlockPlace} {s : BlockStatus}
    (h : Filling plan content stored missing asked (plan.storeOf content x ::ₘ jobs) fs)
    (hs : fs.status? x = some s) (hHeld : s.isHeld = true) :
    Filling plan content stored missing asked jobs fs := by
  refine
    { sameCut := h.sameCut
      length_eq := h.length_eq
      right := h.right
      needed := h.needed
      requested := ?requested
      full := ?full
      known := h.known
      known_jobs := ?known_jobs }
  case requested =>
    intro y hy
    refine (h.requested y hy).imp_right fun hJob => (Multiset.mem_cons.mp hJob).resolve_left ?_
    intro hSame
    rw [FileSet.storeOf_inj hSame, hs] at hy
    cases hy
    cases hHeld
  case full =>
    intro i p hp hFull
    exact (h.full i p hp hFull).imp_right fun hJob =>
      (Multiset.mem_cons.mp hJob).resolve_left (FileSet.check_ne_storeOf i x)
  case known_jobs =>
    intro job hJob
    exact h.known_jobs job (Multiset.mem_cons_of_mem hJob)

/-- A store of an open block makes it held, with the right bytes. -/
theorem store_open {i b : Nat} {p : Piece} {block : Block} {storage : Storage}
    (h : Filling plan content stored missing asked (plan.storeOf content (i, b) ::ₘ jobs) fs)
    (hCuts : fs.Cuts content) (hp : fs.pieces[i]? = some p) (hb : p.blocks[b]? = some block)
    (hOpen : block.status.isHeld = false) :
    Filling plan content (stored.overwrite (i * fs.pieceLength + p.blockOffset b)
        (plan.bytesAt content (i, b))) missing asked
      (((if (p.mark b .stored).isFullyStored then [.check .data i] else []) : List Job) + jobs)
      ({ fs with storage }.setPiece i (p.mark b .stored)) := by
  have hRaised := FileSet.raised_mark hp hb storage (s := .stored) rfl
  have hStatus (x : BlockPlace) :
      (FileSet.setPiece { fs with storage } i (p.mark b .stored)).status? x =
        if x = (i, b) then some .stored else fs.status? x :=
    FileSet.status?_mark hp hb .stored x
  have hPiece (k : Nat) :
      (FileSet.setPiece { fs with storage } i (p.mark b .stored)).pieces[k]? =
        if k = i then some (p.mark b .stored) else fs.pieces[k]? :=
    FileSet.getElem?_setPiece hp _ k
  have hSame := h.sameCut.bytesAt_eq
  have hData : (plan.bytesAt content (i, b)).length = block.size := by
    rw [← hSame]
    exact hCuts.length_bytesAt hp hb
  have hInside : i * fs.pieceLength + p.blockOffset b + (plan.bytesAt content (i, b)).length ≤
      stored.length := by
    rw [hData, h.length_eq]
    exact hCuts.inside hp hb
  refine
    { sameCut := h.sameCut.trans (FileSet.sameCut_mark hp storage .stored)
      length_eq := ?length_eq
      right := ?right
      needed := ?needed
      requested := ?requested
      full := ?full
      known := ?known
      known_jobs := ?known_jobs }
  case length_eq => rw [Bytes.length_overwrite hInside, h.length_eq]
  case right =>
    intro x s hs hHeld
    have hx : (fs.status? x).isSome = true := by
      rcases hRaised x with hOld | ⟨hx, _⟩
      · rw [← hOld, hs]
        rfl
      · exact hx
    obtain ⟨_, _, hFrom⟩ := hCuts.cut
    have hWritten := hFrom.bytesAt_overwrite hp hb hData.symm hInside hx
    rw [hSame] at hWritten
    rw [hWritten]
    split
    · next hHere => rw [hHere]
    · next hOther =>
      rw [hStatus, if_neg hOther] at hs
      exact h.right x s hs hHeld
  case needed =>
    intro x hx
    exact h.needed x (hRaised.status?_of_open hx rfl)
  case requested =>
    intro x hx
    refine (h.requested x (hRaised.status?_of_open hx rfl)).imp_right fun hJob =>
      Multiset.mem_add.mpr (.inr ((Multiset.mem_cons.mp hJob).resolve_left fun hEq => ?_))
    rw [hStatus, if_pos (FileSet.storeOf_inj hEq)] at hx
    cases hx
  case full =>
    intro k q hq hFull
    rw [hPiece] at hq
    split at hq
    · next hEq =>
      cases hq
      rw [if_pos hFull, hEq]
      exact .inr (Multiset.mem_add.mpr (.inl (Multiset.mem_coe.mpr List.mem_cons_self)))
    · refine (h.full k q hq hFull).imp_right fun hJob => Multiset.mem_add.mpr (.inr ?_)
      exact (Multiset.mem_cons.mp hJob).resolve_left (FileSet.check_ne_storeOf k _)
  case known =>
    intro x hx
    exact hRaised.isSome_status? (h.known x hx)
  case known_jobs =>
    intro job hJob
    rcases Multiset.mem_add.mp hJob with hNew | hOld
    · split at hNew
      · next hFull =>
        obtain rfl := List.mem_singleton.mp (Multiset.mem_coe.mp hNew)
        exact .inr ⟨i, _, rfl, by rw [hPiece, if_pos rfl], hFull⟩
      · cases hNew
    · have hKnown := h.known_jobs job (Multiset.mem_cons_of_mem hOld)
      rcases hKnown with ⟨x, hx, rfl⟩ | ⟨k, q, rfl, hq, hFull⟩
      · exact .inl ⟨x, hRaised.isSome_status? hx, rfl⟩
      · refine .inr ⟨k, q, rfl, ?_, hFull⟩
        rw [hPiece, if_neg, hq]
        rintro rfl
        obtain rfl := Option.some.inj (hp.symm.trans hq)
        rw [Piece.not_isFullyStored hb hOpen] at hFull
        cases hFull

/-- A check of a piece with the right bytes makes it verified. -/
theorem check {i : Nat} {p : Piece} {storage : Storage}
    (h : Filling plan content stored missing asked (.check .data i ::ₘ jobs) fs)
    (hp : fs.pieces[i]? = some p) (hFull : p.isFullyStored = true) :
    Filling plan content stored missing asked jobs
      ({ fs with storage }.setPiece i p.markVerified) := by
  have hRaised := FileSet.raised_markVerified hp storage
  have hPiece (k : Nat) :
      (FileSet.setPiece { fs with storage } i p.markVerified).pieces[k]? =
        if k = i then some p.markVerified else fs.pieces[k]? :=
    FileSet.getElem?_setPiece hp _ k
  have hHeld {x : BlockPlace} {s : BlockStatus} (hx : x.1 = i) (hs : fs.status? x = some s) :
      s.isHeld = true := by
    obtain ⟨q, block, hq, hb, rfl⟩ := FileSet.status?_eq_some hs
    rw [hx, hp] at hq
    cases hq
    exact Piece.isFullyStored_iff.mp hFull block (List.mem_of_getElem? hb)
  refine
    { sameCut := h.sameCut.trans (FileSet.sameCut_markVerified hp storage)
      length_eq := h.length_eq
      right := ?right
      needed := ?needed
      requested := ?requested
      full := ?full
      known := ?known
      known_jobs := ?known_jobs }
  case right =>
    intro x s hs hHeldS
    rw [FileSet.status?_markVerified hp] at hs
    split at hs
    · next hx =>
      obtain ⟨s', hs', _⟩ := Option.map_eq_some_iff.mp hs
      exact h.right x s' hs' (hHeld hx hs')
    · exact h.right x s hs hHeldS
  case needed =>
    intro x hx
    exact h.needed x (hRaised.status?_of_open hx rfl)
  case requested =>
    intro x hx
    refine (h.requested x (hRaised.status?_of_open hx rfl)).imp_right fun hJob => ?_
    exact (Multiset.mem_cons.mp hJob).resolve_left (FileSet.check_ne_storeOf i x).symm
  case full =>
    intro k q hq hFullQ
    rw [hPiece] at hq
    split at hq
    · cases hq
      exact .inl (Piece.isDone_markVerified p)
    · next hOther =>
      refine (h.full k q hq hFullQ).imp_right fun hJob => ?_
      exact (Multiset.mem_cons.mp hJob).resolve_left (by simpa using hOther)
  case known =>
    intro x hx
    exact hRaised.isSome_status? (h.known x hx)
  case known_jobs =>
    intro job hJob
    have hKnown := h.known_jobs job (Multiset.mem_cons_of_mem hJob)
    rcases hKnown with ⟨x, hx, rfl⟩ | ⟨k, q, rfl, hq, hFullQ⟩
    · exact .inl ⟨x, hRaised.isSome_status? hx, rfl⟩
    · by_cases hk : k = i
      · subst hk
        exact .inr ⟨k, p.markVerified, rfl, by rw [hPiece, if_pos rfl],
          Piece.isFullyStored_of_isDone (Piece.isDone_markVerified p)⟩
      · exact .inr ⟨k, q, rfl, by rw [hPiece, if_neg hk, hq], hFullQ⟩

end Filling

end TorrentEngine
