import Mathlib.Data.Finset.Dedup
import Mathlib.Data.Finset.Union
import TorrentEngine.Proofs.Filling

/-!
Blocks stored in any order. What a set of stores makes of a file set depends on the places of their
blocks only, and what it makes of the bytes is told block by block, so neither depends on the order.
Whichever store comes last in a piece has it checked: one check is asked for of each piece that the
stores complete, and none of any other.
-/

namespace TorrentEngine

/-! ### Pieces -/

/-- The block with its bytes stored, if they are not already. -/
def Block.stock (b : Block) : Block := if b.status.isHeld then b else { b with status := .stored }

theorem Block.blank_stock (b : Block) : b.stock.blank = b.blank := by
  rw [stock]
  split <;> rfl

namespace Piece

/-- The piece with some of its blocks stored. -/
def stock (p : Piece) (here : Nat → Bool) : Piece :=
  { p with blocks := p.blocks.mapIdx fun b block => if here b then block.stock else block }

theorem getElem?_stock (p : Piece) (here : Nat → Bool) (b : Nat) :
    (p.stock here).blocks[b]? =
      p.blocks[b]?.map fun block => if here b then block.stock else block := by
  rw [stock, List.getElem?_mapIdx]

/-- Pieces that agree but for their blocks are the same if these are. -/
theorem eq_of_blocks {p q : Piece} (h : { q with blocks := p.blocks } = p)
    (hBlocks : ∀ b : Nat, q.blocks[b]? = p.blocks[b]?) : q = p := by
  rw [← h, ← List.ext_getElem? hBlocks]

theorem stock_stock (p : Piece) (here there : Nat → Bool) :
    (p.stock here).stock there = p.stock fun b => here b || there b := by
  refine eq_of_blocks rfl fun b => ?_
  rw [getElem?_stock, getElem?_stock, getElem?_stock, Option.map_map]
  congr 1
  funext block
  cases hHere : here b <;> cases hThere : there b <;> cases hStatus : block.status <;>
    simp [Block.stock, hStatus, BlockStatus.isHeld]

theorem outline_stock (p : Piece) (here : Nat → Bool) : (p.stock here).outline = p.outline := by
  refine outline_congr (List.ext_getElem? fun b => ?_) rfl
  rw [List.getElem?_map, List.getElem?_map, getElem?_stock, Option.map_map]
  congr 1
  funext block
  rw [Function.comp_apply]
  split
  · exact block.blank_stock
  · rfl

/-- Where the blocks are held already nothing changes. -/
theorem stock_of_held {p : Piece} {here : Nat → Bool}
    (h : ∀ b block, p.blocks[b]? = some block → here b = true → block.status.isHeld = true) :
    p.stock here = p := by
  refine eq_of_blocks rfl fun b => ?_
  rw [getElem?_stock]
  cases hb : p.blocks[b]? with
  | none => rfl
  | some block =>
    simp only [Option.map_some, Block.stock]
    split
    · next hHere => rw [if_pos (h b block hb hHere)]
    · rfl

theorem stock_of_isFullyStored {p : Piece} (h : p.isFullyStored = true) (here : Nat → Bool) :
    p.stock here = p :=
  stock_of_held fun _ block hb _ => isFullyStored_iff.mp h block (List.mem_of_getElem? hb)

/-- Storing one open block. -/
theorem stock_of_open {p : Piece} {b : Nat} {block : Block} (hb : p.blocks[b]? = some block)
    (hOpen : block.status.isHeld = false) :
    p.stock (fun c => decide (c = b)) = p.mark b .stored := by
  refine eq_of_blocks rfl fun c => ?_
  rw [getElem?_stock, getElem?_blocks_mark]
  by_cases hc : b = c
  · subst hc
    simp [hb, Block.stock, hOpen]
  · simp [hc, Ne.symm hc]

end Piece

/-! ### File sets -/

namespace FileSet

variable {fs : FileSet} {i b : Nat} {p : Piece} {block : Block} {s s' : Finset BlockPlace}

/-- The file set with the blocks at some places stored. -/
def stock (fs : FileSet) (places : Finset BlockPlace) : FileSet :=
  { fs with pieces := fs.pieces.mapIdx fun i p => p.stock fun b => decide ((i, b) ∈ places) }

theorem getElem?_stock (fs : FileSet) (places : Finset BlockPlace) (i : Nat) :
    (fs.stock places).pieces[i]? =
      fs.pieces[i]?.map (·.stock fun b => decide ((i, b) ∈ places)) := by
  rw [stock, List.getElem?_mapIdx]

/-- File sets that agree but for their pieces are the same if these are. -/
theorem eq_of_pieces {fs' : FileSet} (h : { fs' with pieces := fs.pieces } = fs)
    (hPieces : ∀ i : Nat, fs'.pieces[i]? = fs.pieces[i]?) : fs' = fs := by
  rw [← h, ← List.ext_getElem? hPieces]

theorem stock_stock (fs : FileSet) (s s' : Finset BlockPlace) :
    (fs.stock s).stock s' = fs.stock (s ∪ s') := by
  refine eq_of_pieces rfl fun i => ?_
  rw [getElem?_stock, getElem?_stock, getElem?_stock, Option.map_map]
  congr 1
  funext p
  rw [Function.comp_apply, Piece.stock_stock]
  simp only [Finset.mem_union, Bool.decide_or]

theorem stock_empty (fs : FileSet) : fs.stock ∅ = fs := by
  refine eq_of_pieces rfl fun i => ?_
  rw [getElem?_stock]
  cases fs.pieces[i]? with
  | none => rfl
  | some p =>
    rw [Option.map_some, Piece.stock_of_held]
    intro b block _ hHere
    simp at hHere

theorem stock_of_held (hp : fs.pieces[i]? = some p) (hb : p.blocks[b]? = some block)
    (hHeld : block.status.isHeld = true) : fs.stock {(i, b)} = fs := by
  refine eq_of_pieces rfl fun k => ?_
  rw [getElem?_stock]
  cases hq : fs.pieces[k]? with
  | none => rfl
  | some q =>
    rw [Option.map_some, Piece.stock_of_held]
    intro c other hc hHere
    obtain ⟨rfl, rfl⟩ : k = i ∧ c = b := by simpa using hHere
    obtain rfl := Option.some.inj (hq.symm.trans hp)
    obtain rfl := Option.some.inj (hc.symm.trans hb)
    exact hHeld

theorem stock_of_open (hp : fs.pieces[i]? = some p) (hb : p.blocks[b]? = some block)
    (hOpen : block.status.isHeld = false) :
    fs.stock {(i, b)} = fs.setPiece i (p.mark b .stored) := by
  refine eq_of_pieces rfl fun k => ?_
  rw [getElem?_stock, getElem?_setPiece hp]
  split
  · next hk =>
    subst hk
    rw [hp, Option.map_some, ← Piece.stock_of_open hb hOpen]
    simp
  · next hk =>
    cases fs.pieces[k]? with
    | none => rfl
    | some q =>
      rw [Option.map_some, Piece.stock_of_held]
      intro c other _ hHere
      exact absurd (show k = i ∧ c = b by simpa using hHere).1 hk

theorem status?_stock (fs : FileSet) (s : Finset BlockPlace) (x : BlockPlace) :
    (fs.stock s).status? x = (fs.status? x).map fun status =>
      if x ∈ s ∧ status.isHeld = false then .stored else status := by
  simp only [status?, getElem?_stock, Option.bind_map, Option.map_bind]
  congr 1
  funext p
  simp only [Function.comp_apply, Piece.status?, Piece.getElem?_stock, Option.map_map]
  congr 1
  funext block
  simp only [Function.comp_apply, Block.stock, decide_eq_true_eq]
  by_cases hx : x ∈ s <;> cases hStatus : block.status <;> simp [hx, hStatus, BlockStatus.isHeld]

theorem sameCut_stock (fs : FileSet) (s : Finset BlockPlace) : SameCut fs (fs.stock s) := by
  refine ⟨rfl, rfl, rfl, List.ext_getElem? fun i => ?_, fun hAll q hq => ?_⟩
  · rw [List.getElem?_map, List.getElem?_map, getElem?_stock, Option.map_map]
    congr 1
    funext p
    exact Piece.outline_stock p _
  · obtain ⟨i, hi⟩ := List.getElem?_of_mem hq
    rw [getElem?_stock] at hi
    obtain ⟨p, hp, rfl⟩ := Option.map_eq_some_iff.mp hi
    simpa [Piece.stock] using hAll p (List.mem_of_getElem? hp)

/-- Whether the bytes of a piece are all in the storage. -/
def isFull (fs : FileSet) (i : Nat) : Bool := (fs.piece? i).any Piece.isFullyStored

/-- The pieces of which storing the blocks at some places stores the last ones. -/
def completedBy (fs : FileSet) (places : Finset BlockPlace) : Finset Nat :=
  (Finset.range fs.pieceCount).filter fun i =>
    fs.isFull i = false ∧ (fs.stock places).isFull i = true

theorem isFull_stock (h : fs.isFull i = true) (s : Finset BlockPlace) :
    (fs.stock s).isFull i = true := by
  obtain ⟨p, hp, hFull⟩ := (Option.any_eq_true _ _).mp h
  rw [isFull, piece?, getElem?_stock, show fs.pieces[i]? = some p from hp, Option.map_some,
    Piece.stock_of_isFullyStored hFull, Option.any_some, hFull]

theorem mem_completedBy :
    i ∈ fs.completedBy s ↔ fs.isFull i = false ∧ (fs.stock s).isFull i = true := by
  rw [completedBy, Finset.mem_filter, Finset.mem_range]
  refine ⟨And.right, fun h => ⟨?_, h⟩⟩
  obtain ⟨p, hp, -⟩ := (Option.any_eq_true _ _).mp h.2
  have hCount := (List.getElem?_eq_some_iff.mp hp).1
  rwa [stock, List.length_mapIdx] at hCount

theorem disjoint_completedBy (fs : FileSet) (s s' : Finset BlockPlace) :
    Disjoint (fs.completedBy s) ((fs.stock s).completedBy s') := by
  refine Finset.disjoint_left.mpr fun i hFirst hLater => ?_
  rw [mem_completedBy] at hFirst hLater
  rw [hFirst.2] at hLater
  cases hLater.1

/-- A piece is completed once: by the first blocks, or else by the later ones. -/
theorem completedBy_union (fs : FileSet) (s s' : Finset BlockPlace) :
    fs.completedBy (s ∪ s') = (fs.completedBy s).disjUnion ((fs.stock s).completedBy s')
      (fs.disjoint_completedBy s s') := by
  ext i
  rw [Finset.mem_disjUnion, mem_completedBy, mem_completedBy, mem_completedBy, stock_stock]
  constructor
  · rintro ⟨hBefore, hAfter⟩
    cases hBetween : (fs.stock s).isFull i with
    | true => exact .inl ⟨hBefore, rfl⟩
    | false => exact .inr ⟨rfl, hAfter⟩
  · rintro (⟨hBefore, hBetween⟩ | ⟨hBetween, hAfter⟩)
    · have := isFull_stock hBetween s'
      rw [stock_stock] at this
      exact ⟨hBefore, this⟩
    · refine ⟨?_, hAfter⟩
      cases hBefore : fs.isFull i with
      | false => rfl
      | true => rw [isFull_stock hBefore s] at hBetween; cases hBetween

/-- Nothing is completed by blocks that were held. -/
theorem completedBy_of_stock_eq (h : fs.stock s = fs) : fs.completedBy s = ∅ := by
  refine Finset.eq_empty_of_forall_notMem fun k hk => ?_
  rw [mem_completedBy, h] at hk
  rw [hk.1] at hk
  cases hk.2

theorem completedBy_of_open (hp : fs.pieces[i]? = some p) (hb : p.blocks[b]? = some block)
    (hOpen : block.status.isHeld = false) :
    fs.completedBy {(i, b)} = if (p.mark b .stored).isFullyStored then {i} else ∅ := by
  have hBefore : fs.isFull i = false := by
    rw [isFull, piece?, hp, Option.any_some, Piece.not_isFullyStored hb hOpen]
  ext k
  rw [mem_completedBy, stock_of_open hp hb hOpen, isFull, isFull, piece?, piece?,
    getElem?_setPiece hp]
  by_cases hk : k = i
  · subst hk
    rw [if_pos rfl, ← piece?, ← isFull, hBefore, Option.any_some]
    split <;> simp_all
  · rw [if_neg hk]
    split <;> simp_all

end FileSet

/-! ### Bytes -/

/-- The bytes of a block, and the place that they belong to. -/
structure Delivery where
  place : BlockPlace
  data : Bytes

namespace Delivery

def places (deliveries : List Delivery) : Finset BlockPlace := (deliveries.map place).toFinset

theorem places_cons (e : Delivery) (rest : List Delivery) :
    places (e :: rest) = {e.place} ∪ places rest := by
  rw [places, List.map_cons, List.toFinset_cons, Finset.insert_eq, places]

theorem places_perm {order deliveries : List Delivery} (h : order.Perm deliveries) :
    places order = places deliveries :=
  List.toFinset_eq_of_perm _ _ (h.map _)

/-- The job that stores the bytes. -/
def job (kind : FileSetKind) (e : Delivery) : Job := .store kind e.place.1 e.place.2 e.data

end Delivery

namespace FileSet

variable {fs : FileSet} {blockSize : Nat} {digests : List Digest} {e : Delivery}
  {deliveries order : List Delivery} {stored bytes bytes' : Bytes} {s : Finset BlockPlace}
  {x : BlockPlace}

/-- There is a block at the place, and it is as long as the bytes. -/
def Fits (fs : FileSet) (e : Delivery) : Prop :=
  ∃ p block, fs.pieces[e.place.1]? = some p ∧ p.blocks[e.place.2]? = some block ∧
    block.size = e.data.length

/-- There is a block at the place of which the bytes have not come. -/
def Awaits (fs : FileSet) (x : BlockPlace) : Prop :=
  ∃ status, fs.status? x = some status ∧ status.isHeld = false

theorem Fits.stock (h : fs.Fits e) (s : Finset BlockPlace) : (fs.stock s).Fits e := by
  obtain ⟨p, block, hp, hb, hSize⟩ := h
  refine ⟨_, _, by rw [getElem?_stock, hp]; rfl, by rw [Piece.getElem?_stock, hb]; rfl, ?_⟩
  rw [← hSize]
  split
  · have hBlank := congrArg Block.size block.blank_stock
    exact hBlank
  · rfl

theorem awaits_stock : (fs.stock s).Awaits x ↔ fs.Awaits x ∧ x ∉ s := by
  rw [Awaits, Awaits, status?_stock]
  cases hStatus : fs.status? x with
  | none => simp
  | some status => by_cases hx : x ∈ s <;> cases status <;> simp [hx, BlockStatus.isHeld]

/-- `bytes` is `stored` with the awaited blocks among those delivered laid over it. -/
structure Supplied (fs : FileSet) (deliveries : List Delivery) (stored bytes : Bytes) : Prop where
  length_eq : bytes.length = stored.length
  supplied : ∀ e ∈ deliveries, fs.Awaits e.place → fs.bytesAt bytes e.place = e.data
  kept : ∀ x, (fs.status? x).isSome = true → (fs.Awaits x → x ∉ Delivery.places deliveries) →
    fs.bytesAt bytes x = fs.bytesAt stored x
  beyond : ∀ k, fs.totalLength ≤ k → bytes[k]? = stored[k]?

theorem supplied_nil (fs : FileSet) (stored : Bytes) : fs.Supplied [] stored stored :=
  ⟨rfl, by simp, fun _ _ _ => rfl, fun _ _ => rfl⟩

theorem awaits_of_block {i b : Nat} {p : Piece} {block : Block} (hp : fs.pieces[i]? = some p)
    (hb : p.blocks[b]? = some block) : fs.Awaits (i, b) ↔ block.status.isHeld = false := by
  simp [Awaits, status?_of_block hp hb]

/-- A block that is held is not laid over. -/
theorem supplied_of_held (h : ¬ fs.Awaits e.place) (stored : Bytes) :
    fs.Supplied [e] stored stored :=
  ⟨rfl, by simp [h], fun _ _ _ => rfl, fun _ _ => rfl⟩

theorem supplied_of_open {i b : Nat} {p : Piece} {block : Block} {data : Bytes}
    (hCut : fs.CutFrom blockSize digests) (hCovered : fs.totalLength ≤ stored.length)
    (hp : fs.pieces[i]? = some p) (hb : p.blocks[b]? = some block)
    (hSize : block.size = data.length) (hOpen : block.status.isHeld = false) :
    fs.Supplied [⟨(i, b), data⟩] stored
      (stored.overwrite (i * fs.pieceLength + p.blockOffset b) data) := by
  have hInside := hCut.inside hp hb
  rw [hSize] at hInside
  have hOutside := Bytes.agreeOutside_overwrite (hInside.trans hCovered)
  have hAwaits := (awaits_of_block hp hb).mpr hOpen
  have hBytes {x : BlockPlace} (hx : (fs.status? x).isSome = true) :=
    hCut.bytesAt_overwrite hp hb hSize (hInside.trans hCovered) hx
  refine
    { length_eq := hOutside.length_eq
      supplied := ?supplied
      kept := ?kept
      beyond := fun k hk => hOutside.same k (.inr (hInside.trans hk)) }
  case supplied =>
    rintro e he -
    obtain rfl := List.mem_singleton.mp he
    rw [hBytes (by rw [status?_of_block hp hb]; rfl), if_pos rfl]
  case kept =>
    intro x hx hNot
    rw [hBytes hx, if_neg]
    rintro rfl
    exact hNot hAwaits (by simp [Delivery.places])

theorem Supplied.perm (h : fs.Supplied deliveries stored bytes) (hPerm : order.Perm deliveries) :
    fs.Supplied order stored bytes := by
  exact ⟨h.length_eq, fun e he => h.supplied e (hPerm.mem_iff.mp he),
    Delivery.places_perm hPerm ▸ h.kept, h.beyond⟩

/-- The deliveries determine the bytes. -/
theorem Supplied.unique (hCut : fs.CutFrom blockSize digests)
    (h : fs.Supplied deliveries stored bytes) (h' : fs.Supplied deliveries stored bytes') :
    bytes = bytes' := by
  refine List.ext_getElem? fun k => ?_
  by_cases hk : k < fs.totalLength
  · refine hCut.getElem?_eq_of_blocks (fun x hx => ?_) hk
    by_cases hSupplied : fs.Awaits x ∧ x ∈ Delivery.places deliveries
    · obtain ⟨hAwaits, hMem⟩ := hSupplied
      obtain ⟨e, he, rfl⟩ := List.mem_map.mp (List.mem_toFinset.mp hMem)
      rw [h.supplied e he hAwaits, h'.supplied e he hAwaits]
    · have hNot := not_and.mp hSupplied
      rw [h.kept x hx hNot, h'.kept x hx hNot]
  · rw [h.beyond k (by omega), h'.beyond k (by omega)]

theorem Supplied.of_storage {storage : Storage}
    (h : { fs with storage }.Supplied deliveries stored bytes) :
    fs.Supplied deliveries stored bytes :=
  ⟨h.length_eq, h.supplied, h.kept, h.beyond⟩

/-- What comes first is not laid over by what comes later. -/
theorem Supplied.cons {middle : Bytes} (h : fs.Supplied [e] stored middle)
    (h' : (fs.stock {e.place}).Supplied deliveries middle bytes)
    (hApart : e.place ∉ Delivery.places deliveries) :
    fs.Supplied (e :: deliveries) stored bytes := by
  have hSame := (fs.sameCut_stock {e.place}).bytesAt_eq
  have hSome {x : BlockPlace} (hx : (fs.status? x).isSome = true) :
      ((fs.stock {e.place}).status? x).isSome = true := by
    rwa [status?_stock, Option.isSome_map]
  refine
    { length_eq := h'.length_eq.trans h.length_eq
      supplied := ?supplied
      kept := ?kept
      beyond := fun k hk => (h'.beyond k hk).trans (h.beyond k hk) }
  case supplied =>
    intro e' he' hAwaits
    rcases List.mem_cons.mp he' with rfl | he'
    · rw [← h.supplied e' (List.mem_singleton_self e') hAwaits, ← hSame]
      obtain ⟨status, hStatus, -⟩ := hAwaits
      refine h'.kept e'.place (hSome (by rw [hStatus]; rfl)) fun hLater => ?_
      exact absurd (Finset.mem_singleton_self _) (awaits_stock.mp hLater).2
    · have hMem : e'.place ∈ Delivery.places deliveries :=
        List.mem_toFinset.mpr (List.mem_map_of_mem he')
      have hOther : e'.place ≠ e.place := fun hEq => hApart (hEq ▸ hMem)
      rw [← hSame]
      exact h'.supplied e' he' (awaits_stock.mpr ⟨hAwaits, by simpa using hOther⟩)
  case kept =>
    intro x hx hNot
    have hLater : x ∈ Delivery.places deliveries → x ∈ Delivery.places (e :: deliveries) := by
      simp only [Delivery.places, List.map_cons, List.toFinset_cons]
      exact Finset.mem_insert_of_mem
    have hFirst : x ∈ Delivery.places [e] → x ∈ Delivery.places (e :: deliveries) := by
      simp only [Delivery.places, List.map_cons, List.toFinset_cons, List.map_nil]
      simp +contextual
    rw [← h.kept x hx fun hAwaits hMem => hNot hAwaits (hFirst hMem), ← hSame]
    exact h'.kept x (hSome hx) fun hAwaits hMem => hNot (awaits_stock.mp hAwaits).1 (hLater hMem)

end FileSet

/-! ### Runs -/

/-- The torrent with the blocks at some places of its file set stored, and a check asked for of each
piece that this completes. -/
def Torrent.stocked (t : Torrent) (fs : FileSet) (places : Finset BlockPlace) (storage : Storage)
    (tree : FileTree) : Torrent :=
  { t with
    tree
    download := { t.download with
      fileSet := some { fs.stock places with storage }
      pendingChecks := t.download.pendingChecks + (fs.completedBy places).card } }

theorem Torrent.stocked_self {t : Torrent} {fs : FileSet} {places : Finset BlockPlace}
    (hfs : t.download.fileSet = some fs) (h : fs.stock places = fs) :
    t.stocked fs places fs.storage t.tree = t := by
  simp only [stocked, h, FileSet.completedBy_of_stock_eq h, Finset.card_empty, Nat.add_zero, ← hfs]

/-- Storing some blocks and then others. -/
theorem Torrent.stocked_stocked (t : Torrent) (fs : FileSet) (s s' : Finset BlockPlace)
    (storage storage' : Storage) (tree tree' : FileTree) :
    (t.stocked fs s storage tree).stocked { fs.stock s with storage } s' storage' tree' =
      t.stocked fs (s ∪ s') storage' tree' := by
  have hStock : FileSet.stock { fs.stock s with storage } s' =
      { (fs.stock s).stock s' with storage } := rfl
  have hCompleted : FileSet.completedBy { fs.stock s with storage } s' =
      (fs.stock s).completedBy s' := rfl
  simp only [stocked, hStock, hCompleted, FileSet.stock_stock, FileSet.completedBy_union,
    Finset.card_disjUnion, Nat.add_assoc]

namespace Job

/-- What jobs that are run one after the other come to. -/
structure Series where
  ends : List JobEnd
  after : Torrent
  submitted : List Job

def runAll : List Job → Torrent → Series
  | [], t => { ends := [], after := t, submitted := [] }
  | job :: rest, t =>
    let o := job.run t
    let more := runAll rest o.after
    { ends := o.ended :: more.ends
      after := more.after
      submitted := o.submitted ++ more.submitted }

variable {holds : Storage → FileTree → Bytes → Prop} {t : Torrent} {fs : FileSet}
  {blockSize : Nat} {digests : List Digest} {e : Delivery} {deliveries : List Delivery}
  {stored : Bytes}

/-- One store of a block that was delivered. -/
theorem run_delivery (hReliable : Storage.Reliable holds)
    (hfs : t.download.fileSet = some fs) (hCut : fs.CutFrom blockSize digests)
    (hHolds : holds fs.storage t.tree stored) (hCovered : fs.totalLength ≤ stored.length)
    (hFit : fs.Fits e) :
    ∃ storage tree bytes, holds storage tree bytes ∧ fs.Supplied [e] stored bytes ∧
      run (e.job fs.kind) t =
        { ended := .done
          after := t.stocked fs {e.place} storage tree
          submitted := (fs.completedBy {e.place}).toList.map (.check fs.kind) } := by
  obtain ⟨⟨i, b⟩, data⟩ := e
  obtain ⟨p, block, hp, hb, hSize⟩ := hFit
  cases hHeld : block.status.isHeld with
  | true =>
    have hCurrent := current?_eq_some.mpr ⟨hfs, rfl⟩
    refine ⟨fs.storage, t.tree, stored, hHolds, ?_, ?_⟩
    · have hHere : ¬ fs.Awaits (i, b) := by simp [FileSet.awaits_of_block hp hb, hHeld]
      exact FileSet.supplied_of_held hHere stored
    · have hSame := FileSet.stock_of_held hp hb hHeld
      have hNone := FileSet.completedBy_of_stock_eq hSame
      rw [Torrent.stocked_self hfs hSame, hNone, Finset.toList_empty]
      exact run_store_held hCurrent hp hb hSize hHeld
  | false =>
    have hInside := hCut.inside hp hb
    rw [hSize] at hInside
    obtain ⟨storage, tree, hHolds', hRun⟩ := run_store_open hReliable
      ⟨hfs, rfl, hp, hb, hSize, hHeld⟩ hHolds (hInside.trans hCovered)
    refine ⟨storage, tree, _, hHolds', ?_, ?_⟩
    · exact FileSet.supplied_of_open hCut hCovered hp hb hSize hHeld
    · have hCompleted := FileSet.completedBy_of_open hp hb hHeld
      rw [Delivery.job, hRun, Torrent.stocked, FileSet.stock_of_open hp hb hHeld, hCompleted]
      split <;> simp [FileSet.setPiece]

/-- The stores of what was delivered, in the order in which it is given. -/
theorem runAll_deliveries (hReliable : Storage.Reliable holds)
    (hfs : t.download.fileSet = some fs) (hCut : fs.CutFrom blockSize digests)
    (hHolds : holds fs.storage t.tree stored) (hCovered : fs.totalLength ≤ stored.length)
    (hFit : ∀ e ∈ deliveries, fs.Fits e) (hApart : (deliveries.map (·.place)).Nodup) :
    ∃ storage tree bytes, ∃ submitted : List Job, holds storage tree bytes ∧
      fs.Supplied deliveries stored bytes ∧
      (submitted : Multiset Job) =
        (fs.completedBy (Delivery.places deliveries)).val.map (.check fs.kind) ∧
      runAll (deliveries.map (Delivery.job fs.kind)) t =
        { ends := List.replicate deliveries.length .done
          after := t.stocked fs (Delivery.places deliveries) storage tree
          submitted } := by
  induction deliveries generalizing t fs stored with
  | nil =>
    have hSame := fs.stock_empty
    refine ⟨fs.storage, t.tree, stored, [], hHolds, fs.supplied_nil stored, ?_, ?_⟩
    · have hNone := FileSet.completedBy_of_stock_eq hSame
      exact (congrArg (fun s => s.val.map (Job.check fs.kind)) hNone).symm
    · have hAfter := Torrent.stocked_self hfs hSame
      exact congrArg (fun after => { ends := [], after, submitted := [] : Series }) hAfter.symm
  | cons e rest ih =>
    obtain ⟨storage, tree, middle, hMiddle, hFirst, hRun⟩ :=
      run_delivery hReliable hfs hCut hHolds hCovered (hFit e List.mem_cons_self)
    rw [List.map_cons, List.nodup_cons] at hApart
    have hNot : e.place ∉ Delivery.places rest := fun hMem => hApart.1 (List.mem_toFinset.mp hMem)
    have hCut' : FileSet.CutFrom { fs.stock {e.place} with storage } blockSize digests :=
      hCut.sameCut ((fs.sameCut_stock {e.place}).trans (FileSet.sameCut_storage _ storage))
    obtain ⟨storage', tree', bytes, submitted, hBytes, hLater, hSubmitted, hRest⟩ :=
      ih (t := t.stocked fs {e.place} storage tree) rfl hCut' hMiddle
        (hFirst.length_eq ▸ hCovered) (fun e' he' => (hFit e' (List.mem_cons_of_mem e he')).stock _)
        hApart.2
    refine ⟨storage', tree', bytes,
      (fs.completedBy {e.place}).toList.map (.check fs.kind) ++ submitted, hBytes,
      hFirst.cons hLater.of_storage hNot, ?_, ?_⟩
    · rw [← Multiset.coe_add, hSubmitted, Delivery.places_cons, FileSet.completedBy_union,
        Finset.disjUnion_val, Multiset.map_add, ← Multiset.map_coe, Finset.coe_toList]
      rfl
    · rw [Torrent.stocked_stocked, ← Delivery.places_cons] at hRest
      rw [List.map_cons, runAll, hRun]
      dsimp only
      rw [show (fs.stock {e.place}).kind = fs.kind from rfl] at hRest
      rw [hRest, List.length_cons, List.replicate_succ]

/-- Any two orders in which blocks are stored come to the same: the same blocks are stored then, the
same bytes, and the same checks asked for, one for each piece that the blocks complete. -/
theorem stores_unordered (hReliable : Storage.Reliable holds)
    (hfs : t.download.fileSet = some fs) (hCut : fs.CutFrom blockSize digests)
    (hHolds : holds fs.storage t.tree stored) (hCovered : fs.totalLength ≤ stored.length)
    (hFit : ∀ e ∈ deliveries, fs.Fits e) (hApart : (deliveries.map (·.place)).Nodup) :
    ∃ bytes, fs.Supplied deliveries stored bytes ∧ ∀ order : List Delivery, order.Perm deliveries →
      ∃ storage tree, ∃ submitted : List Job, holds storage tree bytes ∧
        (submitted : Multiset Job) =
          (fs.completedBy (Delivery.places deliveries)).val.map (.check fs.kind) ∧
        runAll (order.map (Delivery.job fs.kind)) t =
          { ends := List.replicate deliveries.length .done
            after := t.stocked fs (Delivery.places deliveries) storage tree
            submitted } := by
  obtain ⟨_, _, bytes, _, _, hSupplied, _⟩ :=
    runAll_deliveries hReliable hfs hCut hHolds hCovered hFit hApart
  refine ⟨bytes, hSupplied, fun order hPerm => ?_⟩
  obtain ⟨storage, tree, bytes', submitted, hBytes, hSupplied', hSubmitted, hRun⟩ :=
    runAll_deliveries hReliable hfs hCut hHolds hCovered (fun e he => hFit e (hPerm.mem_iff.mp he))
      ((hPerm.map _).nodup_iff.mpr hApart)
  obtain rfl : bytes = bytes' := hSupplied.unique hCut (hSupplied'.perm hPerm.symm)
  rw [Delivery.places_perm hPerm] at hSubmitted hRun
  rw [hPerm.length_eq] at hRun
  exact ⟨storage, tree, submitted, hBytes, hSubmitted, hRun⟩

/-- Two pieces of two blocks each. The first block is stored, and a block of the other piece is
requested. -/
def quarterStored : FileSet :=
  { kind := .data
    pieceLength := 4
    totalLength := 8
    pieces := (FileSet.cut 4 8 2 [Digest.zero, Digest.zero]).zipWith Piece.withStatuses
      [[.stored], [.needed, .requested]]
    storage := .memory (List.replicate 8 0) }

/-- A torrent that works on it. -/
def quarterTorrent : Torrent where
  download := { Download.named Digest.zero 5 with fileSet := some quarterStored }
  events := { capacity := 0 }
  tree := { home := [] }

/-- The first block once more, the rest of its piece and a block of the other piece. -/
def threeDeliveries : List Delivery := [⟨(0, 0), [1, 1]⟩, ⟨(0, 1), [2, 2]⟩, ⟨(1, 1), [3, 3]⟩]

/-- In each of the six orders one check is asked for, of the first piece. -/
theorem stores_unordered_threeDeliveries :
    quarterStored.CutFrom 2 [Digest.zero, Digest.zero] ∧
    (∀ e ∈ threeDeliveries, quarterStored.Fits e) ∧ (threeDeliveries.map (·.place)).Nodup ∧
    ∀ order : List Delivery, order.Perm threeDeliveries →
      (runAll (order.map (Delivery.job .data)) quarterTorrent).submitted = [.check .data 0] := by
  have hCut : quarterStored.CutFrom 2 [Digest.zero, Digest.zero] :=
    ⟨by decide, by decide, by decide +kernel, by decide⟩
  have hFit : ∀ e ∈ threeDeliveries, quarterStored.Fits e := by
    intro e he
    simp only [threeDeliveries, List.mem_cons, List.not_mem_nil, or_false] at he
    rcases he with rfl | rfl | rfl <;> exact ⟨_, _, rfl, rfl, rfl⟩
  have hCompleted : quarterStored.completedBy (Delivery.places threeDeliveries) = {0} := by
    decide +kernel
  refine ⟨hCut, hFit, by decide, fun order hPerm => ?_⟩
  obtain ⟨_, _, hOrders⟩ := stores_unordered (t := quarterTorrent) Storage.reliable_memory rfl hCut
    rfl (by decide) hFit (by decide)
  obtain ⟨_, _, submitted, _, hSubmitted, hRun⟩ := hOrders order hPerm
  rw [hCompleted] at hSubmitted
  have hRun' : runAll (order.map (Delivery.job .data)) quarterTorrent = _ := hRun
  rw [hRun']
  exact Multiset.coe_eq_singleton.mp hSubmitted

end Job

end TorrentEngine
