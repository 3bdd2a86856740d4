import TorrentEngine.Peer.Honest
import TorrentEngine.Proofs.Requests

/-!
Whom a scheduling pass asks for which blocks. The asks of a roster are its claims under the names of
the peers. A pass over a content sends one request for each ask that it adds; and it adds one as
long as some peer that it serves has a piece with a needed block, does not choke us and has a free
slot.
-/

namespace TorrentEngine

/-- A peer, and the place of a block that it was asked for. -/
abbrev Ask := PeerId × BlockPlace

/-- The places that a peer was asked for, under its name. -/
def Peer.asks (id : PeerId) (p : Peer) : Multiset Ask := p.claims.map (Prod.mk id)

namespace Roster

/-- What connected peers were asked for. -/
def asks (r : Roster Peer) : Multiset Ask :=
  (r.entries : Multiset (PeerId × Peer)).bind fun e => e.2.asks e.1

variable {peers : Roster Peer} {id : PeerId} {p : Peer}

theorem asks_of_find? (h : peers.find? id = some p) :
    peers.asks = p.asks id + (peers.erase id).asks := by
  rw [asks, coe_entries_of_find? h, Multiset.cons_bind]
  rfl

theorem asks_insert (peers : Roster Peer) (id : PeerId) (p : Peer) :
    (peers.insert id p).asks = p.asks id + (peers.erase id).asks := by
  rw [asks, coe_entries_insert, Multiset.cons_bind]
  rfl

theorem asks_update (h : peers.find? id = some p) (f : Peer → Peer) :
    (peers.update id f).asks = (f p).asks id + (peers.erase id).asks := by
  rw [asks, coe_entries_update h, Multiset.cons_bind]
  rfl

theorem map_snd_asks (peers : Roster Peer) : peers.asks.map Prod.snd = peers.claims := by
  simp only [asks, claims, Peer.asks, Multiset.map_bind, Multiset.map_map, Function.comp_def,
    Multiset.map_id']

theorem mem_asks {x : BlockPlace} :
    (id, x) ∈ peers.asks ↔ ∃ p, peers.find? id = some p ∧ x ∈ p.claims := by
  simp only [asks, Peer.asks, Multiset.mem_bind, Multiset.mem_coe, Multiset.mem_map, find?_eq_some]
  constructor
  · rintro ⟨⟨_, p⟩, hEntry, _, hx, hEq⟩
    obtain ⟨rfl, rfl⟩ := Prod.mk.inj hEq
    exact ⟨p, hEntry, hx⟩
  · rintro ⟨p, hEntry, hx⟩
    exact ⟨(id, p), hEntry, x, hx, rfl⟩

/-- Peers that were asked for nothing have nothing pending. -/
theorem pending_of_asks_eq_zero (h : peers.asks = 0) (hFind : peers.find? id = some p) :
    p.pending = [] := by
  refine List.eq_nil_iff_forall_not_mem.mpr fun r hr => ?_
  have hClaimed : r.place ∈ p.claims := Multiset.mem_coe.mpr (List.mem_map_of_mem hr)
  have hAsked := mem_asks.mpr ⟨p, hFind, hClaimed⟩
  rw [h] at hAsked
  exact Multiset.notMem_zero _ hAsked

theorem asks_eq_zero (h : peers.All fun p => p.pending = []) : peers.asks = 0 :=
  Multiset.map_eq_zero.mp ((map_snd_asks peers).trans (claims_eq_zero h))

end Roster

/-! ### Peers that serve -/

/-- A peer that does not choke us and takes a request. -/
def Peer.Open (p : Peer) : Prop := p.download.choked = false ∧ 1 ≤ p.requestLimit

namespace Roster

/-- All peers are open, and together they have `count` pieces. -/
structure Serves (peers : Roster Peer) (count : Nat) : Prop where
  allOpen : peers.All Peer.Open
  covers : ∀ i < count, ∃ id p, peers.find? id = some p ∧ p.hasPiece i = true

variable {peers : Roster Peer} {count : Nat}

theorem Serves.insert (h : peers.Serves count) {id : PeerId} {p q : Peer}
    (hFind : peers.find? id = some p) (hOpen : q.Open) (hPieces : q.pieces = p.pieces) :
    (peers.insert id q).Serves count := by
  refine ⟨h.allOpen.insert id hOpen, fun i hi => ?_⟩
  obtain ⟨other, r, hOther, hHas⟩ := h.covers i hi
  by_cases hSame : other = id
  · subst hSame
    obtain rfl := Option.some.inj (hFind.symm.trans hOther)
    refine ⟨other, q, by rw [find?_insert, if_pos rfl], ?_⟩
    rwa [Peer.hasPiece, hPieces]
  · exact ⟨other, r, by rw [find?_insert, if_neg hSame, hOther], hHas⟩

theorem Serves.update (h : peers.Serves count) (id : PeerId) {f : Peer → Peer}
    (hOpen : ∀ p : Peer, p.Open → (f p).Open) (hPieces : ∀ p, (f p).pieces = p.pieces) :
    (peers.update id f).Serves count := by
  refine ⟨h.allOpen.update id hOpen, fun i hi => ?_⟩
  obtain ⟨other, r, hOther, hHas⟩ := h.covers i hi
  by_cases hSame : other = id
  · refine ⟨other, f r, by rw [find?_update, if_pos hSame, hOther, Option.map_some], ?_⟩
    rwa [Peer.hasPiece, hPieces]
  · exact ⟨other, r, by rw [find?_update, if_neg hSame, hOther], hHas⟩

end Roster

/-! ### Places of blocks -/

namespace FileSet

/-- Where a block starts in its piece, and how long it is. -/
def extent (fs : FileSet) (x : BlockPlace) : Nat × Nat :=
  match fs.pieces[x.1]? with
  | none => (0, 0)
  | some p => (p.blockOffset x.2, (p.blocks[x.2]?.map (·.size)).getD 0)

variable {fs fs' : FileSet}

theorem extent_of_block {i b : Nat} {p : Piece} {block : Block} (hp : fs.pieces[i]? = some p)
    (hb : p.blocks[b]? = some block) : fs.extent (i, b) = (p.blockOffset b, block.size) := by
  simp only [extent, hp, hb, Option.map_some, Option.getD_some]

theorem extent_of_outlines (h : fs'.pieces.map Piece.outline = fs.pieces.map Piece.outline) :
    fs'.extent = fs.extent := by
  funext x
  simp only [extent]
  cases hp' : fs'.pieces[x.1]? with
  | none =>
    cases hp : fs.pieces[x.1]? with
    | none => rfl
    | some p =>
      obtain ⟨p', hSome, _⟩ := piece_of_outlines h.symm hp
      rw [hp'] at hSome
      cases hSome
  | some p' =>
    obtain ⟨p, hp, hOutline⟩ := piece_of_outlines h hp'
    have hBlockSize : p'.blockSize = p.blockSize := Piece.blockSize_of_outline hOutline
    have hSizes : p'.blocks[x.2]?.map (·.size) = p.blocks[x.2]?.map (·.size) := by
      have hBlank := congrArg (Option.map Block.size) (Piece.blank_of_outline hOutline x.2)
      simpa only [Option.map_map, Function.comp_def, Block.blank] using hBlank
    simp only [hp, Piece.blockOffset, hBlockSize, hSizes]

/-- The bytes of a block, where the file set holds `content`. -/
def bytesAt (fs : FileSet) (content : Bytes) (x : BlockPlace) : Bytes :=
  content.slice (x.1 * fs.pieceLength + (fs.extent x).1) (fs.extent x).2

/-- The message that asks for a block of the content. -/
def request (fs : FileSet) (x : BlockPlace) : Message :=
  .request x.1 (fs.extent x).1 (fs.extent x).2

/-- What an honest peer with the content gives back when it is asked for a block. -/
def answer (fs : FileSet) (content : Bytes) (a : Ask) : Command :=
  .block a.1 a.2.1 (fs.extent a.2).1 (fs.bytesAt content a.2)

end FileSet

/-- What an honest peer gives back for an effect that asks it for a block. -/
def Effect.answer? (content : Bytes) (pieceLength blockLength : Nat) : Effect → Option Command
  | .send peer m => m.answer? peer content pieceLength blockLength
  | _ => none

namespace Download

/-- `d` downloads the content that `fs` is cut for. -/
structure Fetches (d : Download) (fs : FileSet) : Prop where
  fileSet : d.fileSet = some fs
  kind_eq : fs.kind = .data
  cut : ∃ blockSize digests, fs.CutFrom blockSize digests
  selector_eq : d.selector = .rarest
  choking_eq : d.choking = .permissive

variable {d d' : Download} {fs fs' : FileSet}

theorem Fetches.change (h : d.Fetches fs) (hCut : FileSet.SameCut fs fs') (pendingChecks : Nat) :
    Fetches { d with fileSet := some fs', pendingChecks } fs' := by
  obtain ⟨blockSize, digests, hFrom⟩ := h.cut
  exact ⟨rfl, hCut.kind_eq.trans h.kind_eq, ⟨blockSize, digests, hFrom.sameCut hCut⟩,
    h.selector_eq, h.choking_eq⟩

theorem Fetches.changePeer (h : d.Fetches fs) (id : PeerId) (f : Peer → Peer) :
    (d.changePeer id f).Fetches fs :=
  ⟨h.fileSet, h.kind_eq, h.cut, h.selector_eq, h.choking_eq⟩

theorem Fetches.numbered (h : d.Fetches fs) : fs.Numbered := by
  obtain ⟨_, _, hCut⟩ := h.cut
  exact hCut.numbered

theorem Fetches.numbered_of_fileSet (h : d.Fetches fs) :
    ∀ other, d.fileSet = some other → other.Numbered := by
  intro other hOther
  obtain rfl := Option.some.inj (hOther.symm.trans h.fileSet)
  exact h.numbered

theorem Fetches.status?_eq (h : d.Fetches fs) (x : BlockPlace) : d.status? x = fs.status? x := by
  rw [status?, h.fileSet, Option.bind_some]

/-- Requests change nothing about what is downloaded. -/
theorem Fetches.core (h : d.Fetches fs) (hCore : d'.core = d.core) :
    ∃ fs', d'.Fetches fs' ∧ fs'.settled = fs.settled := by
  obtain ⟨fs', hfs', hSettled⟩ := fileSet_of_core hCore.symm h.fileSet
  have hSame := FileSet.sameCut_of_settled hSettled.symm
  obtain ⟨blockSize, digests, hCut⟩ := h.cut
  refine ⟨fs', ⟨hfs', ?_, ⟨blockSize, digests, hCut.sameCut hSame⟩, ?_, ?_⟩, hSettled.symm⟩
  · rw [hSame.kind_eq, h.kind_eq]
  · exact (congrArg Download.selector hCore).trans h.selector_eq
  · exact (congrArg Download.choking hCore).trans h.choking_eq

/-! ### Requests and their messages -/

/-- The requests added to a peer are those that are sent to it. -/
theorem fill_asks (hKind : fs.kind = .data) (hNumbered : fs.Numbered) (selector : Selector)
    (r : Rarity) (now : Time) (slots : Nat) (peer : Peer) :
    ∃ added : List BlockPlace,
      (fill selector r now slots fs peer).2.1.claims = (added : Multiset BlockPlace) + peer.claims ∧
      (fill selector r now slots fs peer).2.2 = added.map fs.request := by
  induction slots generalizing fs peer with
  | zero => exact ⟨[], by simp [fill]⟩
  | succ slots ih =>
    simp only [fill]
    split
    · exact ⟨[], by simp⟩
    · next i _ =>
      split
      · exact ⟨[], by simp⟩
      · next block p hClaim =>
        obtain ⟨before, hp, hClaimed⟩ := Option.bind_eq_some_iff.mp hClaim
        obtain ⟨b, hb, _, rfl⟩ := Piece.claim_eq_some hClaimed
        have hIndex : block.index = b := hNumbered before (List.mem_of_getElem? hp) b block hb
        have hSettled := (claim_status? hNumbered hClaim).1
        have hKind' : (fs.setPiece i (before.mark b .requested)).kind = .data := hKind
        obtain ⟨added, hClaims, hMessages⟩ := ih hKind' (hNumbered.settled hSettled)
          (peer.addRequest i block.index now)
        refine ⟨(i, block.index) :: added, ?_, ?_⟩
        · rw [hClaims, claims_addRequest, Multiset.add_cons, ← Multiset.cons_coe,
            Multiset.cons_add]
        · have hSame := FileSet.extent_of_outlines (FileSet.outlines_of_settled hSettled)
          have hRequest : requestMessage fs.kind i (before.mark b .requested) block =
              fs.request (i, block.index) := by
            rw [hKind, FileSet.request, hIndex, FileSet.extent_of_block hp hb, requestMessage,
              hIndex]
            rfl
          rw [hMessages, List.map_cons, hRequest]
          refine congrArg _ (List.map_congr_left fun x _ => ?_)
          rw [FileSet.request, hSame]
          rfl

theorem answer?_flagMessages (old new : Peer) (id : PeerId) (content : Bytes)
    (pieceLength blockLength : Nat) :
    (flagMessages old new).filterMap (·.answer? id content pieceLength blockLength) = [] := by
  refine List.filterMap_eq_nil_iff.mpr fun m hm => ?_
  rcases mem_flagMessages hm with ⟨v, rfl⟩ | ⟨v, rfl⟩ <;> cases v <;> rfl

theorem serve_asks (h : d.Fetches fs) (r : Rarity) (now : Time) (id : PeerId) (content : Bytes)
    (blockLength : Nat) :
    ∃ asks : List Ask,
      (d.serve r now id).1.peers.asks = (asks : Multiset Ask) + d.peers.asks ∧
      (d.serve r now id).2.filterMap (·.answer? id content fs.pieceLength blockLength) =
        asks.map (fs.answer content) := by
  simp only [serve]
  cases hFind : d.peers.find? id with
  | none => exact ⟨[], by simp⟩
  | some old =>
    dsimp only
    have hOld := Roster.asks_of_find? hFind
    have hFlags := answer?_flagMessages old (d.choking.update d.fileSet old) id content
      fs.pieceLength blockLength
    split
    · refine ⟨[], ?_, hFlags⟩
      rw [Roster.asks_insert, hOld, Peer.asks, Peer.asks, claims_update_choking]
      simp
    · next served hServed =>
      obtain rfl : served = fs :=
        Option.some.inj ((Option.filter_eq_some_iff.mp hServed).1.symm.trans h.fileSet)
      obtain ⟨added, hClaims, hMessages⟩ := fill_asks h.kind_eq h.numbered d.selector r now
        (d.choking.update d.fileSet old).freeSlots (d.choking.update d.fileSet old)
      refine ⟨added.map (Prod.mk id), ?_, ?_⟩
      · rw [Roster.asks_insert, hOld, Peer.asks, Peer.asks, hClaims, claims_update_choking,
          Multiset.map_add, Multiset.map_coe, Multiset.add_assoc]
      · rw [List.filterMap_append, hFlags, hMessages, List.nil_append, List.filterMap_map,
          List.map_map]
        exact congrFun List.filterMap_eq_map' added

/-- File sets of one cut are asked for the same bytes. -/
theorem answer_of_sameCut (h : FileSet.SameCut fs fs') (content : Bytes) :
    fs'.answer content = fs.answer content := by
  funext a
  simp only [FileSet.answer, FileSet.bytesAt, FileSet.extent_of_outlines h.outlines_eq,
    h.pieceLength_eq]

/-- A pass over peers sends a request for each ask that it adds. -/
theorem serveAll_asks (h : d.Fetches fs) (r : Rarity) (now : Time) (ids : List PeerId)
    (content : Bytes) (blockLength : Nat) :
    ∃ asks : List Ask,
      (serveAll r now ids d).1.peers.asks = (asks : Multiset Ask) + d.peers.asks ∧
      (serveAll r now ids d).2.filterMap (Effect.answer? content fs.pieceLength blockLength) =
        asks.map (fs.answer content) := by
  induction ids generalizing d fs with
  | nil => exact ⟨[], by simp [serveAll]⟩
  | cons id rest ih =>
    obtain ⟨asks, hAsks, hAnswers⟩ := serve_asks h r now id content blockLength
    obtain ⟨fs', h', hSettled⟩ := h.core (core_serve d r now id)
    obtain ⟨more, hMore, hMoreAnswers⟩ := ih h'
    have hCut := FileSet.sameCut_of_settled hSettled
    refine ⟨asks ++ more, ?_, ?_⟩
    · simp only [serveAll]
      rw [hMore, hAsks, ← Multiset.coe_add, ← Multiset.add_assoc,
        Multiset.add_comm (more : Multiset Ask)]
    · rw [hCut.pieceLength_eq, answer_of_sameCut hCut] at hMoreAnswers
      simp only [serveAll]
      rw [List.filterMap_append, List.filterMap_map, List.map_append, hMoreAnswers, ← hAnswers]
      rfl

/-! ### A pass asks for something -/

/-- The rarest-first selector finds a piece among the candidates if there are any. -/
theorem pick_rarest {peer : Peer} {p : Piece} (h : p ∈ fs.candidates peer) (r : Rarity) :
    ∃ q ∈ fs.candidates peer, Selector.rarest.pick peer fs r = some q.index := by
  have hRanked {q : Piece} : q ∈ r.rank (fs.candidates peer) ↔ q ∈ fs.candidates peer :=
    List.mem_mergeSort
  simp only [Selector.pick]
  cases hStarted : (r.rank (fs.candidates peer)).find? Piece.isStarted with
  | some q => exact ⟨q, hRanked.mp (List.mem_of_find?_eq_some hStarted), rfl⟩
  | none =>
    cases hFirst : r.rank (fs.candidates peer) with
    | nil =>
      rw [← hRanked, hFirst] at h
      cases h
    | cons q rest => exact ⟨q, hRanked.mp (hFirst ▸ List.mem_cons_self), rfl⟩

variable {blockSize : Nat} {digests : List Digest} {i b : Nat}

/-- A piece with a needed block is not verified. -/
theorem not_done_of_needed (h : fs.status? (i, b) = some .needed) :
    ∃ p, fs.pieces[i]? = some p ∧ p.isDone = false ∧ p.hasStatus .needed = true := by
  obtain ⟨p, block, hp, hb, hNeeded⟩ := FileSet.status?_eq_some h
  have hMem := List.mem_of_getElem? hb
  refine ⟨p, hp, ?_, ?_⟩
  · rw [Bool.eq_false_iff]
    intro hDone
    rw [Piece.isDone_iff.mp hDone block hMem] at hNeeded
    cases hNeeded
  · exact List.any_eq_true.mpr ⟨block, hMem, decide_eq_true hNeeded⟩

theorem fill_grows (hCut : fs.CutFrom blockSize digests) (hKind : fs.kind = .data)
    (hNeeded : fs.status? (i, b) = some .needed) {peer : Peer} (hHas : peer.hasPiece i = true)
    (r : Rarity) (now : Time) (slots : Nat) :
    peer.claims.card < (fill .rarest r now (slots + 1) fs peer).2.1.claims.card := by
  obtain ⟨p, hp, hNotDone, hStatus⟩ := not_done_of_needed hNeeded
  have hCandidate : p ∈ fs.candidates peer := by
    simp only [FileSet.candidates, FileSet.neededPieces, List.mem_filter, hCut.index_eq hp, hHas,
      hNotDone, hStatus]
    exact ⟨⟨List.mem_of_getElem? hp, rfl⟩, rfl⟩
  obtain ⟨q, hq, hPick⟩ := pick_rarest hCandidate r
  simp only [FileSet.candidates, FileSet.neededPieces, List.mem_filter, Bool.and_eq_true] at hq
  obtain ⟨block, claimed, hClaim⟩ := Piece.exists_claim hq.2.2
  obtain ⟨j, hj⟩ := List.getElem?_of_mem hq.1.1
  have hClaimed : (fs.piece? q.index).bind Piece.claim = some (block, claimed) := by
    rw [FileSet.piece?, hCut.index_eq hj, hj]
    exact hClaim
  have hSettled := (claim_status? hCut.numbered hClaimed).1
  have hKind' : (fs.setPiece q.index claimed).kind = .data := hKind
  obtain ⟨added, hClaims, _⟩ := fill_asks hKind' (hCut.numbered.settled hSettled) .rarest r now
    slots (peer.addRequest q.index block.index now)
  simp only [fill, hPick, hClaimed, hClaims, claims_addRequest, Multiset.card_add,
    Multiset.card_cons]
  omega

theorem update_pieces (c : Choking) (fs : Option FileSet) (p : Peer) :
    (c.update fs p).pieces = p.pieces := by
  cases c <;> rfl

theorem update_requestLimit (c : Choking) (fs : Option FileSet) (p : Peer) :
    (c.update fs p).requestLimit = p.requestLimit := by
  cases c <;> rfl

/-- While downloading, blocks may be requested from a peer that has a piece that is not verified and
does not choke us. -/
theorem mayRequest_permissive {p : Peer} (hUnchoked : p.download.choked = false)
    (hWants : Choking.wantsFrom (some fs) p = true) :
    mayRequest fs (Choking.permissive.update (some fs) p) = true := by
  have hInterested : (Choking.permissive.update (some fs) p).download.interested = true := hWants
  rw [mayRequest, hInterested, update_choked, hUnchoked]
  simp

/-- A peer with a piece of which a block is needed is asked for one, if it does not choke us and has
a free slot. -/
theorem serve_grows (h : d.Fetches fs) (hNeeded : fs.status? (i, b) = some .needed) {id : PeerId}
    {p : Peer} (hFind : d.peers.find? id = some p) (hHas : p.hasPiece i = true)
    (hUnchoked : p.download.choked = false) (hFree : 0 < p.freeSlots) (r : Rarity) (now : Time) :
    d.peers.asks.card < (d.serve r now id).1.peers.asks.card := by
  obtain ⟨blockSize, digests, hCut⟩ := h.cut
  obtain ⟨piece, hPiece, hNotDone, _⟩ := not_done_of_needed hNeeded
  have hWants : Choking.wantsFrom (some fs) p = true := by
    have hMem : piece ∈ fs.neededPieces := by
      simp [FileSet.neededPieces, List.mem_of_getElem? hPiece, hNotDone]
    refine List.any_eq_true.mpr ⟨piece, hMem, ?_⟩
    rwa [hCut.index_eq hPiece]
  have hMay := mayRequest_permissive hUnchoked hWants
  have hHas' : (Choking.permissive.update (some fs) p).hasPiece i = true := by
    rwa [Peer.hasPiece, update_pieces]
  have hFree' : 0 < (Choking.permissive.update (some fs) p).freeSlots := by
    rwa [Peer.freeSlots, update_requestLimit, update_pending]
  have hClaims := claims_update_choking .permissive (some fs) p
  have hServed : (d.serve r now id).1.peers =
      d.peers.insert id (fill .rarest r now (Choking.permissive.update (some fs) p).freeSlots fs
        (Choking.permissive.update (some fs) p)).2.1 := by
    simp only [serve, hFind, h.fileSet, h.choking_eq, h.selector_eq, Option.filter_some, hMay,
      if_true]
  generalize Choking.permissive.update (some fs) p = peer at hMay hHas' hFree' hClaims hServed
  obtain ⟨slots, hSlots⟩ := Nat.exists_eq_add_one.mpr hFree'
  have hGrows := fill_grows hCut h.kind_eq hNeeded hHas' r now slots
  rw [hServed, hSlots, Roster.asks_insert, Roster.asks_of_find? hFind, Multiset.card_add,
    Multiset.card_add, Peer.asks, Peer.asks, Multiset.card_map, Multiset.card_map, ← hClaims]
  omega

theorem serve_find?_other {r : Rarity} {now : Time} {id other : PeerId} (h : other ≠ id) :
    (d.serve r now id).1.peers.find? other = d.peers.find? other := by
  simp only [serve]
  split
  · rfl
  · split <;> rw [Roster.find?_insert, if_neg h]

/-- No block changes its status while a pass comes to a peer and asks it for nothing. -/
theorem status?_of_serve {r : Rarity} {now : Time} {id : PeerId} (h : d.Fetches fs)
    (h' : (d.serve r now id).1.Fetches fs')
    (hSame : (d.serve r now id).1.peers.asks.card = d.peers.asks.card) :
    fs'.status? = fs.status? := by
  obtain ⟨added, hAdded⟩ := serve_requests r now id h.numbered_of_fileSet
  have hNone : added = 0 := by
    have hCount := congrArg Multiset.card hAdded.claims_eq
    rw [Multiset.card_add, ← Roster.map_snd_asks, ← Roster.map_snd_asks, Multiset.card_map,
      Multiset.card_map, hSame] at hCount
    exact Multiset.card_eq_zero.mp (by omega)
  funext x
  have hStatus := hAdded.status?_eq x
  rwa [hNone, if_neg (Multiset.notMem_zero _), h.status?_eq, h'.status?_eq] at hStatus

/-- A pass over peers that can be asked for a needed block asks for some. -/
theorem serveAll_grows (h : d.Fetches fs) (hNeeded : fs.status? (i, b) = some .needed)
    {id : PeerId} {p : Peer} (hFind : d.peers.find? id = some p) (hHas : p.hasPiece i = true)
    (hUnchoked : p.download.choked = false) (hFree : 0 < p.freeSlots) (r : Rarity) (now : Time)
    {ids : List PeerId} (hId : id ∈ ids) :
    d.peers.asks.card < (serveAll r now ids d).1.peers.asks.card := by
  induction ids generalizing d fs with
  | nil => cases hId
  | cons first rest ih =>
    obtain ⟨asks, hAsks, _⟩ := serve_asks h r now first [] 0
    obtain ⟨fs', h', _⟩ := h.core (core_serve d r now first)
    obtain ⟨more, hMore, _⟩ := serveAll_asks h' r now rest [] 0
    simp only [serveAll]
    by_cases hGrows : d.peers.asks.card < (d.serve r now first).1.peers.asks.card
    · rw [hMore, Multiset.card_add]
      omega
    · -- The first peer was asked for nothing, so the block is still needed for the others.
      have hSame : (d.serve r now first).1.peers.asks.card = d.peers.asks.card := by
        rw [hAsks, Multiset.card_add] at hGrows ⊢
        omega
      have hOther : id ≠ first := by
        rintro rfl
        exact hGrows (serve_grows h hNeeded hFind hHas hUnchoked hFree r now)
      rw [← status?_of_serve h h' hSame] at hNeeded
      rw [← serve_find?_other hOther] at hFind
      rw [← hSame]
      exact ih h' hNeeded hFind ((List.mem_cons.mp hId).resolve_left hOther)

/-! ### Answers -/

/-- A block that was asked for ends the request for it, and is handed over to be stored unless it is
held already. -/
theorem handle_answer {content : Bytes} {p : Piece} {block : Block} (h : d.Fetches fs)
    (hp : fs.pieces[i]? = some p) (hb : p.blocks[b]? = some block)
    (hLength : (fs.bytesAt content (i, b)).length = block.size) (now : Time) (id : PeerId) :
    d.handle now (fs.answer content (id, i, b)) =
      (d.changePeer id (received d.window now i b block.size),
        .ok (if block.status.isHeld then []
          else [.store .data i b (fs.bytesAt content (i, b))])) := by
  obtain ⟨blockSize, digests, hCut⟩ := h.cut
  have hCurrent : d.fileSet.filter (·.kind = .data) = some fs := by
    rw [h.fileSet, Option.filter_some, if_pos (decide_eq_true h.kind_eq)]
  have hPiece := FileSet.piece_eq_ok.mpr hp
  have hPos : 0 < p.blockSize := by
    rw [hCut.blockSize_eq hp]
    omega
  have hLt : b < p.blocks.length := (List.getElem?_eq_some_iff.mp hb).1
  have hAt : blockAt fs i (p.blockOffset b) = .ok b := by
    simp only [blockAt, hPiece, bind, Except.bind, Piece.blockIndexAt, Piece.blockOffset,
      Nat.mul_mod_left, Nat.mul_div_cancel b hPos]
    rw [if_neg (by omega)]
  have hBlock : p.checkBlock b block.size = .ok () := Piece.checkBlock_eq_ok.mpr ⟨block, hb, rfl⟩
  simp only [FileSet.answer, FileSet.extent_of_block hp hb, handle, hCurrent, hAt, takeBlock,
    hPiece, hLength, hBlock, hb, Option.any_some, h.kind_eq]
  split <;> rfl

theorem claims_received_of_claimed {p : Peer} (hMem : (i, b) ∈ p.claims) (window now : Time)
    (length : Nat) : p.claims = (i, b) ::ₘ (received window now i b length p).claims := by
  obtain ⟨r, hr, hPlace⟩ := List.mem_map.mp (Multiset.mem_coe.mp hMem)
  obtain ⟨found, hFound⟩ : ∃ found, p.findRequest? i b = some found := by
    rw [← Option.isSome_iff_exists, Peer.findRequest?, List.find?_isSome]
    exact ⟨r, hr, Request.isFor_iff.mpr hPlace⟩
  rw [claims_dropRequest_of_some hFound]
  simp only [received, hFound, RequestBudget.receive]
  split <;> rfl

/-- The answer to an ask ends it, and no other. -/
theorem asks_answered {asks : Multiset Ask} {id : PeerId}
    (h : d.peers.asks = (id, i, b) ::ₘ asks) (window now : Time) (length : Nat) :
    (d.changePeer id (received window now i b length)).peers.asks = asks := by
  obtain ⟨p, hFind, hClaimed⟩ := Roster.mem_asks.mp (h ▸ Multiset.mem_cons_self _ asks)
  have hBefore := Roster.asks_of_find? hFind
  rw [Peer.asks, claims_received_of_claimed hClaimed window now length, Multiset.map_cons,
    Multiset.cons_add, h] at hBefore
  rw [changePeer, Roster.asks_update hFind]
  exact ((Multiset.cons_inj_right _).mp hBefore).symm

/-! ### A pass and the answers to it leave peers open -/

theorem serves_serve {count : Nat} (h : d.peers.Serves count) (r : Rarity) (now : Time)
    (id : PeerId) : (d.serve r now id).1.peers.Serves count := by
  simp only [serve]
  split
  · exact h
  · next old hFind =>
    have hOpen : (d.choking.update d.fileSet old).Open := by
      rw [Peer.Open, update_choked, update_requestLimit]
      exact h.allOpen id old hFind
    have hPieces := update_pieces d.choking d.fileSet old
    generalize d.choking.update d.fileSet old = peer at hOpen hPieces
    split
    · exact h.insert hFind hOpen hPieces
    · next fs _ =>
      obtain ⟨pending, hPeer⟩ := fill_peer d.selector r now peer.freeSlots fs peer
      rw [hPeer]
      exact h.insert hFind hOpen hPieces

theorem serves_tick {count : Nat} (h : d.peers.Serves count) (relevant : List PeerId) (now : Time) :
    (d.tick relevant now).1.peers.Serves count := by
  simp only [tick]
  generalize Rarity.ofPeers _ = r
  induction relevant generalizing d with
  | nil => exact h
  | cons id rest ih => exact ih (serves_serve h r now id)

theorem open_received {p : Peer} (h : p.Open) (window now : Time) (i b length : Nat) :
    (received window now i b length p).Open := by
  simp only [received]
  split
  · exact h
  · simp only [RequestBudget.receive]
    split
    · exact h
    · exact ⟨h.1, Nat.le_max_left ..⟩

theorem pieces_received (window now : Time) (i b length : Nat) (p : Peer) :
    (received window now i b length p).pieces = p.pieces := by
  simp only [received]
  split
  · rfl
  · simp only [RequestBudget.receive]
    split <;> rfl

end Download

end TorrentEngine
