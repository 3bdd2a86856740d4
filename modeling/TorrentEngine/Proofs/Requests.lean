import TorrentEngine.Proofs.Claims
import TorrentEngine.Proofs.Progress

/-!
What becomes of requested blocks. Every operation on requests is described by the places that it
adds to those that peers have been asked for, or takes away from them, and by the statuses of the
blocks at these places; all other blocks keep their status.
-/

namespace TorrentEngine

namespace FileSet

variable {fs fs' : FileSet}

/-- The status of the block at a place. -/
def status? (fs : FileSet) (x : BlockPlace) : Option BlockStatus :=
  fs.pieces[x.1]?.bind (·.status? x.2)

/-- Every block is numbered by its place in its piece. -/
def Numbered (fs : FileSet) : Prop :=
  ∀ p ∈ fs.pieces, ∀ (b : Nat) (block : Block), p.blocks[b]? = some block → block.index = b

theorem CutFrom.numbered {blockSize : Nat} {digests : List Digest}
    (h : fs.CutFrom blockSize digests) : fs.Numbered := by
  intro p hp b block hb
  obtain ⟨i, hi⟩ := List.getElem?_of_mem hp
  exact (h.block hi hb).1

theorem Numbered.outlines (h : fs.Numbered)
    (hOutlines : fs'.pieces.map Piece.outline = fs.pieces.map Piece.outline) : fs'.Numbered := by
  intro p' hp' b block' hb'
  obtain ⟨i, hi⟩ := List.getElem?_of_mem hp'
  obtain ⟨p, hp, hOutline⟩ := piece_of_outlines hOutlines hi
  have hBlank := Piece.blank_of_outline hOutline b
  rw [hb', Option.map_some] at hBlank
  obtain ⟨block, hb, hEq⟩ := Option.map_eq_some_iff.mp hBlank.symm
  have hIndex : block'.index = block.index := by
    simpa [Block.blank] using (congrArg Block.index hEq).symm
  rw [hIndex]
  exact h p (List.mem_of_getElem? hp) b block hb

theorem Numbered.settled (h : fs.Numbered) (hSettled : fs'.settled = fs.settled) : fs'.Numbered :=
  h.outlines (outlines_of_settled hSettled)

/-- The statuses after one block was marked. -/
theorem status?_mark {i b : Nat} {p : Piece} {block : Block} (hp : fs.pieces[i]? = some p)
    (hb : p.blocks[b]? = some block) (s : BlockStatus) (x : BlockPlace) :
    (fs.setPiece i (p.mark b s)).status? x = if x = (i, b) then some s else fs.status? x := by
  obtain ⟨k, c⟩ := x
  simp only [status?, getElem?_setPiece hp, Prod.mk.injEq]
  by_cases hk : k = i
  · subst hk
    rw [if_pos rfl, hp, Option.bind_some, Option.bind_some]
    by_cases hc : c = b
    · subst hc
      rw [if_pos ⟨rfl, rfl⟩]
      exact Piece.status?_mark_self hb s
    · rw [Piece.status?_mark, if_neg (Ne.symm hc), if_neg fun h => hc h.2]
  · rw [if_neg hk, if_neg fun h => hk h.1]

/-- A piece that opens a block again marks the one at its cursor. -/
theorem status?_reopen {i : Nat} {p : Piece} (hp : fs.pieces[i]? = some p) (x : BlockPlace) :
    (fs.setPiece i p.reopen.2).status? x =
      (fs.setPiece i (p.mark p.mismatchCursor .needed)).status? x := by
  have hPiece (k : Nat) : p.reopen.2.status? k = (p.mark p.mismatchCursor .needed).status? k := by
    rw [Piece.reopen]
    split
    · next hEmpty =>
      have hNone : p.blocks = [] := List.isEmpty_iff.mp hEmpty
      simp [Piece.status?, Piece.mark, hNone]
    · rfl
  simp only [status?, getElem?_setPiece hp]
  split
  · exact hPiece x.2
  · rfl

theorem status?_eq_some {i b : Nat} {s : BlockStatus} (h : fs.status? (i, b) = some s) :
    ∃ p block, fs.pieces[i]? = some p ∧ p.blocks[b]? = some block ∧ block.status = s := by
  obtain ⟨p, hp, hs⟩ := Option.bind_eq_some_iff.mp h
  obtain ⟨block, hb, rfl⟩ := Option.map_eq_some_iff.mp hs
  exact ⟨p, block, hp, hb, rfl⟩

theorem status?_of_block {i b : Nat} {p : Piece} {block : Block} (hp : fs.pieces[i]? = some p)
    (hb : p.blocks[b]? = some block) : fs.status? (i, b) = some block.status := by
  simp only [status?, hp, Option.bind_some, Piece.status?, hb, Option.map_some]

end FileSet

namespace Download

variable {d d' : Download}

/-- The status of the block at a place. -/
def status? (d : Download) (x : BlockPlace) : Option BlockStatus := d.fileSet.bind (·.status? x)

/-! ### Giving blocks back -/

theorem status?_reopenRequest (fs : FileSet) (r : Request) (x : BlockPlace) :
    (reopenRequest fs r).status? x =
      if x = r.place ∧ fs.status? x = some .requested then some .needed else fs.status? x := by
  have hPlace : r.place = (r.piece, r.block) := rfl
  simp only [reopenRequest, FileSet.piece?]
  cases hp : fs.pieces[r.piece]? with
  | none =>
    rw [if_neg]
    rintro ⟨rfl, hRequested⟩
    obtain ⟨p, _, hSome, _⟩ := FileSet.status?_eq_some (hPlace ▸ hRequested)
    rw [hp] at hSome
    cases hSome
  | some p =>
    dsimp only
    split
    · next hAny =>
      obtain ⟨block, hb, hStatus⟩ := (Option.any_eq_true ..).mp hAny
      have hRequested := FileSet.status?_of_block hp hb
      rw [of_decide_eq_true hStatus, ← hPlace] at hRequested
      rw [FileSet.status?_mark hp hb, ← hPlace]
      by_cases hx : x = r.place
      · subst hx
        rw [if_pos rfl, if_pos ⟨rfl, hRequested⟩]
      · rw [if_neg hx, if_neg fun h => hx h.1]
    · next hAny =>
      rw [if_neg]
      rintro ⟨rfl, hRequested⟩
      obtain ⟨q, block, hq, hb, hStatus⟩ := FileSet.status?_eq_some (hPlace ▸ hRequested)
      obtain rfl := Option.some.inj (hp.symm.trans hq)
      exact hAny ((Option.any_eq_true ..).mpr ⟨block, hb, decide_eq_true hStatus⟩)

theorem status?_foldl_reopenRequest (requests : List Request) (fs : FileSet) (x : BlockPlace) :
    (requests.foldl reopenRequest fs).status? x =
      if x ∈ requests.map Request.place ∧ fs.status? x = some .requested then some .needed
      else fs.status? x := by
  induction requests generalizing fs with
  | nil => simp
  | cons r rest ih =>
    rw [List.foldl_cons, ih, status?_reopenRequest, List.map_cons]
    by_cases hRequested : fs.status? x = some .requested
    · by_cases hx : x = r.place
      · subst hx
        simp [hRequested]
      · simp [hx, hRequested]
    · simp only [hRequested, and_false, if_false]

theorem status?_revert (d : Download) (requests : List Request) (x : BlockPlace) :
    (d.revert requests).status? x =
      if x ∈ requests.map Request.place ∧ d.status? x = some .requested then some .needed
      else d.status? x := by
  cases hfs : d.fileSet with
  | none => simp [status?, revert, changeFileSet, hfs]
  | some fs =>
    simpa [status?, revert, changeFileSet, hfs] using status?_foldl_reopenRequest requests fs x

/-! ### What peers are no longer asked for -/

theorem claims_dropRequests (p : Peer) : p.dropRequests.claims = 0 := rfl

theorem claims_dropRequest_of_some {p : Peer} {i b : Nat} {r : Request}
    (h : p.findRequest? i b = some r) : p.claims = (i, b) ::ₘ (p.dropRequest i b).claims := by
  have hFor : r.isFor i b = true := by simpa using List.find?_some h
  obtain ⟨dropped, before, after, _, hDropped, hSplit, hErased⟩ :=
    List.exists_of_eraseP (p := fun r => r.isFor i b) (List.mem_of_find?_eq_some h) hFor
  rw [Peer.claims, Peer.claims, Peer.dropRequest, hErased, hSplit, ← Request.isFor_iff.mp hDropped,
    Multiset.cons_coe, Multiset.coe_eq_coe, ← List.map_cons]
  exact List.perm_middle.map _

/-- A block that came takes at most its own request away. -/
theorem claims_received (window now : Time) (i b length : Nat) (p : Peer) :
    ∃ given ≤ {(i, b)}, p.claims = given + (received window now i b length p).claims := by
  simp only [received]
  split
  · exact ⟨0, Multiset.zero_le _, (Multiset.zero_add _).symm⟩
  · next r hFind =>
    refine ⟨{(i, b)}, le_refl _, ?_⟩
    rw [Multiset.singleton_add, claims_dropRequest_of_some hFind]
    simp only [RequestBudget.receive]
    split <;> rfl

/-- The requests of a peer that a change of it drops. -/
theorem claims_changePeer {id : PeerId} {f : Peer → Peer} {dropped : Multiset BlockPlace}
    (hDrops : ∀ p, ∃ given ≤ dropped, p.claims = given + (f p).claims) (d : Download) :
    ∃ given ≤ dropped, d.peers.claims = given + (d.changePeer id f).peers.claims := by
  cases hFind : d.peers.find? id with
  | none =>
    refine ⟨0, Multiset.zero_le _, ?_⟩
    rw [Multiset.zero_add, changePeer, Roster.claims, Roster.claims,
      Roster.entries_update_of_find?_none hFind]
  | some p =>
    obtain ⟨given, hLe, hClaims⟩ := hDrops p
    refine ⟨given, hLe, ?_⟩
    rw [Roster.claims_of_find? hFind, changePeer, Roster.claims_update hFind, hClaims,
      Multiset.add_assoc]

/-! ### Requesting blocks -/

theorem claims_addRequest (p : Peer) (i b : Nat) (now : Time) :
    (p.addRequest i b now).claims = (i, b) ::ₘ p.claims := by
  rw [Peer.claims, Peer.addRequest, List.map_append, ← Multiset.coe_add, Multiset.add_comm]
  exact Multiset.singleton_add _ _

/-- A claim makes one needed block of the piece requested. -/
theorem claim_status? {fs : FileSet} (hNumbered : fs.Numbered) {i : Nat} {block : Block} {p : Piece}
    (h : (fs.piece? i).bind Piece.claim = some (block, p)) :
    (fs.setPiece i p).settled = fs.settled ∧ fs.status? (i, block.index) = some .needed ∧
      ∀ x, (fs.setPiece i p).status? x =
        if x = (i, block.index) then some .requested else fs.status? x := by
  obtain ⟨before, hp, hClaim⟩ := Option.bind_eq_some_iff.mp h
  obtain ⟨b, hb, hNeeded, rfl⟩ := Piece.claim_eq_some hClaim
  have hIndex : block.index = b := hNumbered before (List.mem_of_getElem? hp) b block hb
  rw [hIndex]
  refine ⟨?_, ?_, FileSet.status?_mark hp hb .requested⟩
  · refine FileSet.settled_setPiece hp (Piece.resetRequested_mark hb ?_ rfl)
    rw [hNeeded]
    rfl
  · rw [FileSet.status?_of_block hp hb, hNeeded]

/-- Requesting blocks from a peer changes nothing else about it. -/
theorem fill_peer (selector : Selector) (r : Rarity) (now : Time) (slots : Nat) (fs : FileSet)
    (peer : Peer) :
    ∃ pending, (fill selector r now slots fs peer).2.1 = { peer with pending } := by
  induction slots generalizing fs peer with
  | zero => exact ⟨_, rfl⟩
  | succ slots ih =>
    simp only [fill]
    split
    · exact ⟨_, rfl⟩
    · next i _ =>
      split
      · exact ⟨_, rfl⟩
      · next b p _ =>
        obtain ⟨pending, hPeer⟩ := ih (fs.setPiece i p) (peer.addRequest i b.index now)
        rw [hPeer]
        exact ⟨pending, rfl⟩

theorem fill_requests (selector : Selector) (r : Rarity) (now : Time) (slots : Nat) {fs : FileSet}
    (peer : Peer) (hNumbered : fs.Numbered) :
    ∃ added : Multiset BlockPlace,
      (fill selector r now slots fs peer).2.1.claims = added + peer.claims ∧ added.Nodup ∧
      (∀ x ∈ added, fs.status? x = some .needed) ∧
      ∀ x, (fill selector r now slots fs peer).1.status? x =
        if x ∈ added then some .requested else fs.status? x := by
  induction slots generalizing fs peer with
  | zero => exact ⟨0, by simp [fill]⟩
  | succ slots ih =>
    simp only [fill]
    split
    · exact ⟨0, by simp⟩
    · next i _ =>
      split
      · exact ⟨0, by simp⟩
      · next block p hClaim =>
        obtain ⟨hSettled, hNeeded, hStatus⟩ := claim_status? hNumbered hClaim
        obtain ⟨added, hClaims, hNodup, hWere, hAre⟩ :=
          ih (peer.addRequest i block.index now) (hNumbered.settled hSettled)
        have hNew : (i, block.index) ∉ added := by
          intro hMem
          have := hWere _ hMem
          rw [hStatus, if_pos rfl] at this
          cases this
        refine ⟨(i, block.index) ::ₘ added, ?_, Multiset.nodup_cons.mpr ⟨hNew, hNodup⟩, ?_, ?_⟩
        · rw [hClaims, claims_addRequest, Multiset.add_cons, Multiset.cons_add]
        · intro x hMem
          rcases Multiset.mem_cons.mp hMem with rfl | hMem
          · exact hNeeded
          · have hWas := hWere x hMem
            have hne : x ≠ (i, block.index) := by
              rintro rfl
              exact hNew hMem
            rw [hStatus, if_neg hne] at hWas
            exact hWas
        · intro x
          rw [hAre, hStatus]
          by_cases hx : x = (i, block.index) <;> simp [hx]

/-- `d'` is `d` after the blocks at some needed places were requested. -/
structure Requests (d d' : Download) (added : Multiset BlockPlace) : Prop where
  claims_eq : d'.peers.claims = added + d.peers.claims
  nodup : added.Nodup
  needed : ∀ x ∈ added, d.status? x = some .needed
  status?_eq : ∀ x, d'.status? x = if x ∈ added then some .requested else d.status? x

theorem Requests.none (hClaims : d'.peers.claims = d.peers.claims) (hfs : d'.fileSet = d.fileSet) :
    d.Requests d' 0 := by
  refine ⟨?_, Multiset.nodup_zero, ?_, ?_⟩
  · rw [hClaims, Multiset.zero_add]
  · intro x hMem
    cases Multiset.notMem_zero x hMem
  · intro x
    rw [if_neg (Multiset.notMem_zero x), status?, status?, hfs]

theorem Requests.trans {d'' : Download} {added added' : Multiset BlockPlace}
    (h : d.Requests d' added) (h' : d'.Requests d'' added') : d.Requests d'' (added' + added) := by
  have hApart : ∀ x ∈ added', x ∉ added := by
    intro x hMem hWas
    have := h'.needed x hMem
    rw [h.status?_eq, if_pos hWas] at this
    cases this
  refine ⟨?_, ?_, ?_, ?_⟩
  · rw [h'.claims_eq, h.claims_eq, Multiset.add_assoc]
  · have hDisjoint := Multiset.disjoint_left.mpr fun {x} hx => hApart x hx
    exact Multiset.nodup_add.mpr ⟨h'.nodup, h.nodup, hDisjoint⟩
  · intro x hMem
    rcases Multiset.mem_add.mp hMem with hNew | hOld
    · have hWas := h'.needed x hNew
      rw [h.status?_eq, if_neg (hApart x hNew)] at hWas
      exact hWas
    · exact h.needed x hOld
  · intro x
    rw [h'.status?_eq, h.status?_eq]
    by_cases hNew : x ∈ added' <;> by_cases hOld : x ∈ added <;> simp [hNew, hOld]

/-- Every place that peers have been asked for was asked of one peer only, and is requested. -/
structure Exclusive (d : Download) : Prop where
  numbered : ∀ fs, d.fileSet = some fs → fs.Numbered
  nodup : d.peers.claims.Nodup
  claimed : ∀ x ∈ d.peers.claims, d.status? x = some .requested

/-- Nothing is pending at first, in a file set as it was cut. -/
theorem exclusive_of_noPending
    (hCut : ∀ fs, d.fileSet = some fs → ∃ blockSize digests, fs.CutFrom blockSize digests)
    (hNone : d.peers.All fun p => p.pending = []) : d.Exclusive := by
  have hClaims := Roster.claims_eq_zero hNone
  refine ⟨fun fs hfs => ?_, ?_, fun x hMem => ?_⟩
  · obtain ⟨blockSize, digests, hFrom⟩ := hCut fs hfs
    exact hFrom.numbered
  · rw [hClaims]
    exact Multiset.nodup_zero
  · rw [hClaims] at hMem
    cases Multiset.notMem_zero x hMem

theorem Exclusive.numbered_of_core (h : d.Exclusive) (hCore : d'.core = d.core) :
    ∀ fs, d'.fileSet = some fs → fs.Numbered := by
  intro fs' hfs'
  obtain ⟨fs, hfs, hSettled⟩ := fileSet_of_core hCore hfs'
  exact (h.numbered fs hfs).settled hSettled

/-- New requests are for needed blocks, which nobody was asked for. -/
theorem Exclusive.requests {added : Multiset BlockPlace} (h : d.Exclusive)
    (hRequests : d.Requests d' added) (hCore : d'.core = d.core) : d'.Exclusive := by
  refine ⟨h.numbered_of_core hCore, ?_, ?_⟩
  · rw [hRequests.claims_eq]
    refine Multiset.nodup_add.mpr ⟨hRequests.nodup, h.nodup, Multiset.disjoint_left.mpr ?_⟩
    intro x hMem hWas
    cases (hRequests.needed x hMem).symm.trans (h.claimed x hWas)
  · intro x hMem
    rw [hRequests.claims_eq] at hMem
    rw [hRequests.status?_eq]
    rcases Multiset.mem_add.mp hMem with hAdded | hOld
    · rw [if_pos hAdded]
    · rw [h.claimed x hOld, ite_self]

/-- Besides requests a pass sends a peer only what it tells of its flags. -/
theorem mem_flagMessages {old new : Peer} {m : Message} (h : m ∈ flagMessages old new) :
    (∃ v, m = interestMessage v) ∨ ∃ v, m = chokeMessage v := by
  rcases List.mem_append.mp h with h | h
  · split at h
    · cases h
    · exact .inl ⟨_, List.mem_singleton.mp h⟩
  · split at h
    · cases h
    · exact .inr ⟨_, List.mem_singleton.mp h⟩

theorem update_choked (c : Choking) (fs : Option FileSet) (p : Peer) :
    (c.update fs p).download.choked = p.download.choked := by
  cases c <;> rfl

theorem update_pending (c : Choking) (fs : Option FileSet) (p : Peer) :
    (c.update fs p).pending = p.pending := by
  cases c <;> rfl

theorem claims_update_choking (c : Choking) (fs : Option FileSet) (p : Peer) :
    (c.update fs p).claims = p.claims := by
  cases c <;> rfl

theorem serve_requests (r : Rarity) (now : Time) (id : PeerId)
    (hNumbered : ∀ fs, d.fileSet = some fs → fs.Numbered) :
    ∃ added, d.Requests (d.serve r now id).1 added := by
  simp only [serve]
  cases hFind : d.peers.find? id with
  | none => exact ⟨0, .none rfl rfl⟩
  | some old =>
    dsimp only
    have hOld := Roster.claims_of_find? hFind
    split
    · refine ⟨0, .none ?_ rfl⟩
      rw [Roster.claims_insert, claims_update_choking, hOld]
    · next fs hServed =>
      have hfs : d.fileSet = some fs := (Option.filter_eq_some_iff.mp hServed).1
      obtain ⟨added, hClaims, hNodup, hWere, hAre⟩ := fill_requests d.selector r now
        (d.choking.update d.fileSet old).freeSlots (d.choking.update d.fileSet old)
        (hNumbered fs hfs)
      have hBefore (x : BlockPlace) : d.status? x = fs.status? x := by
        rw [status?, hfs]
        rfl
      refine ⟨added, ?_, hNodup, ?_, ?_⟩
      · rw [Roster.claims_insert, hClaims, claims_update_choking, hOld, Multiset.add_assoc]
      · intro x hMem
        rw [hBefore]
        exact hWere x hMem
      · intro x
        rw [hBefore]
        exact hAre x

/-- A scheduling pass requests needed blocks, each from one peer. -/
theorem tick_requests (relevant : List PeerId) (now : Time)
    (hNumbered : ∀ fs, d.fileSet = some fs → fs.Numbered) :
    ∃ added, d.Requests (d.tick relevant now).1 added := by
  simp only [tick]
  generalize Rarity.ofPeers _ = r
  induction relevant generalizing d with
  | nil => exact ⟨0, .none rfl rfl⟩
  | cons id rest ih =>
    obtain ⟨added, hServed⟩ := serve_requests r now id hNumbered
    have hStill : ∀ fs, (d.serve r now id).1.fileSet = some fs → fs.Numbered := by
      intro fs' hfs'
      obtain ⟨fs, hfs, hSettled⟩ := fileSet_of_core (core_serve d r now id) hfs'
      exact (hNumbered fs hfs).settled hSettled
    obtain ⟨more, hRest⟩ := ih hStill
    exact ⟨more + added, hServed.trans hRest⟩

end Download

end TorrentEngine
