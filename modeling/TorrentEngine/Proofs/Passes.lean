import TorrentEngine.Proofs.Asking

/-!
What a scheduling pass does. It picks blocks for peers, one after the other. A pick is sent as one
message and noted as one request of its peer; it makes a needed block requested. Besides that a pass
sets the flags of the peers that it comes to, and nothing else.
-/

namespace TorrentEngine

/-- Whether an effect asks a peer for a block. -/
def Effect.isRequest : Effect → Bool
  | .send _ (.request ..) => true
  | .send _ (.metadataRequest _) => true
  | _ => false

/-- A block that was picked for a peer: where it is, the message that asks the peer for it, and the
request that is noted. -/
structure Pick where
  peer : PeerId
  place : BlockPlace
  message : Message
  request : Request

namespace Pick

def effect (k : Pick) : Effect := .send k.peer k.message

/-- The message and the request name the block at the place of the pick: the message by its piece,
where it starts in the piece and how long it is, or, as there is only one piece of metadata, by its
number. -/
def Names (k : Pick) (fs : FileSet) (now : Time) : Prop :=
  ∃ (p : Piece) (b : Block), fs.pieces[k.place.1]? = some p ∧ p.blocks[k.place.2]? = some b ∧
    k.request = { piece := k.place.1, block := b.index, requestedAt := now } ∧
    k.message = match fs.kind with
      | .metadata => .metadataRequest b.index
      | .data => .request k.place.1 (b.index * p.blockSize) b.size

variable {k : Pick} {fs fs' : FileSet} {now : Time}

theorem Names.isRequest (h : k.Names fs now) (id : PeerId) :
    (Effect.send id k.message).isRequest = true := by
  obtain ⟨p, b, -, -, -, hMessage⟩ := h
  rw [hMessage]
  cases fs.kind <;> rfl

/-- Requests do not change how blocks are named. -/
theorem Names.settled (h : k.Names fs now) (hSettled : fs'.settled = fs.settled) :
    k.Names fs' now := by
  obtain ⟨p, b, hp, hb, hRequest, hMessage⟩ := h
  have hSame := FileSet.sameCut_of_settled hSettled
  obtain ⟨p', hp', hOutline⟩ := FileSet.piece_of_outlines hSame.outlines_eq.symm hp
  have hBlank := Piece.blank_of_outline hOutline k.place.2
  rw [hb, Option.map_some] at hBlank
  obtain ⟨b', hb', hEq⟩ := Option.map_eq_some_iff.mp hBlank.symm
  obtain ⟨hIndex, hSize⟩ : b'.index = b.index ∧ b'.size = b.size := by
    simpa [Block.blank] using hEq
  have hBlockSize : p.blockSize = p'.blockSize := Piece.blockSize_of_outline hOutline
  refine ⟨p', b', hp', hb', ?_, ?_⟩
  · rw [hRequest, hIndex]
  · rw [hMessage, hSame.kind_eq, hIndex, hSize, hBlockSize]

end Pick

/-- The requests that picks note with a peer. -/
def notes (id : PeerId) (picks : List Pick) : List Request :=
  (picks.filter (·.peer = id)).map (·.request)

theorem notes_append (id : PeerId) (picks more : List Pick) :
    notes id (picks ++ more) = notes id picks ++ notes id more := by
  rw [notes, List.filter_append, List.map_append]
  rfl

theorem notes_self {id : PeerId} {picks : List Pick} (h : ∀ k ∈ picks, k.peer = id) :
    notes id picks = picks.map (·.request) := by
  rw [notes, List.filter_eq_self.mpr fun k hk => decide_eq_true (h k hk)]

theorem notes_eq_nil {id : PeerId} {picks : List Pick} (h : ∀ k ∈ picks, k.peer ≠ id) :
    notes id picks = [] := by
  rw [notes, List.filter_eq_nil_iff.mpr, List.map_nil]
  exact fun k hk hPeer => h k hk (of_decide_eq_true hPeer)

theorem notes_other {id other : PeerId} {picks : List Pick} (h : ∀ k ∈ picks, k.peer = id)
    (hOther : other ≠ id) : notes other picks = [] :=
  notes_eq_nil fun k hk hPeer => hOther (hPeer.symm.trans (h k hk))

/-! ### What picks do to the file set -/

/-- The file set `o'`, if there is one, is `o` after blocks of it were picked: each was needed, and
was picked once. -/
structure Picked (o o' : Option FileSet) (now : Time) (picks : List Pick) : Prop where
  settled_eq : o'.map FileSet.settled = o.map FileSet.settled
  names : ∀ k ∈ picks, ∃ fs, o = some fs ∧ k.Names fs now
  nodup : (picks.map Pick.place).Nodup
  needed : ∀ k ∈ picks, o.bind (·.status? k.place) = some .needed
  status?_eq : ∀ x, o'.bind (·.status? x) =
    if x ∈ picks.map Pick.place then some .requested else o.bind (·.status? x)

namespace Picked

variable {o o' o'' : Option FileSet} {now : Time} {picks more : List Pick}

theorem nil (o : Option FileSet) (now : Time) : Picked o o now [] :=
  ⟨rfl, List.forall_mem_nil _, List.nodup_nil, List.forall_mem_nil _,
    fun _ => (if_neg List.not_mem_nil).symm⟩

theorem append (h : Picked o o' now picks) (h' : Picked o' o'' now more) :
    Picked o o'' now (picks ++ more) := by
  -- A block that was picked is requested, so that it is not picked again.
  have hApart : ∀ k ∈ more, k.place ∉ picks.map Pick.place := by
    intro k hk hOld
    have hNeeded := h'.needed k hk
    rw [h.status?_eq, if_pos hOld] at hNeeded
    cases hNeeded
  refine ⟨h'.settled_eq.trans h.settled_eq, ?_, ?_, ?_, ?_⟩
  · intro k hk
    rcases List.mem_append.mp hk with hk | hk
    · exact h.names k hk
    · obtain ⟨fs', rfl, hNames⟩ := h'.names k hk
      obtain ⟨fs, hfs, hSettled⟩ := Option.map_eq_some_iff.mp h.settled_eq.symm
      exact ⟨fs, hfs, hNames.settled hSettled⟩
  · rw [List.map_append]
    refine List.nodup_append.mpr ⟨h.nodup, h'.nodup, ?_⟩
    rintro x hOld y hNew rfl
    obtain ⟨k, hk, rfl⟩ := List.mem_map.mp hNew
    exact hApart k hk hOld
  · intro k hk
    rcases List.mem_append.mp hk with hk | hk
    · exact h.needed k hk
    · have hNeeded := h'.needed k hk
      rwa [h.status?_eq, if_neg (hApart k hk)] at hNeeded
  · intro x
    rw [h'.status?_eq, h.status?_eq]
    by_cases hOld : x ∈ picks.map Pick.place <;> by_cases hNew : x ∈ more.map Pick.place <;>
      simp [hOld, hNew]

end Picked

namespace Download

variable {fs : FileSet}

/-- A claim picks one block. -/
theorem picked_claim {i : Nat} {block : Block} {p : Piece}
    (h : (fs.piece? i).bind Piece.claim = some (block, p)) (now : Time) (id : PeerId) :
    ∃ b, Picked (some fs) (some (fs.setPiece i p)) now
      [{ peer := id, place := (i, b), message := requestMessage fs.kind i p block
         request := { piece := i, block := block.index, requestedAt := now } }] := by
  obtain ⟨before, hp, hClaim⟩ := Option.bind_eq_some_iff.mp h
  obtain ⟨b, hb, hNeeded, rfl⟩ := Piece.claim_eq_some hClaim
  have hSettled : (fs.setPiece i (before.mark b .requested)).settled = fs.settled := by
    refine FileSet.settled_setPiece hp (Piece.resetRequested_mark hb ?_ rfl)
    rw [hNeeded]
    rfl
  refine ⟨b, congrArg some hSettled, ?_, List.nodup_singleton _, ?_, ?_⟩
  · intro k hk
    obtain rfl := List.mem_singleton.mp hk
    refine ⟨fs, rfl, before, block, hp, hb, rfl, ?_⟩
    cases hKind : fs.kind <;> rfl
  · intro k hk
    obtain rfl := List.mem_singleton.mp hk
    exact (FileSet.status?_of_block hp hb).trans (congrArg some hNeeded)
  · intro x
    simpa using FileSet.status?_mark hp hb .requested x

end Download

/-! ### Filling the slots of a peer -/

/-- The peer with more requests to answer. -/
def Peer.owing (p : Peer) (more : List Request) : Peer := { p with pending := p.pending ++ more }

namespace Peer

theorem owing_nil (p : Peer) : p.owing [] = p := by
  rw [owing, List.append_nil]

theorem owing_owing (p : Peer) (requests more : List Request) :
    (p.owing requests).owing more = p.owing (requests ++ more) := by
  rw [owing, owing, owing, List.append_assoc]

end Peer

/-- The first started candidate in the ranking, or else the first of all, is a candidate. -/
theorem candidate_of_ranked {peer : Peer} {fs : FileSet} {r : Rarity} {p : Piece}
    (h : ((r.rank (fs.candidates peer)).find? Piece.isStarted).or
      (r.rank (fs.candidates peer)).head? = some p) : p ∈ fs.candidates peer := by
  have hRanked : p ∈ r.rank (fs.candidates peer) := by
    rcases Option.or_eq_some_iff.mp h with hStarted | ⟨-, hFirst⟩
    · exact List.mem_of_find?_eq_some hStarted
    · exact List.mem_of_mem_head? hFirst
  exact List.mem_mergeSort.mp hRanked

/-- The rarest-first selector finds only candidates. -/
theorem candidate_of_pick {peer : Peer} {fs : FileSet} {r : Rarity} {i : Nat}
    (h : Selector.rarest.pick peer fs r = some i) : ∃ p ∈ fs.candidates peer, p.index = i := by
  obtain ⟨p, hp, hIndex⟩ := Option.map_eq_some_iff.mp h
  exact ⟨p, candidate_of_ranked hp, hIndex⟩

theorem of_mem_candidates {peer : Peer} {fs : FileSet} {p : Piece}
    (h : p ∈ fs.candidates peer) :
    p ∈ fs.pieces ∧ peer.hasPiece p.index = true ∧ p.hasStatus .needed = true := by
  obtain ⟨hNeeded, hBoth⟩ := List.mem_filter.mp h
  exact ⟨List.mem_of_mem_filter hNeeded, Bool.and_eq_true_iff.mp hBoth⟩

namespace Download

variable {d d' d'' : Download} {fs : FileSet}

/-- The blocks picked for a peer while its slots are filled. -/
theorem fill_picks (selector : Selector) (r : Rarity) (now : Time) (id : PeerId) (slots : Nat)
    (fs : FileSet) (peer : Peer) :
    ∃ picks : List Pick,
      Picked (some fs) (some (fill selector r now slots fs peer).1) now picks ∧
      (fill selector r now slots fs peer).2.1 = peer.owing (picks.map (·.request)) ∧
      (fill selector r now slots fs peer).2.2 = picks.map (·.message) ∧
      picks.length ≤ slots ∧
      ∀ k ∈ picks, k.peer = id ∧ (selector = .rarest → peer.hasPiece k.place.1 = true) := by
  have hNone (slots : Nat) (fs : FileSet) (peer : Peer) : ∃ picks : List Pick,
      Picked (some fs) (some fs) now picks ∧ peer = peer.owing (picks.map (·.request)) ∧
      [] = picks.map (·.message) ∧ picks.length ≤ slots ∧
      ∀ k ∈ picks, k.peer = id ∧ (selector = .rarest → peer.hasPiece k.place.1 = true) :=
    ⟨[], .nil _ now, peer.owing_nil.symm, rfl, Nat.zero_le _, List.forall_mem_nil _⟩
  induction slots generalizing fs peer with
  | zero => exact hNone 0 fs peer
  | succ slots ih =>
    simp only [fill]
    split
    · exact hNone _ fs peer
    · next i hPick =>
      split
      · exact hNone _ fs peer
      · next block p hClaim =>
        obtain ⟨b, hFirst⟩ := picked_claim hClaim now id
        obtain ⟨picks, hRest, hPeer, hMessages, hLength, hPicks⟩ :=
          ih (fs.setPiece i p) (peer.addRequest i block.index now)
        refine ⟨_, hFirst.append hRest, ?_, ?_, ?_, ?_⟩
        · rw [hPeer, List.map_append, ← Peer.owing_owing]
          rfl
        · rw [hMessages]
          rfl
        · rw [List.singleton_append, List.length_cons]
          omega
        · intro k hk
          rcases List.mem_append.mp hk with hk | hk
          · obtain rfl := List.mem_singleton.mp hk
            refine ⟨rfl, ?_⟩
            rintro rfl
            obtain ⟨q, hq, rfl⟩ := candidate_of_pick hPick
            exact (of_mem_candidates hq).2.1
          · exact hPicks k hk

/-! ### Flags -/

/-- The peer with the flags that the strategy in use wants for it. -/
def flag (d : Download) (p : Peer) : Peer := d.choking.update d.fileSet p

theorem flag_eq (d : Download) (p : Peer) :
    d.flag p = { p with
      download.interested := (d.flag p).download.interested
      upload.choked := (d.flag p).upload.choked } := by
  simp only [flag]
  cases d.choking <;> rfl

theorem flag_owing (d : Download) (p : Peer) (more : List Request) :
    d.flag (p.owing more) = (d.flag p).owing more := by
  simp only [flag]
  cases d.choking <;> rfl

theorem flag_flag (d : Download) (p : Peer) : d.flag (d.flag p) = d.flag p := by
  simp only [flag]
  cases d.choking <;> rfl

theorem wantsFrom_settled (o : Option FileSet) :
    Choking.wantsFrom (o.map FileSet.settled) = Choking.wantsFrom o := by
  cases o with
  | none => rfl
  | some fs =>
    funext p
    simp only [Choking.wantsFrom, FileSet.neededPieces, FileSet.settled, Option.map_some,
      Option.any_some, List.any_filter, List.any_map, Function.comp_def,
      Piece.isDone_resetRequested]
    rfl

/-- Requests do not change the flags that a strategy wants. -/
theorem flag_of_settled (hChoking : d'.choking = d.choking)
    (hSettled : d'.fileSet.map FileSet.settled = d.fileSet.map FileSet.settled) :
    d'.flag = d.flag := by
  have hWants : Choking.wantsFrom d'.fileSet = Choking.wantsFrom d.fileSet := by
    rw [← wantsFrom_settled, hSettled, wantsFrom_settled]
  funext p
  simp only [flag, Choking.update, hChoking, hWants]

/-! ### Passes -/

/-- A peer may be asked for a picked block: it is of interest, does not choke us unless metadata is
being fetched, and has the piece if the selector looks at that. -/
structure MayServe (d : Download) (p : Peer) (k : Pick) : Prop where
  interested : p.download.interested = true
  unchoked : d.kind? = some .data → p.download.choked = false
  hasPiece : d.selector = .rarest → p.hasPiece k.place.1 = true

/-- `d'` is `d` after a pass over some peers that has made some picks. -/
structure Pass (d d' : Download) (ids : List PeerId) (now : Time) (effects : List Effect)
    (picks : List Pick) : Prop where
  sent : effects.filter Effect.isRequest = picks.map Pick.effect
  files : Picked d.fileSet d'.fileSet now picks
  served : ∀ k ∈ picks, k.peer ∈ ids ∧
    ∃ p, d.peers.find? k.peer = some p ∧ d.MayServe (d.flag p) k
  peers_eq : ∀ id, d'.peers.find? id = (d.peers.find? id).map fun p =>
    (if id ∈ ids then d.flag p else p).owing (notes id picks)
  room : ∀ id p, d.peers.find? id = some p → (notes id picks).length ≤ p.freeSlots
  rest : { d with peers := d'.peers, fileSet := d'.fileSet } = d'

namespace Pass

variable {ids more : List PeerId} {now : Time} {effects later : List Effect}
  {picks further : List Pick}

theorem choking_eq (h : d.Pass d' ids now effects picks) : d'.choking = d.choking := by
  rw [← h.rest]

theorem selector_eq (h : d.Pass d' ids now effects picks) : d'.selector = d.selector := by
  rw [← h.rest]

theorem kind?_eq (h : d.Pass d' ids now effects picks) : d'.kind? = d.kind? := by
  have hKinds := congrArg (Option.map FileSet.kind) h.files.settled_eq
  rwa [Option.map_map, Option.map_map] at hKinds

/-- A pass leaves alone which flags are wanted. -/
theorem flags_eq (h : d.Pass d' ids now effects picks) : d'.flag = d.flag :=
  flag_of_settled h.choking_eq h.files.settled_eq

theorem nil (d : Download) (now : Time) : d.Pass d [] now [] [] where
  sent := rfl
  files := .nil _ now
  served := List.forall_mem_nil _
  peers_eq id := by
    have hSame (p : Peer) : (if id ∈ [] then d.flag p else p).owing (notes id []) = p := by
      rw [if_neg List.not_mem_nil]
      exact p.owing_nil
    simp only [hSame, Option.map_id']
  room _ _ _ := Nat.zero_le _
  rest := rfl

/-- A second pass wants the same flags for a peer as the first, whether or not that came to it. -/
theorem flag_again (h : d.Pass d' ids now effects picks) (id : PeerId) (p : Peer) :
    d'.flag ((if id ∈ ids then d.flag p else p).owing (notes id picks)) =
      (d.flag p).owing (notes id picks) := by
  rw [flag_owing, h.flags_eq]
  split
  · rw [flag_flag]
  · rfl

/-- A pass leaves a peer alone that it does not come to. -/
theorem find?_of_notMem (h : d.Pass d' ids now effects picks) {id : PeerId} (hId : id ∉ ids) :
    d'.peers.find? id = d.peers.find? id := by
  have hNone : notes id picks = [] := notes_eq_nil fun k hk hPeer => hId (hPeer ▸ (h.served k hk).1)
  simp only [h.peers_eq, hNone, if_neg hId, Peer.owing_nil, Option.map_id']

theorem append (h : d.Pass d' ids now effects picks) (h' : d'.Pass d'' more now later further) :
    d.Pass d'' (ids ++ more) now (effects ++ later) (picks ++ further) where
  sent := by rw [List.filter_append, h.sent, h'.sent, List.map_append]
  files := h.files.append h'.files
  served := by
    intro k hk
    rcases List.mem_append.mp hk with hk | hk
    · obtain ⟨hId, hServed⟩ := h.served k hk
      exact ⟨List.mem_append_left _ hId, hServed⟩
    · obtain ⟨hId, p', hFind', hMay⟩ := h'.served k hk
      rw [h.peers_eq] at hFind'
      obtain ⟨p, hFind, rfl⟩ := Option.map_eq_some_iff.mp hFind'
      rw [h.flag_again] at hMay
      refine ⟨List.mem_append_right _ hId, p, hFind, hMay.interested, fun hKind => ?_,
        fun hRarest => ?_⟩
      · exact hMay.unchoked (h.kind?_eq.trans hKind)
      · exact hMay.hasPiece (h.selector_eq.trans hRarest)
  peers_eq := by
    intro id
    rw [h'.peers_eq, h.peers_eq, Option.map_map, notes_append]
    congr 1
    funext p
    simp only [Function.comp_apply, List.mem_append, ← Peer.owing_owing]
    split
    · rw [h.flag_again, if_pos (.inr ‹_›)]
    · next hNot => simp only [hNot, or_false]
  room := by
    intro id p hFind
    have hFirst := h.room id p hFind
    have hFree : ((if id ∈ ids then d.flag p else p).owing (notes id picks)).freeSlots =
        p.freeSlots - (notes id picks).length := by
      have hLimit : (d.flag p).requestLimit = p.requestLimit := update_requestLimit ..
      have hPending : (d.flag p).pending = p.pending := update_pending ..
      simp only [Peer.freeSlots, Peer.owing, List.length_append]
      split
      · rw [hLimit, hPending, Nat.sub_sub]
      · rw [Nat.sub_sub]
    have hSecond : (notes id further).length ≤ p.freeSlots - (notes id picks).length := by
      rw [← hFree]
      refine h'.room id _ ?_
      rw [h.peers_eq, hFind, Option.map_some]
    rw [notes_append, List.length_append]
    omega
  rest := by rw [← h'.rest, ← h.rest]

end Pass

/-- What a peer is told of its flags asks for nothing. -/
theorem filter_flagMessages (old new : Peer) (id : PeerId) :
    ((flagMessages old new).map (Effect.send id)).filter Effect.isRequest = [] := by
  refine List.filter_eq_nil_iff.mpr fun e he => ?_
  obtain ⟨m, hm, rfl⟩ := List.mem_map.mp he
  rcases mem_flagMessages hm with ⟨v, rfl⟩ | ⟨v, rfl⟩ <;> cases v <;> exact Bool.false_ne_true

/-- The picks for one peer are all sent. -/
theorem filter_picked {o o' : Option FileSet} {now : Time} {picks : List Pick} {id : PeerId}
    (h : Picked o o' now picks) (hPeer : ∀ k ∈ picks, k.peer = id) :
    ((picks.map Pick.message).map (Effect.send id)).filter Effect.isRequest =
      picks.map Pick.effect := by
  have hEffects : (picks.map Pick.message).map (Effect.send id) = picks.map Pick.effect := by
    rw [List.map_map]
    refine List.map_congr_left fun k hk => ?_
    rw [Pick.effect, hPeer k hk]
    rfl
  rw [hEffects, List.filter_eq_self]
  intro e he
  obtain ⟨k, hk, rfl⟩ := List.mem_map.mp he
  obtain ⟨fs, -, hNames⟩ := h.names k hk
  exact hNames.isRequest k.peer

/-- A peer served is flagged and asked for its picks; the others stay as they are. -/
theorem find?_insert_owing {id : PeerId} {old : Peer} (hFind : d.peers.find? id = some old)
    {picks : List Pick} (hPeer : ∀ k ∈ picks, k.peer = id) (k : PeerId) :
    (d.peers.insert id ((d.flag old).owing (picks.map Pick.request))).find? k =
      (d.peers.find? k).map fun p =>
        (if k ∈ [id] then d.flag p else p).owing (notes k picks) := by
  rw [Roster.find?_insert]
  by_cases hSame : k = id
  · subst hSame
    rw [if_pos rfl, hFind, Option.map_some, if_pos List.mem_cons_self, notes_self hPeer]
  · have hNot : k ∉ [id] := fun h => hSame (List.mem_singleton.mp h)
    simp only [if_neg hSame, if_neg hNot, notes_other hPeer hSame, Peer.owing_nil, Option.map_id']

theorem serve_pass (d : Download) (r : Rarity) (now : Time) (id : PeerId) :
    ∃ picks, d.Pass (d.serve r now id).1 [id] now ((d.serve r now id).2.map (Effect.send id))
      picks := by
  simp only [serve]
  cases hFind : d.peers.find? id with
  | none =>
    refine ⟨[], rfl, .nil _ now, List.forall_mem_nil _, fun k => ?_,
      fun _ _ _ => Nat.zero_le _, rfl⟩
    cases hOther : d.peers.find? k with
    | none => rfl
    | some p =>
      have hNot : k ∉ [id] := by
        intro hMem
        obtain rfl := List.mem_singleton.mp hMem
        rw [hFind] at hOther
        cases hOther
      rw [Option.map_some, if_neg hNot]
      exact congrArg some p.owing_nil.symm
  | some old =>
    dsimp only
    split
    · have hNobody : ∀ k ∈ ([] : List Pick), k.peer = id := List.forall_mem_nil _
      refine ⟨[], filter_flagMessages .., .nil _ now, List.forall_mem_nil _,
        fun k => ?_, fun _ _ _ => Nat.zero_le _, rfl⟩
      rw [← find?_insert_owing hFind hNobody, List.map_nil, Peer.owing_nil]
      rfl
    · next fs hServed =>
      obtain ⟨hfs, hMay⟩ := Option.filter_eq_some_iff.mp hServed
      obtain ⟨hInterested, hOpen⟩ := Bool.and_eq_true_iff.mp hMay
      obtain ⟨picks, hPicked, hPeer, hMessages, hLength, hPicks⟩ := fill_picks d.selector r now id
        (d.choking.update d.fileSet old).freeSlots fs (d.choking.update d.fileSet old)
      have hNobody : ∀ k ∈ picks, k.peer = id := fun k hk => (hPicks k hk).1
      refine ⟨picks, ?_, ?_, ?_, ?_, ?_, rfl⟩
      · rw [hMessages, List.map_append, List.filter_append, filter_flagMessages,
          filter_picked hPicked hNobody, List.nil_append]
      · rw [hfs]
        rwa [hfs] at hPicked
      · intro k hk
        obtain ⟨rfl, hHas⟩ := hPicks k hk
        refine ⟨List.mem_cons_self, old, hFind, hInterested, fun hKind => ?_, hHas⟩
        rw [kind?, hfs, Option.map_some] at hKind
        have hUnchoked := Bool.or_eq_true_iff.mp hOpen
        simpa [flag, Option.some.inj hKind] using hUnchoked
      · intro k
        rw [← find?_insert_owing hFind hNobody, hPeer]
        rfl
      · intro k p hp
        by_cases hSame : k = id
        · subst hSame
          obtain rfl := Option.some.inj (hFind.symm.trans hp)
          rw [notes_self hNobody, List.length_map]
          rwa [Peer.freeSlots, update_requestLimit, update_pending] at hLength
        · rw [notes_other hNobody hSame]
          exact Nat.zero_le _

theorem serveAll_pass (d : Download) (r : Rarity) (now : Time) (ids : List PeerId) :
    ∃ picks, d.Pass (serveAll r now ids d).1 ids now (serveAll r now ids d).2 picks := by
  induction ids generalizing d with
  | nil => exact ⟨[], .nil d now⟩
  | cons id rest ih =>
    obtain ⟨picks, hFirst⟩ := serve_pass d r now id
    obtain ⟨more, hRest⟩ := ih (d.serve r now id).1
    exact ⟨picks ++ more, hFirst.append hRest⟩

/-- The pick of a pass over `relevant` peers that leads from `d` to `d'` is right: it goes to a peer
that the pass came to and that may be asked for it, and it is for a block that was needed and is
requested from then on. -/
structure RightPick (d d' : Download) (relevant : List PeerId) (now : Time) (k : Pick) : Prop where
  relevant : k.peer ∈ relevant
  served : ∃ p', d'.peers.find? k.peer = some p' ∧ d.MayServe p' k
  names : ∃ fs, d.fileSet = some fs ∧ k.Names fs now
  needed : d.status? k.place = some .needed
  requested : d'.status? k.place = some .requested

/-- Every request that a scheduling pass sends is a right pick, and stands for one request noted
with its peer, after those that were there, in the order of sending. No block is picked twice and no
peer gets more picks than it had free slots. Blocks that were not picked keep their status. Of the
peers the pass changes, besides, the two flags as the strategy wants them, and of the torrent
nothing else. -/
theorem tick_picks (d : Download) (relevant : List PeerId) (now : Time) :
    ∃ picks : List Pick,
      (d.tick relevant now).2.filter Effect.isRequest = picks.map Pick.effect ∧
      (∀ k ∈ picks, d.RightPick (d.tick relevant now).1 relevant now k) ∧
      (picks.map Pick.place).Nodup ∧
      (∀ id p, d.peers.find? id = some p → (notes id picks).length ≤ p.freeSlots) ∧
      (∀ x, x ∉ picks.map Pick.place → (d.tick relevant now).1.status? x = d.status? x) ∧
      (∀ id, (d.tick relevant now).1.peers.find? id = (d.peers.find? id).map fun p =>
        let flagged := if id ∈ relevant then d.choking.update d.fileSet p else p
        { p with
          download.interested := flagged.download.interested
          upload.choked := flagged.upload.choked
          pending := p.pending ++ notes id picks }) ∧
      (d.tick relevant now).1.core = d.core ∧
      (d.tick relevant now).1.metadataSize = d.metadataSize := by
  obtain ⟨picks, hPass⟩ :=
    serveAll_pass d (.ofPeers (relevant.filterMap d.peers.find?)) now relevant
  refine ⟨picks, hPass.sent, ?_, hPass.files.nodup, hPass.room, ?_, ?_,
    core_tick d relevant now, ?_⟩
  · intro k hk
    obtain ⟨hId, p, hFind, hMay⟩ := hPass.served k hk
    have hFound := hPass.peers_eq k.peer
    rw [hFind, Option.map_some, if_pos hId] at hFound
    have hRequested := hPass.files.status?_eq k.place
    rw [if_pos (List.mem_map_of_mem hk)] at hRequested
    exact ⟨hId, ⟨_, hFound, hMay.interested, hMay.unchoked, hMay.hasPiece⟩,
      hPass.files.names k hk, hPass.files.needed k hk, hRequested⟩
  · intro x hx
    have hStatus := hPass.files.status?_eq x
    rwa [if_neg hx] at hStatus
  · intro id
    refine (hPass.peers_eq id).trans (congrArg (Option.map · _) (funext fun p => ?_))
    split
    · rw [flag_eq]
      rfl
    · rfl
  · exact (congrArg Download.metadataSize hPass.rest).symm

end Download

end TorrentEngine
