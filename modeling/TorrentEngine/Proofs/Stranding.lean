import TorrentEngine.Proofs.Requests

/-!
Whether a requested block can be stranded. A requested block stays requested until the peer that was
asked for it gives it back, or its bytes come and are stored. `Trail` follows the calls of a torrent
and keeps what the torrent itself does not: which blocks were handed over to be stored since they
were requested, and which were outstanding at a connection that another one of the same name
replaced. The latter are exactly the blocks that can be stranded.
-/

namespace TorrentEngine

/-- A call to the state of a torrent. -/
inductive Call
  | handle (now : Time) (c : Command)
  | tick (relevant : List PeerId) (now : Time)

/-- The block that an effect hands over to be stored. -/
def Effect.storedBlock? : Effect → Option BlockPlace
  | .store _ i b _ => some (i, b)
  | _ => none

/-- The blocks that the result of a call hands over to be stored. -/
def storedBlocks : Except PieceError (List Effect) → List BlockPlace
  | .ok effects => effects.filterMap Effect.storedBlock?
  | .error _ => []

namespace Download

/-- The blocks outstanding at a connection that a command replaces by another. -/
def replacedBy (d : Download) : Command → List BlockPlace
  | .connect id _ _ => (d.peers.find? id).toList.flatMap fun p => p.pending.map Request.place
  | _ => []

/-- Whether a block was requested between `d` and `d'`. -/
def requestsAnew (d d' : Download) (x : BlockPlace) : Bool :=
  d'.status? x = some .requested && d.status? x ≠ some .requested

end Download

/-- A torrent, the blocks handed over to be stored since they were requested last, and the blocks
that were outstanding at a replaced connection. -/
structure Trail where
  download : Download
  delivered : List BlockPlace := []
  lost : List BlockPlace := []

namespace Trail

/-- The trail one call further on. -/
def after (t : Trail) : Call → Trail
  | .handle now c =>
    let (d, result) := t.download.handle now c
    { download := d
      delivered := storedBlocks result ++ t.delivered
      lost := t.download.replacedBy c ++ t.lost }
  | .tick relevant now =>
    let (d, _) := t.download.tick relevant now
    { t with
      download := d
      delivered := t.delivered.filter fun x => !t.download.requestsAnew d x }

/-- The trail of a torrent after calls in order. -/
def run (d : Download) (calls : List Call) : Trail := calls.foldl after { download := d }

/-- Whether a block is requested from a connected peer. -/
def Owned (t : Trail) (x : BlockPlace) : Prop :=
  ∃ id p, t.download.peers.find? id = some p ∧ ∃ r ∈ p.pending, r.place = x

/-- Whether a block counts as requested, but from no connected peer, and was not handed over to be
stored since. -/
def Stranded (t : Trail) (x : BlockPlace) : Prop :=
  t.download.status? x = some .requested ∧ ¬ t.Owned x ∧ x ∉ t.delivered

end Trail

namespace Download

variable {d d' : Download}

/-- `d'` is `d` after peers were let off some places; the blocks there may be needed again. -/
structure Drops (d d' : Download) (given : Multiset BlockPlace) : Prop where
  claims_eq : d.peers.claims = given + d'.peers.claims
  status?_eq : ∀ x, d'.status? x = d.status? x ∨ x ∈ given ∧ d'.status? x = some .needed

theorem Drops.none (hClaims : d'.peers.claims = d.peers.claims) (hfs : d'.fileSet = d.fileSet) :
    d.Drops d' 0 := by
  refine ⟨?_, fun x => .inl ?_⟩
  · rw [hClaims, Multiset.zero_add]
  · rw [status?, status?, hfs]

/-- A place that a peer is still asked for was not given back. -/
theorem Exclusive.drops {given : Multiset BlockPlace} (h : d.Exclusive) (hDrops : d.Drops d' given)
    (hCore : d'.core = d.core) :
    d'.Exclusive ∧ ∀ x ∈ d'.peers.claims, x ∈ d.peers.claims ∧ x ∉ given := by
  have hNodup := h.nodup
  rw [hDrops.claims_eq, Multiset.nodup_add] at hNodup
  obtain ⟨_, hNodup, hApart⟩ := hNodup
  have hStays : ∀ x ∈ d'.peers.claims, x ∈ d.peers.claims ∧ x ∉ given := by
    intro x hMem
    refine ⟨?_, fun hGiven => Multiset.disjoint_left.mp hApart hGiven hMem⟩
    rw [hDrops.claims_eq]
    exact Multiset.mem_add.mpr (.inr hMem)
  refine ⟨⟨h.numbered_of_core hCore, hNodup, fun x hMem => ?_⟩, hStays⟩
  obtain ⟨hOld, hKept⟩ := hStays x hMem
  rcases hDrops.status?_eq x with hSame | ⟨hGiven, _⟩
  · exact hSame.trans (h.claimed x hOld)
  · exact absurd hGiven hKept

/-- Requests are taken off and given back. -/
theorem drops_revert {requests : List Request} (hfs : d'.fileSet = d.fileSet)
    (hClaims : d.peers.claims = (requests.map Request.place : List BlockPlace) + d'.peers.claims) :
    d.Drops (d'.revert requests) (requests.map Request.place : List BlockPlace) ∧
      ∀ x ∈ requests.map Request.place, (d'.revert requests).status? x ≠ some .requested := by
  have hStatus (x : BlockPlace) : d'.status? x = d.status? x := by
    rw [status?, status?, hfs]
  refine ⟨⟨hClaims, fun x => ?_⟩, fun x hMem => ?_⟩
  · rw [status?_revert, hStatus]
    split
    · next hGiven => exact .inr ⟨Multiset.mem_coe.mpr hGiven.1, rfl⟩
    · exact .inl rfl
  · rw [status?_revert, hStatus]
    split
    · decide
    · next hKept => exact fun h => hKept ⟨hMem, h⟩

/-- What a command does to the requests: the blocks that peers are let off are given back, or were
handed over, or were outstanding at a connection that was replaced. -/
structure Answers (d d' : Download) (stored replaced : List BlockPlace)
    (given : Multiset BlockPlace) : Prop where
  drops : d.Drops d' given
  settled : ∀ x ∈ given, d.status? x = some .requested → d'.status? x = some .requested →
    x ∈ stored ∨ x ∈ replaced
  replaced : ∀ x ∈ replaced, x ∈ given ∧ d'.status? x = d.status? x

theorem Answers.none (hClaims : d'.peers.claims = d.peers.claims) (hfs : d'.fileSet = d.fileSet)
    (stored : List BlockPlace) : d.Answers d' stored [] 0 := by
  refine ⟨.none hClaims hfs, ?_, ?_⟩
  · intro x hMem
    cases Multiset.notMem_zero x hMem
  · intro x hMem
    cases hMem

theorem Answers.revert {requests : List Request} (hfs : d'.fileSet = d.fileSet)
    (hClaims : d.peers.claims = (requests.map Request.place : List BlockPlace) + d'.peers.claims)
    (stored : List BlockPlace) :
    d.Answers (d'.revert requests) stored [] (requests.map Request.place : List BlockPlace) := by
  obtain ⟨hDrops, hGiven⟩ := drops_revert hfs hClaims
  refine ⟨hDrops, ?_, ?_⟩
  · intro x hMem _ hRequested
    exact absurd hRequested (hGiven x (Multiset.mem_coe.mp hMem))
  · intro x hMem
    cases hMem

theorem connect_answers (d : Download) (id : PeerId) (line : LineId) (size : Option Nat)
    (stored : List BlockPlace) :
    ∃ given, d.Answers (d.connect id line size) stored (d.replacedBy (.connect id line size))
      given := by
  have hNew : (d.connect id line size).peers.claims = (d.peers.erase id).claims := by
    simp only [connect, Roster.claims_insert]
    exact Multiset.zero_add _
  cases hFind : d.peers.find? id with
  | none =>
    have hReplaced : d.replacedBy (.connect id line size) = [] := by simp [replacedBy, hFind]
    rw [hReplaced]
    exact ⟨0, .none (hNew.trans (Roster.claims_erase_of_find?_none hFind)) rfl stored⟩
  | some old =>
    have hReplaced : d.replacedBy (.connect id line size) = old.pending.map Request.place := by
      simp [replacedBy, hFind]
    rw [hReplaced]
    refine ⟨old.claims, ⟨?_, fun x => .inl rfl⟩, ?_, ?_⟩
    · rw [hNew, ← Roster.claims_of_find? hFind]
    · intro x hMem _ _
      exact .inr (Multiset.mem_coe.mp hMem)
    · intro x hMem
      exact ⟨Multiset.mem_coe.mpr hMem, rfl⟩

theorem disconnect_answers (d : Download) (id : PeerId) (stored : List BlockPlace) :
    ∃ given, d.Answers (d.disconnect id) stored [] given := by
  simp only [disconnect]
  cases hFind : d.peers.find? id with
  | none => exact ⟨0, .none rfl rfl stored⟩
  | some peer =>
    dsimp only
    refine ⟨_, Answers.revert ?_ ?_ stored⟩
    · rfl
    · exact Roster.claims_of_find? hFind

theorem choked_answers (d : Download) (id : PeerId) (stored : List BlockPlace) :
    ∃ given, d.Answers (d.choked id) stored [] given := by
  simp only [choked]
  cases hFind : d.peers.find? id with
  | none => exact ⟨0, .none rfl rfl stored⟩
  | some peer =>
    dsimp only
    refine ⟨_, Answers.revert ?_ ?_ stored⟩
    · rfl
    · rw [changePeer, Roster.claims_update hFind, claims_dropRequests, Multiset.zero_add]
      exact Roster.claims_of_find? hFind

theorem release_answers (d : Download) (id : PeerId) (i b : Nat) (stored : List BlockPlace) :
    ∃ given, d.Answers (d.release id i b) stored [] given := by
  simp only [release]
  split
  · exact ⟨0, .none rfl rfl stored⟩
  · next request hRequest =>
    obtain ⟨peer, hFind, hRequest⟩ := Option.bind_eq_some_iff.mp hRequest
    have hPlace : request.place = (i, b) :=
      Request.isFor_iff.mp (by simpa using List.find?_some hRequest)
    refine ⟨_, Answers.revert ?_ ?_ stored⟩
    · rfl
    · rw [changePeer, Roster.claims_update hFind, Roster.claims_of_find? hFind,
        claims_dropRequest_of_some hRequest, List.map_singleton, hPlace, Multiset.coe_singleton,
        Multiset.singleton_add, Multiset.cons_add]

theorem takeBlock_answers {fs : FileSet} (hfs : d.fileSet = some fs) (now : Time) (id : PeerId)
    (i b : Nat) (data : Bytes) :
    ∃ given, d.Answers (d.takeBlock fs now id i b data).1
      (storedBlocks (d.takeBlock fs now id i b data).2) [] given := by
  simp only [takeBlock]
  split
  · exact ⟨0, .none rfl rfl _⟩
  · next p hp =>
    split
    · exact release_answers d id i b _
    · next hBlock =>
      obtain ⟨given, hLe, hClaims⟩ : ∃ given ≤ {(i, b)}, d.peers.claims =
          given + (d.changePeer id (received d.window now i b data.length)).peers.claims :=
        claims_changePeer (claims_received d.window now i b data.length) d
      have hOnly {x : BlockPlace} (hMem : x ∈ given) : x = (i, b) :=
        Multiset.mem_singleton.mp (Multiset.mem_of_le hLe hMem)
      have hDrops : d.Drops (d.changePeer id (received d.window now i b data.length)) given :=
        ⟨hClaims, fun x => .inl rfl⟩
      split
      · next hHeld =>
        refine ⟨given, hDrops, ?_, fun x hLost => absurd hLost List.not_mem_nil⟩
        intro x hMem hRequested _
        obtain ⟨block, hb, hIsHeld⟩ := (Option.any_eq_true ..).mp hHeld
        have hStatus : d.status? x = some block.status := by
          rw [hOnly hMem, status?, hfs]
          exact FileSet.status?_of_block (FileSet.piece_eq_ok.mp hp) hb
        rw [Option.some.inj (hStatus.symm.trans hRequested)] at hIsHeld
        cases hIsHeld
      · refine ⟨given, hDrops, ?_, fun x hLost => absurd hLost List.not_mem_nil⟩
        intro x hMem _ _
        rw [hOnly hMem]
        exact .inl List.mem_cons_self

/-- Every command answers for the requests that it drops. -/
theorem handle_answers (d : Download) (now : Time) (c : Command) :
    ∃ given, d.Answers (d.handle now c).1 (storedBlocks (d.handle now c).2) (d.replacedBy c)
      given := by
  have hFlags {id : PeerId} {f : Peer → Peer} (h : ∀ p, (f p).claims = p.claims)
      (stored : List BlockPlace) : ∃ given, d.Answers (d.changePeer id f) stored [] given := by
    refine ⟨0, Answers.none ?_ ?_ stored⟩
    · exact Roster.claims_update_of_pending d.peers id h
    · rfl
  cases c with
  | connect id line size => exact connect_answers d id line size _
  | disconnect id => exact disconnect_answers d id _
  | choke id => exact choked_answers d id _
  | reject id i b => exact release_answers d id i b _
  | block id i offset data =>
    simp only [handle]
    split
    · exact ⟨0, .none rfl rfl _⟩
    · next fs hfs =>
      split
      · exact ⟨0, .none rfl rfl _⟩
      · exact takeBlock_answers (Option.filter_eq_some_iff.mp hfs).1 now id i _ data
  | metadataBlock id b data =>
    simp only [handle]
    split
    · exact ⟨0, .none rfl rfl _⟩
    · next fs hfs => exact takeBlock_answers (Option.filter_eq_some_iff.mp hfs).1 now id 0 b data
  | requestUpload id i offset length =>
    simp only [handle]
    split <;> exact ⟨0, .none rfl rfl _⟩
  | _ =>
    refine hFlags ?_ _
    intro p
    rfl

end Download

/-! ### The invariant -/

/-- A torrent that has nothing requested yet. -/
structure Download.Unrequested (d : Download) : Prop where
  cut : ∀ fs, d.fileSet = some fs → ∃ blockSize digests, fs.CutFrom blockSize digests
  noPending : ∀ id p, d.peers.find? id = some p → p.pending = []
  noneRequested : ∀ x, d.status? x ≠ some .requested

/-- So is a torrent without peers whose content was just cut. -/
theorem Download.unrequested_create {d : Download} {kind : FileSetKind}
    {pieceLength total blockSize : Nat} {digests : List Digest} {storage : Storage} {fs : FileSet}
    (h : FileSet.create kind pieceLength total digests blockSize storage = .ok fs)
    (hfs : d.fileSet = some fs) (hPeers : d.peers = {}) : d.Unrequested := by
  refine ⟨?_, ?_, ?_⟩
  · intro fs' hfs'
    obtain rfl := Option.some.inj (hfs.symm.trans hfs')
    exact ⟨blockSize, digests, FileSet.cutFrom_create h⟩
  · intro id p hFind
    rw [hPeers] at hFind
    cases hFind
  · rintro ⟨i, b⟩ hRequested
    rw [status?, hfs] at hRequested
    obtain ⟨p, block, hp, hb, hStatus⟩ := FileSet.status?_eq_some hRequested
    obtain ⟨_, _, rfl⟩ := FileSet.create_eq_ok h
    obtain ⟨digest, _, rfl⟩ := FileSet.getElem?_cut hp
    rw [(Piece.getElem?_blocks_fresh hb).2] at hStatus
    cases hStatus

/-- Every block that peers have been asked for is requested, from one peer only; every requested
block is accounted for; and a lost block stays requested without an owner. -/
structure Trail.Tracked (t : Trail) : Prop where
  numbered : ∀ fs, t.download.fileSet = some fs → fs.Numbered
  nodup : t.download.peers.claims.Nodup
  claimed : ∀ x ∈ t.download.peers.claims, t.download.status? x = some .requested
  lost : ∀ x ∈ t.lost, t.download.status? x = some .requested ∧ x ∉ t.download.peers.claims
  known : ∀ x, t.download.status? x = some .requested →
    x ∈ t.download.peers.claims ∨ x ∈ t.delivered ∨ x ∈ t.lost

namespace Trail

variable {t : Trail}

theorem Tracked.exclusive (h : t.Tracked) : t.download.Exclusive :=
  ⟨h.numbered, h.nodup, h.claimed⟩

theorem Tracked.handle (h : t.Tracked) (now : Time) (c : Command) :
    (t.after (.handle now c)).Tracked := by
  obtain ⟨given, hDrops, hSettled, hReplaced⟩ := Download.handle_answers t.download now c
  have hCore := Download.core_handle t.download now c
  simp only [after]
  generalize (t.download.handle now c).1 = d at hDrops hSettled hReplaced hCore
  obtain ⟨hExclusive, hStays⟩ := h.exclusive.drops hDrops hCore
  obtain ⟨hClaims, hStatus⟩ := hDrops
  refine ⟨hExclusive.numbered, hExclusive.nodup, hExclusive.claimed, ?_, ?_⟩
  · intro x hMem
    rcases List.mem_append.mp hMem with hNew | hOld
    · obtain ⟨hGiven, hSame⟩ := hReplaced x hNew
      have hWas : x ∈ t.download.peers.claims := by
        rw [hClaims]
        exact Multiset.mem_add.mpr (.inl hGiven)
      exact ⟨hSame.trans (h.claimed x hWas), fun hStill => (hStays x hStill).2 hGiven⟩
    · obtain ⟨hRequested, hFree⟩ := h.lost x hOld
      refine ⟨?_, fun hStill => hFree (hStays x hStill).1⟩
      rcases hStatus x with hSame | ⟨hGiven, _⟩
      · exact hSame.trans hRequested
      · refine absurd ?_ hFree
        rw [hClaims]
        exact Multiset.mem_add.mpr (.inl hGiven)
  · intro x hRequested
    have hWas : t.download.status? x = some .requested := by
      rcases hStatus x with hSame | ⟨_, hNeeded⟩
      · exact hSame.symm.trans hRequested
      · rw [hNeeded] at hRequested
        cases hRequested
    rcases h.known x hWas with hClaimed | hDelivered | hLost
    · rw [hClaims] at hClaimed
      rcases Multiset.mem_add.mp hClaimed with hGiven | hKept
      · rcases hSettled x hGiven hWas hRequested with hStored | hReplaced
        · exact .inr (.inl (List.mem_append.mpr (.inl hStored)))
        · exact .inr (.inr (List.mem_append.mpr (.inl hReplaced)))
      · exact .inl hKept
    · exact .inr (.inl (List.mem_append.mpr (.inr hDelivered)))
    · exact .inr (.inr (List.mem_append.mpr (.inr hLost)))

theorem Tracked.tick (h : t.Tracked) (relevant : List PeerId) (now : Time) :
    (t.after (.tick relevant now)).Tracked := by
  obtain ⟨added, hRequests⟩ := Download.tick_requests relevant now h.numbered
  have hCore := Download.core_tick t.download relevant now
  simp only [after]
  generalize (t.download.tick relevant now).1 = d at hRequests hCore
  have hExclusive := h.exclusive.requests hRequests hCore
  obtain ⟨hClaims, _, hNeeded, hStatus⟩ := hRequests
  have hStays {x : BlockPlace} (hWas : t.download.status? x = some .requested) :
      x ∉ added ∧ d.status? x = some .requested := by
    have hOld : x ∉ added := fun hMem => by cases (hNeeded x hMem).symm.trans hWas
    refine ⟨hOld, ?_⟩
    rw [hStatus, if_neg hOld]
    exact hWas
  refine ⟨hExclusive.numbered, hExclusive.nodup, hExclusive.claimed, ?_, ?_⟩
  · intro x hMem
    obtain ⟨hRequested, hFree⟩ := h.lost x hMem
    obtain ⟨hOld, hStill⟩ := hStays hRequested
    refine ⟨hStill, fun hClaimed => ?_⟩
    rw [hClaims] at hClaimed
    exact (Multiset.mem_add.mp hClaimed).elim hOld hFree
  · intro x hRequested
    rw [hClaims]
    by_cases hAdded : x ∈ added
    · exact .inl (Multiset.mem_add.mpr (.inl hAdded))
    · have hWas : t.download.status? x = some .requested := by
        rw [hStatus, if_neg hAdded] at hRequested
        exact hRequested
      rcases h.known x hWas with hClaimed | hDelivered | hLost
      · exact .inl (Multiset.mem_add.mpr (.inr hClaimed))
      · refine .inr (.inl (List.mem_filter.mpr ⟨hDelivered, ?_⟩))
        simp [Download.requestsAnew, hWas]
      · exact .inr (.inr hLost)

theorem tracked_start {d : Download} (h : d.Unrequested) : ({ download := d } : Trail).Tracked := by
  have hExclusive := Download.exclusive_of_noPending h.cut h.noPending
  refine ⟨hExclusive.numbered, hExclusive.nodup, hExclusive.claimed, nofun, ?_⟩
  intro x hRequested
  exact absurd hRequested (h.noneRequested x)

theorem tracked_run {d : Download} (h : d.Unrequested) (calls : List Call) :
    (run d calls).Tracked := by
  have hRun (t : Trail) (ht : t.Tracked) : (calls.foldl after t).Tracked := by
    induction calls generalizing t with
    | nil => exact ht
    | cons call rest ih =>
      refine ih _ ?_
      cases call with
      | handle now c => exact ht.handle now c
      | tick relevant now => exact ht.tick relevant now
  exact hRun _ (tracked_start h)

/-- After any calls, the blocks that are stranded are those that were outstanding at a connection
when another one of the same name replaced it, and were not handed over to be stored. -/
theorem stranded_iff {d : Download} (h : d.Unrequested) (calls : List Call) (x : BlockPlace) :
    (run d calls).Stranded x ↔ x ∈ (run d calls).lost ∧ x ∉ (run d calls).delivered := by
  have hTracked := tracked_run h calls
  generalize run d calls = t at hTracked
  have hOwned : t.Owned x ↔ x ∈ t.download.peers.claims := Roster.mem_claims.symm
  rw [Stranded, hOwned]
  constructor
  · rintro ⟨hRequested, hFree, hPending⟩
    rcases hTracked.known x hRequested with hClaimed | hDelivered | hLost
    · exact absurd hClaimed hFree
    · exact absurd hDelivered hPending
    · exact ⟨hLost, hPending⟩
  · rintro ⟨hLost, hPending⟩
    obtain ⟨hRequested, hFree⟩ := hTracked.lost x hLost
    exact ⟨hRequested, hFree, hPending⟩

/-- A torrent of one block, which any peer may be asked for. -/
def oneBlock : Download :=
  { Download.named Digest.zero 5 with
    fileSet := some
      { kind := .data, pieceLength := 4, totalLength := 4
        pieces := FileSet.cut 4 4 4 [Digest.zero], storage := .memory [0, 0, 0, 0] }
    selector := .rarest
    choking := .permissive }

/-- A peer that has the block is asked for it and connects again. -/
def reconnects : List Call :=
  [.handle 0 (.connect "p" 0 none), .handle 0 (.holds "p" 0), .handle 0 (.unchoke "p"),
    .tick ["p"] 0, .handle 0 (.connect "p" 1 none)]

/-- The block is stranded then. -/
theorem stranded_reconnects : (run oneBlock reconnects).Stranded (0, 0) := by
  have hCreated : FileSet.create .data 4 4 [Digest.zero] 4 (.memory [0, 0, 0, 0]) = .ok
      { kind := .data, pieceLength := 4, totalLength := 4
        pieces := FileSet.cut 4 4 4 [Digest.zero], storage := .memory [0, 0, 0, 0] } := rfl
  have hUnrequested : oneBlock.Unrequested := Download.unrequested_create hCreated rfl rfl
  refine (stranded_iff hUnrequested reconnects (0, 0)).mpr ⟨?_, ?_⟩
  · decide +kernel
  · decide +kernel

end Trail

end TorrentEngine
