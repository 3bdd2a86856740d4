import TorrentEngine.Proofs.Stranding

/-!
Whom blocks are requested from. Whatever calls a torrent gets, each outstanding request is for a
block of its own, which counts as requested; and while content is downloaded, a peer that chokes us
is asked for nothing.
-/

namespace TorrentEngine

/-- A peer that chokes us is asked for nothing. -/
def Peer.FreeWhenChoked (p : Peer) : Prop := p.download.choked = true → p.pending = []

theorem Peer.FreeWhenChoked.congr {p q : Peer} (h : p.FreeWhenChoked)
    (hChoked : q.download.choked = p.download.choked) (hPending : p.pending = [] → q.pending = []) :
    q.FreeWhenChoked := by
  intro hq
  rw [hChoked] at hq
  exact hPending (h hq)

namespace Download

variable {d : Download}

/-! ### Input from peers -/

theorem freeWhenChoked_received {p : Peer} (h : p.FreeWhenChoked) (window now : Time)
    (i b length : Nat) : (received window now i b length p).FreeWhenChoked := by
  have hDrop {q : Peer} (hq : q.pending = []) : (q.dropRequest i b).pending = [] := by
    simp [Peer.dropRequest, hq]
  simp only [received]
  split
  · exact h.congr rfl id
  · simp only [RequestBudget.receive]
    split
    · exact h.congr rfl fun hp => hDrop hp
    · exact h.congr rfl fun hp => hDrop hp

theorem freeWhenChoked_disconnect (h : d.peers.All Peer.FreeWhenChoked) (id : PeerId) :
    (d.disconnect id).peers.All Peer.FreeWhenChoked := by
  simp only [disconnect]
  split
  · exact h
  · exact h.erase id

theorem freeWhenChoked_choked (h : d.peers.All Peer.FreeWhenChoked) (id : PeerId) :
    (d.choked id).peers.All Peer.FreeWhenChoked := by
  simp only [choked]
  split
  · exact h
  · refine h.update id fun p _ => ?_
    intro _
    rfl

theorem freeWhenChoked_release (h : d.peers.All Peer.FreeWhenChoked) (id : PeerId) (i b : Nat) :
    (d.release id i b).peers.All Peer.FreeWhenChoked := by
  simp only [release]
  split
  · exact h
  · refine h.update id fun p hp => hp.congr rfl fun hNone => ?_
    simp [Peer.dropRequest, hNone]

theorem freeWhenChoked_takeBlock (h : d.peers.All Peer.FreeWhenChoked) (fs : FileSet) (now : Time)
    (id : PeerId) (i b : Nat) (data : Bytes) :
    (d.takeBlock fs now id i b data).1.peers.All Peer.FreeWhenChoked := by
  have hReceived := h.update id fun p hp =>
    freeWhenChoked_received hp d.window now i b data.length
  simp only [takeBlock]
  split
  · exact h
  · split
    · exact freeWhenChoked_release h id i b
    · split <;> exact hReceived

theorem freeWhenChoked_handle (h : d.peers.All Peer.FreeWhenChoked) (now : Time) (c : Command) :
    (d.handle now c).1.peers.All Peer.FreeWhenChoked := by
  -- Of the commands that only set a flag or a piece set, none chokes a peer and keeps its requests.
  cases c with
  | connect id line size => exact h.insert id fun _ => rfl
  | disconnect id => exact freeWhenChoked_disconnect h id
  | choke id => exact freeWhenChoked_choked h id
  | unchoke id => exact h.update id fun p _ hChoked => by cases hChoked
  | reject id i b => exact freeWhenChoked_release h id i b
  | block id i offset data =>
    simp only [handle]
    split
    · exact h
    · split
      · exact h
      · next b _ => exact freeWhenChoked_takeBlock h _ now id i b data
  | metadataBlock id b data =>
    simp only [handle]
    split
    · exact h
    · exact freeWhenChoked_takeBlock h _ now id 0 b data
  | requestUpload id i offset length =>
    simp only [handle]
    split <;> exact h
  | _ => exact h.update _ fun p hp => hp.congr rfl fun hNone => hNone

/-! ### Scheduling -/

theorem freeWhenChoked_serve (h : d.peers.All Peer.FreeWhenChoked)
    (hKind : d.kind? ≠ some .metadata) (r : Rarity) (now : Time) (id : PeerId) :
    (d.serve r now id).1.peers.All Peer.FreeWhenChoked := by
  simp only [serve]
  split
  · exact h
  · next old hFind =>
    have hUpdated : (d.choking.update d.fileSet old).FreeWhenChoked :=
      (h id old hFind).congr (update_choked ..) fun hNone => (update_pending ..).trans hNone
    generalize d.choking.update d.fileSet old = peer at hUpdated
    split
    · exact h.insert id hUpdated
    · next fs hServed =>
      refine h.insert id ?_
      obtain ⟨hfs, hMay⟩ := Option.filter_eq_some_iff.mp hServed
      obtain ⟨pending, hPeer⟩ := fill_peer d.selector r now peer.freeSlots fs peer
      have hUnchoked : peer.download.choked = false := by
        have hContent : fs.kind ≠ .metadata := by
          rintro hMetadata
          simp [kind?, hfs, hMetadata] at hKind
        simp only [mayRequest, Bool.and_eq_true, Bool.or_eq_true, beq_iff_eq, hContent, false_or,
          Bool.not_eq_true'] at hMay
        exact hMay.2
      intro hChoked
      rw [hPeer] at hChoked
      cases hUnchoked.symm.trans hChoked

theorem freeWhenChoked_tick (h : d.peers.All Peer.FreeWhenChoked)
    (hKind : d.kind? ≠ some .metadata) (relevant : List PeerId) (now : Time) :
    (d.tick relevant now).1.peers.All Peer.FreeWhenChoked := by
  simp only [tick]
  generalize Rarity.ofPeers _ = r
  induction relevant generalizing d with
  | nil => exact h
  | cons id rest ih =>
    have hSame := kind?_of_core (core_serve d r now id)
    exact ih (freeWhenChoked_serve h hKind r now id) (hSame ▸ hKind)

/-! ### Runs -/

/-- The torrent after a call. -/
def after (d : Download) : Call → Download
  | .handle now c => (d.handle now c).1
  | .tick relevant now => (d.tick relevant now).1

/-- The torrent after calls in order. -/
def run (d : Download) (calls : List Call) : Download := calls.foldl after d

/-- The places of all outstanding requests, peer by peer. -/
def outstanding (d : Download) : List BlockPlace :=
  d.peers.values.flatMap fun p => p.pending.map Request.place

/-- A torrent of which nothing is requested from any peer. -/
structure Unasked (d : Download) : Prop where
  cut : ∀ fs, d.fileSet = some fs → ∃ blockSize digests, fs.CutFrom blockSize digests
  noPending : d.peers.All fun p => p.pending = []

theorem coe_outstanding (d : Download) :
    (d.outstanding : Multiset BlockPlace) = d.peers.claims := by
  simp only [outstanding, Roster.values, Roster.claims, List.flatMap_map, Multiset.coe_bind,
    Peer.claims]

theorem core_after (d : Download) (call : Call) : (d.after call).core = d.core := by
  cases call with
  | handle now c => exact core_handle d now c
  | tick relevant now => exact core_tick d relevant now

theorem Exclusive.after (h : d.Exclusive) (call : Call) : (d.after call).Exclusive := by
  cases call with
  | handle now c =>
    obtain ⟨given, hAnswers⟩ := handle_answers d now c
    exact (h.drops hAnswers.drops (core_handle d now c)).1
  | tick relevant now =>
    obtain ⟨added, hRequests⟩ := tick_requests relevant now h.numbered
    exact h.requests hRequests (core_tick d relevant now)

theorem freeWhenChoked_after (h : d.peers.All Peer.FreeWhenChoked)
    (hKind : d.kind? ≠ some .metadata) (call : Call) :
    (d.after call).peers.All Peer.FreeWhenChoked := by
  cases call with
  | handle now c => exact freeWhenChoked_handle h now c
  | tick relevant now => exact freeWhenChoked_tick h hKind relevant now

/-- What every call keeps, any calls keep. -/
theorem run_induction {motive : Download → Prop} (hStart : motive d)
    (hAfter : ∀ d call, motive d → motive (d.after call)) (calls : List Call) :
    motive (d.run calls) := by
  induction calls generalizing d with
  | nil => exact hStart
  | cons call rest ih => exact ih (hAfter d call hStart)

/-- After any calls, all outstanding requests are for different blocks, each of these blocks exists
and counts as requested, and while content is downloaded none is outstanding at a peer that chokes
us. -/
theorem requests_exclusive (h : d.Unasked) (calls : List Call) :
    (d.run calls).outstanding.Nodup ∧
    (∀ x ∈ (d.run calls).outstanding, (d.run calls).status? x = some .requested) ∧
    ((d.run calls).kind? = some .data → ∀ id p, (d.run calls).peers.find? id = some p →
      p.download.choked = true → p.pending = []) := by
  have hExclusive : (d.run calls).Exclusive :=
    run_induction (exclusive_of_noPending h.cut h.noPending) (fun _ call hd => hd.after call) calls
  have hNodup := hExclusive.nodup
  have hClaimed := hExclusive.claimed
  rw [← coe_outstanding] at hNodup hClaimed
  refine ⟨Multiset.coe_nodup.mp hNodup, fun x hx => hClaimed x (Multiset.mem_coe.mpr hx), ?_⟩
  intro hData id p hFind
  -- No call changes the kind of the file set, so it was content all along.
  have hKind : (d.run calls).kind? = d.kind? :=
    run_induction (motive := fun d' => d'.kind? = d.kind?) rfl
      (fun d' call hd => (kind?_of_core (core_after d' call)).trans hd) calls
  rw [hKind] at hData
  have hFree : (d.run calls).kind? = some .data ∧ (d.run calls).peers.All Peer.FreeWhenChoked := by
    refine run_induction (motive := fun d' => d'.kind? = some .data ∧
      d'.peers.All Peer.FreeWhenChoked) ⟨hData, ?_⟩ ?_ calls
    · exact fun id p hFind _ => h.noPending id p hFind
    · rintro d' call ⟨hContent, hd⟩
      refine ⟨(kind?_of_core (core_after d' call)).trans hContent, ?_⟩
      exact freeWhenChoked_after hd (by simp [hContent]) call
  exact hFree.2 id p hFind

/-- A piece of three blocks. -/
def threeBlocks : Download :=
  { Download.named Digest.zero 2 with
    fileSet := some
      { kind := .data, pieceLength := 3, totalLength := 3
        pieces := FileSet.cut 3 3 1 [Digest.zero], storage := .memory [0, 0, 0] }
    selector := .rarest
    choking := .permissive }

/-- Two peers are asked for the blocks; the first one then chokes us, and its blocks are asked for
again. -/
def chokedOnce : List Call :=
  [.handle 0 (.connect "p" 0 none), .handle 0 (.connect "q" 1 none), .handle 0 (.holds "p" 0),
    .handle 0 (.holds "q" 0), .handle 0 (.unchoke "p"), .handle 0 (.unchoke "q"),
    .tick ["p", "q"] 0, .handle 0 (.choke "p"), .tick ["p", "q"] 0]

theorem requests_exclusive_chokedOnce :
    (threeBlocks.run chokedOnce).outstanding = [(0, 2), (0, 0)] ∧
      (threeBlocks.run chokedOnce).outstanding.Nodup ∧
      (threeBlocks.run chokedOnce).status? (0, 2) = some .requested ∧
      ∃ p, (threeBlocks.run chokedOnce).peers.find? "p" = some p ∧ p.download.choked = true ∧
        p.pending = [] := by
  have hCreated : FileSet.create .data 3 3 [Digest.zero] 1 (.memory [0, 0, 0]) = .ok
      { kind := .data, pieceLength := 3, totalLength := 3
        pieces := FileSet.cut 3 3 1 [Digest.zero], storage := .memory [0, 0, 0] } := rfl
  have hUnasked : threeBlocks.Unasked := by
    refine ⟨?_, fun id p hFind => by cases hFind⟩
    intro fs hfs
    obtain rfl := Option.some.inj hfs
    exact ⟨1, _, FileSet.cutFrom_create hCreated⟩
  obtain ⟨hNodup, hRequested, hFree⟩ := requests_exclusive hUnasked chokedOnce
  have hOutstanding : (threeBlocks.run chokedOnce).outstanding = [(0, 2), (0, 0)] := by
    decide +kernel
  have hChoked : ((threeBlocks.run chokedOnce).peers.find? "p").any (·.download.choked) = true := by
    decide +kernel
  obtain ⟨p, hFind, hChoked⟩ := (Option.any_eq_true ..).mp hChoked
  refine ⟨hOutstanding, hNodup, hRequested _ ?_, p, hFind, hChoked, ?_⟩
  · simp [hOutstanding]
  · exact hFree (by decide +kernel) "p" p hFind hChoked

end Download

end TorrentEngine
