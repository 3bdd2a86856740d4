import TorrentEngine.Proofs.Refusals

/-!
Input from two peers. What a command does is a deed: what stands under the peer's name from then on,
which blocks are let go, and a size of the metadata that may be learnt. The deed depends on the
sender and on what all requests leave alone, so it is the same before and after a command of another
peer; and deeds of two peers commute.
-/

namespace TorrentEngine

/-- The peer that a command is about. -/
def Command.peer : Command → PeerId
  | .connect id .. | .disconnect id | .choke id | .unchoke id | .interested id | .notInterested id
  | .holds id _ | .bitfield id _ | .block id .. | .metadataBlock id .. | .requestUpload id ..
  | .reject id .. => id

/-- Whether a command connects a peer. -/
def Command.connects : Command → Bool
  | .connect .. => true
  | _ => false

/-! ### Rosters -/

namespace Roster

variable {α : Type} {r s : Roster α} {id k : PeerId}

/-- Rosters that agree on every name are equal. -/
theorem ext_find? (h : ∀ k, r.find? k = s.find? k) : r = s := by
  have hNodup (t : Roster α) : t.entries.Nodup :=
    t.ascending.imp (S := fun a b => a ≠ b) fun hlt heq => String.lt_irrefl _ (heq ▸ hlt)
  have hMem (e : PeerId × α) : e ∈ r.entries ↔ e ∈ s.entries := by
    rw [← find?_eq_some, ← find?_eq_some, h]
  have hEntries : r.entries = s.entries :=
    ((List.perm_ext_iff_of_nodup (hNodup r) (hNodup s)).mpr hMem).eq_of_pairwise
      (fun _ _ _ _ hab hba => absurd hba (String.lt_asymm hab)) r.ascending s.ascending
  cases r
  cases s
  simp_all

/-- The roster with something or nothing under a name. -/
def put (r : Roster α) (id : PeerId) : Option α → Roster α
  | none => r.erase id
  | some x => r.insert id x

theorem find?_put (r : Roster α) (id k : PeerId) (x : Option α) :
    (r.put id x).find? k = if k = id then x else r.find? k := by
  cases x with
  | none => exact find?_erase r id k
  | some x => exact find?_insert r id k x

theorem put_find? (r : Roster α) (id : PeerId) : r.put id (r.find? id) = r := by
  refine ext_find? fun k => ?_
  rw [find?_put]
  split
  · next hk => rw [hk]
  · rfl

theorem update_eq_put (r : Roster α) (id : PeerId) (f : α → α) :
    r.update id f = r.put id ((r.find? id).map f) := by
  refine ext_find? fun k => ?_
  rw [find?_update, find?_put]
  split
  · next hk => rw [hk]
  · rfl

theorem put_comm (h : id ≠ k) (r : Roster α) (x y : Option α) :
    (r.put id x).put k y = (r.put k y).put id x := by
  refine ext_find? fun j => ?_
  simp only [find?_put]
  by_cases hj : j = id
  · rw [if_pos hj, if_pos hj, if_neg (hj ▸ h)]
  · rw [if_neg hj, if_neg hj]

end Roster

/-! ### Letting blocks go -/

/-- Changes at places of a list commute, if they do where the places are the same. -/
theorem modify_comm {α : Type} {i j : Nat} {f g : α → α}
    (h : i = j → ∀ a, f (g a) = g (f a)) (l : List α) :
    (l.modify i f).modify j g = (l.modify j g).modify i f := by
  by_cases hij : i = j
  · subst hij
    rw [List.modify_modify_eq, List.modify_modify_eq]
    exact congrArg (l.modify i) (funext fun a => (h rfl a).symm)
  · exact List.modify_modify_ne _ _ _ hij

theorem FileSet.letGo_comm (fs : FileSet) (x y : BlockPlace) :
    (fs.letGo x).letGo y = (fs.letGo y).letGo x := by
  simp only [letGo, changePiece]
  congr 1
  refine modify_comm (fun _ p => ?_) fs.pieces
  congr 1
  exact modify_comm (fun _ _ => rfl) p.blocks

instance : RightCommutative FileSet.letGo := ⟨FileSet.letGo_comm⟩

/-! ### Deeds -/

/-- What a command does: what stands under the peer's name from then on, the blocks that it lets go,
and a size of the metadata that it tells. -/
structure Deed where
  peer : Option Peer
  given : List BlockPlace := []
  size : Option Nat := none

namespace Deed

/-- The torrent after a deed. -/
def done (deed : Deed) (id : PeerId) (d : Download) : Download :=
  { d with
    peers := d.peers.put id deed.peer
    fileSet := d.fileSet.map fun fs => deed.given.foldl .letGo fs
    metadataSize := d.metadataSize.or deed.size }

/-- A peer is changed. -/
def change (f : Peer → Peer) (peer : Option Peer) : Deed := { peer := peer.map f }

/-- A peer goes, and all its requests are given back. -/
def leave (peer : Option Peer) : Deed :=
  { peer := none, given := peer.elim [] (·.pending.map Request.place) }

/-- A peer stops sending, and all its requests are given back. -/
def fallSilent (peer : Option Peer) : Deed :=
  { peer := peer.map fun p => (p.setChoked .download true).dropRequests
    given := peer.elim [] (·.pending.map Request.place) }

/-- A peer gives back its request for a block. -/
def decline (i b : Nat) (peer : Option Peer) : Deed :=
  { peer := peer.map (·.dropRequest i b)
    given := (peer.bind (·.findRequest? i b)).toList.map Request.place }

end Deed

namespace Download

variable {d d' : Download} {fs fs' : FileSet} {id k : PeerId} {x y : Deed}

theorem done_unchanged {peer : Option Peer} (h : d.peers.find? id = peer) :
    ({ peer } : Deed).done id d = d := by
  simp [Deed.done, ← h, Roster.put_find?]

theorem changePeer_eq_done (d : Download) (id : PeerId) (f : Peer → Peer) :
    d.changePeer id f = (Deed.change f (d.peers.find? id)).done id d := by
  simp [Deed.done, Deed.change, changePeer, Roster.update_eq_put]

theorem revert_eq_done (d : Download) (id : PeerId) (peer : Option Peer)
    (requests : List Request) :
    { d with peers := d.peers.put id peer }.revert requests =
      ({ peer, given := requests.map Request.place } : Deed).done id d := by
  simp [Deed.done, revert_eq, changeFileSet]

theorem disconnect_eq_done (d : Download) (id : PeerId) :
    d.disconnect id = (Deed.leave (d.peers.find? id)).done id d := by
  cases hFind : d.peers.find? id with
  | none =>
    rw [disconnect, hFind]
    exact (done_unchanged hFind).symm
  | some p =>
    rw [disconnect, hFind]
    exact revert_eq_done d id none p.pending

theorem choked_eq_done (d : Download) (id : PeerId) :
    d.choked id = (Deed.fallSilent (d.peers.find? id)).done id d := by
  cases hFind : d.peers.find? id with
  | none =>
    rw [choked, hFind]
    exact (done_unchanged hFind).symm
  | some p =>
    simp only [choked, hFind, changePeer, Roster.update_eq_put]
    exact revert_eq_done d id _ p.pending

theorem release_eq_done (d : Download) (id : PeerId) (i b : Nat) :
    d.release id i b = (Deed.decline i b (d.peers.find? id)).done id d := by
  rw [Deed.decline]
  cases hRequest : (d.peers.find? id).bind (·.findRequest? i b) with
  | none =>
    have hKept : (d.peers.find? id).map (·.dropRequest i b) = d.peers.find? id := by
      cases hFind : d.peers.find? id with
      | none => rfl
      | some p =>
        rw [hFind, Option.bind_some] at hRequest
        have hNone : p.pending.eraseP (·.isFor i b) = p.pending :=
          List.eraseP_of_forall_not (List.find?_eq_none.mp hRequest)
        rw [Option.map_some, Peer.dropRequest, hNone]
    rw [release, hRequest, hKept]
    exact (done_unchanged rfl).symm
  | some r =>
    simp only [release, hRequest, changePeer, Roster.update_eq_put]
    exact revert_eq_done d id _ [r]

/-! ### What a command goes by -/

/-- `d'` is to a peer what `d` is: its own entry is the same, and so is all that requests leave
alone. -/
structure LooksLike (id : PeerId) (d d' : Download) : Prop where
  peer : d'.peers.find? id = d.peers.find? id
  core : d'.core = d.core

theorem filter_of_core (h : d'.core = d.core) (kind : FileSetKind) :
    (d'.fileSet.filter (·.kind = kind)).map FileSet.settled =
      (d.fileSet.filter (·.kind = kind)).map FileSet.settled := by
  have hSettled : d'.fileSet.map FileSet.settled = d.fileSet.map FileSet.settled :=
    congrArg Download.fileSet h
  have hFilter (o : Option FileSet) : (o.filter (·.kind = kind)).map FileSet.settled =
      (o.map FileSet.settled).filter (·.kind = kind) := by
    cases o with
    | none => rfl
    | some fs => simp [Option.filter, FileSet.settled, apply_ite]
  rw [hFilter, hFilter, hSettled]

theorem filter_eq_none_of_core (h : d'.core = d.core) {kind : FileSetKind}
    (hfs : d.fileSet.filter (·.kind = kind) = none) :
    d'.fileSet.filter (·.kind = kind) = none := by
  simpa only [hfs, Option.map_none, Option.map_eq_none_iff] using filter_of_core h kind

theorem filter_eq_some_of_core (h : d'.core = d.core) {kind : FileSetKind}
    (hfs : d.fileSet.filter (·.kind = kind) = some fs) :
    ∃ fs', d'.fileSet.filter (·.kind = kind) = some fs' ∧ fs'.settled = fs.settled := by
  have hSettled := filter_of_core h kind
  rw [hfs, Option.map_some] at hSettled
  exact Option.map_eq_some_iff.mp hSettled

theorem getElem?_none_of_settled (h : fs'.settled = fs.settled) {i : Nat}
    (hPiece : fs.pieces[i]? = none) : fs'.pieces[i]? = none := by
  rw [Option.eq_none_iff_forall_ne_some]
  intro p' hp'
  obtain ⟨p, hp, _⟩ := FileSet.piece_of_settled h hp'
  rw [hPiece] at hp
  cases hp

theorem blockIndexAt_of_outline {p q : Piece} (h : q.outline = p.outline) (offset : Nat) :
    q.blockIndexAt offset = p.blockIndexAt offset := by
  simp only [Piece.blockIndexAt, Piece.blockSize_of_outline h, Piece.index_of_outline h,
    Piece.length_blocks_of_outline h]

theorem blockAt_of_settled (h : fs'.settled = fs.settled) (i offset : Nat) :
    blockAt fs' i offset = blockAt fs i offset := by
  cases hPiece : fs'.pieces[i]? with
  | none =>
    have hNone := getElem?_none_of_settled h.symm hPiece
    simp only [blockAt, piece_of_none hPiece, piece_of_none hNone]
  | some p' =>
    obtain ⟨p, hp, hReset⟩ := FileSet.piece_of_settled h hPiece
    simp only [blockAt, piece_of_some hPiece, piece_of_some hp, bind, Except.bind,
      blockIndexAt_of_outline (Piece.outline_of_resetRequested hReset)]

/-- Whether a block is held does not depend on requests. -/
theorem isHeld_of_resetRequested {p q : Piece} (h : q.resetRequested = p.resetRequested) (b : Nat) :
    (q.blocks[b]?).any (·.status.isHeld) = (p.blocks[b]?).any (·.status.isHeld) := by
  have hReset (r : Piece) : (r.resetRequested.blocks[b]?).any (·.status.isHeld) =
      (r.blocks[b]?).any (·.status.isHeld) := by
    rw [Piece.resetRequested, List.getElem?_map]
    cases r.blocks[b]? with
    | none => rfl
    | some block =>
      obtain ⟨index, size, status⟩ := block
      cases status <;> rfl
  rw [← hReset, h, hReset]

theorem window_of_core (h : d'.core = d.core) : d'.window = d.window := by
  change d'.core.window = d.core.window
  rw [h]

theorem initialRequestLimit_of_core (h : d'.core = d.core) :
    d'.initialRequestLimit = d.initialRequestLimit := by
  change d'.core.initialRequestLimit = d.core.initialRequestLimit
  rw [h]

/-- A block that comes is taken alike by all states that are alike to its sender. -/
theorem takeBlock_deed (d : Download) (fs : FileSet) (now : Time) (id : PeerId) (i b : Nat)
    (data : Bytes) : ∃ deed : Deed, ∃ result, deed.size = none ∧
      ∀ d' fs', LooksLike id d d' → fs'.settled = fs.settled →
        d'.takeBlock fs' now id i b data = (deed.done id d', result) := by
  cases hPiece : fs.pieces[i]? with
  | none =>
    refine ⟨{ peer := d.peers.find? id }, .error (.unknownPiece i), rfl, fun d' fs' hLike hfs => ?_⟩
    simp only [takeBlock, piece_of_none (getElem?_none_of_settled hfs hPiece),
      done_unchanged hLike.peer]
  | some p =>
    have hAlike {fs' : FileSet} (hfs : fs'.settled = fs.settled) :
        ∃ p', fs'.pieces[i]? = some p' ∧ p'.resetRequested = p.resetRequested ∧
          p'.checkBlock b data.length = p.checkBlock b data.length := by
      obtain ⟨p', hp', hReset⟩ := FileSet.piece_of_settled hfs.symm hPiece
      exact ⟨p', hp', hReset.symm,
        Piece.checkBlock_of_outline (Piece.outline_of_resetRequested hReset.symm) b data.length⟩
    cases hCheck : p.checkBlock b data.length with
    | error e =>
      refine ⟨.decline i b (d.peers.find? id), .error e, rfl, fun d' fs' hLike hfs => ?_⟩
      obtain ⟨p', hp', _, hCheck'⟩ := hAlike hfs
      simp only [takeBlock, piece_of_some hp', hCheck', hCheck, release_eq_done, hLike.peer]
    | ok =>
      refine ⟨.change (received d.window now i b data.length) (d.peers.find? id),
        if (p.blocks[b]?).any (·.status.isHeld) then .ok [] else .ok [.store fs.kind i b data], rfl,
        fun d' fs' hLike hfs => ?_⟩
      obtain ⟨p', hp', hReset, hCheck'⟩ := hAlike hfs
      have hWindow := window_of_core hLike.core
      have hKind : fs'.kind = fs.kind := (FileSet.dimensions_of_settled hfs).1
      simp only [takeBlock, piece_of_some hp', hCheck', hCheck, isHeld_of_resetRequested hReset,
        hWindow, hKind, changePeer_eq_done, hLike.peer]
      split
      · rfl
      · rfl

/-- A command does one deed, with one result, in all states that are alike to its sender. -/
def HasDeed (d : Download) (now : Time) (c : Command) : Prop :=
  ∃ deed : Deed, ∃ result, (c.connects = false → deed.size = none) ∧
    ∀ d', LooksLike c.peer d d' → d'.handle now c = (deed.done c.peer d', result)

variable {now : Time} {c : Command}

theorem hasDeed_of_unchanged (result : Except PieceError (List Effect))
    (h : ∀ d', LooksLike c.peer d d' → d'.handle now c = (d', result)) : d.HasDeed now c := by
  refine ⟨{ peer := d.peers.find? c.peer }, result, fun _ => rfl, fun d' hLike => ?_⟩
  rw [h d' hLike, done_unchanged hLike.peer]

/-- A command that goes by the sender's own entry alone. -/
theorem hasDeed_of_peer (act : Option Peer → Deed) (hSize : ∀ peer, (act peer).size = none)
    (h : ∀ d', LooksLike c.peer d d' →
      d'.handle now c = ((act (d'.peers.find? c.peer)).done c.peer d', .ok [])) :
    d.HasDeed now c := by
  refine ⟨act (d.peers.find? c.peer), .ok [], fun _ => hSize _, fun d' hLike => ?_⟩
  rw [h d' hLike, hLike.peer]

theorem hasDeed_of_change (f : Peer → Peer)
    (h : ∀ d', LooksLike c.peer d d' → d'.handle now c = (d'.changePeer c.peer f, .ok [])) :
    d.HasDeed now c := by
  refine hasDeed_of_peer (.change f) (fun _ => rfl) fun d' hLike => ?_
  rw [h d' hLike, changePeer_eq_done]

/-- What a command does, and what comes of it, is the same in all states that are alike to its
sender. -/
theorem hasDeed (d : Download) (now : Time) (c : Command) : d.HasDeed now c := by
  cases c with
  | connect id line size =>
    let told := size.filter (· ≤ maxMetadataSize)
    refine ⟨{ peer := some { Peer.connected line d.initialRequestLimit with metadataSize := told }
              size := told.filter (0 < ·) }, .ok [], nofun, fun d' hLike => ?_⟩
    simp [handle, connect, Deed.done, Roster.put, Command.peer, told,
      initialRequestLimit_of_core hLike.core]
  | disconnect id =>
    exact hasDeed_of_peer .leave (fun _ => rfl) fun d' _ =>
      congrArg (·, _) (disconnect_eq_done d' id)
  | choke id =>
    exact hasDeed_of_peer .fallSilent (fun _ => rfl) fun d' _ =>
      congrArg (·, _) (choked_eq_done d' id)
  | unchoke id => exact hasDeed_of_change (·.setChoked .download false) fun _ _ => rfl
  | interested id => exact hasDeed_of_change (·.setInterested .upload true) fun _ _ => rfl
  | notInterested id => exact hasDeed_of_change (·.setInterested .upload false) fun _ _ => rfl
  | holds id piece => exact hasDeed_of_change (·.learnPiece piece) fun _ _ => rfl
  | bitfield id bits =>
    refine hasDeed_of_change (·.learnBitfield bits
      ((d.fileSet.filter (·.kind = .data)).map (·.pieceCount))) fun d' hLike => ?_
    have hCount : (d'.fileSet.filter (·.kind = .data)).map (·.pieceCount) =
        (d.fileSet.filter (·.kind = .data)).map (·.pieceCount) := by
      have hSettled := congrArg (Option.map FileSet.pieceCount) (filter_of_core hLike.core .data)
      simpa [Function.comp_def, FileSet.pieceCount, FileSet.settled] using hSettled
    rw [handle, hCount]
    rfl
  | block id i offset data =>
    cases hfs : d.fileSet.filter (·.kind = .data) with
    | none =>
      refine hasDeed_of_unchanged (.ok []) fun d' hLike => ?_
      rw [handle, filter_eq_none_of_core hLike.core hfs]
    | some fs =>
      cases hAt : blockAt fs i offset with
      | error e =>
        refine hasDeed_of_unchanged (.error e) fun d' hLike => ?_
        obtain ⟨fs', hfs', hSettled⟩ := filter_eq_some_of_core hLike.core hfs
        simp only [handle, hfs', blockAt_of_settled hSettled, hAt]
      | ok b =>
        obtain ⟨deed, result, hSize, hDone⟩ := takeBlock_deed d fs now id i b data
        refine ⟨deed, result, fun _ => hSize, fun d' hLike => ?_⟩
        obtain ⟨fs', hfs', hSettled⟩ := filter_eq_some_of_core hLike.core hfs
        simp only [handle, hfs', blockAt_of_settled hSettled, hAt]
        exact hDone d' fs' hLike hSettled
  | metadataBlock id b data =>
    cases hfs : d.fileSet.filter (·.kind = .metadata) with
    | none =>
      refine hasDeed_of_unchanged (.ok []) fun d' hLike => ?_
      rw [handle, filter_eq_none_of_core hLike.core hfs]
    | some fs =>
      obtain ⟨deed, result, hSize, hDone⟩ := takeBlock_deed d fs now id 0 b data
      refine ⟨deed, result, fun _ => hSize, fun d' hLike => ?_⟩
      obtain ⟨fs', hfs', hSettled⟩ := filter_eq_some_of_core hLike.core hfs
      simp only [handle, hfs']
      exact hDone d' fs' hLike hSettled
  | requestUpload id i offset length =>
    refine hasDeed_of_unchanged (d.handle now (.requestUpload id i offset length)).2
      fun d' hLike => ?_
    have hPeer : d'.peers.find? id = d.peers.find? id := hLike.peer
    have hKind : d'.worksOn .data = d.worksOn .data := by
      rw [worksOn, kind?_of_core hLike.core, worksOn]
    simp only [handle, hPeer, hKind]
    split
    · rfl
    · rfl
  | reject id i b =>
    exact hasDeed_of_peer (.decline i b) (fun _ => rfl) fun d' _ =>
      congrArg (·, _) (release_eq_done d' id i b)

/-! ### Two peers -/

theorem settled_letGo (fs : FileSet) (x : BlockPlace) : (fs.letGo x).settled = fs.settled := by
  have hReopened := settled_reopenRequest fs { piece := x.1, block := x.2, requestedAt := 0 }
  rwa [reopenRequest_eq] at hReopened

theorem core_done (deed : Deed) (id : PeerId) (d : Download) : (deed.done id d).core = d.core := by
  have hSettled (fs : FileSet) : (deed.given.foldl .letGo fs).settled = fs.settled := by
    induction deed.given generalizing fs with
    | nil => rfl
    | cons x rest ih => rw [List.foldl_cons, ih, settled_letGo]
  simp [core, Deed.done, Function.comp_def, hSettled]

theorem find?_done_other (deed : Deed) (h : k ≠ id) (d : Download) :
    (deed.done id d).peers.find? k = d.peers.find? k := by
  rw [Deed.done, Roster.find?_put, if_neg h]

/-- What one peer does is done alike before and after another one's deed. -/
theorem LooksLike.done (deed : Deed) (h : k ≠ id) (d : Download) :
    LooksLike k d (deed.done id d) :=
  ⟨find?_done_other deed h d, core_done deed id d⟩

theorem done_comm (hne : id ≠ k) (hSize : x.size = none ∨ y.size = none) (d : Download) :
    y.done k (x.done id d) = x.done id (y.done k d) := by
  have hGiven (fs : FileSet) : y.given.foldl .letGo (x.given.foldl .letGo fs) =
      x.given.foldl .letGo (y.given.foldl .letGo fs) := by
    rw [← List.foldl_append, ← List.foldl_append]
    exact List.perm_append_comm.foldl_eq fs
  have hSizes : (d.metadataSize.or x.size).or y.size = (d.metadataSize.or y.size).or x.size := by
    rcases hSize with h | h
    · simp [h]
    · simp [h]
  simp only [Deed.done, Roster.put_comm hne, Option.map_map, Function.comp_def, hGiven, hSizes]

/-- Commands of two peers that do not both connect can be handled in either order: the torrent is
the same in the end, each has the same result as if it came first, and neither changes the other
peer. -/
theorem handle_comm {c₁ c₂ : Command} (hPeers : c₁.peer ≠ c₂.peer)
    (hConnect : ¬ (c₁.connects ∧ c₂.connects)) (d : Download) (t₁ t₂ : Time) :
    ((d.handle t₁ c₁).1.handle t₂ c₂).1 = ((d.handle t₂ c₂).1.handle t₁ c₁).1 ∧
      ((d.handle t₁ c₁).1.handle t₂ c₂).2 = (d.handle t₂ c₂).2 ∧
      ((d.handle t₂ c₂).1.handle t₁ c₁).2 = (d.handle t₁ c₁).2 ∧
      (d.handle t₁ c₁).1.peers.find? c₂.peer = d.peers.find? c₂.peer ∧
      (d.handle t₂ c₂).1.peers.find? c₁.peer = d.peers.find? c₁.peer := by
  obtain ⟨x, xResult, hxSize, hx⟩ := hasDeed d t₁ c₁
  obtain ⟨y, yResult, hySize, hy⟩ := hasDeed d t₂ c₂
  have hSize : x.size = none ∨ y.size = none := by
    rcases Bool.eq_false_or_eq_true c₁.connects with h₁ | h₁
    · exact .inr (hySize (Bool.eq_false_iff.mpr fun h₂ => hConnect ⟨h₁, h₂⟩))
    · exact .inl (hxSize h₁)
  rw [hx d ⟨rfl, rfl⟩, hy d ⟨rfl, rfl⟩, hy _ (.done x hPeers.symm d), hx _ (.done y hPeers d)]
  exact ⟨done_comm hPeers hSize d, rfl, rfl, find?_done_other x hPeers.symm d,
    find?_done_other y hPeers d⟩

/-- One peer was asked for the only block, another one is connected too. -/
def askedBeside : Download := askedOnce.run [.handle 0 (.connect "q" 1 none)]

/-- The asked peer rejects the block, and the other one sends it unasked. -/
theorem handle_comm_askedBeside :
    ((askedBeside.handle 1 (.reject "p" 0 0)).1.handle 2 (.block "q" 0 0 [1, 2, 3, 4])).1 =
        ((askedBeside.handle 2 (.block "q" 0 0 [1, 2, 3, 4])).1.handle 1 (.reject "p" 0 0)).1 ∧
      ((askedBeside.handle 1 (.reject "p" 0 0)).1.handle 2 (.block "q" 0 0 [1, 2, 3, 4])).2 =
        .ok [.store .data 0 0 [1, 2, 3, 4]] ∧
      ((askedBeside.handle 2 (.block "q" 0 0 [1, 2, 3, 4])).1.handle 1 (.reject "p" 0 0)).2 =
        .ok [] ∧
      askedBeside.status? (0, 0) = some .requested ∧
      ((askedBeside.handle 1 (.reject "p" 0 0)).1.handle 2 (.block "q" 0 0 [1, 2, 3, 4])).1.status?
        (0, 0) = some .needed := by
  have hPeers : (Command.reject "p" 0 0).peer ≠ (Command.block "q" 0 0 [1, 2, 3, 4]).peer := by
    decide
  obtain ⟨hState, hBlock, hReject, _⟩ := handle_comm hPeers (by decide) askedBeside 1 2
  refine ⟨hState, hBlock.trans ?_, hReject.trans rfl, by decide +kernel, by decide +kernel⟩
  decide +kernel

end Download

end TorrentEngine
