import TorrentEngine.Proofs.Asking
import TorrentEngine.Proofs.Dispatch
import TorrentEngine.Proofs.Stranding

/-!
Requests and the messages that ask for them. A scheduling pass notes a request with its peer and
puts the message into the outbox; the message is handed to the line of the peer when it is carried
out, and the line takes it if it has room then. So every request that a peer still owes was handed
over while it was noted, and it was accepted just in the case that the line had room.
-/

namespace TorrentEngine

/-! ### What peers owe -/

/-- The peer `q` is `p` with nothing more to answer. -/
structure Peer.Eased (p q : Peer) : Prop where
  line_eq : q.line = p.line
  pending : q.pending ⊆ p.pending

namespace Roster

/-- The peer of a name, which is connected by a line, owes the answer to a request. -/
def Owes (peers : Roster Peer) (id : PeerId) (line : LineId) (r : Request) : Prop :=
  ∃ p, peers.find? id = some p ∧ p.line = line ∧ r ∈ p.pending

variable {peers : Roster Peer} {id other : PeerId} {line : LineId} {r : Request}

theorem owes_of_map {f : PeerId → Peer → Peer} (h : (peers.map f).Owes id line r)
    (hf : ∀ id (p : Peer), p.Eased (f id p)) : peers.Owes id line r := by
  obtain ⟨q, hSome, rfl, hPending⟩ := h
  rw [find?_map] at hSome
  obtain ⟨p, hFind, rfl⟩ := Option.map_eq_some_iff.mp hSome
  exact ⟨p, hFind, (hf id p).line_eq.symm, (hf id p).pending hPending⟩

theorem owes_of_update {f : Peer → Peer} (h : (peers.update other f).Owes id line r)
    (hf : ∀ p : Peer, p.Eased (f p)) : peers.Owes id line r := by
  refine owes_of_map h fun k p => ?_
  split
  · exact hf p
  · exact ⟨rfl, List.Subset.refl _⟩

theorem owes_of_erase (h : (peers.erase other).Owes id line r) : peers.Owes id line r := by
  obtain ⟨p, hFind, hOwes⟩ := h
  rw [find?_erase] at hFind
  split at hFind
  · cases hFind
  · exact ⟨p, hFind, hOwes⟩

theorem owes_of_insert {p : Peer} (h : (peers.insert other p).Owes id line r) :
    id = other ∧ p.line = line ∧ r ∈ p.pending ∨ peers.Owes id line r := by
  obtain ⟨q, hFind, hOwes⟩ := h
  rw [find?_insert] at hFind
  split at hFind
  · next hSame =>
    obtain rfl := Option.some.inj hFind
    exact .inl ⟨hSame, hOwes⟩
  · exact .inr ⟨q, hFind, hOwes⟩

end Roster

namespace Download

/-- The peer of a name, which is connected by a line, owes the answer to a request. -/
def Owes (d : Download) (id : PeerId) (line : LineId) (r : Request) : Prop :=
  d.peers.Owes id line r

variable {d d' : Download} {id other : PeerId} {line : LineId} {r : Request}

theorem eased_received (window now : Time) (i b length : Nat) (p : Peer) :
    p.Eased (received window now i b length p) := by
  simp only [received]
  split
  · exact ⟨rfl, List.Subset.refl _⟩
  · simp only [RequestBudget.receive]
    split
    · exact ⟨rfl, List.eraseP_subset⟩
    · exact ⟨rfl, List.eraseP_subset⟩

theorem owes_of_release {i b : Nat} (h : (d.release other i b).Owes id line r) :
    d.Owes id line r := by
  simp only [release] at h
  split at h
  · exact h
  · exact Roster.owes_of_update h fun p => ⟨rfl, List.eraseP_subset⟩

theorem owes_of_takeBlock {fs : FileSet} {now : Time} {i b : Nat} {data : Bytes}
    (h : (d.takeBlock fs now other i b data).1.Owes id line r) : d.Owes id line r := by
  simp only [takeBlock] at h
  split at h
  · exact h
  · split at h
    · exact owes_of_release h
    · split at h
      · exact Roster.owes_of_update h fun p => eased_received ..
      · exact Roster.owes_of_update h fun p => eased_received ..

/-- Input from a peer makes no peer owe more. -/
theorem owes_of_handle {now : Time} {c : Command} (h : (d.handle now c).1.Owes id line r) :
    d.Owes id line r := by
  cases c with
  | connect other line' size =>
    rcases Roster.owes_of_insert h with ⟨-, -, hPending⟩ | hOwes
    · cases hPending
    · exact hOwes
  | disconnect other =>
    simp only [handle, disconnect] at h
    split at h
    · exact h
    · exact Roster.owes_of_erase h
  | choke other =>
    simp only [handle, choked] at h
    split at h
    · exact h
    · exact Roster.owes_of_update h fun p => ⟨rfl, List.nil_subset _⟩
  | reject other i b => exact owes_of_release h
  | block other i offset data =>
    simp only [handle] at h
    split at h
    · exact h
    · split at h
      · exact h
      · exact owes_of_takeBlock h
  | metadataBlock other b data =>
    simp only [handle] at h
    split at h
    · exact h
    · exact owes_of_takeBlock h
  | requestUpload other i offset length =>
    simp only [handle] at h
    split at h <;> exact h
  | _ => exact Roster.owes_of_update h fun p => ⟨rfl, List.Subset.refl _⟩

end Download

/-! ### Scheduling -/

/-- The message that asks for a block of a file set. -/
def FileSet.messageFor (fs : FileSet) (x : BlockPlace) : Message :=
  match fs.kind with
  | .metadata => .metadataRequest x.2
  | .data => fs.request x

namespace FileSet

variable {fs fs' : FileSet}

theorem messageFor_eq (hKind : fs'.kind = fs.kind)
    (hOutlines : fs'.pieces.map Piece.outline = fs.pieces.map Piece.outline) :
    fs'.messageFor = fs.messageFor := by
  funext x
  simp only [messageFor, request, hKind, extent_of_outlines hOutlines]

/-- The message for a block that was just claimed. -/
theorem requestMessage_eq (hNumbered : fs.Numbered) {i b : Nat} {p : Piece} {block : Block}
    (hp : fs.pieces[i]? = some p) (hb : p.blocks[b]? = some block) (s : BlockStatus) :
    Download.requestMessage fs.kind i (p.mark b s) block = fs.messageFor (i, block.index) := by
  have hIndex : block.index = b := hNumbered p (List.mem_of_getElem? hp) b block hb
  cases hKind : fs.kind with
  | metadata => simp only [messageFor, Download.requestMessage, hKind]
  | data =>
    simp only [messageFor, Download.requestMessage, hKind, request, hIndex, extent_of_block hp hb]
    rfl

end FileSet

namespace Download

variable {d d' : Download} {id other : PeerId} {line : LineId} {r : Request} {fs : FileSet}

/-- Every file set is numbered. -/
def Numbered (d : Download) : Prop := ∀ fs, d.fileSet = some fs → fs.Numbered

theorem GoesOn.numbered (hOn : d.GoesOn d') (h : d.Numbered) : d'.Numbered := by
  intro fs' hfs'
  obtain ⟨fs, hfs, hCut⟩ := hOn.exists_before hfs'
  exact (h fs hfs).outlines hCut.outlines_eq

/-- Filling the slots of a peer sends a message for each request that it notes. -/
theorem fill_pending (hNumbered : fs.Numbered) (selector : Selector) (rarity : Rarity) (now : Time)
    (slots : Nat) (peer : Peer) :
    ∀ r ∈ (fill selector rarity now slots fs peer).2.1.pending,
      r ∈ peer.pending ∨
        fs.messageFor r.place ∈ (fill selector rarity now slots fs peer).2.2 := by
  induction slots generalizing fs peer with
  | zero => exact fun r hr => .inl hr
  | succ slots ih =>
    simp only [fill]
    split
    · exact fun r hr => .inl hr
    · next i _ =>
      split
      · exact fun r hr => .inl hr
      · next block p hClaim =>
        obtain ⟨before, hp, hClaimed⟩ := Option.bind_eq_some_iff.mp hClaim
        obtain ⟨b, hb, _, rfl⟩ := Piece.claim_eq_some hClaimed
        have hSettled := (claim_status? hNumbered hClaim).1
        have hSame : (fs.setPiece i (before.mark b .requested)).messageFor = fs.messageFor :=
          FileSet.messageFor_eq rfl (FileSet.outlines_of_settled hSettled)
        intro r hr
        rw [FileSet.requestMessage_eq hNumbered hp hb]
        rcases ih (hNumbered.settled hSettled) (peer.addRequest i block.index now) r hr with
          hAsked | hSent
        · rcases List.mem_append.mp hAsked with hOld | hNew
          · exact .inl hOld
          · obtain rfl := List.mem_singleton.mp hNew
            exact .inr List.mem_cons_self
        · exact .inr (List.mem_cons_of_mem _ (hSame ▸ hSent))

theorem serve_owes (hNumbered : d.Numbered) (rarity : Rarity) (now : Time)
    (h : (d.serve rarity now other).1.Owes id line r) :
    d.Owes id line r ∨ id = other ∧ ∃ fs, d.fileSet = some fs ∧
      fs.messageFor r.place ∈ (d.serve rarity now other).2 := by
  simp only [serve] at h ⊢
  cases hFind : d.peers.find? other with
  | none =>
    rw [hFind] at h
    exact .inl h
  | some old =>
    rw [hFind] at h
    dsimp only at h ⊢
    have hLine : (d.choking.update d.fileSet old).line = old.line := by
      cases d.choking <;> rfl
    have hOld (hEq : old.line = line) (hr : r ∈ old.pending) : d.Owes other line r :=
      ⟨old, hFind, hEq, hr⟩
    split at h
    · rcases Roster.owes_of_insert h with ⟨rfl, hEq, hr⟩ | hOwes
      · exact .inl (hOld (hLine.symm.trans hEq) (update_pending .. ▸ hr))
      · exact .inl hOwes
    · next fs hServed =>
      have hfs : d.fileSet = some fs := (Option.filter_eq_some_iff.mp hServed).1
      obtain ⟨pending, hPeer⟩ := fill_peer d.selector rarity now
        (d.choking.update d.fileSet old).freeSlots fs (d.choking.update d.fileSet old)
      rcases Roster.owes_of_insert h with ⟨rfl, hEq, hr⟩ | hOwes
      · rcases fill_pending (hNumbered fs hfs) d.selector rarity now
          (d.choking.update d.fileSet old).freeSlots (d.choking.update d.fileSet old) r hr with
          hAsked | hSent
        · rw [hPeer] at hEq
          exact .inl (hOld (hLine.symm.trans hEq) (update_pending .. ▸ hAsked))
        · exact .inr ⟨rfl, fs, hfs, List.mem_append.mpr (.inr hSent)⟩
      · exact .inl hOwes

theorem Numbered.core (h : d.Numbered) (hCore : d'.core = d.core) : d'.Numbered := by
  intro fs' hfs'
  obtain ⟨fs, hfs, hSettled⟩ := fileSet_of_core hCore hfs'
  exact (h fs hfs).settled hSettled

/-- A pass sends a message for each request that it notes. -/
theorem serveAll_owes (hNumbered : d.Numbered) (rarity : Rarity) (now : Time) (ids : List PeerId)
    (h : (serveAll rarity now ids d).1.Owes id line r) :
    d.Owes id line r ∨ ∃ fs, d.fileSet = some fs ∧
      .send id (fs.messageFor r.place) ∈ (serveAll rarity now ids d).2 := by
  induction ids generalizing d with
  | nil => exact .inl h
  | cons other rest ih =>
    have hCore := core_serve d rarity now other
    simp only [serveAll] at h ⊢
    rcases ih (hNumbered.core hCore) h with hFirst | ⟨fs', hfs', hSent⟩
    · rcases serve_owes hNumbered rarity now hFirst with hOwes | ⟨rfl, fs, hfs, hSent⟩
      · exact .inl hOwes
      · exact .inr ⟨fs, hfs, List.mem_append.mpr (.inl (List.mem_map_of_mem hSent))⟩
    · obtain ⟨fs, hfs, hSettled⟩ := fileSet_of_core hCore hfs'
      have hCut := FileSet.sameCut_of_settled hSettled.symm
      have hSame := FileSet.messageFor_eq hCut.kind_eq hCut.outlines_eq
      exact .inr ⟨fs, hfs, List.mem_append.mpr (.inr (hSame ▸ hSent))⟩

end Download

/-! ### Phases and jobs -/

namespace PhaseId

variable {c : PhaseConfig} {phase : PhaseId} {d d' : Download} {effects : List Effect}
  {id : PeerId} {line : LineId} {r : Request}

theorem numbered_of_metadataFileSet {fs : FileSet} (hfs : metadataFileSet d = .ok fs) :
    fs.Numbered := by
  obtain ⟨b, created, hCreated, rfl | rfl⟩ := metadataFileSet_ok hfs
  · exact (FileSet.cutFrom_create hCreated).numbered
  · refine (FileSet.cutFrom_create hCreated).numbered.outlines ?_
    simp [Function.comp_def]

/-- Leaving a phase may begin the metadata. -/
theorem leave_cases (h : phase.leave c d = .ok (d', effects)) :
    d' = d ∨ ∃ fs, metadataFileSet d = .ok fs ∧ d' = { d with fileSet := some fs } := by
  cases phase with
  | preMetadata =>
    obtain ⟨fs, hfs, hLeft⟩ := bind_eq_ok.mp h
    cases hLeft
    exact .inr ⟨fs, hfs, rfl⟩
  | metadata =>
    simp only [leave] at h
    split at h
    · cases h
    · cases h
      exact .inl rfl
  | data =>
    cases h
    exact .inl rfl
  | seed =>
    cases h
    exact .inl rfl

/-- Entering a phase changes its strategies, and may begin the content or settle the peers. -/
theorem enter_cases (h : phase.enter c d = .ok (d', effects)) :
    (∃ selector choking, d' = { d with selector, choking }) ∨ enterData c d = .ok (d', effects) ∨
      d' = (enterSeed d).1 := by
  cases phase with
  | preMetadata =>
    cases h
    exact .inl ⟨_, _, rfl⟩
  | metadata =>
    simp only [enter] at h
    split at h
    · cases h
      exact .inl ⟨_, _, rfl⟩
    · cases h
  | data => exact .inr (.inl h)
  | seed =>
    cases h
    exact .inr (.inr rfl)

theorem owes_of_leave (hLeave : phase.leave c d = .ok (d', effects)) (h : d'.Owes id line r) :
    d.Owes id line r := by
  rcases leave_cases hLeave with rfl | ⟨fs, -, rfl⟩
  · exact h
  · exact h

theorem owes_of_enter (hEnter : phase.enter c d = .ok (d', effects)) (h : d'.Owes id line r) :
    d.Owes id line r := by
  rcases enter_cases hEnter with ⟨_, _, rfl⟩ | hData | rfl
  · exact h
  · obtain ⟨m, fs, -, -, rfl, -⟩ := enterData_eq_ok hData
    exact Roster.owes_of_map h fun k p => ⟨rfl, List.nil_subset _⟩
  · exact Roster.owes_of_map h fun k p => ⟨rfl, List.nil_subset _⟩

theorem numbered_of_leave (hNumbered : d.Numbered)
    (hLeave : phase.leave c d = .ok (d', effects)) : d'.Numbered := by
  rcases leave_cases hLeave with rfl | ⟨fs, hfs, rfl⟩
  · exact hNumbered
  · rintro _ ⟨⟩
    exact numbered_of_metadataFileSet hfs

theorem numbered_of_enter (hNumbered : d.Numbered)
    (hEnter : phase.enter c d = .ok (d', effects)) : d'.Numbered := by
  rcases enter_cases hEnter with ⟨_, _, rfl⟩ | hData | rfl
  · exact hNumbered
  · obtain ⟨m, fs, -, hfs, rfl, -⟩ := enterData_eq_ok hData
    rintro _ ⟨⟩
    exact (FileSet.cutFrom_create (forTorrent_ok hfs)).numbered
  · exact hNumbered

/-- An attempt to go on along a chain makes no peer owe more. -/
theorem owes_of_advance {chain : PhaseChain} (h : (chain.advance phase d).1.Owes id line r) :
    d.Owes id line r := by
  simp only [PhaseChain.advance] at h
  split at h
  · exact h
  · split at h
    · exact h
    · next left leaving hLeave =>
      split at h
      · exact owes_of_leave hLeave h
      · next hEnter => exact owes_of_leave hLeave (owes_of_enter hEnter h)

theorem numbered_advance (hNumbered : d.Numbered) (chain : PhaseChain) :
    (chain.advance phase d).1.Numbered := by
  simp only [PhaseChain.advance]
  split
  · exact hNumbered
  · split
    · exact hNumbered
    · next left leaving hLeave =>
      split
      · exact numbered_of_leave hNumbered hLeave
      · next hEnter => exact numbered_of_enter (numbered_of_leave hNumbered hLeave) hEnter

end PhaseId

/-- The state of a torrent aside from what jobs work on: the file set, the metadata and checks. -/
def Download.aside (d : Download) : Download :=
  { d with metadataBytes := none, fileSet := none, pendingChecks := 0 }

namespace Job

variable {t t' : Torrent}

theorem aside_prepareStore (d : Download) (kind : FileSetKind) (i block length : Nat) :
    (prepareStore d kind i block length).1.aside = d.aside := by
  cases hPrepared : prepareStore d kind i block length with
  | mk d' result =>
    cases result with
    | ok offset =>
      obtain ⟨rfl, -⟩ := prepareStore_ok hPrepared
      rfl
    | error ended =>
      obtain ⟨-, ⟨rfl, -⟩ | ⟨fs, p, -, -, -, rfl⟩⟩ := prepareStore_error hPrepared <;> rfl

theorem aside_commitStore (t : Torrent) (kind : FileSetKind) (i block length : Nat) :
    (commitStore t kind i block length).after.download.aside = t.download.aside := by
  simp only [commitStore]
  split
  · rfl
  · split
    · rfl
    · split <;> rfl

theorem aside_prepareCheck (d : Download) (kind : FileSetKind) (i : Nat) :
    (prepareCheck d kind i).1.aside = d.aside := by
  simp only [prepareCheck]
  split
  · rfl
  · split
    · rfl
    · split <;> rfl

theorem aside_commitCheck (t : Torrent) (kind : FileSetKind) (i : Nat) (data : Bytes) :
    (commitCheck t kind i data).after.download.aside = t.download.aside := by
  simp only [commitCheck]
  split
  · rfl
  · split
    · rfl
    · dsimp only
      rw [download_announcePiece]
      rfl
    · rfl

/-- The parts of jobs leave all else alone, but that bytes sent to a peer are counted for it. -/
theorem Part.aside (hPart : Part t t') : t'.download.aside = t.download.aside ∨
    ∃ id count, t'.download.aside =
      (t.download.changePeer id fun p => { p with uploaded := p.uploaded + count }).aside := by
  cases hPart with
  | prepareStore kind i block length => exact .inl (aside_prepareStore ..)
  | finishStore kind i block length reply =>
    cases reply with
    | done => exact .inl (aside_commitStore ..)
    | _ => exact .inl rfl
  | prepareCheck kind i => exact .inl (aside_prepareCheck ..)
  | finishCheck kind i reply =>
    cases reply with
    | done data => exact .inl (aside_commitCheck ..)
    | failed e =>
      simp only [Job.finishCheck, failCheck]
      split <;> exact .inl rfl
    | crashed => exact .inl rfl
  | finishSend peer line i offset reply =>
    cases reply with
    | done data =>
      simp only [Job.finishSend, commitSend]
      split
      · exact .inl rfl
      · exact .inr ⟨peer, data.length, rfl⟩
    | _ => exact .inl rfl
  | call s => exact .inl rfl

theorem Part.peers (hPart : Part t t') : t'.download.peers = t.download.peers ∨
    ∃ id count, t'.download.peers =
      t.download.peers.update id fun p => { p with uploaded := p.uploaded + count } := by
  rcases hPart.aside with hSame | ⟨id, count, hSent⟩
  · exact .inl (congrArg (·.peers) hSame)
  · exact .inr ⟨id, count, congrArg (·.peers) hSent⟩

theorem Part.owes (hPart : Part t t') {id : PeerId} {line : LineId} {r : Request}
    (h : t'.download.Owes id line r) : t.download.Owes id line r := by
  rw [Download.Owes] at h ⊢
  rcases hPart.peers with hSame | ⟨other, count, hSent⟩
  · exact hSame ▸ h
  · rw [hSent] at h
    exact Roster.owes_of_update h fun p => ⟨rfl, List.Subset.refl _⟩

end Job

/-! ### What a line takes -/

/-- A channel takes something if it is open and not full. -/
theorem Channel.offer_eq_iff {α : Type} {c : Channel α} {x : α} :
    c.offer x = { c with waiting := c.waiting ++ [x] } ↔
      c.isOpen = true ∧ c.waiting.length < c.capacity := by
  simp only [offer, offer?]
  split
  · next hRoom => simpa using hRoom
  · next hFull =>
    simp only [Bool.and_eq_true, decide_eq_true_eq] at hFull
    refine iff_of_false (fun hTook => ?_) hFull
    have hLonger := congrArg (fun c => c.waiting.length) hTook
    simp at hLonger

theorem Network.line?_send (n : Network) (line : LineId) (m : Message) :
    (n.send line m).line? line = (n.line? line).map (·.offer m) := by
  simp only [send, send?]
  cases hLine : n.line? line with
  | none => exact hLine
  | some c =>
    have hLt : line < n.lines.length := (List.getElem?_eq_some_iff.mp hLine).1
    cases hOffer : c.offer? m with
    | none => simp [hLine, Channel.offer, hOffer]
    | some c' => simp [line?, Channel.offer, hOffer, hLt]

/-! ### Steps -/

namespace Dispatch

variable {k k' k₀ : Dispatch} {id : PeerId} {line : LineId} {r : Request} {m : Message}

/-- The message that asks for a request is still in the outbox. -/
def Unsent (k : Dispatch) (id : PeerId) (r : Request) : Prop :=
  ∃ fs, k.download.fileSet = some fs ∧ .send id (fs.messageFor r.place) ∈ k.outbox

/-- The message that asks for a request is handed to the line of the peer next. -/
def HandsOver (k : Dispatch) (id : PeerId) (r : Request) (m : Message) (k' : Dispatch) : Prop :=
  ∃ fs rest, k.download.fileSet = some fs ∧ m = fs.messageFor r.place ∧
    k.outbox = .send id m :: rest ∧ k' = k.carried (.send id m) rest

theorem GoesOn.unsent (hOn : k.GoesOn k') (hOutbox : k'.outbox = k.outbox) (h : k.Unsent id r) :
    k'.Unsent id r := by
  obtain ⟨fs, hfs, hMem⟩ := h
  obtain ⟨fs', hfs', hCut⟩ := hOn.download.exists_after hfs
  refine ⟨fs', hfs', ?_⟩
  rwa [hOutbox, FileSet.messageFor_eq hCut.kind_eq hCut.outlines_eq]

theorem not_unsent_of_idle (hIdle : k.outbox = []) : ¬ k.Unsent id r := by
  rintro ⟨fs, -, hMem⟩
  rw [hIdle] at hMem
  cases hMem

theorem download_advanced (k : Dispatch) :
    k.advanced.download = (k.session.chain.advance k.session.phase k.download).1 := by
  simp only [advanced]
  split <;> rfl

theorem Step.numbered (hStep : Step k k') (h : k.download.Numbered) : k'.download.Numbered := by
  rcases hStep.goesOn with hOn | ⟨-, rfl⟩
  · exact hOn.download.numbered h
  · rw [download_advanced]
    exact PhaseId.numbered_advance h k.session.chain

/-- A request that a peer owes after a pass it owed before, or the message for it is unsent. -/
theorem owes_of_passed (hNumbered : k.download.Numbered) {relevant : List PeerId} {now : Time}
    (h : (k.passed relevant now).download.Owes id line r) :
    k.download.Owes id line r ∨ (k.passed relevant now).Unsent id r := by
  rcases Download.serveAll_owes hNumbered _ now relevant h with hOwes | ⟨fs, hfs, hSent⟩
  · exact .inl hOwes
  · obtain ⟨fs', hfs', hCut⟩ := (goesOn_passed k relevant now).download.exists_after hfs
    refine .inr ⟨fs', hfs', ?_⟩
    rw [FileSet.messageFor_eq hCut.kind_eq hCut.outlines_eq]
    exact hSent

/-- Carrying out an effect hands a message over or leaves it unsent. -/
theorem Unsent.carried {effect : Effect} {rest : List Effect} (h : k.Unsent id r)
    (hOutbox : k.outbox = effect :: rest) :
    (k.carried effect rest).Unsent id r ∨ ∃ m, k.HandsOver id r m (k.carried effect rest) := by
  obtain ⟨fs, hfs, hMem⟩ := h
  rw [hOutbox] at hMem
  rcases List.mem_cons.mp hMem with rfl | hLater
  · exact .inr ⟨_, fs, rest, hfs, rfl, hOutbox, rfl⟩
  · refine .inl ⟨fs, ?_, hLater⟩
    exact (congrArg Download.fileSet (Engine.download_carryOut k.session.engine effect)).trans hfs

/-- What a peer owes after a step it owed before, unless the message for it has just come into the
outbox; and the message stays there until it is handed over. -/
theorem Step.owes (hStep : Step k k') (hNumbered : k.download.Numbered)
    (h : k'.download.Owes id line r) :
    k'.Unsent id r ∨ k.download.Owes id line r ∧
      (k.Unsent id r → k'.Unsent id r ∨ ∃ m, k.HandsOver id r m k') := by
  cases hStep with
  | command hIdle now c =>
    have hOwes : k.download.Owes id line r := Download.owes_of_handle h
    exact .inr ⟨hOwes, fun hUnsent => absurd hUnsent (not_unsent_of_idle hIdle)⟩
  | pass hIdle relevant now =>
    rcases owes_of_passed hNumbered h with hOwes | hUnsent
    · exact .inr ⟨hOwes, fun hUnsent => absurd hUnsent (not_unsent_of_idle hIdle)⟩
    · exact .inl hUnsent
  | advance hIdle =>
    rw [download_advanced] at h
    have hOwes := PhaseId.owes_of_advance h
    exact .inr ⟨hOwes, fun hUnsent => absurd hUnsent (not_unsent_of_idle hIdle)⟩
  | @beginVerify hIdle fs hCurrent =>
    change (k.session.beginVerify fs).download.Owes id line r at h
    rw [Session.download_beginVerify] at h
    exact .inr ⟨h, fun hUnsent => absurd hUnsent (not_unsent_of_idle hIdle)⟩
  | endVerify hIdle hfs =>
    exact .inr ⟨h, fun hUnsent => absurd hUnsent (not_unsent_of_idle hIdle)⟩
  | @carry effect rest hOutbox =>
    have hSame : (k.carried effect rest).download = k.download :=
      Engine.download_carryOut k.session.engine effect
    exact .inr ⟨hSame ▸ h, fun hUnsent => hUnsent.carried hOutbox⟩
  | @part t hPart =>
    have hOn : k.GoesOn (k.changeEngine fun e => { e with torrent := t }) :=
      ⟨rfl, rfl, hPart.goesOn, fun _ _ hMem => hMem⟩
    exact .inr ⟨hPart.owes h, fun hUnsent => .inl (hOn.unsent rfl hUnsent)⟩
  | meanwhile network events tree scheduler =>
    exact .inr ⟨h, fun hUnsent => .inl hUnsent⟩

/-! ### Runs -/

/-- In a run, the latest state first, the message for a request was handed over between two states,
and the peer has owed the answer since before that. -/
def HandedOver (states : List Dispatch) (id : PeerId) (line : LineId) (r : Request) (m : Message)
    (before after : Dispatch) : Prop :=
  ∃ later older, states = later ++ after :: before :: older ∧ before.HandsOver id r m after ∧
    ∀ k ∈ later ++ [after, before], k.download.Owes id line r

theorem HandedOver.step {states : List Dispatch} {before after : Dispatch}
    (h : HandedOver states id line r m before after) (hOwes : k.download.Owes id line r) :
    HandedOver (k :: states) id line r m before after := by
  obtain ⟨later, older, rfl, hHands, hSince⟩ := h
  exact ⟨k :: later, older, rfl, hHands, List.forall_mem_cons.mpr ⟨hOwes, hSince⟩⟩

/-- Nothing is under way: no peer owes anything, and there are no effects to carry out. -/
structure Quiet (k : Dispatch) : Prop where
  idle : k.outbox = []
  numbered : k.download.Numbered
  noPending : k.download.peers.All fun p => p.pending = []

theorem Quiet.not_owes (h : k.Quiet) : ¬ k.download.Owes id line r := by
  rintro ⟨p, hFind, -, hPending⟩
  rw [h.noPending id p hFind] at hPending
  cases hPending

/-- What a peer owes in a run is still to be asked for, or was asked for while the peer owed it. -/
theorem Run.asked {states : List Dispatch} (hRun : Run k₀ states) (hStart : k₀.Quiet) :
    ∀ k past, states = k :: past → k.download.Numbered ∧
      ∀ id line r, k.download.Owes id line r → k.Unsent id r ∨
        ∃ m before after, HandedOver states id line r m before after := by
  induction hRun with
  | start =>
    rintro k past ⟨⟩
    exact ⟨hStart.numbered, fun id line r hOwes => absurd hOwes hStart.not_owes⟩
  | @step k k' past hRun hStep ih =>
    rintro _ _ ⟨⟩
    obtain ⟨hNumbered, hAsked⟩ := ih k past rfl
    refine ⟨hStep.numbered hNumbered, fun id line r hOwes' => ?_⟩
    rcases hStep.owes hNumbered hOwes' with hNew | ⟨hOwes, hCarried⟩
    · exact .inl hNew
    · rcases hAsked id line r hOwes with hUnsent | ⟨m, before, after, hHanded⟩
      · rcases hCarried hUnsent with hStill | ⟨m, hHands⟩
        · exact .inl hStill
        · refine .inr ⟨m, k, k', [], past, rfl, hHands, ?_⟩
          exact List.forall_mem_cons.mpr ⟨hOwes', List.forall_mem_singleton.mpr hOwes⟩
      · exact .inr ⟨m, before, after, hHanded.step hOwes'⟩

/-- The line is open and not full. -/
def HasRoom (k : Dispatch) (line : LineId) : Prop :=
  ∃ c, k.torrent.network.line? line = some c ∧ c.isOpen = true ∧ c.waiting.length < c.capacity

/-- Between two states the line took a message. -/
def Takes (before after : Dispatch) (line : LineId) (m : Message) : Prop :=
  ∃ c, before.torrent.network.line? line = some c ∧
    after.torrent.network.line? line = some { c with waiting := c.waiting ++ [m] }

/-- A line takes the message that it is handed if it has room. -/
theorem HandsOver.takes_iff (h : k.HandsOver id r m k') (hOwes : k.download.Owes id line r) :
    Takes k k' line m ↔ k.HasRoom line := by
  obtain ⟨fs, rest, -, -, -, rfl⟩ := h
  obtain ⟨p, hFind, rfl, -⟩ := hOwes
  have hLine : k.torrent.lineOf? id = some p.line := by
    rw [Torrent.lineOf?, show k.torrent.download.peers.find? id = some p from hFind]
    rfl
  have hNetwork : (k.carried (.send id m) rest).torrent.network =
      k.torrent.network.send p.line m := by
    change (k.torrent.send id m).network = _
    rw [Torrent.send, hLine]
  simp only [Takes, HasRoom, hNetwork, Network.line?_send]
  constructor
  · rintro ⟨c, hc, hTook⟩
    rw [hc, Option.map_some] at hTook
    exact ⟨c, hc, Channel.offer_eq_iff.mp (Option.some.inj hTook)⟩
  · rintro ⟨c, hc, hRoom⟩
    refine ⟨c, hc, ?_⟩
    rw [hc, Option.map_some, Channel.offer_eq_iff.mpr hRoom]

/-- The message for a request was accepted while the peer owed the answer. -/
def Accepted (states : List Dispatch) (id : PeerId) (line : LineId) (r : Request) : Prop :=
  ∃ m before after, HandedOver states id line r m before after ∧ Takes before after line m

/-- Whenever a run has nothing left to carry out, each request that a peer owes was handed to the
line of the peer while it was owed, and it was accepted just if the line had room then. -/
theorem Quiet.accepted_iff (hStart : k₀.Quiet) {past : List Dispatch} (hRun : Run k₀ (k :: past))
    (hIdle : k.outbox = []) (hOwes : k.download.Owes id line r) :
    (∃ m before after, HandedOver (k :: past) id line r m before after) ∧
      (Accepted (k :: past) id line r ↔ ∃ m before after,
        HandedOver (k :: past) id line r m before after ∧ before.HasRoom line) := by
  have hTakes {m : Message} {before after : Dispatch}
      (h : HandedOver (k :: past) id line r m before after) :
      Takes before after line m ↔ before.HasRoom line := by
    obtain ⟨later, older, -, hHands, hSince⟩ := h
    exact hHands.takes_iff (hSince before (by simp))
  refine ⟨?_, ?_⟩
  · rcases (hRun.asked hStart k past rfl).2 id line r hOwes with hUnsent | hHanded
    · exact absurd hUnsent (not_unsent_of_idle hIdle)
    · exact hHanded
  · constructor
    · rintro ⟨m, before, after, hHanded, hTook⟩
      exact ⟨m, before, after, hHanded, (hTakes hHanded).mp hTook⟩
    · rintro ⟨m, before, after, hHanded, hRoom⟩
      exact ⟨m, before, after, hHanded, (hTakes hHanded).mpr hRoom⟩

/-! ### A line without room

The line of a peer takes one message. A pass tells the peer that we are interested and asks it for a
block, and the peer reads neither before both were handed to its line. -/

/-- A torrent of one block, and a peer whose line takes one message. -/
def crowdedStart : Dispatch :=
  { session :=
      { engine := { torrent :=
          { download := Trail.oneBlock
            network := Network.connect {} "p" 1
            events := { capacity := 0 }
            tree := { home := [] } } }
        chain := .standard World.oneByteConfig
        phase := .data } }

/-- The peer connects, and then it has the block and does not choke us. -/
def crowdedMet : Dispatch := crowdedStart.commanded 0 (.connect "p" 0 none)

def crowdedHeld : Dispatch := crowdedMet.commanded 0 (.holds "p" 0)

def crowdedReady : Dispatch := crowdedHeld.commanded 0 (.unchoke "p")

/-- The pass, and the states after its messages were handed over. -/
def crowdedPassed : Dispatch := crowdedReady.passed ["p"] 0

def crowdedTold : Dispatch :=
  crowdedPassed.carried (.send "p" .interested) [.send "p" (.request 0 0 4)]

def crowdedAsked : Dispatch := crowdedTold.carried (.send "p" (.request 0 0 4)) []

theorem outbox_crowdedPassed :
    crowdedPassed.outbox = [.send "p" .interested, .send "p" (.request 0 0 4)] := by
  decide +kernel

theorem run_crowdedAsked : Run crowdedStart
    [crowdedAsked, crowdedTold, crowdedPassed, crowdedReady, crowdedHeld, crowdedMet,
      crowdedStart] := by
  have hMet : Run crowdedStart [crowdedMet, crowdedStart] := .step .start (.command rfl 0 _)
  have hReady := (hMet.step (.command rfl 0 (.holds "p" 0))).step (.command rfl 0 (.unchoke "p"))
  exact ((hReady.step (.pass rfl ["p"] 0)).step (.carry outbox_crowdedPassed)).step (.carry rfl)

theorem messageFor_ne_interested (fs : FileSet) (x : BlockPlace) :
    fs.messageFor x ≠ .interested := by
  cases hKind : fs.kind <;> simp [FileSet.messageFor, FileSet.request, hKind]

/-- The request is owed then, and was never accepted. -/
theorem not_accepted_crowded : ∃ k past r, Run crowdedStart (k :: past) ∧ k.outbox = [] ∧
    k.download.Owes "p" 0 r ∧ ¬ Accepted (k :: past) "p" 0 r := by
  have hCreated : FileSet.create .data 4 4 [Digest.zero] 4 (.memory [0, 0, 0, 0]) = .ok
      { kind := .data, pieceLength := 4, totalLength := 4
        pieces := FileSet.cut 4 4 4 [Digest.zero], storage := .memory [0, 0, 0, 0] } := rfl
  have hQuiet : crowdedStart.Quiet := by
    refine ⟨rfl, ?_, nofun⟩
    rintro _ ⟨⟩
    exact (FileSet.cutFrom_create hCreated).numbered
  have hPending : (crowdedAsked.download.peers.find? "p").map (fun p => (p.line, p.pending)) =
      some (0, [{ piece := 0, block := 0, requestedAt := 0 }]) := by decide +kernel
  have hOwes : crowdedAsked.download.Owes "p" 0 { piece := 0, block := 0, requestedAt := 0 } := by
    obtain ⟨p, hFind, hEq⟩ := Option.map_eq_some_iff.mp hPending
    obtain ⟨hLine, hNoted⟩ := Prod.mk.inj hEq
    exact ⟨p, hFind, hLine, hNoted ▸ List.mem_singleton_self _⟩
  have hFull : (crowdedTold.torrent.network.line? 0).map
      (fun c => (c.waiting.length, c.capacity)) = some (1, 1) := by
    decide +kernel
  refine ⟨_, _, _, run_crowdedAsked, rfl, hOwes, ?_⟩
  rw [(hQuiet.accepted_iff run_crowdedAsked rfl hOwes).2]
  rintro ⟨m, before, after, ⟨later, older, hStates, ⟨fs, rest, -, rfl, hOutbox, -⟩, -⟩, hRoom⟩
  have hMem : before ∈ [crowdedAsked, crowdedTold, crowdedPassed, crowdedReady, crowdedHeld,
      crowdedMet, crowdedStart] := by
    rw [hStates]
    simp
  simp only [List.mem_cons, List.not_mem_nil, or_false] at hMem
  rcases hMem with rfl | rfl | rfl | rfl | rfl | rfl | rfl
  · cases hOutbox
  · obtain ⟨c, hc, -, hLt⟩ := hRoom
    rw [hc] at hFull
    simp at hFull
    omega
  · rw [outbox_crowdedPassed] at hOutbox
    exact absurd (by simpa using (List.cons.inj hOutbox).1.symm) (messageFor_ne_interested fs _)
  · cases hOutbox
  · cases hOutbox
  · cases hOutbox
  · cases hOutbox

end Dispatch

end TorrentEngine
