import TorrentEngine.Proofs.Dropped
import TorrentEngine.Proofs.Exclusivity
import TorrentEngine.Proofs.Filling
import TorrentEngine.Proofs.Offered

/-!
Whether a block that is needed again is forgotten by the peers that were asked for it before. What
peers say gives back a block together with its request, and a pass asks for blocks that nobody was
asked for. Jobs and checks of the disk know the file set only: a digest that does not match, a block
that does not fit and the end of a check of the disk make blocks needed and leave their requests
where they are. `Session.forgets_iff` says that nothing else keeps a block from being forgotten.
-/

namespace TorrentEngine

/-! ### Forgotten blocks -/

namespace Download

variable {d d' : Download} {x : BlockPlace}

/-- No peer is still asked for a block while it is needed, and it is never outstanding twice, with
one peer or with two. -/
structure Forgets (d : Download) (x : BlockPlace) : Prop where
  unasked : d.status? x = some .needed → x ∉ d.outstanding
  once : d.outstanding.count x ≤ 1

theorem mem_outstanding : x ∈ d.outstanding ↔ x ∈ d.peers.claims := by
  rw [← coe_outstanding, Multiset.mem_coe]

theorem count_outstanding (d : Download) (x : BlockPlace) :
    d.outstanding.count x = d.peers.claims.count x := by
  rw [← coe_outstanding, Multiset.coe_count]
  congr 1
  exact lawful_beq_subsingleton ..

theorem forgets_of_noPending (h : d.peers.All fun p => p.pending = []) : d.Forgets x := by
  have hNone : x ∉ d.outstanding := by
    rw [mem_outstanding, Roster.claims_eq_zero h]
    exact Multiset.notMem_zero x
  refine ⟨fun _ => hNone, ?_⟩
  rw [List.count_eq_zero_of_not_mem hNone]
  omega

/-- A block that is needed again because peers were let off it is forgotten. -/
theorem Forgets.drops {given : Multiset BlockPlace} (h : d.Forgets x) (hDrops : d.Drops d' given) :
    d'.Forgets x := by
  have hCount : d.outstanding.count x = given.count x + d'.outstanding.count x := by
    rw [count_outstanding, count_outstanding, hDrops.claims_eq, Multiset.count_add]
  have hOnce := h.once
  refine ⟨fun hNeeded hStill => ?_, by omega⟩
  have hPos := List.count_pos_iff.mpr hStill
  rcases hDrops.status?_eq x with hSame | ⟨hGiven, _⟩
  · apply h.unasked (hSame.symm.trans hNeeded)
    exact List.count_pos_iff.mp (by omega)
  · -- the place that was given back was the only one
    have hGiven := Multiset.count_pos.mpr hGiven
    omega

/-- A block that is asked for was needed, so nobody was asked for it before. -/
theorem Forgets.requests {added : Multiset BlockPlace} (h : d.Forgets x)
    (hRequests : d.Requests d' added) : d'.Forgets x := by
  have hCount : d'.outstanding.count x = added.count x + d.outstanding.count x := by
    rw [count_outstanding, count_outstanding, hRequests.claims_eq, Multiset.count_add]
  have hStatus := hRequests.status?_eq x
  have hOnce := h.once
  by_cases hAdded : x ∈ added
  · have hFree := List.count_eq_zero_of_not_mem (h.unasked (hRequests.needed x hAdded))
    have hSingle := Multiset.nodup_iff_count_le_one.mp hRequests.nodup x
    refine ⟨fun hNeeded => ?_, by omega⟩
    rw [if_pos hAdded, hNeeded] at hStatus
    cases hStatus
  · have hNotAdded := Multiset.count_eq_zero.mpr hAdded
    rw [if_neg hAdded] at hStatus
    refine ⟨fun hNeeded hMem => ?_, by omega⟩
    have hPos := List.count_pos_iff.mpr hMem
    apply h.unasked (hStatus.symm.trans hNeeded)
    exact List.count_pos_iff.mp (by omega)

/-- Where requests stay as they are, a block is forgotten unless it becomes needed while it is
outstanding. -/
theorem Forgets.claims (h : d.Forgets x) (hClaims : d'.peers.claims = d.peers.claims)
    (hNeeded : d'.status? x = some .needed → d.status? x = some .needed ∨ x ∉ d.outstanding) :
    d'.Forgets x := by
  have hMem : x ∈ d'.outstanding ↔ x ∈ d.outstanding := by
    rw [mem_outstanding, mem_outstanding, hClaims]
  constructor
  · intro hNow
    rw [hMem]
    exact (hNeeded hNow).elim h.unasked id
  · rw [count_outstanding, hClaims, ← count_outstanding]
    exact h.once

theorem Unasked.numbered (h : d.Unasked) : d.Numbered := by
  intro fs hfs
  obtain ⟨blockSize, digests, hCut⟩ := h.cut fs hfs
  exact hCut.numbered

end Download

/-- Nothing is asked for when the content begins to be downloaded. -/
theorem PhaseId.unasked_of_enterData {c : PhaseConfig} {d d' : Download} {effects : List Effect}
    (h : enterData c d = .ok (d', effects)) : d'.Unasked := by
  obtain ⟨m, fs, -, hfs, rfl, -⟩ := enterData_eq_ok h
  constructor
  · rintro _ ⟨⟩
    exact ⟨_, _, FileSet.cutFrom_create (forTorrent_ok hfs)⟩
  · intro id p hFind
    rw [Roster.find?_map] at hFind
    obtain ⟨q, -, rfl⟩ := Option.map_eq_some_iff.mp hFind
    rfl

/-! ### Jobs -/

namespace FileSet

variable {fs : FileSet} {i b : Nat} {p : Piece} {x : BlockPlace}

/-- A block that is needed after one was marked as needed is that one, or it was needed before. -/
theorem needed_of_mark (hp : fs.pieces[i]? = some p)
    (h : (fs.setPiece i (p.mark b .needed)).status? x = some .needed) :
    fs.status? x = some .needed ∨ x = (i, b) ∧ ∃ block, p.blocks[b]? = some block := by
  cases hb : p.blocks[b]? with
  | some block =>
    rw [status?_mark hp hb] at h
    by_cases hx : x = (i, b)
    · exact .inr ⟨hx, block, rfl⟩
    · rw [if_neg hx] at h
      exact .inl h
  | none =>
    have hSame : p.mark b .needed = p := by
      rw [Piece.mark, List.modify_eq_self (List.getElem?_eq_none_iff.mp hb)]
    simp only [status?, getElem?_setPiece hp, hSame] at h ⊢
    split at h
    · next hx =>
      rw [hx, hp]
      exact .inl h
    · exact .inl h

end FileSet

namespace Job

variable {t t' : Torrent} {job : Job} {x : BlockPlace}

theorem Parts.claims (h : Parts t t') : t'.download.peers.claims = t.download.peers.claims := by
  induction h with
  | none => rfl
  | part _ hPart ih =>
    rcases hPart.peers with hSame | ⟨id, count, hSent⟩
    · rw [hSame, ih]
    · rw [hSent, ← ih]
      exact Roster.claims_update_of_pending _ id fun p => rfl
  | files _ tree ih => exact ih

theorem Parts.numbered (h : Parts t t') (hNumbered : t.download.Numbered) :
    t'.download.Numbered := by
  induction h with
  | none => exact hNumbered
  | part _ hPart ih => exact hPart.goesOn.numbered ih
  | files _ tree ih => exact ih

/-- The ways in which a run of a job makes a block needed. -/
inductive Reopens (t : Torrent) : Job → BlockPlace → Prop
  | misfit {kind : FileSetKind} {i b : Nat} {data : Bytes} {fs : FileSet} {p : Piece}
      {block : Block} (hfs : current? t.download kind = some fs) (hp : fs.pieces[i]? = some p)
      (hb : p.blocks[b]? = some block) (hSize : block.size ≠ data.length) :
      Reopens t (.store kind i b data) (i, b)
  | mismatch {kind : FileSetKind} {i : Nat} {fs : FileSet} {p : Piece} {block : Block}
      {bytes : Bytes} (h : StoredPiece t.download kind i fs p)
      (hRead : (readBack t fs p i).1 = .done bytes) (hDigest : sha1 bytes ≠ p.digest)
      (hb : p.blocks[p.mismatchCursor]? = some block) :
      Reopens t (.check kind i) (i, p.mismatchCursor)

variable {kind : FileSetKind} {i b : Nat} {data : Bytes}

theorem needed_of_store
    (h : (run (.store kind i b data) t).after.download.status? x = some .needed) :
    t.download.status? x = some .needed ∨ Reopens t (.store kind i b data) x := by
  by_cases hOpen : ∃ fs p block, OpenBlock t.download kind i b data.length fs p block
  · obtain ⟨fs, p, block, hOpen⟩ := hOpen
    have hStays : OpenBlock { t with tree := (written t fs p i b data).2.2 }.download kind i b
      data.length fs p block := hOpen
    have hSame := status?_setStorage { t with tree := (written t fs p i b data).2.2 }
      (written t fs p i b data).2.1 x
    rw [run_store_of_open hOpen] at h
    left
    cases hReply : (written t fs p i b data).1 with
    | done =>
      rw [hReply, finishStore, commitStore_eq (hStays.setStorage _)] at h
      have hRaised := FileSet.raised_mark hOpen.hasPiece hOpen.hasBlock
        (written t fs p i b data).2.1 (s := .stored) rfl
      rw [Download.status?, hOpen.fileSet]
      exact hRaised.status?_of_open h rfl
    | failed e =>
      rw [hReply] at h
      exact hSame.symm.trans h
    | crashed =>
      rw [hReply] at h
      exact hSame.symm.trans h
  · obtain ⟨d, ended, hPrepared, hRun⟩ := run_store_of_closed fun fs p block h =>
      hOpen ⟨fs, p, block, h⟩
    rw [hRun] at h
    obtain ⟨-, ⟨rfl, -⟩ | ⟨fs, p, hfs, hp, hMisfit, rfl⟩⟩ := prepareStore_error hPrepared
    · exact .inl h
    · rw [Download.status?, (current?_eq_some.mp hfs).1]
      rcases FileSet.needed_of_mark hp h with hNeeded | ⟨rfl, block, hb⟩
      · exact .inl hNeeded
      · refine .inr (.misfit hfs hp hb fun hSize => hMisfit ?_)
        exact Piece.checkBlock_eq_ok.mpr ⟨block, hb, hSize⟩

theorem needed_of_check
    (h : (run (.check kind i) t).after.download.status? x = some .needed) :
    t.download.status? x = some .needed ∨ Reopens t (.check kind i) x := by
  by_cases hStored : ∃ fs p, StoredPiece t.download kind i fs p
  · obtain ⟨fs, p, hStored⟩ := hStored
    have hAfter := hStored.setStorage (readBack t fs p i).2
    have hSame := status?_setStorage t (readBack t fs p i).2 x
    rw [run_check_of_stored hStored] at h
    cases hReply : (readBack t fs p i).1 with
    | done bytes =>
      rw [hReply, finishCheck, commitCheck_eq hAfter (Storage.length_read hReply)] at h
      rw [Download.status?, hStored.fileSet]
      by_cases hDigest : sha1 bytes = p.digest
      · simp only [if_pos hDigest, download_announcePiece] at h
        have hRaised := FileSet.raised_markVerified hStored.hasPiece (readBack t fs p i).2
        exact .inl (hRaised.status?_of_open h rfl)
      · simp only [if_neg hDigest] at h
        have hReopened := (FileSet.status?_reopen hAfter.hasPiece x).symm.trans h
        rcases FileSet.needed_of_mark hAfter.hasPiece hReopened with hNeeded | ⟨rfl, block, hb⟩
        · exact .inl hNeeded
        · exact .inr (.mismatch hStored hReply hDigest hb)
    | failed e =>
      rw [hReply, finishCheck, failCheck] at h
      left
      split at h
      · exact hSame.symm.trans h
      · exact hSame.symm.trans h
    | crashed =>
      rw [hReply] at h
      exact .inl (hSame.symm.trans h)
  · obtain ⟨d, ended, hPrepared, hRun⟩ := run_check_of_open fun fs p h => hStored ⟨fs, p, h⟩
    obtain ⟨-, rfl, -⟩ := prepareCheck_error hPrepared
    rw [hRun] at h
    exact .inl h

theorem status?_run_send (t : Torrent) (peer : PeerId) (line : LineId) (i offset length : Nat)
    (x : BlockPlace) : (run (.send peer line i offset length) t).after.download.status? x =
      t.download.status? x := by
  cases hPrepared : prepareSend t.download i offset length with
  | error e => rw [run_send_of_error hPrepared]
  | ok position =>
    obtain ⟨fs, -, hRun⟩ := run_send_of_ready hPrepared
    have hSame := status?_setStorage t (fs.storage.read t.tree position length).2 x
    rw [hRun]
    cases (fs.storage.read t.tree position length).1 with
    | done data =>
      simp only [finishSend, commitSend]
      split
      · exact hSame
      · exact hSame
    | failed e => exact hSame
    | crashed => exact hSame

/-- A job makes no other blocks needed. -/
theorem needed_of_run (h : (job.run t).after.download.status? x = some .needed) :
    t.download.status? x = some .needed ∨ job.Reopens t x := by
  cases job with
  | store kind i b data => exact needed_of_store h
  | check kind i => exact needed_of_check h
  | send peer line i offset length =>
    rw [status?_run_send] at h
    exact .inl h

/-- A job makes these blocks needed. -/
theorem Reopens.needed (h : job.Reopens t x) :
    (job.run t).after.download.status? x = some .needed := by
  cases h with
  | @misfit kind i b data fs p block hfs hp hb hSize =>
    have hMisfit :
        p.checkBlock b data.length = .error (.lengthMismatch block.size data.length) := by
      simp [Piece.checkBlock, Piece.block, hb, hSize]
    simp only [run, runStore, prepareStore, hfs, FileSet.piece_eq_ok.mpr hp, hMisfit]
    rw [Download.status?, Download.changeFileSet, (current?_eq_some.mp hfs).1]
    exact (FileSet.status?_mark hp hb .needed _).trans (if_pos rfl)
  | @mismatch kind i fs p block bytes hStored hRead hDigest hb =>
    have hAfter := hStored.setStorage (readBack t fs p i).2
    rw [run_check_of_stored hStored, hRead, finishCheck,
      commitCheck_eq hAfter (Storage.length_read hRead), if_neg hDigest]
    refine (FileSet.status?_reopen hAfter.hasPiece _).trans ?_
    exact (FileSet.status?_mark hAfter.hasPiece hb .needed _).trans (if_pos rfl)

end Job

/-! ### Sessions -/

/-- The waiting entry at a position of the queue, and the scheduler without it. -/
def Scheduler.take? {α : Type} (s : Scheduler α) (n : Nat) : Option (QueuedJob α × Scheduler α) :=
  s.queue.entries[n]?.map fun entry =>
    (entry, { s with queue := { s.queue with entries := s.queue.entries.eraseIdx n } })

namespace Session

/-- What happens to a session while it stays in its phase: input from a peer, a scheduling pass, the
beginning or the end of a check of the disk, one run of a waiting job, the return of jobs that were
put off, or a change of what the torrent is in. -/
inductive Move
  | command (now : Time) (c : Command)
  | pass (relevant : List PeerId) (now : Time)
  | beginVerify
  | endVerify
  | work (n : Nat)
  | elapse (now : Time)
  | surroundings (network : Network) (events : Channel Event) (tree : FileTree)

/-- The session after a move. -/
def after (s : Session) : Move → Session
  | .command now c => s.command now c
  | .pass relevant now => s.pass relevant now
  | .beginVerify =>
    match Job.current? s.download .data with
    | none => s
    | some fs => s.beginVerify fs
  | .endVerify =>
    match s.download.fileSet with
    | none => s
    | some fs => s.dropUnverified fs
  | .work n =>
    match s.engine.scheduler.take? n with
    | none => s
    | some (entry, rest) => World.settleRun s rest entry (entry.job.run s.engine.torrent)
  | .elapse now =>
    s.changeEngine fun e => { e with scheduler := { e.scheduler with now }.wake }
  | .surroundings network events tree =>
    s.changeEngine fun e => { e with torrent := { e.torrent with network, events, tree } }

/-- The session after moves in order. -/
def run (s : Session) (moves : List Move) : Session := moves.foldl after s

/-- The moves that make a block needed and leave the requests for it where they are. -/
inductive Reopens (s : Session) : Move → BlockPlace → Prop
  | work {n : Nat} {entry : QueuedJob Job} {rest : Scheduler Job} {x : BlockPlace}
      (hTake : s.engine.scheduler.take? n = some (entry, rest))
      (h : entry.job.Reopens s.engine.torrent x) : Reopens s (.work n) x
  | endVerify {fs : FileSet} {i b : Nat} {p : Piece} {block : Block}
      (hfs : s.download.fileSet = some fs) (hp : fs.pieces[i]? = some p)
      (hOpen : p.isDone = false) (hb : p.blocks[b]? = some block) : Reopens s .endVerify (i, b)

variable {s : Session} {move : Move} {x : BlockPlace}

theorem download_command (s : Session) (now : Time) (c : Command) :
    (s.command now c).download = (s.download.handle now c).1 := by
  simp only [command, Engine.handle]
  cases hHandle : s.engine.download.handle now c with
  | mk d result =>
    have hSame : (s.download.handle now c).1 = d := congrArg Prod.fst hHandle
    rw [hSame]
    cases result with
    | error e => rfl
    | ok effects => exact Engine.download_carryOutAll (s.engine.setDownload d) effects

theorem download_pass (s : Session) (relevant : List PeerId) (now : Time) :
    (s.pass relevant now).download = (s.download.tick relevant now).1 :=
  Engine.download_carryOutAll (s.engine.setDownload (s.download.tick relevant now).1)
    (s.download.tick relevant now).2

theorem after_beginVerify {fs : FileSet} (h : Job.current? s.download .data = some fs) :
    s.after .beginVerify = s.beginVerify fs := by
  simp only [after, h]

theorem after_endVerify {fs : FileSet} (h : s.download.fileSet = some fs) :
    s.after .endVerify = s.dropUnverified fs := by
  simp only [after, h]

theorem after_work {n : Nat} {entry : QueuedJob Job} {rest : Scheduler Job}
    (h : s.engine.scheduler.take? n = some (entry, rest)) :
    s.after (.work n) = World.settleRun s rest entry (entry.job.run s.engine.torrent) := by
  simp only [after, h]

theorem status?_setUnverified {fs : FileSet} {i : Nat} {p : Piece} (hp : fs.pieces[i]? = some p)
    (status : BlockStatus) (b : Nat) :
    (setUnverified status fs).status? (i, b) =
      if p.isDone then fs.status? (i, b) else (p.blocks[b]?).map fun _ => status := by
  simp only [FileSet.status?, getElem?_setUnverified, hp, Option.map_some, Option.bind_some]
  split
  · rfl
  · simp [Piece.status?, setAll, Function.comp_def]

theorem needed_of_setUnverified {fs : FileSet} {status : BlockStatus}
    (h : (setUnverified status fs).status? x = some .needed) :
    fs.status? x = some .needed ∨ status = .needed ∧ ∃ p block, fs.pieces[x.1]? = some p ∧
      p.isDone = false ∧ p.blocks[x.2]? = some block := by
  obtain ⟨i, b⟩ := x
  cases hp : fs.pieces[i]? with
  | none =>
    rw [FileSet.status?, getElem?_setUnverified, hp] at h
    cases h
  | some p =>
    rw [status?_setUnverified hp] at h
    cases hDone : p.isDone with
    | true =>
      rw [hDone, if_pos rfl] at h
      exact .inl h
    | false =>
      rw [hDone, if_neg Bool.false_ne_true] at h
      obtain ⟨block, hb, hStatus⟩ := Option.map_eq_some_iff.mp h
      exact .inr ⟨hStatus, p, block, rfl, hDone, hb⟩

/-! #### One move -/

/-- A move that leaves all requests as they are, and makes no blocks needed but those that it
reopens. -/
structure Silent (s : Session) (move : Move) : Prop where
  claims : (s.after move).download.peers.claims = s.download.peers.claims
  numbered : s.download.Numbered → (s.after move).download.Numbered
  needed : ∀ x, (s.after move).download.status? x = some .needed →
    s.download.status? x = some .needed ∨ s.Reopens move x

theorem silent_of_eq (h : (s.after move).download = s.download) : s.Silent move := by
  constructor
  · rw [h]
  · rw [h]
    exact id
  · rw [h]
    exact fun x hNeeded => .inl hNeeded

theorem silent_beginVerify (s : Session) : s.Silent .beginVerify := by
  cases hCurrent : Job.current? s.download .data with
  | none =>
    apply silent_of_eq
    simp only [after, hCurrent]
  | some fs =>
    have hfs := (Job.current?_eq_some.mp hCurrent).1
    have hDownload := download_beginVerify s fs
    rw [← after_beginVerify hCurrent] at hDownload
    constructor
    · rw [hDownload]
    · rw [hDownload]
      rintro hNumbered _ ⟨⟩
      exact (hNumbered fs hfs).outlines (sameCut_setUnverified .stored fs).outlines_eq
    · intro x hNeeded
      rw [hDownload] at hNeeded
      rw [Download.status?, hfs]
      -- the blocks of unverified pieces are stored now
      rcases needed_of_setUnverified hNeeded with hBefore | ⟨hMarked, -⟩
      · exact .inl hBefore
      · cases hMarked

theorem silent_endVerify (s : Session) : s.Silent .endVerify := by
  cases hfs : s.download.fileSet with
  | none =>
    apply silent_of_eq
    simp only [after, hfs]
  | some fs =>
    have hDownload : (s.after .endVerify).download =
        { s.download with fileSet := some (setUnverified .needed fs) } := by
      rw [after_endVerify hfs]
      rfl
    constructor
    · rw [hDownload]
    · rw [hDownload]
      rintro hNumbered _ ⟨⟩
      exact (hNumbered fs hfs).outlines (sameCut_setUnverified .needed fs).outlines_eq
    · intro x hNeeded
      rw [hDownload] at hNeeded
      rw [Download.status?, hfs]
      rcases needed_of_setUnverified hNeeded with hBefore | ⟨-, p, block, hp, hOpen, hb⟩
      · exact .inl hBefore
      · exact .inr (.endVerify hfs hp hOpen hb)

theorem silent_work (s : Session) (n : Nat) : s.Silent (.work n) := by
  cases hTake : s.engine.scheduler.take? n with
  | none =>
    apply silent_of_eq
    simp only [after, hTake]
  | some taken =>
    obtain ⟨entry, rest⟩ := taken
    have hDownload : (s.after (.work n)).download =
        (entry.job.run s.engine.torrent).after.download := by
      rw [after_work hTake]
      rfl
    have hParts := Job.parts_run entry.job s.engine.torrent
    constructor
    · rw [hDownload]
      exact hParts.claims
    · rw [hDownload]
      exact hParts.numbered
    · intro x hNeeded
      rw [hDownload] at hNeeded
      rcases Job.needed_of_run hNeeded with hBefore | hReopens
      · exact .inl hBefore
      · exact .inr (.work hTake hReopens)

/-- Only input and passes have to do with requests. -/
theorem silent_or (s : Session) (move : Move) :
    (∃ now c, move = .command now c) ∨ (∃ relevant now, move = .pass relevant now) ∨
      s.Silent move := by
  cases move with
  | command now c => exact .inl ⟨now, c, rfl⟩
  | pass relevant now => exact .inr (.inl ⟨relevant, now, rfl⟩)
  | beginVerify => exact .inr (.inr (silent_beginVerify s))
  | endVerify => exact .inr (.inr (silent_endVerify s))
  | work n => exact .inr (.inr (silent_work s n))
  | elapse now => exact .inr (.inr (silent_of_eq rfl))
  | surroundings network events tree => exact .inr (.inr (silent_of_eq rfl))

theorem numbered_after (h : s.download.Numbered) (move : Move) :
    (s.after move).download.Numbered := by
  rcases silent_or s move with ⟨now, c, rfl⟩ | ⟨relevant, now, rfl⟩ | hSilent
  · rw [after, download_command]
    exact (Download.goesOn_of_core (Download.core_handle s.download now c)).numbered h
  · rw [after, download_pass]
    exact (Download.goesOn_of_core (Download.core_tick s.download relevant now)).numbered h
  · exact hSilent.numbered h

/-- A block stays forgotten unless a move reopens it while it is outstanding. -/
theorem forgets_after (hNumbered : s.download.Numbered) (h : s.download.Forgets x)
    (hFree : s.Reopens move x → x ∉ s.download.outstanding) :
    (s.after move).download.Forgets x := by
  rcases silent_or s move with ⟨now, c, rfl⟩ | ⟨relevant, now, rfl⟩ | hSilent
  · obtain ⟨given, hAnswers⟩ := Download.handle_answers s.download now c
    rw [after, download_command]
    exact h.drops hAnswers.drops
  · obtain ⟨added, hRequests⟩ := Download.tick_requests relevant now hNumbered
    rw [after, download_pass]
    exact h.requests hRequests
  · exact h.claims hSilent.claims fun hNeeded => (hSilent.needed x hNeeded).imp_right hFree

theorem Reopens.needed (h : s.Reopens move x) :
    (s.after move).download.status? x = some .needed := by
  cases h with
  | work hTake h =>
    rw [after_work hTake]
    exact h.needed
  | @endVerify fs i b p block hfs hp hOpen hb =>
    rw [after_endVerify hfs]
    show (setUnverified .needed fs).status? (i, b) = some .needed
    rw [status?_setUnverified hp, hOpen, hb]
    rfl

/-- A block that is reopened while it is outstanding is not forgotten. -/
theorem Reopens.not_forgets (h : s.Reopens move x) (hOutstanding : x ∈ s.download.outstanding) :
    ¬ (s.after move).download.Forgets x := by
  intro hForgets
  apply hForgets.unasked h.needed
  have hSilent : s.Silent move := by
    cases h with
    | work => exact silent_work s _
    | endVerify => exact silent_endVerify s
  rw [Download.mem_outstanding, hSilent.claims]
  exact Download.mem_outstanding.mp hOutstanding

/-! #### Whole operations

In a phase that is not done, a tick and the end of a check of the disk are single moves. -/

theorem tick_of_not_done (h : s.phase.isDone s.download = false) (now : Time) :
    s.tick now = (s.after (.pass (s.phase.relevantPeers s.download) now), .ok ()) := by
  rw [tick, advance, advanceUpTo_of_not_done h]
  rfl

theorem endVerify_of_not_done
    (h : s.phase.isDone (s.after .endVerify).download = false) :
    s.endVerify.1 = s.after .endVerify := by
  cases hfs : s.download.fileSet with
  | none => simp only [endVerify, after, hfs]
  | some fs =>
    rw [after_endVerify hfs] at h ⊢
    have hStays : (s.dropUnverified fs).advance = (s.dropUnverified fs, .ok ()) :=
      advanceUpTo_of_not_done h changeLimit
    simp only [endVerify, hfs, hStays]

/-! #### Runs -/

theorem run_take_succ {moves : List Move} {n : Nat} (h : moves[n]? = some move) :
    s.run (moves.take (n + 1)) = (s.run (moves.take n)).after move := by
  rw [List.take_add_one, h, run, List.foldl_append]
  rfl

theorem numbered_run (h : s.download.Numbered) (moves : List Move) :
    (s.run moves).download.Numbered := by
  induction moves generalizing s with
  | nil => exact h
  | cons move rest ih => exact ih (numbered_after h move)

/-- In a session in which nothing is asked for at first, a block is forgotten all the time just if
no move reopens it while it is outstanding. -/
theorem forgets_iff (h : s.download.Unasked) (moves : List Move) (x : BlockPlace) :
    (∀ n, (s.run (moves.take n)).download.Forgets x) ↔
      ∀ n move, moves[n]? = some move → (s.run (moves.take n)).Reopens move x →
        x ∉ (s.run (moves.take n)).download.outstanding := by
  constructor
  · intro hForgets n move hMove hReopens hOutstanding
    have hAfter := hForgets (n + 1)
    rw [run_take_succ hMove] at hAfter
    exact hReopens.not_forgets hOutstanding hAfter
  · intro hFree n
    induction n with
    | zero => exact Download.forgets_of_noPending h.noPending
    | succ n ih =>
      cases hMove : moves[n]? with
      | some move =>
        rw [run_take_succ hMove]
        exact forgets_after (numbered_run h.numbered _) ih (hFree n move hMove)
      | none =>
        have hEnd := List.getElem?_eq_none_iff.mp hMove
        rw [List.take_of_length_le (by omega)]
        rwa [List.take_of_length_le hEnd] at ih

/-! ### A block of wrong bytes

A peer is asked for the only block of a torrent. Before it answers, another one sends the block with
bytes that the torrent does not have, and the check of the piece opens the block again. -/

/-- A session that downloads one block. -/
def oneBlockSession : Session :=
  { engine := { torrent :=
      { download := Trail.oneBlock
        events := { capacity := 0 }
        tree := { home := [] } } }
    chain := .standard World.oneByteConfig
    phase := .data }

def intruded : List Move :=
  [.command 0 (.connect "p" 0 none), .command 0 (.holds "p" 0), .command 0 (.unchoke "p"),
    .pass ["p"] 0, .command 0 (.connect "q" 1 none), .command 0 (.block "q" 0 0 [1, 2, 3, 4]),
    .work 0, .work 0, .pass ["p"] 0]

/-- The peer is asked for the block twice, so some move has reopened the block while it was
outstanding. -/
theorem reopens_intruded :
    (oneBlockSession.run intruded).download.outstanding = [(0, 0), (0, 0)] ∧
      ∃ n move, intruded[n]? = some move ∧
        (oneBlockSession.run (intruded.take n)).Reopens move (0, 0) ∧
        (0, 0) ∈ (oneBlockSession.run (intruded.take n)).download.outstanding := by
  have hCreated : FileSet.create .data 4 4 [Digest.zero] 4 (.memory [0, 0, 0, 0]) = .ok
      { kind := .data, pieceLength := 4, totalLength := 4
        pieces := FileSet.cut 4 4 4 [Digest.zero], storage := .memory [0, 0, 0, 0] } := rfl
  have hUnasked : oneBlockSession.download.Unasked := by
    constructor
    · rintro _ ⟨⟩
      exact ⟨4, _, FileSet.cutFrom_create hCreated⟩
    · exact nofun
  have hTwice : (oneBlockSession.run intruded).download.outstanding = [(0, 0), (0, 0)] := by
    decide +kernel
  refine ⟨hTwice, ?_⟩
  by_contra hNone
  have hForgets := (forgets_iff hUnasked intruded (0, 0)).mpr
    fun n move hMove hReopens hMem => hNone ⟨n, move, hMove, hReopens, hMem⟩
  have hOnce := (hForgets 9).once
  rw [List.take_of_length_le (by decide), hTwice] at hOnce
  revert hOnce
  decide

end Session

end TorrentEngine
