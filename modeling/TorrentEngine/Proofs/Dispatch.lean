import TorrentEngine.Proofs.Frame
import TorrentEngine.Proofs.Worker

/-!
Runs in which effects take time. A dispatch is a session with the effects that it has still to carry
out; input, scheduling passes and phase changes wait until there are none, while jobs do their parts
and peers read their lines in between. A run is the list of the states passed through. Whatever a
session does in one go is such a run, and all that happens apart from phase changes goes on with the
same file set.
-/

namespace TorrentEngine

namespace Job

/-- The parts of jobs between which other things happen: before the call to the storage, the call
itself, and after it, whatever its reply. -/
inductive Part (t : Torrent) : Torrent → Prop
  | prepareStore (kind : FileSetKind) (i block length : Nat) :
      Part t { t with download := (prepareStore t.download kind i block length).1 }
  | finishStore (kind : FileSetKind) (i block length : Nat) (reply : Reply Unit) :
      Part t (finishStore t kind i block length reply).after
  | prepareCheck (kind : FileSetKind) (i : Nat) :
      Part t { t with download := (prepareCheck t.download kind i).1 }
  | finishCheck (kind : FileSetKind) (i : Nat) (reply : Reply Bytes) :
      Part t (finishCheck t kind i reply).after
  | finishSend (peer : PeerId) (line : LineId) (i offset : Nat) (reply : Reply Bytes) :
      Part t (finishSend t peer line i offset reply).after
  | call (s : Storage) : Part t (t.setStorage s)

/-- Parts of jobs one after the other, between which the files may change. -/
inductive Parts (t : Torrent) : Torrent → Prop
  | none : Parts t t
  | part {t' t'' : Torrent} (h : Parts t t') (hPart : Part t' t'') : Parts t t''
  | files {t' : Torrent} (h : Parts t t') (tree : FileTree) : Parts t { t' with tree }

/-- One run of a job is made of its parts. -/
theorem parts_run (job : Job) (t : Torrent) : Parts t (job.run t).after := by
  cases job with
  | store kind i block data =>
    have hPrepared := (Parts.none (t := t)).part (.prepareStore kind i block data.length)
    simp only [run, runStore]
    split
    · next d ended hSettled =>
      rw [hSettled] at hPrepared
      exact hPrepared
    · next d offset hSettled =>
      rw [hSettled] at hPrepared
      split
      · exact hPrepared
      · exact ((hPrepared.files _).part (.call _)).part (.finishStore ..)
  | check kind i =>
    have hPrepared := (Parts.none (t := t)).part (.prepareCheck kind i)
    simp only [run, runCheck]
    split
    · next d ended hSettled =>
      rw [hSettled] at hPrepared
      exact hPrepared
    · next d offset length hSettled =>
      rw [hSettled] at hPrepared
      split
      · exact hPrepared
      · exact (hPrepared.part (.call _)).part (.finishCheck ..)
  | send peer line i offset length =>
    simp only [run, runSend]
    split
    · exact .none
    · split
      · exact .none
      · exact (Parts.none.part (.call _)).part (.finishSend ..)

end Job

/-! ### Going on with the same file set -/

namespace Download

/-- `d'` goes on with what `d` works on. Metadata that are new in it have the digest that a piece of
the metadata is to have. -/
structure GoesOn (d d' : Download) : Prop where
  infoHash_eq : d'.infoHash = d.infoHash
  metainfo_eq : d'.metainfo = d.metainfo
  fileSet : Option.Rel FileSet.SameCut d.fileSet d'.fileSet
  metadataBytes : d'.metadataBytes = d.metadataBytes ∨ ∃ fs p data, d.fileSet = some fs ∧
    fs.kind = .metadata ∧ p ∈ fs.pieces ∧ d'.metadataBytes = some data ∧ sha1 data = p.digest

variable {d d' : Download}

theorem rel_sameCut_refl (fs? : Option FileSet) : Option.Rel FileSet.SameCut fs? fs? := by
  cases fs? with
  | none => exact .none
  | some fs => exact .some (.refl fs)

theorem GoesOn.exists_after (h : d.GoesOn d') {fs : FileSet} (hfs : d.fileSet = some fs) :
    ∃ fs', d'.fileSet = some fs' ∧ fs.SameCut fs' := by
  have hRel := h.fileSet
  rw [hfs] at hRel
  generalize d'.fileSet = fs? at hRel
  cases hRel with
  | some hCut => exact ⟨_, rfl, hCut⟩

theorem GoesOn.exists_before (h : d.GoesOn d') {fs' : FileSet} (hfs' : d'.fileSet = some fs') :
    ∃ fs, d.fileSet = some fs ∧ fs.SameCut fs' := by
  have hRel := h.fileSet
  rw [hfs'] at hRel
  generalize d.fileSet = fs? at hRel
  cases hRel with
  | some hCut => exact ⟨_, rfl, hCut⟩

theorem goesOn_of_core (h : d'.core = d.core) : d.GoesOn d' := by
  have hHash := congrArg Download.infoHash h
  have hMetainfo := congrArg Download.metainfo h
  have hBytes := congrArg Download.metadataBytes h
  refine ⟨hHash, hMetainfo, ?_, .inl hBytes⟩
  cases hfs : d.fileSet with
  | none =>
    cases hfs' : d'.fileSet with
    | none => exact .none
    | some fs' =>
      obtain ⟨fs, hSome, -⟩ := fileSet_of_core h hfs'
      rw [hfs] at hSome
      cases hSome
  | some fs =>
    obtain ⟨fs', hfs', hSettled⟩ := fileSet_of_core h.symm hfs
    rw [hfs']
    exact .some (FileSet.sameCut_of_settled hSettled.symm)

/-- The file set may give way to one of the same cut. -/
theorem goesOn_changeFileSet {f : FileSet → FileSet}
    (h : ∀ fs, d.fileSet = some fs → fs.SameCut (f fs)) (pendingChecks : Nat) :
    d.GoesOn { d.changeFileSet f with pendingChecks } := by
  refine ⟨rfl, rfl, ?_, .inl rfl⟩
  cases hfs : d.fileSet with
  | none => simp [changeFileSet, hfs]
  | some fs => simpa [changeFileSet, hfs] using h fs hfs

theorem goesOn_endCheck (d : Download) : d.GoesOn d.endCheck :=
  ⟨rfl, rfl, rel_sameCut_refl _, .inl rfl⟩

end Download

namespace Job

variable {t t' : Torrent} {kind : FileSetKind} {i : Nat}

theorem goesOn_prepareStore (d : Download) (kind : FileSetKind) (i block length : Nat) :
    d.GoesOn (prepareStore d kind i block length).1 := by
  cases hPrepared : prepareStore d kind i block length with
  | mk d' result =>
    cases result with
    | ok offset =>
      obtain ⟨rfl, -⟩ := prepareStore_ok hPrepared
      exact Download.goesOn_of_core rfl
    | error ended =>
      obtain ⟨-, ⟨rfl, -⟩ | ⟨fs, p, hfs, hp, -, rfl⟩⟩ := prepareStore_error hPrepared
      · exact Download.goesOn_of_core rfl
      · have hCut : fs.SameCut (fs.setPiece i (p.mark block .needed)) :=
          FileSet.sameCut_setPiece hp (Piece.outline_mark ..) (by simp [Piece.mark])
        exact ⟨rfl, rfl, (current?_eq_some.mp hfs).1 ▸ .some hCut, .inl rfl⟩

/-- A piece of the current file set may give way to one cut like it. -/
theorem goesOn_setPiece {d : Download} {fs : FileSet} {p q : Piece} (hfs : d.fileSet = some fs)
    (hp : fs.pieces[i]? = some p) (hOutline : q.outline = p.outline)
    (hCursor : p.mismatchCursor < p.blocks.length → q.mismatchCursor < q.blocks.length)
    (pendingChecks : Nat) :
    d.GoesOn { d.changeFileSet (·.setPiece i q) with pendingChecks } := by
  apply Download.goesOn_changeFileSet
  intro fs' hfs'
  obtain rfl := Option.some.inj (hfs.symm.trans hfs')
  exact FileSet.sameCut_setPiece hp hOutline hCursor

/-- Storing marks a block. -/
theorem store_eq_ok {p q : Piece} {block length : Nat} (h : p.store block length = .ok q) :
    q = p.mark block .stored := by
  simp only [Piece.store, Piece.setStatus] at h
  split at h
  · cases h
  · split at h
    · exact (Except.ok.inj h).symm
    · cases h

theorem piece_of_current {d : Download} {p : Piece}
    (h : (current? d kind).bind (·.piece? i) = some p) :
    ∃ fs, d.fileSet = some fs ∧ fs.kind = kind ∧ fs.pieces[i]? = some p := by
  obtain ⟨fs, hCurrent, hp⟩ := Option.bind_eq_some_iff.mp h
  obtain ⟨hfs, hKind⟩ := current?_eq_some.mp hCurrent
  exact ⟨fs, hfs, hKind, hp⟩

theorem goesOn_commitStore (t : Torrent) (kind : FileSetKind) (i block length : Nat) :
    t.download.GoesOn (commitStore t kind i block length).after.download := by
  simp only [commitStore]
  split
  · exact Download.goesOn_of_core rfl
  · next p hFound =>
    obtain ⟨fs, hfs, -, hp⟩ := piece_of_current hFound
    split
    · exact Download.goesOn_of_core rfl
    · next q hStored =>
      obtain rfl := store_eq_ok hStored
      split <;> exact goesOn_setPiece hfs hp (Piece.outline_mark ..) (by simp [Piece.mark]) _

theorem checkDigest_eq_true {p q : Piece} {data : Bytes} (h : p.checkDigest data = .ok (true, q)) :
    q = p.markVerified ∧ sha1 data = p.digest := by
  simp only [Piece.checkDigest] at h
  split at h
  · cases h
  · split at h
    · cases h
    · split at h
      · next hDigest =>
        obtain ⟨-, rfl⟩ := Prod.mk.inj (Except.ok.inj h)
        exact ⟨rfl, hDigest⟩
      · cases h

theorem checkDigest_eq_false {p q : Piece} {data : Bytes}
    (h : p.checkDigest data = .ok (false, q)) : q = p := by
  simp only [Piece.checkDigest] at h
  split at h
  · cases h
  · split at h
    · cases h
    · split at h
      · cases h
      · obtain ⟨-, rfl⟩ := Prod.mk.inj (Except.ok.inj h)
        rfl

theorem goesOn_commitCheck (t : Torrent) (kind : FileSetKind) (i : Nat) (data : Bytes) :
    t.download.GoesOn (commitCheck t kind i data).after.download := by
  simp only [commitCheck]
  split
  · exact Download.goesOn_endCheck _
  · next p hFound =>
    obtain ⟨fs, hfs, hKind, hp⟩ := piece_of_current hFound
    change t.download.fileSet = some fs at hfs
    split
    · exact Download.goesOn_endCheck _
    · next q hChecked =>
      obtain ⟨rfl, hDigest⟩ := checkDigest_eq_true hChecked
      have hSet := goesOn_setPiece hfs hp (Piece.outline_markVerified p) (by
        simp [Piece.markVerified]) (t.download.pendingChecks - 1)
      dsimp only
      rw [download_announcePiece]
      refine ⟨rfl, rfl, hSet.fileSet, ?_⟩
      cases kind with
      | metadata => exact .inr ⟨fs, p, data, hfs, hKind, List.mem_of_getElem? hp, rfl, hDigest⟩
      | data => exact .inl rfl
    · next q hChecked =>
      obtain rfl := checkDigest_eq_false hChecked
      exact goesOn_setPiece hfs hp (Piece.outline_reopen _) Piece.reopen_cursor_lt _

theorem goesOn_prepareCheck (d : Download) (kind : FileSetKind) (i : Nat) :
    d.GoesOn (prepareCheck d kind i).1 := by
  simp only [prepareCheck]
  split
  · exact Download.goesOn_endCheck d
  · split
    · exact Download.goesOn_endCheck d
    · split
      · exact Download.goesOn_of_core rfl
      · exact Download.goesOn_endCheck d

/-- A part of a job goes on with what the torrent works on. -/
theorem Part.goesOn (h : Part t t') : t.download.GoesOn t'.download := by
  cases h with
  | prepareStore kind i block length => exact goesOn_prepareStore ..
  | finishStore kind i block length reply =>
    cases reply with
    | done => exact goesOn_commitStore ..
    | failed e => exact Download.goesOn_of_core rfl
    | crashed => exact Download.goesOn_of_core rfl
  | prepareCheck kind i => exact goesOn_prepareCheck ..
  | finishCheck kind i reply =>
    cases reply with
    | done data => exact goesOn_commitCheck ..
    | failed e =>
      simp only [Job.finishCheck, failCheck]
      split
      · exact Download.goesOn_of_core rfl
      · exact Download.goesOn_endCheck _
    | crashed => exact Download.goesOn_of_core rfl
  | finishSend peer line i offset reply =>
    cases reply with
    | done data =>
      simp only [Job.finishSend, commitSend]
      split
      · exact Download.goesOn_of_core rfl
      · exact Download.goesOn_of_core rfl
    | failed e => exact Download.goesOn_of_core rfl
    | crashed => exact Download.goesOn_of_core rfl
  | call s =>
    have hSame (fs : FileSet) : fs.SameCut { fs with storage := s } := ⟨rfl, rfl, rfl, rfl, id⟩
    exact Download.goesOn_changeFileSet (fun fs _ => hSame fs) t.download.pendingChecks

end Job

namespace Download

variable {d d' : Download} {effects : List Effect} {effect : Effect}

theorem takeBlock_stores {fs : FileSet} {now : Time} {id : PeerId} {i b : Nat} {data : Bytes}
    (h : d.takeBlock fs now id i b data = (d', .ok effects)) :
    ∀ effect ∈ effects, effect = .store fs.kind i b data := by
  simp only [takeBlock] at h
  split at h
  · cases h
  · split at h
    · cases h
    · split at h
      · cases h
        simp
      · cases h
        simp

/-- Input from a peer calls for a block to be stored or sent, if for anything. -/
theorem handle_effect {now : Time} {c : Command} (h : d.handle now c = (d', .ok effects))
    (hEffect : effect ∈ effects) : (∃ kind i b data, effect = .store kind i b data) ∨
      ∃ id i offset length, effect = .upload id i offset length := by
  cases c with
  | block id i offset data =>
    simp only [handle] at h
    split at h
    · cases h
      cases hEffect
    · split at h
      · cases h
      · exact .inl ⟨_, _, _, _, takeBlock_stores h effect hEffect⟩
  | metadataBlock id b data =>
    simp only [handle] at h
    split at h
    · cases h
      cases hEffect
    · exact .inl ⟨_, _, _, _, takeBlock_stores h effect hEffect⟩
  | requestUpload id i offset length =>
    simp only [handle] at h
    split at h
    · cases h
      exact .inr ⟨_, _, _, _, List.mem_singleton.mp hEffect⟩
    · cases h
      cases hEffect
  | _ =>
    cases h
    cases hEffect

end Download

theorem Session.download_beginVerify (s : Session) (fs : FileSet) :
    (s.beginVerify fs).download =
      { s.download with
        fileSet := some (setUnverified .stored fs)
        pendingChecks := s.download.pendingChecks + (unverified fs).length } :=
  (World.bag_submitChecks _ (unverified fs)).2

/-! ### Effects that take time -/

/-- A session and the effects that it has still to carry out. -/
structure Dispatch where
  session : Session
  outbox : List Effect := []

namespace Dispatch

def torrent (k : Dispatch) : Torrent := k.session.engine.torrent

def download (k : Dispatch) : Download := k.session.download

def changeEngine (k : Dispatch) (f : Engine → Engine) : Dispatch :=
  { k with session := k.session.changeEngine f }

/-- The dispatch after input from a peer. Input that is refused calls for nothing. -/
def commanded (k : Dispatch) (now : Time) (c : Command) : Dispatch :=
  let (e, result) := k.session.engine.handle now c
  { session := { k.session with engine := e }, outbox := result.toOption.getD [] }

/-- The dispatch after a scheduling pass over the peers named. -/
def passed (k : Dispatch) (relevant : List PeerId) (now : Time) : Dispatch :=
  let (e, effects) := k.session.engine.tick relevant now
  { session := { k.session with engine := e }, outbox := effects }

/-- The dispatch after an attempt to go on to the next phase. The effects of one that failed are not
carried out. -/
def advanced (k : Dispatch) : Dispatch :=
  let (d, effects, result) := k.session.chain.advance k.session.phase k.session.download
  let changed := k.session.changeEngine (·.setDownload d)
  match result with
  | .failed _ => { session := changed }
  | .stay => { session := changed, outbox := effects }
  | .moved phase => { session := { changed with phase }, outbox := effects }

/-- The dispatch after an effect was carried out, with `rest` left to do. -/
def carried (k : Dispatch) (effect : Effect) (rest : List Effect) : Dispatch :=
  { session := k.session.changeEngine (·.carryOut effect), outbox := rest }

/-- What happens next: one effect of the outbox is carried out, or a part of a job is done, or all
that a torrent is in changes; and once the outbox is empty the session takes input, makes a pass,
goes on along its chain, or begins or ends a check of the disk. -/
inductive Step (k : Dispatch) : Dispatch → Prop
  | command (hIdle : k.outbox = []) (now : Time) (c : Command) : Step k (k.commanded now c)
  | pass (hIdle : k.outbox = []) (relevant : List PeerId) (now : Time) :
      Step k (k.passed relevant now)
  | advance (hIdle : k.outbox = []) : Step k k.advanced
  | beginVerify (hIdle : k.outbox = []) {fs : FileSet}
      (h : Job.current? k.download .data = some fs) :
      Step k { k with session := k.session.beginVerify fs }
  | endVerify (hIdle : k.outbox = []) {fs : FileSet} (h : k.download.fileSet = some fs) :
      Step k { k with session := k.session.dropUnverified fs }
  | carry {effect : Effect} {rest : List Effect} (h : k.outbox = effect :: rest) :
      Step k (k.carried effect rest)
  | part {t : Torrent} (h : Job.Part k.torrent t) :
      Step k (k.changeEngine fun e => { e with torrent := t })
  | meanwhile (network : Network) (events : Channel Event) (tree : FileTree)
      (scheduler : Scheduler Job) :
      Step k (k.changeEngine fun e =>
        { torrent := { e.torrent with network, events, tree }, scheduler })

/-- The states that a run has passed through, the latest first. -/
inductive Run (k₀ : Dispatch) : List Dispatch → Prop
  | start : Run k₀ [k₀]
  | step {k k' : Dispatch} {past : List Dispatch} (h : Run k₀ (k :: past)) (hStep : Step k k') :
      Run k₀ (k' :: k :: past)

/-- Some run comes from `k₀` to `k`. -/
def Reaches (k₀ k : Dispatch) : Prop := ∃ past, Run k₀ (k :: past)

variable {k₀ k k' : Dispatch}

/-- What holds at the start and is kept by every step holds at the end. -/
theorem Reaches.invariant {inv : Dispatch → Prop} (h : k₀.Reaches k) (hStart : inv k₀)
    (hStep : ∀ k k', inv k → Step k k' → inv k') : inv k := by
  obtain ⟨past, hRun⟩ := h
  generalize hStates : k :: past = states at hRun
  induction hRun generalizing k past with
  | start =>
    cases hStates
    exact hStart
  | step _ hNext ih =>
    cases hStates
    exact hStep _ _ (ih _ rfl) hNext

/-! ### Steps without a phase change -/

/-- `k'` goes on with what `k` works on in the same phase, and has nothing more to save. -/
structure GoesOn (k k' : Dispatch) : Prop where
  chain_eq : k'.session.chain = k.session.chain
  phase_eq : k'.session.phase = k.session.phase
  download : k.download.GoesOn k'.download
  saves : ∀ path bytes, .persist path bytes ∈ k'.outbox → .persist path bytes ∈ k.outbox

/-- Input calls for blocks to be stored or sent, if for anything. -/
theorem commanded_effect {now : Time} {c : Command} {effect : Effect}
    (hEffect : effect ∈ (k.commanded now c).outbox) :
    (∃ kind i b data, effect = .store kind i b data) ∨
      ∃ id i offset length, effect = .upload id i offset length := by
  cases hHandle : k.download.handle now c with
  | mk d result =>
    have hEngine : k.session.engine.handle now c = (k.session.engine.setDownload d, result) := by
      simp only [Engine.handle]
      rw [show k.session.engine.download = k.download from rfl, hHandle]
    rw [commanded, hEngine] at hEffect
    cases result with
    | error e => cases hEffect
    | ok effects => exact Download.handle_effect hHandle hEffect

theorem goesOn_commanded (k : Dispatch) (now : Time) (c : Command) :
    k.GoesOn (k.commanded now c) := by
  have hCore := Download.core_handle k.download now c
  refine ⟨rfl, rfl, Download.goesOn_of_core hCore, fun path bytes hMem => ?_⟩
  rcases commanded_effect hMem with ⟨_, _, _, _, h⟩ | ⟨_, _, _, _, h⟩
  · cases h
  · cases h

theorem goesOn_passed (k : Dispatch) (relevant : List PeerId) (now : Time) :
    k.GoesOn (k.passed relevant now) := by
  have hCore := Download.core_tick k.download relevant now
  refine ⟨rfl, rfl, Download.goesOn_of_core hCore, fun path bytes hMem => ?_⟩
  obtain ⟨id, m, hSend⟩ := Download.serveAll_sends _ now relevant k.download _ hMem
  cases hSend

/-- Every step but a phase change goes on. -/
theorem Step.goesOn (h : Step k k') : k.GoesOn k' ∨ k.outbox = [] ∧ k' = k.advanced := by
  cases h with
  | command _ now c => exact .inl (goesOn_commanded k now c)
  | pass _ relevant now => exact .inl (goesOn_passed k relevant now)
  | advance hIdle => exact .inr ⟨hIdle, rfl⟩
  | @beginVerify hIdle fs h =>
    have hfs := (Job.current?_eq_some.mp h).1
    refine .inl ⟨rfl, rfl, ?_, fun _ _ => id⟩
    change k.download.GoesOn (k.session.beginVerify fs).download
    rw [Session.download_beginVerify]
    exact ⟨rfl, rfl, hfs ▸ .some (Session.sameCut_setUnverified ..), .inl rfl⟩
  | @endVerify hIdle fs h =>
    refine .inl ⟨rfl, rfl, ⟨rfl, rfl, ?_, .inl rfl⟩, fun _ _ => id⟩
    exact h ▸ .some (Session.sameCut_setUnverified ..)
  | @carry effect rest h =>
    refine .inl ⟨rfl, rfl, ?_, fun path bytes hMem => h ▸ List.mem_cons_of_mem _ hMem⟩
    exact Download.goesOn_of_core (congrArg _ (Engine.download_carryOut k.session.engine effect))
  | part h => exact .inl ⟨rfl, rfl, h.goesOn, fun _ _ => id⟩
  | meanwhile network events tree scheduler =>
    exact .inl ⟨rfl, rfl, Download.goesOn_of_core rfl, fun _ _ => id⟩

/-! ### Whole operations are runs -/

theorem Reaches.refl (k : Dispatch) : k.Reaches k := ⟨[], .start⟩

theorem Reaches.step (h : k₀.Reaches k) (hStep : Step k k') : k₀.Reaches k' := by
  obtain ⟨past, hRun⟩ := h
  exact ⟨k :: past, hRun.step hStep⟩

theorem Reaches.carryOutAll (h : k₀.Reaches k) :
    k₀.Reaches { session := k.session.changeEngine (·.carryOutAll k.outbox) } := by
  obtain ⟨s, outbox⟩ := k
  induction outbox generalizing s with
  | nil => exact h
  | cons effect rest ih => exact ih _ (h.step (.carry rfl))

variable {s : Session}

/-- Input is applied and its effects carried out. -/
theorem Reaches.command (h : k₀.Reaches { session := s }) (now : Time) (c : Command) :
    k₀.Reaches { session := s.command now c } := by
  have hDone := (h.step (.command rfl now c)).carryOutAll
  simp only [commanded] at hDone
  simp only [Session.command]
  split
  · next e effects hHandle =>
    rw [hHandle] at hDone
    exact hDone
  · next e cause hHandle =>
    rw [hHandle] at hDone
    exact hDone

/-- So is a scheduling pass. -/
theorem Reaches.pass (h : k₀.Reaches { session := s }) (relevant : List PeerId) (now : Time) :
    k₀.Reaches { session := s.pass relevant now } :=
  (h.step (.pass rfl relevant now)).carryOutAll

theorem Reaches.advanceUpTo (h : k₀.Reaches { session := s }) (limit : Nat) :
    k₀.Reaches { session := (s.advanceUpTo limit).1 } := by
  induction limit generalizing s with
  | zero => exact h
  | succ limit ih =>
    have hDone := (h.step (.advance rfl)).carryOutAll
    simp only [advanced] at hDone
    simp only [Session.advanceUpTo]
    generalize s.chain.advance s.phase s.download = attempt at hDone ⊢
    obtain ⟨d, effects, result⟩ := attempt
    cases result with
    | failed e => exact hDone
    | stay => exact hDone
    | moved phase => exact ih hDone

theorem Reaches.tick (h : k₀.Reaches { session := s }) (now : Time) :
    k₀.Reaches { session := (s.tick now).1 } := by
  have hAdvanced := h.advanceUpTo Session.changeLimit
  simp only [Session.tick, Session.advance]
  split
  · next s' e hResult =>
    rwa [hResult] at hAdvanced
  · next s' hResult =>
    rw [hResult] at hAdvanced
    exact hAdvanced.pass _ now

theorem Reaches.endVerify (h : k₀.Reaches { session := s }) :
    k₀.Reaches { session := s.endVerify.1 } := by
  simp only [Session.endVerify]
  split
  · exact h
  · next fs hfs =>
    have hAdvanced := (h.step (.endVerify rfl hfs)).advanceUpTo Session.changeLimit
    simp only [Session.advance]
    split
    · next s' e hResult =>
      rwa [hResult] at hAdvanced
    · next s' hResult =>
      rw [hResult] at hAdvanced
      exact hAdvanced

theorem Reaches.parts (h : k₀.Reaches k) {t : Torrent} (hParts : Job.Parts k.torrent t) :
    k₀.Reaches (k.changeEngine fun e => { e with torrent := t }) := by
  induction hParts with
  | none => exact h
  | part _ hPart ih => exact ih.step (.part hPart)
  | files _ tree ih => exact ih.step (.meanwhile _ _ tree _)

theorem Reaches.reschedule (h : k₀.Reaches k) (scheduler : Scheduler Job) :
    k₀.Reaches (k.changeEngine fun e => { e with scheduler }) :=
  h.step (.meanwhile k.torrent.network k.torrent.events k.torrent.tree scheduler)

/-- The worker does one job after the other. -/
theorem Reaches.drain (h : k₀.Reaches k) (span : Time) :
    k₀.Reaches { k with session := k.session.drain span } := by
  have hTurn (s : Scheduler Job) (t : Torrent) (s' : Scheduler Job) (t' : Torrent)
      (h : k₀.Reaches (k.changeEngine fun e => { e with torrent := t }))
      (hNext : Scheduler.turn? Job.work (k.session.engine.scheduler.now + span) s t =
        some (s', t')) :
      k₀.Reaches (k.changeEngine fun e => { e with torrent := t' }) := by
    rcases Scheduler.turn_cases hNext with ⟨entry, _, _, rfl, _⟩ | ⟨rfl, _⟩
    · exact h.parts (Job.parts_run entry.job t)
    · exact h
  have hTurns := @Scheduler.turns_keep _ _ _ _ k.session.engine.scheduler k.session.engine.torrent
    (fun _ t => k₀.Reaches (k.changeEngine fun e => { e with torrent := t })) hTurn
    (k.session.engine.scheduler.turnLimit span) h
  simp only [Session.drain, Session.changeEngine, Engine.drain, Scheduler.drain]
  split
  · exact hTurns.reschedule _
  · exact hTurns.reschedule _

end Dispatch

end TorrentEngine
