import TorrentEngine.Proofs.Accounting
import TorrentEngine.Proofs.Checking
import TorrentEngine.Proofs.Worker

/-!
Resuming on what is on disk. `Session.verify` has every unverified piece read from the disk. It
comes back with a count of the right pieces if no file that was there before ended too early; a
check that runs into such an end is tried again forever, and the session never comes back.
-/

namespace TorrentEngine

namespace FileSet

variable {fs fs' : FileSet} {l : Layout} {t : FileTree} {i : Nat} {p p' : Piece}

/-- The bytes of a piece are those of its place, whatever is known of them. -/
theorem SameCut.bytesOf?_eq (h : SameCut fs fs') (hp : fs.pieces[i]? = some p)
    (hp' : fs'.pieces[i]? = some p') : fs'.bytesOf? l t i p' = fs.bytesOf? l t i p := by
  rw [bytesOf?, bytesOf?, h.pieceLength_eq, Piece.length_of_outline (h.outline_eq hp hp')]

/-- The number of pieces that are verified already, or that the disk has intact. -/
def countIntact (fs : FileSet) (l : Layout) (t : FileTree) : Nat :=
  fs.pieces.zipIdx.countP fun e => e.1.isDone || fs.isIntact l t e.2 e.1

end FileSet

namespace Session

variable {c : PhaseConfig} {s : Session} {fs : FileSet} {l : Layout} {i : Nat} {p : Piece}

/-! ### The checks that are asked for -/

theorem nodup_unverified (fs : FileSet) : (unverified fs).Nodup := by
  have hPlaces : (fs.pieces.zipIdx.map (·.2)).Nodup := by
    rw [List.zipIdx_map_snd]
    exact List.nodup_range'
  exact (List.filter_sublist.map _).nodup hPlaces

theorem check_injective : Function.Injective (Job.check .data) :=
  fun _ _ h => (Job.check.inj h).2

theorem nodup_checks (fs : FileSet) : ((unverified fs).map (Job.check .data)).Nodup :=
  (nodup_unverified fs).map check_injective

theorem mem_checks : .check .data i ∈ (unverified fs).map (Job.check .data) ↔ i ∈ unverified fs :=
  List.mem_map_of_injective check_injective

/-- A session that has a file set, is past its first phase and has no outstanding jobs. -/
structure Rested (s : Session) (c : PhaseConfig) (fs : FileSet) : Prop where
  chain_eq : s.chain = .standard c
  phase_ne : s.phase ≠ .preMetadata
  fileSet : s.download.fileSet = some fs
  unheld : s.engine.scheduler.held = []
  idle : s.engine.scheduler.outstanding = 0

/-- A session without outstanding jobs, whose content is on disk. -/
structure Prepared (s : Session) (c : PhaseConfig) (fs : FileSet) (l : Layout) : Prop where
  chain_eq : s.chain = .standard c
  phase : s.phase.kind? = some .data
  fileSet : s.download.fileSet = some fs
  onDisk : fs.OnDisk l s.engine.torrent.tree
  unheld : s.engine.scheduler.held = []
  idle : s.engine.scheduler.outstanding = 0

theorem Prepared.rested (h : s.Prepared c fs l) : s.Rested c fs := by
  refine ⟨h.chain_eq, fun hEarly => ?_, h.fileSet, h.unheld, h.idle⟩
  have hKind := h.phase
  rw [hEarly] at hKind
  cases hKind

namespace Rested

theorem sleeping_eq (h : s.Rested c fs) : s.engine.scheduler.sleeping = [] := by
  have hHeld := h.unheld
  rw [Scheduler.held, List.append_eq_nil_iff] at hHeld
  exact List.map_eq_nil_iff.mp hHeld.2

/-- The scheduler once the checks are submitted: all of them are outstanding, and nothing else. -/
theorem scheduler_beginVerify (h : s.Rested c fs) :
    ∃ queue, (s.beginVerify fs).engine.scheduler =
        { s.engine.scheduler with queue, outstanding := (unverified fs).length } ∧
      (queue.entries.map (·.job)).Perm ((unverified fs).map (Job.check .data)) := by
  obtain ⟨queue, hQueue⟩ := s.engine.scheduler.submitAll_eq ((unverified fs).map Engine.checkOf)
  have hBag := s.engine.scheduler.bag_submitAll ((unverified fs).map Engine.checkOf)
  have hEmpty : s.engine.scheduler.bag = 0 := by
    rw [Scheduler.bag, h.unheld]
    rfl
  rw [hQueue, hEmpty, Multiset.add_zero, List.map_map] at hBag
  rw [List.length_map, h.idle, Nat.zero_add] at hQueue
  refine ⟨queue, ?_, ?_⟩
  · simp only [beginVerify, changeEngine, Engine.submitChecks_eq]
    exact hQueue
  · rw [Scheduler.bag, Scheduler.held, h.sleeping_eq, List.map_nil, List.append_nil] at hBag
    exact Multiset.coe_eq_coe.mp hBag

theorem bag_beginVerify (h : s.Rested c fs) :
    (s.beginVerify fs).engine.scheduler.bag =
      ((unverified fs).map (Job.check .data) : List Job) := by
  obtain ⟨queue, hScheduler, hPerm⟩ := h.scheduler_beginVerify
  rw [hScheduler, Scheduler.bag, Scheduler.held]
  simp only [h.sleeping_eq, List.map_nil, List.append_nil]
  exact Multiset.coe_eq_coe.mpr hPerm

theorem awake_beginVerify (h : s.Rested c fs) : (s.beginVerify fs).engine.scheduler.Awake := by
  obtain ⟨queue, hScheduler, -⟩ := h.scheduler_beginVerify
  constructor
  · rw [Scheduler.Honest, h.bag_beginVerify, Multiset.coe_card, List.length_map, hScheduler]
  · rw [hScheduler]
    exact h.sleeping_eq

end Rested

theorem torrent_beginVerify (s : Session) (fs : FileSet) :
    (s.beginVerify fs).engine.torrent = s.engine.torrent.change fun d =>
      { d with
        fileSet := some (setUnverified .stored fs)
        pendingChecks := d.pendingChecks + (unverified fs).length } := by
  simp only [beginVerify, changeEngine, Engine.submitChecks_eq]
  rfl

/-! ### Where everything is there -/

/-- `fs'` is `fs` while some of its pieces are due to be judged: these are stored, and the others
are verified as they are to be. -/
def Settling (fs fs' : FileSet) (right : Nat → Piece → Bool) (due : Nat → Prop) : Prop :=
  ∀ i p p', fs.pieces[i]? = some p → fs'.pieces[i]? = some p' →
    (due i → p'.isFullyStored = true) ∧ (¬ due i → p'.isDone = right i p)

theorem isFullyStored_setAll (p : Piece) : (setAll .stored p).isFullyStored = true := by
  rw [Piece.isFullyStored_iff]
  intro b hb
  obtain ⟨b, _, rfl⟩ := List.mem_map.mp hb
  rfl

/-- At first every unverified piece is taken for stored and is due. -/
theorem settling_setUnverified {right : Nat → Piece → Bool} {due : Nat → Prop}
    (hDue : ∀ i, due i ↔ i ∈ unverified fs)
    (hDone : ∀ i p, fs.pieces[i]? = some p → p.isDone = true → right i p = true) :
    Settling fs (setUnverified .stored fs) right due := by
  intro i p p' hp hp'
  rw [getElem?_setUnverified, hp, Option.map_some] at hp'
  obtain rfl := Option.some.inj hp'
  rw [hDue, mem_unverified_iff]
  constructor
  · rintro ⟨q, hq, hOpen⟩
    obtain rfl := Option.some.inj (hp.symm.trans hq)
    rw [if_neg (by simp [hOpen])]
    exact isFullyStored_setAll p
  · intro hSettled
    have hVerified : p.isDone = true := by
      by_contra hOpen
      exact hSettled ⟨p, hp, by simpa using hOpen⟩
    rw [if_pos hVerified, hVerified, hDone i p hp hVerified]

/-- A piece that was judged is due no more. -/
theorem Settling.judge {fs' : FileSet} {right : Nat → Piece → Bool} {due due' : Nat → Prop}
    {p' : Piece} {bytes : Bytes} (h : Settling fs fs' right due) (hp : fs.pieces[i]? = some p)
    (hp' : fs'.pieces[i]? = some p') (hCursor : p'.mismatchCursor < p'.blocks.length)
    (hRight : right i p = decide (sha1 bytes = p'.digest)) (hNew : ¬ due' i)
    (hDue : ∀ j, j ≠ i → (due' j ↔ due j)) :
    Settling fs (fs'.setPiece i (Job.judged p' bytes)) right due' := by
  intro j q q' hq hq'
  rw [FileSet.getElem?_setPiece hp'] at hq'
  split at hq'
  · next hSame =>
    subst hSame
    obtain rfl := Option.some.inj hq'
    obtain rfl := Option.some.inj (hp.symm.trans hq)
    refine ⟨fun hStill => absurd hStill hNew, fun _ => ?_⟩
    rw [Job.isDone_judged hCursor, hRight]
  · next hOther =>
    rw [hDue j hOther]
    exact h j q q' hq hq'

/-- The torrent while the checks in `jobs` are still to be run: their pieces are stored, the others
are verified as they are to be. -/
structure Judging (fs : FileSet) (l : Layout) (tree : FileTree) (jobs : List Job) (t : Torrent) :
    Prop where
  tree_eq : t.tree = tree
  nodup : jobs.Nodup
  due : ∀ job ∈ jobs, ∃ i ∈ unverified fs, job = .check .data i
  content : ∃ fs', t.download.fileSet = some fs' ∧ FileSet.SameCut fs fs' ∧
    fs'.storage = fs.storage ∧ ∀ i p p', fs.pieces[i]? = some p → fs'.pieces[i]? = some p' →
      (.check .data i ∈ jobs → p'.isFullyStored = true) ∧
      (.check .data i ∉ jobs → p'.isDone = (p.isDone || fs.isIntact l tree i p))

theorem Judging.run {tree : FileTree} {job : Job} {rest : List Job} {t : Torrent}
    (hDisk : fs.OnDisk l tree)
    (hWhole : ∀ i p, fs.pieces[i]? = some p → p.isDone = false →
      (fs.bytesOf? l tree i p).isSome)
    (h : Judging fs l tree (job :: rest) t) :
    (Job.work job t).verdict = .done ∧ (Job.work job t).submitted = [] ∧
      Judging fs l tree rest (Job.work job t).after := by
  obtain ⟨rfl, hNodup, hDue, fs', hfs', hCut, hStorage, hPieces⟩ := h
  obtain ⟨i, hi, rfl⟩ := hDue job List.mem_cons_self
  obtain ⟨hNew, hRest⟩ := List.nodup_cons.mp hNodup
  obtain ⟨p, hp, hOpen⟩ := mem_unverified_iff.mp hi
  obtain ⟨p', hp', hOutline⟩ := hCut.piece hp
  have hDisk' := hDisk.sameCut hCut hStorage
  have hStored : Job.StoredPiece t.download .data i fs' p' :=
    ⟨hfs', hDisk'.kind_eq, hp', (hPieces i p p' hp hp').1 List.mem_cons_self⟩
  obtain ⟨bytes, hBytes⟩ := Option.isSome_iff_exists.mp (hWhole i p hp hOpen)
  have hBytes' : fs'.bytesOf? l t.tree i p' = some bytes := by
    rw [hCut.bytesOf?_eq hp hp', hBytes]
  obtain ⟨after, hWork, hTree, hAfter⟩ := Job.work_whole hStored hDisk' hBytes'
  have hJudged := Job.sameCut_judged bytes hp'
  rw [hWork]
  refine ⟨rfl, rfl, hTree, hRest, fun job hJob => hDue job (List.mem_cons_of_mem _ hJob), ?_⟩
  refine ⟨_, hAfter, hCut.trans hJudged, hStorage, ?_⟩
  obtain ⟨_, _, hFrom⟩ := hDisk'.cut
  refine Settling.judge hPieces hp hp' (hFrom.cursors p' (List.mem_of_getElem? hp')) ?_ hNew ?_
  · rw [hOpen, FileSet.isIntact, hBytes, Piece.digest_of_outline hOutline, Bool.false_or,
      Option.any_some]
  · intro j hj
    rw [List.mem_cons, or_iff_right fun hEq => hj (Job.check.inj hEq).2]

/-- At first every unverified piece is taken for stored and has its check. -/
theorem judging_beginVerify (s : Session) {jobs : List Job}
    (hJobs : jobs.Perm ((unverified fs).map (Job.check .data))) :
    Judging fs l s.engine.torrent.tree jobs (s.beginVerify fs).engine.torrent := by
  have hMem (i : Nat) : .check .data i ∈ jobs ↔ i ∈ unverified fs := hJobs.mem_iff.trans mem_checks
  rw [torrent_beginVerify]
  refine ⟨rfl, ?_, ?_, _, rfl, sameCut_setUnverified .stored fs, rfl,
    settling_setUnverified hMem fun i p hp hDone => ?_⟩
  · exact hJobs.nodup_iff.mpr (nodup_checks fs)
  · intro job hJob
    obtain ⟨i, hi, rfl⟩ := List.mem_map.mp (hJobs.mem_iff.mp hJob)
    exact ⟨i, hi, rfl⟩
  · rw [hDone, Bool.true_or]

/-- The effects of a content that is complete: the application is told that it is, and the peers
that nothing of theirs is wanted any more. -/
def completion (d : Download) : List Effect :=
  [.notify (.downloadComplete d.infoHash),
    .notify (.announceCompleted d.infoHash ((d.metainfo.map (·.trackers)).getD []))]
  ++ (PhaseId.enterSeed d).2 ++ [.notify (.phaseChanged d.infoHash .data .seed)]

/-- The session once it seeds its content. -/
def seeding (s : Session) : Session :=
  { s.changeEngine fun e =>
      (e.setDownload (PhaseId.enterSeed e.download).1).carryOutAll (completion e.download) with
    phase := .seed }

theorem completion_cases {d : Download} {effect : Effect} (h : effect ∈ completion d) :
    (∃ id m, effect = .send id m) ∨ ∃ event, effect = .notify event := by
  simp only [completion, PhaseId.enterSeed, List.mem_append, List.mem_cons, List.not_mem_nil,
    or_false, List.mem_map] at h
  rcases h with ((rfl | rfl) | ⟨peer, _, rfl⟩) | rfl
  · exact .inr ⟨_, rfl⟩
  · exact .inr ⟨_, rfl⟩
  · exact .inl ⟨_, _, rfl⟩
  · exact .inr ⟨_, rfl⟩

theorem scheduler_seeding (s : Session) :
    s.seeding.engine.scheduler = s.engine.scheduler := by
  refine Engine.scheduler_carryOutAll _ fun effect hEffect lineOf? => ?_
  rcases completion_cases hEffect with ⟨id, m, rfl⟩ | ⟨event, rfl⟩ <;> rfl

theorem download_seeding (s : Session) :
    s.seeding.download = (PhaseId.enterSeed s.download).1 :=
  Engine.download_carryOutAll _ _

theorem tree_seeding (s : Session) :
    s.seeding.engine.torrent.tree = s.engine.torrent.tree :=
  Engine.tree_carryOutAll _ fun _ => completion_cases

/-- A session that works on a content seeds it once it is done, and stays as it is before that. -/
theorem advanceUpTo_content (hChain : s.chain = .standard c) (hPhase : s.phase ≠ .preMetadata)
    (hKind : s.download.kind? = some .data) (limit : Nat) :
    s.advanceUpTo (limit + 1) = (if s.phase.isDone s.download then s.seeding else s, .ok ()) := by
  cases hDone : s.phase.isDone s.download with
  | false => exact advanceUpTo_of_not_done hDone (limit + 1)
  | true =>
    have hData : s.phase = .data := by
      cases hCurrent : s.phase with
      | preMetadata => exact absurd hCurrent hPhase
      | metadata =>
        obtain ⟨fs, hfs, hContent⟩ := Option.map_eq_some_iff.mp hKind
        simp [hCurrent, PhaseId.isDone, hfs, hContent] at hDone
      | data => rfl
      | seed =>
        rw [hCurrent] at hDone
        cases hDone
    have hGoes : s.chain.advance s.phase s.download =
        ((PhaseId.enterSeed s.download).1, completion s.download, .moved .seed) := by
      rw [hData] at hDone ⊢
      simp only [PhaseChain.advance, hChain, PhaseId.successor?_standard, hDone, if_true]
      rfl
    simp only [advanceUpTo, hGoes]
    exact advanceUpTo_of_not_done (s := s.seeding) rfl limit

/-- What is counted in the end: dropping the pieces that are not verified does not change it. -/
theorem piecesDone_eq {fs' : FileSet} {blockSize : Nat} {digests : List Digest}
    {right : Nat → Piece → Bool} (hFrom : fs.CutFrom blockSize digests)
    (hCut : FileSet.SameCut fs fs')
    (hDone : ∀ i p p', fs.pieces[i]? = some p → fs'.pieces[i]? = some p' →
      p'.isDone = right i p) :
    (setUnverified .needed fs').piecesDone = fs.pieces.zipIdx.countP fun e => right e.2 e.1 := by
  have hFrom' := hFrom.sameCut hCut
  have hPieces : (setUnverified .needed fs').pieces.map Piece.isDone =
      fs.pieces.zipIdx.map fun e => right e.2 e.1 := by
    apply List.ext_getElem?
    intro i
    rw [List.getElem?_map, getElem?_setUnverified, List.getElem?_map, List.getElem?_zipIdx]
    cases hp' : fs'.pieces[i]? with
    | none =>
      have hNone : fs.pieces[i]? = none := by
        have hCount := hCut.pieceCount_eq
        rw [FileSet.pieceCount, FileSet.pieceCount] at hCount
        rw [List.getElem?_eq_none_iff] at hp' ⊢
        omega
      rw [hNone]
      rfl
    | some p' =>
      obtain ⟨p, hp, _⟩ := FileSet.piece_of_outlines hCut.outlines_eq hp'
      have hSettled := hDone i p p' hp hp'
      rw [hp]
      simp only [Option.map_some, Nat.zero_add, ← hSettled]
      split
      · rfl
      · next hOpen =>
        rw [isDone_setAll (by decide) (hFrom'.blocks_pos hp')]
        simpa using hOpen
  have hCount := congrArg (List.countP id) hPieces
  rw [List.countP_map, List.countP_map] at hCount
  exact hCount

/-- The session after the end of a check of the content. -/
def concluded (s : Session) (fs : FileSet) : Session :=
  if s.phase.isDone (s.dropUnverified fs).download then (s.dropUnverified fs).seeding
  else s.dropUnverified fs

theorem scheduler_concluded (s : Session) (fs : FileSet) :
    (s.concluded fs).engine.scheduler = s.engine.scheduler := by
  rw [concluded]
  split
  · exact scheduler_seeding _
  · rfl

/-- The end of a check reports what is verified by then. -/
theorem endVerify_content (hChain : s.chain = .standard c) (hPhase : s.phase ≠ .preMetadata)
    (hfs : s.download.fileSet = some fs) (hKind : fs.kind = .data) :
    s.endVerify = (s.concluded fs, .ok
      { done := (setUnverified .needed fs).piecesDone
        total := (setUnverified .needed fs).pieceCount }) := by
  have hDropped : (s.dropUnverified fs).download.kind? = some .data :=
    congrArg some ((sameCut_setUnverified .needed fs).kind_eq.trans hKind)
  have hAdvance : (s.dropUnverified fs).advance = (s.concluded fs, .ok ()) :=
    advanceUpTo_content (s := s.dropUnverified fs) hChain hPhase hDropped (changeLimit - 1)
  simp only [endVerify, hfs, hAdvance]

/-- Where no unverified piece lacks bytes, a check of the disk comes back after one attempt of each
job, with the number of pieces that are right. -/
theorem Prepared.verify_whole (h : s.Prepared c fs l)
    (hWhole : ∀ i p, fs.pieces[i]? = some p → p.isDone = false →
      (fs.bytesOf? l s.engine.torrent.tree i p).isSome) {span : Time} (hSpan : 0 < span) :
    ∃ s', s.verify span = (s', .ok (some
        { done := fs.countIntact l s.engine.torrent.tree, total := fs.pieceCount })) ∧
      s'.engine.isIdle = true ∧
      s'.engine.scheduler.processed = s.engine.scheduler.processed + (unverified fs).length ∧
      s'.engine.scheduler.retried = s.engine.scheduler.retried ∧
      s'.engine.scheduler.dropped = s.engine.scheduler.dropped := by
  have hCurrent : Job.current? s.download .data = some fs :=
    Job.current?_eq_some.mpr ⟨h.fileSet, h.onDisk.kind_eq⟩
  obtain ⟨queue, hScheduler, hPerm⟩ := h.rested.scheduler_beginVerify
  have hLength : (unverified fs).length = queue.entries.length := by
    simpa using hPerm.length_eq.symm
  have hRun : ∀ job rest t, Judging fs l s.engine.torrent.tree (job :: rest) t →
      (Job.work job t).verdict = .done ∧ (Job.work job t).submitted = [] ∧
        Judging fs l s.engine.torrent.tree rest (Job.work job t).after :=
    fun _ _ _ => Judging.run h.onDisk hWhole
  obtain ⟨hFinished, hJudged⟩ := Scheduler.drain_done
    (s := { s.engine.scheduler with queue, outstanding := (unverified fs).length }) hRun
    h.rested.sleeping_eq hLength (judging_beginVerify s hPerm) hSpan
  obtain ⟨-, -, -, fs', hfs', hCut, -, hDone⟩ := hJudged
  rw [← hScheduler] at hFinished hfs'
  have hDrained : ((s.beginVerify fs).drain span).download.fileSet = some fs' := hfs'
  have hThrough : ((s.beginVerify fs).drain span).engine.scheduler =
      (s.beginVerify fs).engine.scheduler.finished := hFinished
  rw [hScheduler] at hThrough
  have hEnd := endVerify_content (s := (s.beginVerify fs).drain span) h.chain_eq
    h.rested.phase_ne hDrained (hCut.kind_eq.trans h.onDisk.kind_eq)
  have hKept := ((s.beginVerify fs).drain span).scheduler_concluded fs'
  have hIdle : ((s.beginVerify fs).drain span).engine.isIdle = true := by
    rw [Engine.isIdle, hThrough]
    simp only [Scheduler.finished, Scheduler.isIdle, hLength, Nat.sub_self, beq_self_eq_true]
  obtain ⟨_, _, hFrom⟩ := h.onDisk.cut
  have hDoneCount : (setUnverified .needed fs').piecesDone =
      fs.countIntact l s.engine.torrent.tree :=
    piecesDone_eq hFrom hCut fun i p p' hp hp' => (hDone i p p' hp hp').2 List.not_mem_nil
  have hTotal : (setUnverified .needed fs').pieceCount = fs.pieceCount := by
    rw [(sameCut_setUnverified .needed fs').pieceCount_eq, hCut.pieceCount_eq]
  refine ⟨((s.beginVerify fs).drain span).concluded fs', ?_, ?_⟩
  · simp only [verify, hCurrent, hIdle, hEnd, hDoneCount, hTotal, if_true]
  · rw [Engine.isIdle, hKept, hThrough]
    simp only [Scheduler.finished, Scheduler.isIdle, hLength, Nat.sub_self, beq_self_eq_true]
    exact ⟨trivial, trivial, trivial, trivial⟩

/-! ### Where bytes are missing -/

/-- The torrent while piece `i` is taken for stored. -/
structure Awaiting (fs : FileSet) (tree : FileTree) (i : Nat) (t : Torrent) : Prop where
  tree_eq : t.tree = tree
  content : ∃ fs' p', t.download.fileSet = some fs' ∧ FileSet.SameCut fs fs' ∧
    fs'.storage = fs.storage ∧ fs'.pieces[i]? = some p' ∧ p'.isFullyStored = true

variable {tree : FileTree} {t : Torrent}

/-- The check of a piece that lacks bytes is always to be tried again. -/
theorem Awaiting.retry (h : Awaiting fs tree i t) (hDisk : fs.OnDisk l tree)
    (hp : fs.pieces[i]? = some p) (hMissing : fs.bytesOf? l tree i p = none) :
    (Job.work (.check .data i) t).verdict = .retry := by
  obtain ⟨rfl, fs', p', hfs', hCut, hStorage, hp', hFull⟩ := h
  have hDisk' := hDisk.sameCut hCut hStorage
  have hMissing' : fs'.bytesOf? l t.tree i p' = none := by
    rw [hCut.bytesOf?_eq hp hp', hMissing]
  rw [Job.work_missing ⟨hfs', hDisk'.kind_eq, hp', hFull⟩ hDisk' hMissing']

/-- No other check brings it about that the piece is no longer waited for. -/
theorem Awaiting.check (h : Awaiting fs tree i t) (hDisk : fs.OnDisk l tree)
    (hp : fs.pieces[i]? = some p) (hMissing : fs.bytesOf? l tree i p = none) (j : Nat) :
    Awaiting fs tree i (Job.work (.check .data j) t).after ∧
      (Job.work (.check .data j) t).submitted = [] := by
  have hAwaiting := h
  obtain ⟨rfl, fs', p', hfs', hCut, hStorage, hp', hFull⟩ := h
  have hDisk' := hDisk.sameCut hCut hStorage
  by_cases hStored : ∃ fs q, Job.StoredPiece t.download .data j fs q
  · obtain ⟨fs'', q, hStored⟩ := hStored
    obtain rfl := Option.some.inj (hStored.fileSet.symm.trans hfs')
    cases hBytes : fs''.bytesOf? l t.tree j q with
    | none =>
      rw [Job.work_missing hStored hDisk' hBytes]
      exact ⟨hAwaiting, rfl⟩
    | some bytes =>
      have hOther : i ≠ j := by
        rintro rfl
        rw [hCut.bytesOf?_eq hp hStored.hasPiece, hMissing] at hBytes
        cases hBytes
      obtain ⟨after, hWork, hTree, hAfter⟩ := Job.work_whole hStored hDisk' hBytes
      rw [hWork]
      refine ⟨⟨hTree, _, p', hAfter, hCut.trans (Job.sameCut_judged bytes hStored.hasPiece),
        hStorage, ?_, hFull⟩, rfl⟩
      rw [FileSet.getElem?_setPiece hStored.hasPiece, if_neg hOther]
      exact hp'
  · rw [not_exists] at hStored
    obtain ⟨after, v, hWork, hTree, hAfter⟩ :=
      Job.work_void fun fs q hq => hStored fs ⟨q, hq⟩
    rw [hWork]
    exact ⟨⟨hTree, fs', p', hAfter.trans hfs', hCut, hStorage, hp', hFull⟩, rfl⟩

/-- Where an unverified piece lacks bytes its check never finishes, and a check of the disk waits in
vain, however long. -/
theorem Prepared.verify_missing (h : s.Prepared c fs l) (hp : fs.pieces[i]? = some p)
    (hOpen : p.isDone = false) (hMissing : fs.bytesOf? l s.engine.torrent.tree i p = none)
    (span : Time) :
    ∃ s', s.verify span = (s', .ok none) ∧ .check .data i ∈ s'.engine.bag := by
  have hCurrent : Job.current? s.download .data = some fs :=
    Job.current?_eq_some.mpr ⟨h.fileSet, h.onDisk.kind_eq⟩
  have hBag := h.rested.bag_beginVerify
  have hAwaiting : Awaiting fs s.engine.torrent.tree i (s.beginVerify fs).engine.torrent := by
    rw [torrent_beginVerify]
    refine ⟨rfl, _, setAll .stored p, rfl, sameCut_setUnverified .stored fs, rfl, ?_,
      isFullyStored_setAll p⟩
    rw [getElem?_setUnverified, hp, Option.map_some, if_neg (by simp [hOpen])]
  have hHeld : .check .data i ∈ (s.beginVerify fs).engine.scheduler.bag := by
    rw [hBag, Multiset.mem_coe]
    exact List.mem_map_of_mem (mem_unverified_iff.mpr ⟨p, hp, hOpen⟩)
  have hChecks : ∀ job ∈ (s.beginVerify fs).engine.scheduler.bag, ∃ j, job = .check .data j := by
    intro job hJob
    rw [hBag, Multiset.mem_coe] at hJob
    obtain ⟨j, _, rfl⟩ := List.mem_map.mp hJob
    exact ⟨j, rfl⟩
  have hRetry : ∀ t, Awaiting fs s.engine.torrent.tree i t →
      (Job.work (.check .data i) t).verdict = .retry :=
    fun t ht => ht.retry h.onDisk hp hMissing
  have hKeeps : ∀ job t, (∃ j, job = .check .data j) → Awaiting fs s.engine.torrent.tree i t →
      Awaiting fs s.engine.torrent.tree i (Job.work job t).after ∧
        (Job.work job t).submitted = [] := by
    rintro _ t ⟨j, rfl⟩ ht
    exact ht.check h.onDisk hp hMissing j
  obtain ⟨hHeld, hBusy⟩ :=
    Scheduler.drain_stuck hRetry hKeeps h.rested.awake_beginVerify.honest hHeld hChecks hAwaiting
      span
  have hWaiting : ((s.beginVerify fs).drain span).engine.isIdle = false := hBusy
  refine ⟨(s.beginVerify fs).drain span, ?_, hHeld⟩
  simp only [verify, hCurrent, hWaiting]
  rfl

/-! ### After an allocation -/

/-- A session of a torrent without outstanding jobs, after the files of the torrent, with lengths
that have a word for their sum, were allocated below a folder where `before` was there. -/
structure Resumes (s : Session) (c : PhaseConfig) (m : Metainfo) (root : Path)
    (before : FileTree) (fs : FileSet) : Prop where
  chain_eq : s.chain = .standard c
  phase : s.phase.kind? = some .data
  fileSet : s.download.fileSet = some fs
  cut : ∃ blockSize created, FileSet.forTorrent m root blockSize = .ok created ∧
    FileSet.SameCut created fs ∧ fs.storage = created.storage
  fits : m.contentLength < 0x10000000000000000
  allocated : (Layout.ofMetainfo root m).allocate before = (s.engine.torrent.tree, .ok ())
  ownPlaces : (Layout.ofMetainfo root m).OwnPlaces s.engine.torrent.tree
  unheld : s.engine.scheduler.held = []
  idle : s.engine.scheduler.outstanding = 0

variable {m : Metainfo} {root : Path} {before : FileTree}

theorem Resumes.prepared (h : s.Resumes c m root before fs) :
    s.Prepared c fs (.ofMetainfo root m) := by
  obtain ⟨blockSize, created, hCreated, hCut, hStorage⟩ := h.cut
  have hCreate := PhaseId.forTorrent_ok hCreated
  obtain ⟨_, _, hShape⟩ := FileSet.create_eq_ok hCreate
  have hFrom := FileSet.cutFrom_create hCreate
  refine ⟨h.chain_eq, h.phase, h.fileSet, ⟨?_, ?_, ?_, ?_, ?_, ?_⟩, h.unheld, h.idle⟩
  · rw [hCut.kind_eq, hShape]
  · rw [hStorage, hShape]
  · exact Layout.laid_ofMetainfo root h.fits
  · intro f hf
    obtain ⟨place, content, hLocate, _⟩ := Layout.file_of_allocate h.allocated h.ownPlaces hf
    exact ⟨content, FileTree.readFile_of_locate hLocate⟩
  · rw [hCut.totalLength_eq, hShape]
    exact (Layout.length_cells_ofMetainfo _ root h.fits).symm
  · exact ⟨blockSize, m.pieceDigests, hFrom.sameCut hCut⟩

/-- Piece `i` is not verified, and a file that was there before ended inside of it. -/
def Blocked (fs : FileSet) (l : Layout) (before tree : FileTree) (i : Nat) : Prop :=
  ∃ p, fs.pieces[i]? = some p ∧ p.isDone = false ∧
    ∃ k, i * fs.pieceLength ≤ k ∧ k < i * fs.pieceLength + p.length ∧ l.Truncated before tree k

/-- While nothing is verified, pieces are blocked by the files that were shorter than they are to
be. -/
theorem Resumes.blocked_iff (h : s.Resumes c m root before fs)
    (hOpen : ∀ p ∈ fs.pieces, p.isDone = false) :
    (∃ i, Blocked fs (.ofMetainfo root m) before s.engine.torrent.tree i) ↔
      ∃ f ∈ (Layout.ofMetainfo root m).files, ∃ place content,
        s.engine.torrent.tree.placeOf? f.path = some place ∧
        before.lookup place = some (.file content) ∧ content.length < f.length := by
  have hDisk := h.prepared.onDisk
  obtain ⟨_, _, hFrom⟩ := hDisk.cut
  constructor
  · rintro ⟨i, p, hp, _, k, _, _, f, hf, hk, place, content, hPlace, hStood, hShort⟩
    rw [Layout.covers_iff] at hk
    exact ⟨f, hf, place, content, hPlace, hStood, by omega⟩
  · rintro ⟨f, hf, place, content, hPlace, hStood, hShort⟩
    have hEnd := hDisk.laid.end_le (t := s.engine.torrent.tree) hf
    rw [← hDisk.total] at hEnd
    obtain ⟨i, p, hp, hLow, hHigh⟩ := hFrom.covered (k := f.start + content.length) (by omega)
    refine ⟨i, p, hp, hOpen p (List.mem_of_getElem? hp), f.start + content.length, hLow, hHigh, f,
      hf, ?_, place, content, hPlace, hStood, Nat.le_refl _⟩
    rw [Layout.covers_iff]
    omega

/-- A check of the disk comes back, after one attempt of each job and with the number of pieces that
are right, exactly if no file that was there before ended inside of an unverified piece. The check
of such a piece is tried again forever. -/
theorem Resumes.verify_ends_iff (h : s.Resumes c m root before fs) :
    ((∀ i, ¬ Blocked fs (.ofMetainfo root m) before s.engine.torrent.tree i) →
      ∀ span, 0 < span → ∃ s', s.verify span = (s', .ok (some
          { done := fs.countIntact (.ofMetainfo root m) s.engine.torrent.tree
            total := fs.pieceCount })) ∧
        s'.engine.isIdle = true ∧
        s'.engine.scheduler.processed = s.engine.scheduler.processed + (unverified fs).length ∧
        s'.engine.scheduler.retried = s.engine.scheduler.retried ∧
        s'.engine.scheduler.dropped = s.engine.scheduler.dropped) ∧
    (∀ i, Blocked fs (.ofMetainfo root m) before s.engine.torrent.tree i →
      ∀ span, ∃ s', s.verify span = (s', .ok none) ∧ .check .data i ∈ s'.engine.bag) ∧
    ((∀ p ∈ fs.pieces, p.isDone = false) →
      ((∃ i, Blocked fs (.ofMetainfo root m) before s.engine.torrent.tree i) ↔
        ∃ f ∈ (Layout.ofMetainfo root m).files, ∃ place content,
          s.engine.torrent.tree.placeOf? f.path = some place ∧
          before.lookup place = some (.file content) ∧ content.length < f.length)) := by
  have hPrepared := h.prepared
  have hMissing (i : Nat) (p : Piece) :
      fs.bytesOf? (.ofMetainfo root m) s.engine.torrent.tree i p = none ↔
        ∃ k, i * fs.pieceLength ≤ k ∧ k < i * fs.pieceLength + p.length ∧
          (Layout.ofMetainfo root m).Truncated before s.engine.torrent.tree k :=
    Layout.bytes?_of_allocate h.allocated h.ownPlaces hPrepared.onDisk.laid
  refine ⟨fun hFree span hSpan => ?_, fun i hBlocked span => ?_, h.blocked_iff⟩
  · refine hPrepared.verify_whole (fun i p hp hOpen => ?_) hSpan
    rw [← Option.ne_none_iff_isSome]
    intro hNone
    exact hFree i ⟨p, hp, hOpen, (hMissing i p).mp hNone⟩
  · obtain ⟨p, hp, hOpen, hTruncated⟩ := hBlocked
    exact hPrepared.verify_missing hp hOpen ((hMissing i p).mpr hTruncated) span

/-! ### Two checks of one byte -/

open World (oneByte oneByteConfig oneByteContent)

/-- The file of the torrent of one byte, with something in it. -/
def oneByteTree (content : Bytes) : FileTree :=
  { home := [], entries := [(["dl"], .folder), (["dl", "a"], .file content)] }

/-- A session of that torrent in which nothing is verified yet. -/
def oneByteResuming (content : Bytes) : Session :=
  { engine := { torrent :=
      { download :=
          { (Download.named Digest.zero 1).withMetainfo oneByte with
            fileSet := some oneByteContent }
        events := { capacity := 0 }
        tree := oneByteTree content } }
    chain := .standard oneByteConfig
    phase := .data }

theorem files_oneByte : (Layout.ofMetainfo ⟨"dl"⟩ oneByte).files =
    [{ path := ⟨"dl/a"⟩, length := 1, start := 0 }] := by
  decide +kernel

theorem locate_oneByte (content : Bytes) :
    (oneByteTree content).locate ⟨"dl/a"⟩ = .ok (["dl", "a"], some (.file content)) := by
  have hRelative : Path.isAbsolute ⟨"dl/a"⟩ = false := by decide +kernel
  have hOpen : Path.namesFolder ⟨"dl/a"⟩ = false := by decide +kernel
  refine FileTree.locate_eq_ok.mpr ⟨rfl, by decide, by decide, ?_, rfl, ?_⟩
  · rw [hRelative]
    rfl
  · simp [hOpen]

/-- The file and the folder above it are there, so nothing is made. -/
theorem allocate_oneByte (content : Bytes) :
    (Layout.ofMetainfo ⟨"dl"⟩ oneByte).allocate (oneByteTree content) =
      (oneByteTree content, .ok ()) := by
  have hAbove : Path.parent? ⟨"dl/a"⟩ = some ⟨"dl"⟩ := by decide +kernel
  have hRelative : Path.isAbsolute ⟨"dl"⟩ = false := by decide +kernel
  have hFolder : (oneByteTree content).locate ⟨"dl"⟩ = .ok (["dl"], some .folder) := by
    refine FileTree.locate_eq_ok.mpr ⟨rfl, by decide, by decide, ?_, rfl, by simp⟩
    rw [hRelative]
    rfl
  simp only [Layout.allocate, files_oneByte, Layout.allocateFiles, Layout.allocateFile,
    Layout.allocateParent, hAbove, FileTree.exists?, hFolder, locate_oneByte, Option.isSome_some]

theorem placeOf_oneByte (content : Bytes) :
    (oneByteTree content).placeOf? ⟨"dl/a"⟩ = some ["dl", "a"] := by
  rw [FileTree.placeOf?, locate_oneByte]
  rfl

theorem countIntact_oneByte :
    oneByteContent.countIntact (.ofMetainfo ⟨"dl"⟩ oneByte) (oneByteTree [65]) = 1 := by
  have hBytes : oneByteContent.bytesOf? (.ofMetainfo ⟨"dl"⟩ oneByte) (oneByteTree [65]) 0
      (Piece.fresh 0 1 (Digest.ofBytes oneByte.info.pieces) 1) = some [65] := by
    decide +kernel
  have hDigest : sha1 [65] = Digest.ofBytes oneByte.info.pieces := by decide +kernel
  have hIntact : oneByteContent.isIntact (.ofMetainfo ⟨"dl"⟩ oneByte) (oneByteTree [65]) 0
      (Piece.fresh 0 1 (Digest.ofBytes oneByte.info.pieces) 1) = true := by
    rw [FileSet.isIntact, hBytes, Option.any_some]
    exact decide_eq_true hDigest
  have hPieces : oneByteContent.pieces.zipIdx =
      [(Piece.fresh 0 1 (Digest.ofBytes oneByte.info.pieces) 1, 0)] := rfl
  rw [FileSet.countIntact, hPieces, List.countP_cons, List.countP_nil, hIntact, Bool.or_true]
  rfl

theorem resumes_oneByte (content : Bytes) :
    (oneByteResuming content).Resumes oneByteConfig oneByte ⟨"dl"⟩ (oneByteTree content)
      oneByteContent := by
  refine ⟨rfl, rfl, rfl, ⟨1, oneByteContent, rfl, .refl _, rfl⟩, by decide, ?_, ⟨?_, ?_⟩, rfl,
    rfl⟩
  · exact allocate_oneByte content
  · rw [files_oneByte, List.forall_mem_singleton, FileTree.isFolder]
    simp only [oneByteResuming, locate_oneByte]
  · rw [files_oneByte]
    exact List.nodup_singleton _

/-- With its byte in place the check comes back; with the file empty it does not. -/
theorem verify_oneByte :
    (∃ s', (oneByteResuming [65]).verify 1 = (s', .ok (some { done := 1, total := 1 }))) ∧
      ∀ span, ∃ s', (oneByteResuming []).verify span = (s', .ok none) := by
  have hOpen : ∀ p ∈ oneByteContent.pieces, p.isDone = false := by decide
  have hWhole := (resumes_oneByte [65]).verify_ends_iff
  have hEmpty := (resumes_oneByte []).verify_ends_iff
  constructor
  · have hFree : ∀ i, ¬ Blocked oneByteContent (.ofMetainfo ⟨"dl"⟩ oneByte) (oneByteTree [65])
        (oneByteTree [65]) i := by
      intro i hBlocked
      obtain ⟨f, hf, place, content, hPlace, hStood, hShort⟩ := (hWhole.2.2 hOpen).mp ⟨i, hBlocked⟩
      rw [files_oneByte] at hf
      obtain rfl := List.mem_singleton.mp hf
      obtain rfl := Option.some.inj ((placeOf_oneByte [65]).symm.trans hPlace)
      have hFile : (oneByteTree [65]).lookup ["dl", "a"] = some (.file [65]) := by decide +kernel
      obtain rfl := Entry.file.inj (Option.some.inj (hFile.symm.trans hStood))
      exact absurd hShort (by decide)
    obtain ⟨s', hVerify, _⟩ := hWhole.1 hFree 1 (by decide)
    have hTree : (oneByteResuming [65]).engine.torrent.tree = oneByteTree [65] := rfl
    have hTotal : oneByteContent.pieceCount = 1 := rfl
    rw [hTree, countIntact_oneByte, hTotal] at hVerify
    exact ⟨s', hVerify⟩
  · have hFile : { path := ⟨"dl/a"⟩, length := 1, start := 0 } ∈
        (Layout.ofMetainfo ⟨"dl"⟩ oneByte).files := by
      rw [files_oneByte]
      exact List.mem_singleton_self _
    obtain ⟨i, hBlocked⟩ := (hEmpty.2.2 hOpen).mpr
      ⟨_, hFile, ["dl", "a"], [], placeOf_oneByte [], rfl, by decide⟩
    intro span
    obtain ⟨s', hVerify, _⟩ := hEmpty.2.1 i hBlocked span
    exact ⟨s', hVerify⟩

end Session

end TorrentEngine
