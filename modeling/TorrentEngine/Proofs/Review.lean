import TorrentEngine.Proofs.Claims
import TorrentEngine.Proofs.Patience
import TorrentEngine.Proofs.Reliable
import TorrentEngine.Proofs.Resume

/-!
A check of the content is exact. Reads may fail in passing, and blocks may be in any state before;
in the end the pieces that were verified before or whose stored bytes have the right digest are
verified, all others are needed as a whole, and each piece that is verified now was told of once.
-/

namespace TorrentEngine

/-! ### What is told -/

/-- What is told of a verified piece of the content: every peer learns that it is held, and the
application that it was verified. -/
def Download.announcement (d : Download) (i : Nat) : List Effect :=
  d.peers.ids.map (fun peer => .send peer (.holds i)) ++ [.notify (.pieceVerified d.infoHash i)]

/-- Two torrents of which the same was told, and whose peers read the same lines. -/
structure Torrent.Echoes (t t' : Torrent) : Prop where
  network_eq : t'.network = t.network
  events_eq : t'.events = t.events
  lineOf?_eq : t'.lineOf? = t.lineOf?

theorem Torrent.Echoes.change {t t' : Torrent} (h : t.Echoes t') {f : Download → Download}
    (hLines : ∀ peer, (t'.change f).lineOf? peer = t'.lineOf? peer) : t.Echoes (t'.change f) := by
  refine ⟨h.network_eq, h.events_eq, ?_⟩
  rw [← h.lineOf?_eq]
  exact funext hLines

namespace Engine

variable {e e' : Engine}

theorem echoes_carryOut (h : e.torrent.Echoes e'.torrent) (effect : Effect) :
    (e.carryOut effect).torrent.Echoes (e'.carryOut effect).torrent := by
  have hQuiet (e : Engine) (peer : PeerId) (i offset length : Nat) :
      (e.carryOut (.upload peer i offset length)).torrent = e.torrent := by
    simp only [carryOut]
    split <;> rfl
  obtain ⟨hNetwork, hEvents, hLines⟩ := h
  cases effect with
  | send peer m =>
    simp only [carryOut, Torrent.send, hLines]
    cases e.torrent.lineOf? peer with
    | none => exact ⟨hNetwork, hEvents, hLines⟩
    | some line =>
      refine ⟨?_, hEvents, hLines⟩
      rw [hNetwork]
  | notify event =>
    refine ⟨hNetwork, ?_, hLines⟩
    simp only [carryOut, Torrent.notify, hEvents]
  | upload peer i offset length =>
    rw [hQuiet, hQuiet]
    exact ⟨hNetwork, hEvents, hLines⟩
  | _ => exact ⟨hNetwork, hEvents, hLines⟩

/-- The same effects are heard alike. -/
theorem echoes_carryOutAll (h : e.torrent.Echoes e'.torrent) (effects : List Effect) :
    (e.carryOutAll effects).torrent.Echoes (e'.carryOutAll effects).torrent := by
  induction effects generalizing e e' with
  | nil => exact h
  | cons effect rest ih => exact ih (echoes_carryOut h effect)

theorem carryOutAll_append (e : Engine) (effects more : List Effect) :
    e.carryOutAll (effects ++ more) = (e.carryOutAll effects).carryOutAll more :=
  List.foldl_append

/-- Announcing a piece is carrying out its announcement. -/
theorem torrent_announcement (e : Engine) (i : Nat) (data : Bytes) :
    (e.carryOutAll (e.download.announcement i)).torrent =
      Job.announcePiece e.torrent .data i data := by
  have hSends (ids : List PeerId) (e : Engine) :
      (e.carryOutAll (ids.map fun peer => .send peer (.holds i))).torrent =
        ids.foldl (fun t peer => t.send peer (.holds i)) e.torrent := by
    induction ids generalizing e with
    | nil => rfl
    | cons id rest ih => exact ih (e.carryOut (.send id (.holds i)))
  have hTold : e.torrent.sendToAll (.holds i) =
      (e.carryOutAll (e.download.peers.ids.map fun peer => .send peer (.holds i))).torrent :=
    (hSends e.download.peers.ids e).symm
  have hDownload : (e.carryOutAll
      (e.download.peers.ids.map fun peer => .send peer (.holds i))).torrent.download =
        e.download :=
    e.download_carryOutAll _
  simp only [Job.announcePiece, hTold, hDownload, Download.announcement, carryOutAll_append]
  rfl

/-- The announcement of a piece depends on the peers and the name of the torrent only. -/
theorem echoes_announcePiece {t : Torrent} {i : Nat} (h : e.torrent.Echoes t)
    (hSame : t.download.announcement i = e.download.announcement i) (data : Bytes) :
    (e.carryOutAll (e.download.announcement i)).torrent.Echoes
      (Job.announcePiece t .data i data) := by
  have hTold := ({ torrent := t } : Engine).torrent_announcement i data
  have hEchoes : (e.carryOutAll (e.download.announcement i)).torrent.Echoes
      (({ torrent := t } : Engine).carryOutAll (e.download.announcement i)).torrent :=
    echoes_carryOutAll h _
  rw [← hSame] at hEchoes ⊢
  rw [← hTold]
  exact hEchoes

end Engine

/-! ### Pieces that are right -/

namespace FileSet

/-- Whether the stored bytes of a piece have its digest. -/
def bytesMatch (fs : FileSet) (stored : Bytes) (i : Nat) (p : Piece) : Bool :=
  sha1 (stored.slice (i * fs.pieceLength) p.length) = p.digest

/-- Whether a piece is verified already or its stored bytes have its digest. -/
def isRight (fs : FileSet) (stored : Bytes) (i : Nat) (p : Piece) : Bool :=
  p.isDone || fs.bytesMatch stored i p

def countRight (fs : FileSet) (stored : Bytes) : Nat :=
  fs.pieces.zipIdx.countP fun e => fs.isRight stored e.2 e.1

/-- The pieces that are not verified yet although their stored bytes have their digests. -/
def newlyRight (fs : FileSet) (stored : Bytes) : List Nat :=
  (Session.unverified fs).filter fun i => (fs.pieces[i]?).any (fs.bytesMatch stored i)

variable {fs : FileSet} {stored : Bytes} {i : Nat} {p : Piece}

theorem mem_newlyRight_iff (hp : fs.pieces[i]? = some p) (hOpen : p.isDone = false) :
    i ∈ fs.newlyRight stored ↔ fs.bytesMatch stored i p = true := by
  rw [newlyRight, List.mem_filter, and_iff_right (Session.mem_unverified_iff.mpr ⟨p, hp, hOpen⟩),
    hp, Option.any_some]

theorem nodup_newlyRight (fs : FileSet) (stored : Bytes) : (fs.newlyRight stored).Nodup :=
  (Session.nodup_unverified fs).filter _

end FileSet

/-! ### Checks -/

variable {holds : Storage → FileTree → Bytes → Nat → Prop} {fs fs' : FileSet} {stored : Bytes}
  {e : Engine} {t : Torrent} {i n : Nat} {p p' : Piece} {due due' : Nat → Prop}

/-- Of the pieces that turned out right since `e`, those that are not due any more were told of,
each once. -/
def Told (fs : FileSet) (stored : Bytes) (e : Engine) (due : Nat → Prop) (t : Torrent) : Prop :=
  ∃ order : List Nat, order.Nodup ∧ (∀ i, i ∈ order ↔ i ∈ fs.newlyRight stored ∧ ¬ due i) ∧
    (e.carryOutAll (order.flatMap e.download.announcement)).torrent.Echoes t

theorem told_of_due (hDue : ∀ i ∈ fs.newlyRight stored, due i) (h : e.torrent.Echoes t) :
    Told fs stored e due t := by
  refine ⟨[], List.nodup_nil, fun i => ?_, h⟩
  rw [iff_false_left List.not_mem_nil]
  exact fun hNew => hNew.2 (hDue i hNew.1)

/-- A piece that turns out right is told of when it is judged. -/
theorem Told.judge {data : Bytes} (h : Told fs stored e due t)
    (hSame : t.download.announcement i = e.download.announcement i)
    (hRight : i ∈ fs.newlyRight stored ↔ sha1 data = p'.digest) (hOld : due i) (hNew : ¬ due' i)
    (hDue : ∀ j, j ≠ i → (due' j ↔ due j)) :
    Told fs stored e due' (Job.afterCheck t fs' p' i data) := by
  obtain ⟨order, hNodup, hMem, hEchoes⟩ := h
  have hNotYet : i ∉ order := fun hi => ((hMem i).mp hi).2 hOld
  have hChanged : (e.carryOutAll (order.flatMap e.download.announcement)).torrent.Echoes
      (t.change fun d =>
        { d.endCheck with fileSet := some (fs'.setPiece i (Job.judged p' data)) }) :=
    hEchoes.change fun _ => rfl
  rw [Job.afterCheck]
  by_cases hMatch : sha1 data = p'.digest
  · rw [if_pos hMatch]
    refine ⟨order ++ [i], ?_, fun j => ?_, ?_⟩
    · exact hNodup.append (List.nodup_singleton i) (by simpa using hNotYet)
    · rw [List.mem_append, List.mem_singleton, hMem]
      by_cases hj : j = i
      · subst hj
        simp only [hRight, hMatch, hNew, or_true, not_false_eq_true, and_self]
      · simp only [hj, hDue j hj, or_false]
    · have hDownload := e.download_carryOutAll (order.flatMap e.download.announcement)
      have hAgain :=
        Engine.echoes_announcePiece hChanged (hSame.trans (by rw [hDownload])) data
      rw [hDownload] at hAgain
      rw [List.flatMap_append, List.flatMap_singleton, Engine.carryOutAll_append]
      exact hAgain
  · rw [if_neg hMatch]
    refine ⟨order, hNodup, fun j => ?_, hChanged⟩
    rw [hMem]
    by_cases hj : j = i
    · subst hj
      simp only [hRight, hMatch, false_and]
    · rw [hDue j hj]

/-- The torrent of `e` while its content is checked and the checks in `jobs` are still to be run. -/
structure Reviewing (holds : Storage → FileTree → Bytes → Nat → Prop) (fs : FileSet)
    (stored : Bytes) (e : Engine) (jobs : Multiset Job) (n : Nat) (t : Torrent) : Prop where
  tree_eq : t.tree = e.torrent.tree
  nodup : jobs.Nodup
  due : ∀ job ∈ jobs, ∃ i ∈ Session.unverified fs, job = .check .data i
  content : ∃ fs',
    t.download = { e.download with fileSet := some fs', pendingChecks := jobs.card } ∧
    FileSet.SameCut fs fs' ∧ holds fs'.storage t.tree stored n ∧
    Session.Settling fs fs' (fs.isRight stored) fun i => .check .data i ∈ jobs
  told : Told fs stored e (fun i => .check .data i ∈ jobs) t

namespace Reviewing

variable {jobs rest : Multiset Job}

/-- What is known of the content, whatever it is at the moment. -/
theorem content_eq (h : Reviewing holds fs stored e jobs n t)
    (hfs' : t.download.fileSet = some fs') :
    t.download = { e.download with fileSet := some fs', pendingChecks := jobs.card } ∧
      FileSet.SameCut fs fs' ∧ holds fs'.storage t.tree stored n ∧
      Session.Settling fs fs' (fs.isRight stored) fun i => .check .data i ∈ jobs := by
  obtain ⟨fs₀, hDownload, hContent⟩ := h.content
  have hSame : t.download.fileSet = some fs₀ := by rw [hDownload]
  obtain rfl := Option.some.inj (hfs'.symm.trans hSame)
  exact ⟨hDownload, hContent⟩

/-- A read may change the storage. -/
theorem setStorage (h : Reviewing holds fs stored e jobs n t)
    (hfs' : t.download.fileSet = some fs') {storage : Storage} {m : Nat}
    (hHolds : holds storage t.tree stored m) :
    Reviewing holds fs stored e jobs m (t.setStorage storage) := by
  obtain ⟨hDownload, hCut, -, hPieces⟩ := h.content_eq hfs'
  obtain ⟨hTree, hNodup, hDue, -, order, hOrder, hMem, hEchoes⟩ := h
  refine ⟨hTree, hNodup, hDue, ⟨{ fs' with storage }, ?_, ⟨hCut.kind_eq, hCut.pieceLength_eq,
    hCut.totalLength_eq, hCut.outlines_eq, hCut.cursors⟩, hHolds, hPieces⟩, order, hOrder, hMem,
    hEchoes.change fun _ => rfl⟩
  rw [Job.download_setStorage hfs' storage, hDownload]

/-- A check that has read its piece judges it. -/
theorem judge (h : Reviewing holds fs stored e (.check .data i ::ₘ rest) n t)
    {blockSize : Nat} {digests : List Digest} (hFrom : fs.CutFrom blockSize digests)
    (hfs' : t.download.fileSet = some fs') (hp' : fs'.pieces[i]? = some p') :
    Reviewing holds fs stored e rest n
      (Job.afterCheck t fs' p' i (stored.slice (i * fs'.pieceLength) p'.length)) := by
  obtain ⟨hDownload, hCut, hHolds, hPieces⟩ := h.content_eq hfs'
  obtain ⟨hTree, hNodup, hDue, -, hTold⟩ := h
  obtain ⟨j, hj, hJob⟩ := hDue _ (Multiset.mem_cons_self _ _)
  obtain rfl := (Job.check.inj hJob).2
  obtain ⟨p, hp, hOpen⟩ := Session.mem_unverified_iff.mp hj
  have hOutline := hCut.outline_eq hp hp'
  obtain ⟨hNew, hRest⟩ := Multiset.nodup_cons.mp hNodup
  have hOthers (j : Nat) (hj : j ≠ i) :
      .check .data j ∈ rest ↔ .check .data j ∈ Job.check .data i ::ₘ rest := by
    rw [Multiset.mem_cons, or_iff_right fun hEq => hj (Job.check.inj hEq).2]
  have hMatch : fs.bytesMatch stored i p =
      decide (sha1 (stored.slice (i * fs'.pieceLength) p'.length) = p'.digest) := by
    rw [FileSet.bytesMatch, hCut.pieceLength_eq, Piece.length_of_outline hOutline,
      Piece.digest_of_outline hOutline]
  have hCursor := (hFrom.sameCut hCut).cursors p' (List.mem_of_getElem? hp')
  have hJudged :=
    Job.sameCut_judged (stored.slice (i * fs'.pieceLength) p'.length) hp'
  refine ⟨?_, hRest, fun job hJob => hDue job (Multiset.mem_cons_of_mem hJob),
    ⟨_, ?_, hCut.trans hJudged, ?_, ?_⟩, ?_⟩
  · rw [Job.tree_afterCheck, hTree]
  · rw [Job.download_afterCheck, hDownload, Download.endCheck, Multiset.card_cons,
      Nat.add_sub_cancel]
  · rw [Job.tree_afterCheck]
    exact hHolds
  · refine hPieces.judge hp hp' hCursor ?_ hNew hOthers
    rw [FileSet.isRight, hOpen, Bool.false_or, hMatch]
  · refine hTold.judge ?_ ?_ (Multiset.mem_cons_self _ _) hNew hOthers
    · rw [hDownload]
      rfl
    · rw [FileSet.mem_newlyRight_iff hp hOpen, hMatch, decide_eq_true_iff]

/-- A check is done when it is run, or fails in passing. -/
theorem work (hRecovering : Storage.Recovering holds) {blockSize : Nat} {digests : List Digest}
    (hKind : fs.kind = .data) (hFrom : fs.CutFrom blockSize digests)
    (hTotal : fs.totalLength ≤ stored.length) {job : Job}
    (h : Reviewing holds fs stored e (job ::ₘ rest) n t) :
    (job.work t).submitted = [] ∧
      ((job.work t).verdict = .done ∧ (∃ m ≤ n, Reviewing holds fs stored e rest m
          (job.work t).after) ∨
        (job.work t).verdict = .retry ∧ ∃ m < n, Reviewing holds fs stored e (job ::ₘ rest) m
          (job.work t).after) := by
  obtain ⟨i, hi, rfl⟩ := h.due job (Multiset.mem_cons_self _ _)
  obtain ⟨fs', hDownload, hCut, hHolds, hPieces⟩ := h.content
  obtain ⟨p, hp, -⟩ := Session.mem_unverified_iff.mp hi
  obtain ⟨p', hp', -⟩ := hCut.piece hp
  have hfs' : t.download.fileSet = some fs' := by rw [hDownload]
  have hStored : Job.StoredPiece t.download .data i fs' p' :=
    ⟨hfs', hCut.kind_eq.trans hKind, hp', (hPieces i p p' hp hp').1 (Multiset.mem_cons_self _ _)⟩
  have hInside : i * fs'.pieceLength + p'.length ≤ stored.length := by
    refine Nat.le_trans ((hFrom.sameCut hCut).end_le hp') ?_
    rw [hCut.totalLength_eq]
    exact hTotal
  obtain ⟨storage, ⟨hRun, m, hm, hHolds'⟩ | ⟨error, hRun, m, hm, hHolds'⟩⟩ :=
    Job.run_check_recovering hRecovering hStored hHolds hInside
  · have hAfter := h.setStorage hfs' hHolds'
    simp only [Job.work, hRun]
    exact ⟨rfl, .inl ⟨rfl, m, hm, hAfter.judge hFrom (hStored.setStorage storage).fileSet hp'⟩⟩
  · simp only [Job.work, hRun]
    exact ⟨rfl, .inr ⟨rfl, m, hm, h.setStorage hfs' hHolds'⟩⟩

/-- Once all checks were run as many pieces are verified as are right. -/
theorem piecesDone_eq (h : Reviewing holds fs stored e 0 n t) {blockSize : Nat}
    {digests : List Digest} (hFrom : fs.CutFrom blockSize digests)
    (hfs' : t.download.fileSet = some fs') :
    (Session.setUnverified .needed fs').piecesDone = fs.countRight stored := by
  obtain ⟨-, hCut, -, hPieces⟩ := h.content_eq hfs'
  exact Session.piecesDone_eq hFrom hCut fun i p p' hp hp' =>
    (hPieces i p p' hp hp').2 (Multiset.notMem_zero _)

end Reviewing

/-! ### The end -/

namespace Session

variable {c : PhaseConfig} {s : Session} {blockSize : Nat} {digests : List Digest}

theorem isDone_content {phase : PhaseId} {d : Download} (hPhase : phase ≠ .preMetadata)
    (hfs : d.fileSet = some fs) (hKind : fs.kind = .data) (hChecks : d.pendingChecks = 0) :
    phase.isDone d = (phase = .data && fs.piecesDone = fs.pieceCount : Bool) := by
  have hAll : fs.isDone = decide (fs.piecesDone = fs.pieceCount) := by
    rw [Bool.eq_iff_iff, decide_eq_true_iff, FileSet.isDone, FileSet.piecesDone,
      FileSet.pieceCount, List.countP_eq_length, List.all_eq_true]
  cases phase with
  | preMetadata => exact absurd rfl hPhase
  | metadata => simp [PhaseId.isDone, hfs, hKind]
  | data => simp [PhaseId.isDone, hfs, hKind, hChecks, hAll]
  | seed => simp [PhaseId.isDone]

/-- Whether a session goes on to seeding when its content was checked. -/
def completes (s : Session) (fs : FileSet) (stored : Bytes) : Bool :=
  s.phase = .data && fs.countRight stored = fs.pieceCount

/-- A session `s'` in which the content of `s` was checked: the right pieces are verified and the
others needed, nothing was written, each piece that turned out right was told of once, and the
session went on to seeding if all pieces are right and it was due. -/
structure Reviewed (s : Session) (holds : Storage → FileTree → Bytes → Nat → Prop) (fs : FileSet)
    (stored : Bytes) (s' : Session) : Prop where
  tree_eq : s'.engine.torrent.tree = s.engine.torrent.tree
  checks_eq : s'.download.pendingChecks = 0
  content : ∃ fs' m, s'.download.fileSet = some fs' ∧ FileSet.SameCut fs fs' ∧
    holds fs'.storage s'.engine.torrent.tree stored m ∧
    ∀ i p p', fs.pieces[i]? = some p → fs'.pieces[i]? = some p' →
      ∀ b ∈ p'.blocks, b.status = if fs.isRight stored i p then .verified else .needed
  phase_eq : s'.phase = if s.completes fs stored then .seed else s.phase
  told : ∃ order : List Nat, order.Perm (fs.newlyRight stored) ∧
    (s.engine.carryOutAll (order.flatMap s.download.announcement ++
      if s.completes fs stored then completion s.download else [])).torrent.Echoes s'.engine.torrent

/-- At first no check was run and nothing was told. -/
theorem reviewing_beginVerify (hChecks : s.download.pendingChecks = 0)
    (hHolds : holds fs.storage s.engine.torrent.tree stored n) :
    Reviewing holds fs stored s.engine ((unverified fs).map (Job.check .data) : List Job) n
      (s.beginVerify fs).engine.torrent := by
  rw [torrent_beginVerify]
  refine ⟨rfl, nodup_checks fs, fun job hJob => ?_, ⟨_, ?_, sameCut_setUnverified .stored fs,
    hHolds, settling_setUnverified (fun i => mem_checks) fun i p hp hDone => ?_⟩,
    told_of_due (fun i hi => ?_) ⟨rfl, rfl, rfl⟩⟩
  · obtain ⟨i, hi, rfl⟩ := List.mem_map.mp hJob
    exact ⟨i, hi, rfl⟩
  · have hNone : s.engine.torrent.download.pendingChecks = 0 := hChecks
    simp only [Torrent.change, Multiset.coe_card, List.length_map, hNone, Nat.zero_add]
    rfl
  · rw [FileSet.isRight, hDone, Bool.true_or]
  · exact mem_checks.mpr (List.mem_filter.mp hi).1

/-- The pieces at the end of a check, when none is due any more. -/
theorem status_of_settled {right : Nat → Piece → Bool} {due : Nat → Prop}
    (h : Settling fs fs' right due) (hNone : ∀ i, ¬ due i) (hCut : FileSet.SameCut fs fs')
    {q : Piece} (hp : fs.pieces[i]? = some p) (hq : (setUnverified .needed fs').pieces[i]? = some q)
    {b : Block} (hb : b ∈ q.blocks) : b.status = if right i p then .verified else .needed := by
  obtain ⟨p', hp', -⟩ := hCut.piece hp
  rw [getElem?_setUnverified, hp', Option.map_some] at hq
  obtain rfl := Option.some.inj hq
  rw [← (h i p p' hp hp').2 (hNone i)]
  cases hDone : p'.isDone with
  | true =>
    rw [hDone, if_pos rfl] at hb
    exact Piece.isDone_iff.mp hDone b hb
  | false =>
    rw [hDone, if_neg Bool.false_ne_true] at hb
    obtain ⟨b, -, rfl⟩ := List.mem_map.mp hb
    rfl

/-- Going on to seeding tells of the completion; the peers keep their lines. -/
theorem echoes_seeding (h : e.torrent.Echoes s.engine.torrent) :
    (e.carryOutAll (completion s.download)).torrent.Echoes s.seeding.engine.torrent := by
  have hLines (peer : PeerId) :
      (s.engine.torrent.change fun d => (PhaseId.enterSeed d).1).lineOf? peer =
        s.engine.torrent.lineOf? peer := by
    change (((s.engine.torrent.download.peers.map fun _ p => PhaseId.settle p).find? peer).map
      (·.line)) = _
    rw [Roster.find?_map, Option.map_map]
    rfl
  have hSettled : e.torrent.Echoes
      (s.engine.setDownload (PhaseId.enterSeed s.engine.download).1).torrent := h.change hLines
  exact Engine.echoes_carryOutAll hSettled _

/-- The end of a check once all checks were run. -/
theorem reviewed_concluded {s₁ : Session} (hPhase : s.phase ≠ .preMetadata)
    (hSame : s₁.phase = s.phase) (hKind : fs.kind = .data) (hFrom : fs.CutFrom blockSize digests)
    (h : Reviewing holds fs stored s.engine 0 n s₁.engine.torrent)
    (hfs' : s₁.download.fileSet = some fs') :
    s.Reviewed holds fs stored (s₁.concluded fs') := by
  obtain ⟨hDownload, hCut, hHolds, hPieces⟩ := h.content_eq hfs'
  have hNone (i : Nat) : .check .data i ∉ (0 : Multiset Job) := Multiset.notMem_zero _
  have hNeeded := sameCut_setUnverified .needed fs'
  have hDropped : (s₁.dropUnverified fs').download =
      { s.download with fileSet := some (setUnverified .needed fs'), pendingChecks := 0 } := by
    have hMade : (s₁.dropUnverified fs').download =
        { s₁.engine.torrent.download with fileSet := some (setUnverified .needed fs') } := rfl
    rw [hMade, hDownload]
    rfl
  have hDone : s₁.phase.isDone (s₁.dropUnverified fs').download = s.completes fs stored := by
    have hKind' := hNeeded.kind_eq.trans (hCut.kind_eq.trans hKind)
    rw [hSame, hDropped, isDone_content hPhase rfl hKind' rfl, h.piecesDone_eq hFrom hfs',
      hNeeded.pieceCount_eq, hCut.pieceCount_eq, completes]
  have hContent : ∃ fs'' m, some (setUnverified .needed fs') = some fs'' ∧
      FileSet.SameCut fs fs'' ∧ holds fs''.storage s.engine.torrent.tree stored m ∧
      ∀ i p p', fs.pieces[i]? = some p → fs''.pieces[i]? = some p' →
        ∀ b ∈ p'.blocks, b.status = if fs.isRight stored i p then .verified else .needed :=
    ⟨_, n, rfl, hCut.trans hNeeded, h.tree_eq ▸ hHolds,
      fun i p p' hp hp' b hb => status_of_settled hPieces hNone hCut hp hp' hb⟩
  obtain ⟨order, hNodup, hMem, hEchoes⟩ := h.told
  have hOrder : order.Perm (fs.newlyRight stored) := by
    rw [List.perm_ext_iff_of_nodup hNodup (fs.nodup_newlyRight stored)]
    intro i
    rw [hMem, and_iff_left (hNone i)]
  have hHeard : (s.engine.carryOutAll (order.flatMap s.download.announcement)).torrent.Echoes
      (s₁.dropUnverified fs').engine.torrent :=
    hEchoes.change (f := fun d => { d with fileSet := some (setUnverified .needed fs') })
      fun _ => rfl
  rw [concluded, hDone]
  cases hEnd : s.completes fs stored with
  | false =>
    rw [if_neg Bool.false_ne_true]
    refine ⟨h.tree_eq, by rw [hDropped], ?_, ?_, order, hOrder, ?_⟩
    · rw [hDropped]
      exact h.tree_eq ▸ hContent
    · rw [hEnd]
      exact hSame
    · rw [hEnd, if_neg Bool.false_ne_true, List.append_nil]
      exact hHeard
  | true =>
    have hKept := (s₁.dropUnverified fs').tree_seeding.trans h.tree_eq
    have hSeeding := (s₁.dropUnverified fs').download_seeding
    have hSaid := echoes_seeding hHeard
    rw [hDropped] at hSeeding hSaid
    rw [if_pos rfl]
    refine ⟨hKept, by rw [hSeeding]; rfl, ?_, ?_, order, hOrder, ?_⟩
    · rw [hSeeding, hKept]
      exact hContent
    · rw [hEnd]
      rfl
    · rw [hEnd, if_pos rfl, Engine.carryOutAll_append]
      exact hSaid

/-- The worker is patient with the checks of a content. -/
theorem patient_reviewing (hRecovering : Storage.Recovering holds) (hKind : fs.kind = .data)
    (hFrom : fs.CutFrom blockSize digests) (hTotal : fs.totalLength ≤ stored.length) :
    Scheduler.Patient Job.work (fun _ => 1) (Reviewing holds fs stored e) := by
  intro job rest n t h
  obtain ⟨hNone, hDone | hRetry⟩ := h.work hRecovering hKind hFrom hTotal
  · rw [hNone, List.map_nil, List.map_nil, List.sum_nil, Multiset.coe_nil, Multiset.zero_add]
    exact .inl ⟨hDone.1, Nat.one_pos, hDone.2⟩
  · exact .inr ⟨hRetry.1, hNone, hRetry.2⟩

/-- A check of a content is exact. On a storage that has as many bytes as the content, and of whose
reads `n` fail in passing at most, it comes back if it may wait for more than `n` of the longest
waits. It counts the pieces that were verified before or whose stored bytes have their digests;
these are verified then and the others are needed as a whole, the stored bytes are as before and no
check is pending, each piece that turned out right was told of once, and a session that downloads
goes on to seeding exactly if all pieces are right. -/
theorem Rested.verify_exact (h : s.Rested c fs) (hKind : fs.kind = .data)
    (hFrom : fs.CutFrom blockSize digests) (hChecks : s.download.pendingChecks = 0)
    (hRecovering : Storage.Recovering holds)
    (hHolds : holds fs.storage s.engine.torrent.tree stored n)
    (hTotal : fs.totalLength ≤ stored.length) {span : Time}
    (hSpan : n * (s.engine.scheduler.backoff.limit + Backoff.grain) < span) :
    ∃ s', s.verify span =
        (s', .ok (some { done := fs.countRight stored, total := fs.pieceCount })) ∧
      s.Reviewed holds fs stored s' := by
  have hCurrent : Job.current? s.download .data = some fs :=
    Job.current?_eq_some.mpr ⟨h.fileSet, hKind⟩
  have hBackoff : (s.beginVerify fs).engine.scheduler.backoff = s.engine.scheduler.backoff := by
    obtain ⟨queue, hScheduler, -⟩ := h.scheduler_beginVerify
    rw [hScheduler]
  have hBegun := s.reviewing_beginVerify hChecks hHolds
  rw [← h.bag_beginVerify] at hBegun
  obtain ⟨hAwake, hNone, m, hEnd⟩ := Scheduler.drain_patient
    (patient_reviewing hRecovering hKind hFrom hTotal) (fun _ => by decide) h.awake_beginVerify
    hBegun (hBackoff ▸ hSpan)
  have hIdle : ((s.beginVerify fs).drain span).engine.isIdle = true := hAwake.isIdle hNone
  obtain ⟨fs', hDownload, hCut, -⟩ := hEnd.content
  have hfs' : ((s.beginVerify fs).drain span).download.fileSet = some fs' :=
    congrArg Download.fileSet hDownload
  have hEnded := endVerify_content (s := (s.beginVerify fs).drain span) h.chain_eq h.phase_ne hfs'
    (hCut.kind_eq.trans hKind)
  have hCount := hEnd.piecesDone_eq hFrom hfs'
  have hPieceCount : (setUnverified .needed fs').pieceCount = fs.pieceCount :=
    (sameCut_setUnverified .needed fs').pieceCount_eq.trans hCut.pieceCount_eq
  refine ⟨((s.beginVerify fs).drain span).concluded fs', ?_,
    reviewed_concluded h.phase_ne rfl hKind hFrom hEnd hfs'⟩
  simp only [verify, hCurrent, hIdle, if_true, hEnded, hCount, hPieceCount]

/-! ### A mixed content

Of three pieces of a byte each one is asked for, one is verified and one is stored with a wrong
byte. The second read fails. -/

def mixedContent : FileSet :=
  { kind := .data, pieceLength := 1, totalLength := 3
    pieces := [
      (Piece.fresh 0 1 (sha1 [65]) 1).mark 0 .requested,
      (Piece.fresh 1 1 Digest.zero 1).mark 0 .verified,
      (Piece.fresh 2 1 Digest.zero 1).mark 0 .stored]
    storage := .scripted { bytes := [65, 66, 67], readPlan := [.none, .device] } }

/-- A session that downloads it and has one peer. -/
def mixedSession : Session :=
  { engine := { torrent :=
      { download := { Download.named Digest.zero 1 with
          fileSet := some mixedContent
          peers := Roster.empty.insert "p" (Peer.connected 0 1) }
        network := { lines := [{ capacity := 4 }], readers := Roster.empty.insert "p" 0 }
        events := { capacity := 4 }
        tree := { home := [] } } }
    chain := .standard World.oneByteConfig
    phase := .data }

theorem newlyRight_mixedContent : mixedContent.newlyRight [65, 66, 67] = [0] ∧
    mixedContent.countRight [65, 66, 67] = 2 := by
  decide +kernel

/-- The piece that was asked for is found, and told of once. -/
theorem verify_exact_mixedSession :
    ∃ s', mixedSession.verify 2000000000 = (s', .ok (some { done := 2, total := 3 })) ∧
      mixedSession.Reviewed Storage.Holds mixedContent [65, 66, 67] s' ∧ s'.phase = .data ∧
      s'.engine.torrent.network.waiting 0 = [.holds 0] ∧
      s'.engine.torrent.events.waiting = [.pieceVerified Digest.zero 0] := by
  have hFrom : mixedContent.CutFrom 1 [sha1 [65], Digest.zero, Digest.zero] := by
    refine ⟨by decide, rfl, rfl, fun p hp => ?_⟩
    simp only [mixedContent, List.mem_cons, List.not_mem_nil, or_false] at hp
    rcases hp with rfl | rfl | rfl <;> exact Nat.one_pos
  have hRested : mixedSession.Rested World.oneByteConfig mixedContent :=
    ⟨rfl, by decide, rfl, rfl, rfl⟩
  have hHolds : Storage.Holds mixedContent.storage mixedSession.engine.torrent.tree
      [65, 66, 67] 1 := .scripted _ (by decide) (by decide)
  obtain ⟨s', hVerify, hReviewed⟩ := hRested.verify_exact rfl hFrom rfl Storage.recovering_holds
    hHolds (Nat.le_refl 3) (by decide : 1 * (Backoff.standard.limit + Backoff.grain) < 2000000000)
  obtain ⟨hRight, hCount⟩ := newlyRight_mixedContent
  have hOpen : mixedSession.completes mixedContent [65, 66, 67] = false := by
    rw [completes, hCount]
    decide
  obtain ⟨order, hOrder, hEchoes⟩ := hReviewed.told
  rw [hRight, List.perm_singleton] at hOrder
  rw [hOrder, hOpen] at hEchoes
  rw [hCount] at hVerify
  refine ⟨s', hVerify, hReviewed, ?_, ?_, ?_⟩
  · rw [hReviewed.phase_eq, hOpen]
    rfl
  · rw [hEchoes.network_eq]
    decide
  · rw [hEchoes.events_eq]
    rfl

end Session

end TorrentEngine
