import TorrentEngine.Proofs.Turns
import TorrentEngine.Session

/-!
Runs of one torrent. A world is a session together with what its disk holds; each step applies one
input, one scheduling pass, one phase change, the beginning or the end of a check of the disk, or
one run of an outstanding job, in any order. The phases come in the order of the standard chain.
-/

namespace TorrentEngine

/-- A torrent at the very beginning: named only, or with its `.torrent` file. -/
inductive Download.Fresh : Download → Prop
  | named (infoHash : Digest) (limit : Nat) (window : Time) :
      Fresh { Download.named infoHash limit with window }
  | known (infoHash : Digest) (limit : Nat) (window : Time) (m : Metainfo) :
      Fresh ({ Download.named infoHash limit with window }.withMetainfo m)

/-- It has the strategies of the first phase already. -/
theorem Download.Fresh.defaults {d : Download} (h : d.Fresh) :
    { d with selector := .null, choking := .metadata } = d := by
  cases h <;> rfl

/-- A session, what its disk holds, and the number of checks of the disk that are under way. -/
structure World where
  session : Session
  disk : Bytes
  verifying : Nat := 0

namespace World

/-- The state of the torrent. -/
def download (w : World) : Download := w.session.download

/-- The jobs that have not finished. -/
def jobs (w : World) : Multiset Job := w.session.engine.bag

/-- A world in which nothing has happened yet. -/
structure Fresh (c : PhaseConfig) (w : World) : Prop where
  chain_eq : w.session.chain = .standard c
  phase_eq : w.session.phase = .preMetadata
  download : w.download.Fresh
  noJobs : w.jobs = 0
  notVerifying : w.verifying = 0

/-- The session after one run of an entry taken out of its scheduler. -/
def settleRun (s : Session) (rest : Scheduler Job) (entry : QueuedJob Job) (o : Job.Outcome) :
    Session :=
  s.changeEngine fun _ =>
    { torrent := o.after
      scheduler := (rest.submitAll (o.submitted.map fun job => (job.priority, job))).settle entry
        o.ended.verdict }

/-- One step of a world whose devices may miss as `may` allows. -/
inductive Step (may : Miss → Prop) (w : World) : World → Prop
  | command (now : Time) (c : Command) : Step may w { w with session := w.session.command now c }
  | pass (relevant : List PeerId) (now : Time) :
      Step may w { w with session := w.session.pass relevant now }
  | advance : Step may w { w with session := (w.session.advanceUpTo 1).1 }
  | beginVerify {fs : FileSet} (h : Job.current? w.download .data = some fs) :
      Step may w { w with session := w.session.beginVerify fs, verifying := w.verifying + 1 }
  | endVerify {fs : FileSet} (h : w.download.fileSet = some fs) (hBegun : 0 < w.verifying) :
      Step may w { w with session := w.session.dropUnverified fs, verifying := w.verifying - 1 }
  | execute {entry : QueuedJob Job} {rest : Scheduler Job} {o : Job.Outcome} {disk : Bytes}
      (hTake : w.session.engine.scheduler.Takes entry rest)
      (hRun : Job.Executes may w.session.engine.torrent w.disk entry.job o disk) :
      Step may w { w with session := settleRun w.session rest entry o, disk }
  | elapse (now : Time) :
      Step may w { w with session := w.session.changeEngine fun e =>
        { e with scheduler := { e.scheduler with now }.wake } }
  | surroundings (network : Network) (events : Channel Event) (tree : FileTree) :
      Step may w { w with session := w.session.changeEngine fun e =>
        { e with torrent := { e.torrent with network, events, tree } } }

/-- A world that some run reaches. -/
inductive Reachable (c : PhaseConfig) (may : Miss → Prop) : World → Prop
  | fresh {w : World} (h : Fresh c w) : Reachable c may w
  | step {w w' : World} (h : Reachable c may w) (hStep : Step may w w') : Reachable c may w'

/-! ### Whole operations are runs of steps -/

variable {c : PhaseConfig} {may : Miss → Prop} {w : World}

/-- Going on by several phases is going on by one again and again. -/
theorem Reachable.advanceUpTo (h : Reachable c may w) (limit : Nat) :
    Reachable c may { w with session := (w.session.advanceUpTo limit).1 } := by
  induction limit generalizing w with
  | zero => exact h
  | succ limit ih =>
    have hOne := h.step .advance
    have hMore := ih hOne
    simp only [Session.advanceUpTo] at hOne hMore ⊢
    split at hOne <;> simp_all

theorem Reachable.tick (h : Reachable c may w) (now : Time) :
    Reachable c may { w with session := (w.session.tick now).1 } := by
  have hAdvanced := h.advanceUpTo Session.changeLimit
  simp only [Session.tick, Session.advance]
  split
  · next s e hResult =>
    rwa [hResult] at hAdvanced
  · next s hResult =>
    rw [hResult] at hAdvanced
    exact hAdvanced.step (.pass _ now)

theorem Reachable.endVerify (h : Reachable c may w) (hBegun : 0 < w.verifying)
    (hfs : w.download.fileSet.isSome) :
    Reachable c may
      { w with session := w.session.endVerify.1, verifying := w.verifying - 1 } := by
  obtain ⟨fs, hfs⟩ := Option.isSome_iff_exists.mp hfs
  have hEnded := (h.step (.endVerify hfs hBegun)).advanceUpTo Session.changeLimit
  have hSession : w.session.download.fileSet = some fs := hfs
  simp only [Session.endVerify, hSession, Session.advance]
  split <;> simp_all

/-- The session of a fresh torrent starts on a run. -/
theorem reachable_start {torrent : Torrent} (hFresh : torrent.download.Fresh) (disk : Bytes) :
    Reachable c may { session := (Session.start torrent (.standard c)).1, disk } := by
  have h : Reachable c may
      { session := { engine := { torrent }, chain := .standard c, phase := .preMetadata }, disk } :=
    .fresh ⟨rfl, rfl, hFresh, rfl, rfl⟩
  have hAdvanced := h.advanceUpTo Session.changeLimit
  have hFirst : (PhaseChain.standard c).first = .ok .preMetadata := rfl
  simp only [Session.start, hFirst, PhaseId.enter, hFresh.defaults, Session.advance]
  split <;> simp_all [Session.changeEngine, Engine.setDownload, Engine.carryOutAll]

/-! ### A short run

A torrent of one byte, which is on disk already, is known from the start: after two phase changes
its disk is checked. -/

/-- A torrent of one byte. -/
def oneByte : Metainfo :=
  { infoBytes := [0]
    info :=
      { pieceLength := 1
        pieces := [0x6d, 0xcd, 0x4c, 0xe2, 0x3d, 0x88, 0xe2, 0xee, 0x95, 0x68, 0xba, 0x54, 0x6c,
          0x00, 0x7c, 0x63, 0xd9, 0x13, 0x1c, 0x1b]
        name := "a"
        length := 1 } }

/-- Its folders. -/
def oneByteConfig : PhaseConfig :=
  { downloadFolder := ⟨"dl"⟩, metadataFolder := ⟨"meta"⟩, blockSize := 1 }

/-- The content before anything of it is known to be there. -/
def oneByteContent : FileSet :=
  { kind := .data
    pieceLength := 1
    totalLength := 1
    pieces := FileSet.cut 1 1 1 oneByte.pieceDigests
    storage := .disk (.ofMetainfo ⟨"dl"⟩ oneByte) }

/-- The beginning of the run. -/
def oneByteStart : World :=
  { session :=
      { engine := { torrent :=
          { download := (Download.named Digest.zero 1).withMetainfo oneByte
            events := { capacity := 0 }
            tree := { home := [] } } }
        chain := .standard oneByteConfig
        phase := .preMetadata }
    disk := [65] }

/-- The world while its disk is being checked. -/
def oneByteChecking : World :=
  { oneByteStart with
    session := (oneByteStart.session.advanceUpTo 2).1.beginVerify oneByteContent
    verifying := 1 }

/-- The check that is outstanding then, and what is left of the scheduler without it. -/
def oneByteCheck : QueuedJob Job :=
  { priority := 3, sequence := 0, attempts := 0, job := .check .data 0 }

def oneByteRest : Scheduler Job :=
  { oneByteChecking.session.engine.scheduler with queue := { nextSequence := 1 } }

/-- What the check comes to. -/
def oneByteOutcome : Job.Outcome :=
  Job.finishCheck oneByteChecking.session.engine.torrent .data 0 (.done [65])

/-- The world after the check. -/
def oneByteVerified : World :=
  { oneByteChecking with
    session := settleRun oneByteChecking.session oneByteRest oneByteCheck oneByteOutcome }

theorem reachable_oneByteChecking : Reachable oneByteConfig may oneByteChecking := by
  have hStart : Reachable oneByteConfig may oneByteStart :=
    .fresh ⟨rfl, rfl, .known Digest.zero 1 _ oneByte, rfl, rfl⟩
  have hCurrent : Job.current? (oneByteStart.session.advanceUpTo 2).1.download .data =
      some oneByteContent := rfl
  exact (hStart.advanceUpTo 2).step (.beginVerify hCurrent)

theorem reachable_oneByteVerified : Reachable oneByteConfig may oneByteVerified := by
  have hQueue : oneByteChecking.session.engine.scheduler.queue.entries =
      [] ++ oneByteCheck :: [] := rfl
  have hTake : oneByteChecking.session.engine.scheduler.Takes oneByteCheck oneByteRest :=
    .waiting hQueue
  have hPrepared : Job.prepareCheck oneByteChecking.download .data 0 =
      (oneByteChecking.download, .ok (0, 1)) := rfl
  have hfs : oneByteChecking.download.fileSet =
      some (Session.setUnverified .stored oneByteContent) := rfl
  have hRead : Reads may (Storage.content oneByteChecking.disk
      (Session.setUnverified .stored oneByteContent).storage) 0 1 (.done [65]) :=
    .done (b := [65]) (by decide)
  exact reachable_oneByteChecking.step (.execute hTake (.checkRead hPrepared hfs hRead))

end World

end TorrentEngine
