import TorrentEngine.Engine

/-!
The session of one torrent: an engine that goes along a chain of phases. Input, scheduling passes
and phase changes are applied here, and every effect is carried out at once. `Session.verify` checks
what is on disk already, and `Session.live` lets time pass with a scheduling pass at each interval.
-/

namespace TorrentEngine

/-- Why a session cannot begin or go on. -/
inductive SessionError
  | configuration (cause : ConfigurationError)
  | phase (cause : PhaseError)
  deriving DecidableEq, Repr

def SessionError.message : SessionError → String
  | .configuration cause => cause.message
  | .phase cause => cause.message

/-- An engine in one phase of a chain. -/
structure Session where
  engine : Engine
  chain : PhaseChain
  phase : PhaseId

/-- What came of checking the data on disk. -/
structure VerifyReport where
  done : Nat
  total : Nat
  deriving DecidableEq, Repr

namespace Session

def download (s : Session) : Download := s.engine.download

def changeEngine (s : Session) (f : Engine → Engine) : Session := { s with engine := f s.engine }

def change (s : Session) (f : Download → Download) : Session :=
  s.changeEngine fun e => e.setDownload (f e.download)

/-- The number of phase changes in a row after which no more are tried. -/
def changeLimit : Nat := 64

/-- Goes through phases that are done, at most `limit` of them. The effects of a change that failed
are not carried out. -/
def advanceUpTo : (limit : Nat) → Session → Session × Except PhaseError Unit
  | 0, s => (s, .ok ())
  | limit + 1, s =>
    let (d, effects, result) := s.chain.advance s.phase s.download
    let changed := s.changeEngine (·.setDownload d)
    match result with
    | .failed e => (changed, .error e)
    | .stay => (changed.changeEngine (·.carryOutAll effects), .ok ())
    | .moved phase =>
      advanceUpTo limit { changed.changeEngine (·.carryOutAll effects) with phase }

def advance (s : Session) : Session × Except PhaseError Unit := advanceUpTo changeLimit s

/-- The session of a torrent in the first phase of a chain that is not done already. -/
def start (torrent : Torrent) (chain : PhaseChain) : Session × Except SessionError Unit :=
  let fresh : Session := { engine := { torrent }, chain, phase := chain.initial }
  match chain.first with
  | .error e => (fresh, .error (.configuration e))
  | .ok phase =>
    match phase.enter chain.config torrent.download with
    | .error e => (fresh, .error (.phase e))
    | .ok (d, effects) =>
      let s := { fresh with phase }.changeEngine fun e => (e.setDownload d).carryOutAll effects
      match s.advance with
      | (s, .ok ()) => (s, .ok ())
      | (s, .error e) => (s, .error (.phase e))

/-- Applies input from a peer. Input that is refused has no effects. -/
def command (s : Session) (now : Time) (c : Command) : Session :=
  match s.engine.handle now c with
  | (e, .ok effects) => { s with engine := e.carryOutAll effects }
  | (e, .error _) => { s with engine := e }

/-- A scheduling pass over the peers named, with its effects carried out. -/
def pass (s : Session) (relevant : List PeerId) (now : Time) : Session :=
  let (e, effects) := s.engine.tick relevant now
  { s with engine := e.carryOutAll effects }

/-- A scheduling pass: phase changes first, then the peers that the phase schedules. -/
def tick (s : Session) (now : Time) : Session × Except PhaseError Unit :=
  match s.advance with
  | (s, .error e) => (s, .error e)
  | (s, .ok ()) => (s.pass (s.phase.relevantPeers s.download) now, .ok ())

/-- Runs jobs for at most `span`, or until all have finished. -/
def drain (s : Session) (span : Time) : Session := s.changeEngine (·.drain span)

/-! ## Checking what is on disk -/

def setAll (status : BlockStatus) (p : Piece) : Piece :=
  { p with blocks := p.blocks.map fun b => { b with status } }

/-- The file set with every block of the unverified pieces of the same status. -/
def setUnverified (status : BlockStatus) (fs : FileSet) : FileSet :=
  { fs with pieces := fs.pieces.map fun p => if p.isDone then p else setAll status p }

def unverified (fs : FileSet) : List Nat :=
  (fs.pieces.zipIdx.filter fun e => !e.1.isDone).map (·.2)

/-- Takes every unverified piece for stored and has it checked. -/
def beginVerify (s : Session) (fs : FileSet) : Session :=
  let pieces := unverified fs
  let marked := s.change fun d =>
    { d with
      fileSet := some (setUnverified .stored fs)
      pendingChecks := d.pendingChecks + pieces.length }
  marked.changeEngine fun e => pieces.foldl (fun e i => e.submit (.check .data i)) e

/-- Makes every unverified piece of a file set needed again. -/
def dropUnverified (s : Session) (fs : FileSet) : Session :=
  s.change fun d => { d with fileSet := some (setUnverified .needed fs) }

/-- Counts the verified pieces, makes the others needed again, and goes on to the next phase if that
is due. -/
def endVerify (s : Session) : Session × Except PhaseError VerifyReport :=
  match s.download.fileSet with
  | none => (s, .error .missingMetadata)
  | some fs =>
    match (s.dropUnverified fs).advance with
    | (s, .error e) => (s, .error e)
    | (s, .ok ()) =>
      let fs := setUnverified .needed fs
      (s, .ok { done := fs.piecesDone, total := fs.pieceCount })

/-- Checks the data on disk, waiting at most `span` for it; `none` when the wait was in vain. -/
def verify (s : Session) (span : Time) : Session × Except PhaseError (Option VerifyReport) :=
  match Job.current? s.download .data with
  | none => (s, .error .missingMetadata)
  | some fs =>
    let s := (beginVerify s fs).drain span
    if s.engine.isIdle then
      match s.endVerify with
      | (s, .ok report) => (s, .ok (some report))
      | (s, .error e) => (s, .error e)
    else (s, .ok none)

/-! ## Living through time -/

/-- Lets `span` pass in which a scheduling pass is due after `wait` and then every `interval`, and
gives the wait that is left at the end. A pass that fails ends the session. -/
def liveUpTo (interval : Time) :
    (limit : Nat) → (wait span : Time) → Session → Session × Except PhaseError Time
  | 0, wait, _, s => (s, .ok wait)
  | limit + 1, wait, span, s =>
    if span < wait then (s.drain span, .ok (wait - span))
    else
      match (s.drain wait).tick 0 with
      | (s, .error e) => (s, .error e)
      | (s, .ok ()) => liveUpTo interval limit interval (span - wait) s

/-- Lets time pass, with scheduling passes at regular intervals. -/
def live (interval wait span : Time) (s : Session) : Session × Except PhaseError Time :=
  liveUpTo interval (span / interval + 2) wait span s

end Session

end TorrentEngine
