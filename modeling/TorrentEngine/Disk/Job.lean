import TorrentEngine.Disk.Scheduler
import TorrentEngine.Torrent

/-!
The jobs of a torrent that touch its storage: storing a block that came, checking the digest of a
piece whose blocks are all stored, and sending a block to a peer. Each job first looks at the
torrent and settles what to ask of the storage, or that nothing is to be asked; then comes the one
call to the storage; then the torrent is changed by what the call gave. A job for a file set that
has been replaced by one of another kind has nothing to do.
-/

namespace TorrentEngine

/-- A unit of work on the storage of a torrent. -/
inductive Job
  | store (kind : FileSetKind) (piece block : Nat) (data : Bytes)
  | check (kind : FileSetKind) (piece : Nat)
  | send (peer : PeerId) (line : LineId) (piece offset length : Nat)
  deriving DecidableEq, Repr

/-- Why a job failed. -/
inductive JobError
  | piece (cause : PieceError)
  | storage (cause : StorageError)
  deriving DecidableEq, Repr

/-- Whether trying again may help: only device failures pass. -/
def JobError.isRetryable : JobError → Bool
  | .storage (.io _) => true
  | _ => false

def JobError.message : JobError → String
  | .piece cause => cause.message
  | .storage cause => cause.message

/-- How one run of a job came out. -/
inductive JobEnd
  | done
  | failed (cause : JobError)
  | crashed
  deriving DecidableEq, Repr

/-- What becomes of a job: one that crashed, or that failed for good, is dropped. -/
def JobEnd.verdict : JobEnd → Verdict
  | .done => .done
  | .failed cause => if cause.isRetryable then .retry else .dropped
  | .crashed => .dropped

namespace Job

/-- The priority of a job: sending before checking before storing. -/
def priority : Job → Nat
  | .store .. => 10
  | .check .. => 3
  | .send .. => 0

def name : Job → String
  | .store .. => "store-block"
  | .check .. => "check-hash"
  | .send .. => "send-block"

def piece : Job → Nat
  | .store _ piece _ _ => piece
  | .check _ piece => piece
  | .send _ _ piece _ _ => piece

/-- What one run of a job came to: how it came out, the torrent after it, and the jobs that it
submitted. -/
structure Outcome where
  ended : JobEnd
  after : Torrent
  submitted : List Job := []

def current? (d : Download) (kind : FileSetKind) : Option FileSet :=
  d.fileSet.filter (·.kind = kind)

/-! ## Storing a block -/

/-- Whether a block is to be written, and where. A block that does not fit its place becomes needed
again; one that is held already is not written twice. -/
def prepareStore (d : Download) (kind : FileSetKind) (i block length : Nat) :
    Download × Except JobEnd Nat :=
  match current? d kind with
  | none => (d, .error .done)
  | some fs =>
    match fs.piece i with
    | .error e => (d, .error (.failed (.piece e)))
    | .ok p =>
      match p.checkBlock block length with
      | .error e =>
        (d.changeFileSet (·.setPiece i (p.mark block .needed)), .error (.failed (.piece e)))
      | .ok () =>
        if (p.blocks[block]?).any (·.status.isHeld) then (d, .error .done)
        else (d, .ok (fs.globalOffset i 0 + p.blockOffset block))

/-- Marks a written block as stored, and has the piece checked once all of it is. -/
def commitStore (t : Torrent) (kind : FileSetKind) (i block length : Nat) : Outcome :=
  match (current? t.download kind).bind (·.piece? i) with
  | none => { ended := .done, after := t }
  | some p =>
    match p.store block length with
    | .error e => { ended := .failed (.piece e), after := t }
    | .ok p =>
      let d := t.download.changeFileSet (·.setPiece i p)
      if p.isFullyStored && !p.isDone then
        { ended := .done
          after := { t with download := { d with pendingChecks := d.pendingChecks + 1 } }
          submitted := [.check kind i] }
      else { ended := .done, after := { t with download := d } }

def finishStore (t : Torrent) (kind : FileSetKind) (i block length : Nat) : Reply Unit → Outcome
  | .done () => commitStore t kind i block length
  | .failed e => { ended := .failed (.storage e), after := t }
  | .crashed => { ended := .crashed, after := t }

def runStore (t : Torrent) (kind : FileSetKind) (i block : Nat) (data : Bytes) : Outcome :=
  match prepareStore t.download kind i block data.length with
  | (d, .error ended) => { ended, after := { t with download := d } }
  | (d, .ok offset) =>
    match d.fileSet with
    | none => { ended := .done, after := { t with download := d } }
    | some fs =>
      let (reply, storage, tree) := fs.storage.write t.tree offset data
      finishStore ({ t with download := d, tree }.setStorage storage) kind i block data.length reply

/-! ## Checking a piece -/

/-- Whether a piece is to be read for its digest, and which range. The check is over where there is
nothing to read. -/
def prepareCheck (d : Download) (kind : FileSetKind) (i : Nat) :
    Download × Except JobEnd (Nat × Nat) :=
  match current? d kind with
  | none => (d.endCheck, .error .done)
  | some fs =>
    match fs.piece i with
    | .error e => (d.endCheck, .error (.failed (.piece e)))
    | .ok p =>
      if p.isFullyStored then (d, .ok (fs.globalOffset i 0, p.length))
      else (d.endCheck, .error (.failed (.piece (.notStored i))))

/-- Tells what a verified piece makes known: verified metadata become those of the torrent, and
peers are told of a verified piece of the content. -/
def announcePiece (t : Torrent) (kind : FileSetKind) (i : Nat) (data : Bytes) : Torrent :=
  let t := match kind with
    | .metadata => t.change fun d => { d with metadataBytes := some data }
    | .data => t.sendToAll (.holds i)
  t.notify (.pieceVerified t.download.infoHash i)

/-- Ends a check by the digest of what was read. A mismatch opens one block again. -/
def commitCheck (t : Torrent) (kind : FileSetKind) (i : Nat) (data : Bytes) : Outcome :=
  let t := t.change (·.endCheck)
  match (current? t.download kind).bind (·.piece? i) with
  | none => { ended := .done, after := t }
  | some p =>
    match p.checkDigest data with
    | .error e => { ended := .failed (.piece e), after := t }
    | .ok (true, p) =>
      { ended := .done
        after := announcePiece (t.change (·.changeFileSet (·.setPiece i p))) kind i data }
    | .ok (false, p) =>
      { ended := .done, after := t.change (·.changeFileSet (·.setPiece i p.reopen.2)) }

/-- A check that could not read is over unless it will be tried again. -/
def failCheck (t : Torrent) (e : StorageError) : Outcome :=
  let cause := JobError.storage e
  { ended := .failed cause
    after := if cause.isRetryable then t else t.change (·.endCheck) }

def finishCheck (t : Torrent) (kind : FileSetKind) (i : Nat) : Reply Bytes → Outcome
  | .done data => commitCheck t kind i data
  | .failed e => failCheck t e
  | .crashed => { ended := .crashed, after := t }

def runCheck (t : Torrent) (kind : FileSetKind) (i : Nat) : Outcome :=
  match prepareCheck t.download kind i with
  | (d, .error ended) => { ended, after := { t with download := d } }
  | (d, .ok (offset, length)) =>
    match d.fileSet with
    | none => { ended := .done, after := { t with download := d } }
    | some fs =>
      let (reply, storage) := fs.storage.read t.tree offset length
      finishCheck ({ t with download := d }.setStorage storage) kind i reply

/-! ## Sending a block -/

/-- Where the bytes for a peer are, if they are available. -/
def prepareSend (d : Download) (i offset length : Nat) : Except PieceError Nat :=
  match current? d .data with
  | none => .error (.unknownPiece i)
  | some fs => do
    let p ← fs.piece i
    p.checkRange offset length
    return fs.globalOffset i offset

/-- Queues the bytes on the line of the peer that asked, and counts them for the peer if they were
taken. -/
def commitSend (t : Torrent) (peer : PeerId) (line : LineId) (i offset : Nat) (data : Bytes) :
    Outcome :=
  match t.network.send? line (.block i offset data) with
  | none => { ended := .done, after := t }
  | some network =>
    let d := t.download.changePeer peer fun p => { p with uploaded := p.uploaded + data.length }
    { ended := .done, after := { t with network, download := d } }

def finishSend (t : Torrent) (peer : PeerId) (line : LineId) (i offset : Nat) :
    Reply Bytes → Outcome
  | .done data => commitSend t peer line i offset data
  | .failed e => { ended := .failed (.storage e), after := t }
  | .crashed => { ended := .crashed, after := t }

def runSend (t : Torrent) (peer : PeerId) (line : LineId) (i offset length : Nat) : Outcome :=
  match prepareSend t.download i offset length with
  | .error e => { ended := .failed (.piece e), after := t }
  | .ok position =>
    match t.download.fileSet with
    | none => { ended := .done, after := t }
    | some fs =>
      let (reply, storage) := fs.storage.read t.tree position length
      finishSend (t.setStorage storage) peer line i offset reply

/-! ## Running jobs -/

def run (job : Job) (t : Torrent) : Outcome :=
  match job with
  | .store kind i block data => runStore t kind i block data
  | .check kind i => runCheck t kind i
  | .send peer line i offset length => runSend t peer line i offset length

def work (job : Job) (t : Torrent) : JobRun Job Torrent :=
  let o := job.run t
  { verdict := o.ended.verdict
    after := o.after
    submitted := o.submitted.map fun job => (job.priority, job) }

end Job

end TorrentEngine
