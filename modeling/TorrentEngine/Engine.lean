import TorrentEngine.Disk.Job
import TorrentEngine.Phase.Chain

/-!
A torrent together with the scheduler of its jobs: the place where input is applied, effects are
carried out and jobs are run.
-/

namespace TorrentEngine

/-- A torrent and its outstanding jobs. -/
structure Engine where
  torrent : Torrent
  scheduler : Scheduler Job := {}

namespace Engine

def download (e : Engine) : Download := e.torrent.download

def setDownload (e : Engine) (d : Download) : Engine :=
  { e with torrent := { e.torrent with download := d } }

def submit (e : Engine) (job : Job) : Engine :=
  { e with scheduler := e.scheduler.submit job.priority job }

/-- Saves a file, with the folders above it, unless something stands there already. -/
def saveNew (t : FileTree) (p : Path) (bytes : Bytes) : FileTree :=
  match t.exists? p with
  | .ok true => t
  | _ => t.putFile p bytes

/-- Carries out an effect. A failure to do so has no further consequence. -/
def carryOut (e : Engine) : Effect → Engine
  | .send peer m => { e with torrent := e.torrent.send peer m }
  | .store kind i block data => e.submit (.store kind i block data)
  | .upload peer i offset length =>
    match e.torrent.lineOf? peer with
    | none => e
    | some line => e.submit (.send peer line i offset length)
  | .allocate layout =>
    { e with torrent := { e.torrent with tree := (layout.allocate e.torrent.tree).1 } }
  | .persist path bytes =>
    { e with torrent := { e.torrent with tree := saveNew e.torrent.tree path bytes } }
  | .notify event => { e with torrent := e.torrent.notify event }

def carryOutAll (e : Engine) (effects : List Effect) : Engine := effects.foldl carryOut e

/-- Applies input from a peer and gives the effects that it calls for. -/
def handle (e : Engine) (now : Time) (c : Command) : Engine × Except PieceError (List Effect) :=
  let (d, result) := e.download.handle now c
  (e.setDownload d, result)

def tick (e : Engine) (relevant : List PeerId) (now : Time) : Engine × List Effect :=
  let (d, effects) := e.download.tick relevant now
  (e.setDownload d, effects)

/-- Runs a job once, outside the queue. The jobs that it submits are queued. -/
def process (e : Engine) (job : Job) : Engine × JobEnd :=
  let o := job.run e.torrent
  (o.submitted.foldl submit { e with torrent := o.after }, o.ended)

/-- Runs queued jobs for at most `span`, or until every job has finished. -/
def drain (e : Engine) (span : Time) : Engine :=
  let (scheduler, torrent) := e.scheduler.drain Job.work span e.torrent
  { torrent, scheduler }

def isIdle (e : Engine) : Bool := e.scheduler.isIdle

def changeNetwork (e : Engine) (f : Network → Network) : Engine :=
  { e with torrent := { e.torrent with network := f e.torrent.network } }

def changeTree (e : Engine) (f : FileTree → FileTree) : Engine :=
  { e with torrent := { e.torrent with tree := f e.torrent.tree } }

/-- The events reported so far, and the engine after they were taken. -/
def takeEvents (e : Engine) : List Event × Engine :=
  let events := e.torrent.events
  (events.waiting, { e with torrent := { e.torrent with events := events.drain } })

end Engine

end TorrentEngine
