import TorrentEngine.Check
import TorrentEngine.CommandLine.Help
import TorrentEngine.Metainfo.Summary
import TorrentEngine.Settings.File

/-!
The program as a function: from its arguments, the environment and the files to what it prints, the
code it ends with and the files after it.
-/

namespace TorrentEngine

/-- What the program finds around it: the environment variables, and the folders below which
programs keep their settings and their data. -/
structure Environment where
  bindings : List (String × String)
  configHome : Path
  dataHome : Path
  deriving Repr

/-- What the program prints, and the code that it ends with. -/
structure Output where
  text : String := ""
  code : Nat := 0
  deriving DecidableEq, Repr

namespace Program

def configFolder (e : Environment) : Path := e.configHome.push programName

def dataFolder (e : Environment) : Path := e.dataHome.push programName

def settingsFile (e : Environment) : Path := (configFolder e).push "settings.toml"

def logFolder (e : Environment) : Path := (dataFolder e).push "logs"

/-- Makes the folders of the program, and tells whether both are there. -/
def makeAppFolders (e : Environment) (t : FileTree) : FileTree × Bool :=
  match t.makeFolders (configFolder e) with
  | (t, .error _) => (t, false)
  | (t, .ok ()) =>
    match t.makeFolders (dataFolder e) with
    | (t, .error _) => (t, false)
    | (t, .ok ()) => (t, true)

/-- The settings that hold, given whether there is a folder for their file. What is no file counts
as none; a file that is no text leaves the usual settings. -/
def loadSettings (e : Environment) (t : FileTree) (hasFolders : Bool) : Settings :=
  if !hasFolders then Settings.load none e.bindings
  else
    match t.readFile (settingsFile e) with
    | .error _ => Settings.load none e.bindings
    | .ok bytes =>
      match Bytes.text? bytes with
      | none => {}
      | some text => Settings.load (some text) e.bindings

/-- The time after which a check that makes no progress is given up. -/
def patience : Time := 3600 * RequestBudget.second

def reportLine (r : VerifyReport) : String := s!"{r.done}/{r.total} pieces verified\n"

/-- Carries out a task. A failure ends the program with code one. -/
def perform (task : Task) (s : Settings) (folder : Path) (t : FileTree) : FileTree × Output :=
  match task with
  | .inspect torrent =>
    match loadTorrent t ⟨torrent⟩ with
    | .error _ => (t, { code := 1 })
    | .ok m => (t, { text := m.summary })
  | .check torrent dir =>
    match loadTorrent t ⟨torrent⟩ with
    | .error _ => (t, { code := 1 })
    | .ok m =>
      match checkData m s (checkConfig (dir.map Path.mk) s folder) patience t with
      | (t, .ok (some report)) => (t, { text := reportLine report })
      | (t, _) => (t, { code := 1 })

/-- What is printed where no task is named. A mistake is not told on standard output. -/
def refuse : Refusal → Output
  | .help page => { text := page.text }
  | .version => { text := versionLine }
  | _ => { code := 2 }

/-- Runs the program. Its folders are made first; without a place for its log it ends at once. -/
def run (args : List String) (e : Environment) (t : FileTree) : FileTree × Output :=
  let (t, hasFolders) := makeAppFolders e t
  let settings := loadSettings e t hasFolders
  let (logs, folder) : Path × Path :=
    if hasFolders then (logFolder e, dataFolder e) else (⟨"logs"⟩, ⟨"."⟩)
  match t.makeFolders logs with
  | (t, .error _) => (t, { code := 1 })
  | (t, .ok ()) =>
    match CommandLine.parse args with
    | .error refusal => (t, refuse refusal)
    | .ok task => perform task settings folder t

/-- The paths at which a run looks, as far as the files known so far tell: those of its settings and
its log, the torrent file, and what a check of that torrent needs. -/
def sought (args : List String) (e : Environment) (t : FileTree) : List Path :=
  let settings := loadSettings e t true
  let ofTask : List Path := match CommandLine.parse args with
    | .error _ => []
    | .ok (.inspect torrent) => [⟨torrent⟩]
    | .ok (.check torrent dir) =>
      match loadTorrent t ⟨torrent⟩ with
      | .error _ => [⟨torrent⟩]
      | .ok m =>
        ⟨torrent⟩ :: checkPaths m settings (checkConfig (dir.map Path.mk) settings (dataFolder e))
  settingsFile e :: logFolder e :: ofTask

end Program

end TorrentEngine
