import TorrentEngine.Settings.Environment
import TorrentEngine.Toml.Reader

/-!
The settings file. Settings are read from a TOML document under environment variables, and written
as one line for each setting.
-/

namespace TorrentEngine.Settings

open Toml (Document)

/-- The settings that a document and variables make, of which the variables count. -/
def combine (d : Document) (env : List (String × String)) : Option Settings :=
  ofValues fun name => (Environment.value? env name).or (d.value? name)

/-- The settings of a file and variables, and the usual ones where either is of no use. Without a
file only the variables count. -/
def load (file : Option String) (env : List (String × String)) : Settings :=
  let document : Option Document := match file with
    | none => some {}
    | some text => Document.parse text
  (document.bind fun d => combine d env).getD {}

def fileLine (name value : String) : String := name ++ " = " ++ value ++ "\n"

def printText (s : String) : String := String.ofList (Toml.Text.print s.toList)

def maxNumber : Nat := 0x7fffffffffffffff

def isPrintable (s : Settings) : Bool :=
  [s.blockSize, s.tickIntervalMs, s.initialRequestLimit, s.latencyWindowSecs].all
    fun n => decide (n ≤ maxNumber)

def print (s : Settings) : Option String :=
  if s.isPrintable then
    some <| String.join <|
      (s.downloadFolder.map fun p => fileLine "download_folder" (printText p)).toList
      ++ (s.metadataFolder.map fun p => fileLine "metadata_folder" (printText p)).toList
      ++ [ fileLine "block_size" (toString s.blockSize),
           fileLine "tick_interval_ms" (toString s.tickIntervalMs),
           fileLine "initial_request_limit" (toString s.initialRequestLimit),
           fileLine "latency_window_secs" (toString s.latencyWindowSecs),
           fileLine "log_level" (printText s.logLevel) ]
  else none

end TorrentEngine.Settings
