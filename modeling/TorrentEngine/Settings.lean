import TorrentEngine.Phase
import TorrentEngine.Toml.Document

/-!
The settings of the program, and how named values make them. A name that is not a setting is
ignored; a setting with a value of the wrong kind or out of range spoils the whole.
-/

namespace TorrentEngine

/-- The settings, with what holds where nothing is set. -/
structure Settings where
  downloadFolder : Option String := none
  metadataFolder : Option String := none
  blockSize : Nat := 16384
  tickIntervalMs : Nat := 100
  initialRequestLimit : Nat := 5
  latencyWindowSecs : Nat := 5
  logLevel : String := "info"
  deriving DecidableEq, Repr

namespace Settings

open Toml (Value)

def number? (bound : Nat) : Value → Option Nat
  | .integer n => if 0 ≤ n ∧ n < bound then some n.toNat else none
  | _ => none

def text? : Value → Option String
  | .text s => some s
  | _ => none

def set (s : Settings) (name : String) (v : Value) : Option Settings :=
  match name with
  | "download_folder" => (text? v).map fun t => { s with downloadFolder := some t }
  | "metadata_folder" => (text? v).map fun t => { s with metadataFolder := some t }
  | "block_size" => (number? 0x100000000 v).map fun n => { s with blockSize := n }
  | "tick_interval_ms" =>
    (number? 0x10000000000000000 v).map fun n => { s with tickIntervalMs := n }
  | "initial_request_limit" =>
    (number? 0x10000000000000000 v).map fun n => { s with initialRequestLimit := n }
  | "latency_window_secs" =>
    (number? 0x10000000000000000 v).map fun n => { s with latencyWindowSecs := n }
  | "log_level" => (text? v).map fun t => { s with logLevel := t }
  | _ => some s

def names : List String :=
  [ "download_folder", "metadata_folder", "block_size", "tick_interval_ms",
    "initial_request_limit", "latency_window_secs", "log_level" ]

def ofValues (value? : String → Option Value) : Option Settings :=
  names.foldlM
    (fun s name =>
      match value? name with
      | none => some s
      | some v => s.set name v)
    {}

/-- The time between scheduling passes, at least a millisecond. -/
def tickInterval (s : Settings) : Time := max s.tickIntervalMs 1 * 1000000

/-- The time over which latency is observed, at least a second. -/
def latencyWindow (s : Settings) : Time := max s.latencyWindowSecs 1 * RequestBudget.second

/-- The folders and block size for phases. Folders that are not set lie in the data folder. -/
def phaseConfig (s : Settings) (dataFolder : Path) : PhaseConfig :=
  { downloadFolder := (s.downloadFolder.map Path.mk).getD (dataFolder.push "downloads")
    metadataFolder := (s.metadataFolder.map Path.mk).getD (dataFolder.push "torrents")
    blockSize := max s.blockSize 1 }

end Settings

end TorrentEngine
