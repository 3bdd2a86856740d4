import TorrentEngine.CommandLine

/-!
The pages of help, and the line that tells the version.
-/

namespace TorrentEngine

def programName : String := "seedcore"

def versionLine : String := programName ++ " 0.1.0\n"

def checkAbout : String := "Hash-checks data already on disk against a `.torrent` file"

def inspectAbout : String := "Prints what a `.torrent` file describes"

def helpAbout : String := "Print this message or the help of the given subcommand(s)"

def usageLine (rest : String) : String := "\nUsage: " ++ programName ++ " " ++ rest ++ "\n"

def helpSection (heading : String) (lines : List String) : String :=
  "\n" ++ heading ++ ":\n" ++ String.join (lines.map fun line => "  " ++ line ++ "\n")

def HelpPage.text : HelpPage → String
  | .program =>
    "BitTorrent download engine: piece state, strategies, disk scheduling and lifecycle phases\n"
    ++ usageLine "<COMMAND>"
    ++ helpSection "Commands"
      ["check    " ++ checkAbout, "inspect  " ++ inspectAbout, "help     " ++ helpAbout]
    ++ helpSection "Options" ["-h, --help     Print help", "-V, --version  Print version"]
  | .check =>
    checkAbout ++ "\n" ++ usageLine "check [OPTIONS] <TORRENT>"
    ++ helpSection "Arguments" ["<TORRENT>  "]
    ++ helpSection "Options"
      [ "    --dir <DIR>  Folder holding the data; defaults to the configured download folder",
        "-h, --help       Print help" ]
  | .inspect =>
    inspectAbout ++ "\n" ++ usageLine "inspect <TORRENT>"
    ++ helpSection "Arguments" ["<TORRENT>  "]
    ++ helpSection "Options" ["-h, --help  Print help"]
  | .help =>
    helpAbout ++ "\n" ++ usageLine "help [COMMAND]..."
    ++ helpSection "Arguments" ["[COMMAND]...  Print help for the subcommand(s)"]

end TorrentEngine
