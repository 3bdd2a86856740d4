import TorrentEngine.Program

/-!
The program on a device: the files at which a run looks are gathered into a tree, the run is a
function of that tree, and what it changed is put back. All decisions are made in
`TorrentEngine.Program`.
-/

namespace TorrentEngine.Device

/-- The number by which the device reports that a folder was taken for a file. -/
def folderCode : UInt32 := 21

def observe (t : FileTree) (p : Path) : IO FileTree := do
  try
    let content ← IO.FS.readBinFile p.text
    return t.putFile p content.toList
  catch
    | .inappropriateType _ code _ => return if code = folderCode then (t.makeFolders p).1 else t
    | _ => return t

def observeLineage (t : FileTree) (p : Path) : IO FileTree :=
  p.lineage.reverse.foldlM observe t

def install (place : Place) (entry : Entry) : IO Unit :=
  let name := "/" ++ "/".intercalate place
  match entry with
  | .folder => IO.FS.createDirAll name
  | .file content => IO.FS.writeBinFile name ⟨content.toArray⟩

def update (before after : FileTree) : IO Unit :=
  after.entries.forM fun (place, entry) =>
    unless before.lookup place = some entry do install place entry

/-- The folder that a variable names, or one below the folder of the user. A relative path in the
variable does not count. -/
def folderOf (name fallback : String) : IO Path := do
  let below := (Path.mk ((← IO.getEnv "HOME").getD "")).push fallback
  let named := Path.mk ((← IO.getEnv name).getD "")
  return if named.isAbsolute then named else below

/-- The variables that set something, under their usual names. -/
def bindings : IO (List (String × String)) :=
  Settings.names.filterMapM fun setting => do
    let name := (Settings.Environment.mark ++ setting).toUpper
    return (← IO.getEnv name).map (name, ·)

def environment : IO Environment := do
  return {
    bindings := ← bindings
    configHome := ← folderOf "XDG_CONFIG_HOME" ".config"
    dataHome := ← folderOf "XDG_DATA_HOME" ".local/share" }

/-- The tree of all that a run looks at. The paths that only a torrent file tells are gathered after
that file. -/
def survey (args : List String) (e : Environment) : IO FileTree := do
  let empty : FileTree := { home := (Path.mk (← IO.currentDir).toString).names }
  let first ← (Program.sought args e empty).foldlM observeLineage empty
  (Program.sought args e first).foldlM observeLineage empty

end TorrentEngine.Device

open TorrentEngine

def main (args : List String) : IO UInt32 := do
  let e ← Device.environment
  let before ← Device.survey args e
  let (after, output) := Program.run args e before
  Device.update before after
  IO.print output.text
  return output.code.toUInt32
