import TorrentEngine.Metainfo

/-!
The summary of a torrent for people: one labelled line for each fact.
-/

namespace TorrentEngine.Metainfo

def summaryLine (label value : String) : String := label ++ value ++ "\n"

/-- The summary of a torrent: name, info hash, size, pieces, files and trackers. -/
def summary (m : Metainfo) : String :=
  let files := m.fileList.map fun (path, length) =>
    summaryLine "file:         " ("/".intercalate path ++ s!" ({length} bytes)")
  let trackers := m.trackers.map (summaryLine "tracker:      ")
  String.join <|
    [ summaryLine "name:         " m.info.name,
      summaryLine "info hash:    " m.infoHash.hex,
      summaryLine "size:         " s!"{m.info.totalLength} bytes",
      summaryLine "pieces:       " s!"{m.pieceCount} x {m.info.pieceLength} bytes" ]
    ++ files ++ trackers

end TorrentEngine.Metainfo
