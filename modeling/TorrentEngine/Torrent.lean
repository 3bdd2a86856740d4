import TorrentEngine.Download
import TorrentEngine.Network

/-!
A torrent in its surroundings: its state, the lines to its peers, the channel of its events and the
file system that it works on.
-/

namespace TorrentEngine

/-- A torrent and all that its jobs and effects reach. -/
structure Torrent where
  download : Download
  network : Network := {}
  events : Channel Event
  tree : FileTree

namespace Torrent

def lineOf? (t : Torrent) (peer : PeerId) : Option LineId :=
  (t.download.peers.find? peer).map (·.line)

/-- Queues a message for a peer. It is dropped where the peer is unknown or its line takes nothing.
-/
def send (t : Torrent) (peer : PeerId) (m : Message) : Torrent :=
  match t.lineOf? peer with
  | none => t
  | some line => { t with network := t.network.send line m }

def sendToAll (t : Torrent) (m : Message) : Torrent :=
  t.download.peers.ids.foldl (fun t peer => t.send peer m) t

/-- Reports an event, which is dropped where the channel takes nothing. -/
def notify (t : Torrent) (e : Event) : Torrent := { t with events := t.events.offer e }

def change (t : Torrent) (f : Download → Download) : Torrent := { t with download := f t.download }

/-- The torrent with the storage of its current file set, if there is one, replaced. -/
def setStorage (t : Torrent) (s : Storage) : Torrent :=
  t.change (·.changeFileSet fun fs => { fs with storage := s })

end Torrent

end TorrentEngine
