import TorrentEngine.Channel
import TorrentEngine.Message

/-!
The lines to peers: one bounded channel of messages for each connection ever made, and which line
each peer reads. A line is known by its number, so that whoever holds the number of an old line
finds it closed and not the new one.
-/

namespace TorrentEngine

/-- Every line opened so far, and the lines that are read, by peer. -/
structure Network where
  lines : List (Channel Message) := []
  readers : Roster LineId := .empty

namespace Network

def nextLine (n : Network) : LineId := n.lines.length

def line? (n : Network) (line : LineId) : Option (Channel Message) := n.lines[line]?

def change (n : Network) (line : LineId) (f : Channel Message → Channel Message) : Network :=
  { n with lines := n.lines.modify line f }

def openLine (n : Network) (capacity : Nat) : Network :=
  { n with lines := n.lines ++ [{ capacity }] }

/-- The network with one more line that nobody reads. -/
def openDead (n : Network) : Network :=
  (n.openLine 1).change n.nextLine Channel.close

def hangUp (n : Network) (peer : PeerId) : Network :=
  match n.readers.find? peer with
  | none => n
  | some line => n.change line Channel.close

/-- The network with a new line that a peer reads from now on in place of the one before. -/
def connect (n : Network) (peer : PeerId) (capacity : Nat) : Network :=
  { (n.hangUp peer).openLine capacity with readers := n.readers.insert peer n.nextLine }

/-- Queues a message on a line; `none` where the line is full, closed or unknown. -/
def send? (n : Network) (line : LineId) (m : Message) : Option Network :=
  match n.line? line with
  | none => none
  | some c => (c.offer? m).map fun c => { n with lines := n.lines.set line c }

/-- Queues a message on a line if there is room, and drops it otherwise. -/
def send (n : Network) (line : LineId) (m : Message) : Network := (n.send? line m).getD n

def waiting (n : Network) (line : LineId) : List Message :=
  match n.line? line with
  | none => []
  | some c => c.waiting

def mail (n : Network) : Roster (List Message) := n.readers.map fun _ line => n.waiting line

def mailFor (n : Network) (peer : PeerId) : List Message := (n.mail.find? peer).getD []

/-- The network after a peer read all that waited for it. -/
def collectFor (n : Network) (peer : PeerId) : Network :=
  match n.readers.find? peer with
  | none => n
  | some line => n.change line Channel.drain

/-- The network after every peer read all that waited for it. -/
def collect (n : Network) : Network := n.readers.ids.foldl collectFor n

end Network

end TorrentEngine
