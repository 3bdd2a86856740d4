import TorrentEngine.Message
import TorrentEngine.Text.Quoted

/-!
Input in one line for people. Bytes that the input carries are told by their number only.
-/

namespace TorrentEngine.Command

def call (name : String) (parts : List String) : String :=
  name ++ "(" ++ ", ".intercalate parts ++ ")"

def labelled (label value : String) : String := label ++ ": " ++ value

def optional : Option Nat → String
  | none => "None"
  | some n => s!"Some({n})"

/-- Input in one line. Where bytes came, and for a new connection, the peer is named as it is;
otherwise its name is quoted. -/
def summary : Command → String
  | .connect peer _ size =>
    call "CONNECTED" [labelled "peer" peer, labelled "metadata_size" (optional size)]
  | .disconnect peer => call "Disconnect" [Text.quoted peer]
  | .choke peer => call "Choke" [Text.quoted peer]
  | .unchoke peer => call "Unchoke" [Text.quoted peer]
  | .interested peer => call "PeerInterested" [Text.quoted peer]
  | .notInterested peer => call "PeerNotInterested" [Text.quoted peer]
  | .holds peer i => call "Have" [Text.quoted peer, toString i]
  | .bitfield peer bits =>
    call "PEER_BITFIELD" [labelled "peer" peer, labelled "len" (toString bits.length)]
  | .block peer i offset data =>
    call "PIECE"
      [ labelled "peer" peer, labelled "index" (toString i), labelled "begin" (toString offset),
        labelled "len" (toString data.length) ]
  | .metadataBlock peer b data =>
    call "METADATA"
      [ labelled "peer" peer, labelled "piece" (toString b),
        labelled "len" (toString data.length) ]
  | .requestUpload peer i offset length =>
    call "RequestUpload" [Text.quoted peer, toString i, toString offset, toString length]
  | .reject peer i b => call "Reject" [Text.quoted peer, toString i, toString b]

end TorrentEngine.Command
