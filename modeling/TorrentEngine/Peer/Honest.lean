import TorrentEngine.Message

/-!
The answers of an honest peer that has the whole content: to a request exactly the bytes asked for.
-/

namespace TorrentEngine

/-- What an honest peer with some content, cut into pieces of a length, gives back for a message. A
request past the end of the content is answered with what there is. -/
def Message.answer? (m : Message) (peer : PeerId) (content : Bytes)
    (pieceLength blockLength : Nat) : Option Command :=
  match m with
  | .request piece offset length =>
    some (.block peer piece offset (content.slice (piece * pieceLength + offset) length))
  | .metadataRequest b =>
    some (.metadataBlock peer b (content.slice (b * blockLength) blockLength))
  | _ => none

end TorrentEngine
