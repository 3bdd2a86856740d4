import TorrentEngine.Bytes

/-!
Twenty-byte digests, the names under which torrents and pieces are known.
-/

namespace TorrentEngine

def digestLength : Nat := 20

abbrev Digest := Vector UInt8 20

namespace Digest

/-- The digest that the first twenty bytes of `b` spell, missing bytes being zero. -/
def ofBytes (b : Bytes) : Digest := Vector.ofFn fun i => b.getD i.val 0

def bytes (d : Digest) : Bytes := d.toArray.toList

def zero : Digest := Vector.replicate 20 0

def hex (d : Digest) : String := Bytes.hex d.bytes

@[simp] theorem length_bytes (d : Digest) : d.bytes.length = 20 := by
  simp [bytes]

@[simp] theorem ofBytes_bytes (d : Digest) : ofBytes d.bytes = d := by
  ext i hi
  simp [ofBytes, bytes, List.getD]

end Digest

end TorrentEngine
