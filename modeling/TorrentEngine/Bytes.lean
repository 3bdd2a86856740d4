/-!
Byte strings. A byte string is a list of bytes; this module adds the two ways in which storage
looks at one, taking a range out and laying a range over it, and the forms in which bytes are shown
and turned into text.
-/

namespace TorrentEngine

abbrev Bytes := List UInt8

namespace Bytes

/-- The `length` bytes from `offset` on, or what there is of them. -/
def slice (b : Bytes) (offset length : Nat) : Bytes := (b.drop offset).take length

/-- `b` with `data` laid over the bytes from `offset` on. Bytes past the end are added, and a gap
between the end and `offset` is filled with zeros. -/
def overwrite (b : Bytes) (offset : Nat) (data : Bytes) : Bytes :=
  b.take offset ++ List.replicate (offset - b.length) 0 ++ data ++ b.drop (offset + data.length)

/-- `b` cut or filled up with zeros to exactly `length` bytes. -/
def resize (b : Bytes) (length : Nat) : Bytes :=
  b.take length ++ List.replicate (length - b.length) 0

def ofText (s : String) : Bytes := s.toUTF8.data.toList

def text? (b : Bytes) : Option String := String.fromUTF8? ⟨b.toArray⟩

def hexDigit (n : Nat) : Char :=
  if n < 10 then Char.ofNat (48 + n) else Char.ofNat (87 + n)

def hex (b : Bytes) : String :=
  String.ofList (b.flatMap fun x => [hexDigit (x.toNat / 16), hexDigit (x.toNat % 16)])

def hexValue (c : Char) : Nat :=
  if c.isDigit then c.toNat - 48 else c.toLower.toNat - 87

def ofHex : List Char → Bytes
  | a :: b :: rest => UInt8.ofNat (16 * hexValue a + hexValue b) :: ofHex rest
  | _ => []

/-- Whether `a` comes before `b` in the order of their bytes. -/
def before (a b : Bytes) : Bool := decide (a < b)

@[simp] theorem length_slice (b : Bytes) (offset length : Nat) :
    (slice b offset length).length = min length (b.length - offset) := by
  simp [slice]

theorem length_overwrite {b data : Bytes} {offset : Nat} (h : offset + data.length ≤ b.length) :
    (overwrite b offset data).length = b.length := by
  simp only [overwrite, List.length_append, List.length_take, List.length_replicate,
    List.length_drop]
  omega

theorem length_resize (b : Bytes) (length : Nat) : (resize b length).length = length := by
  simp only [resize, List.length_append, List.length_take, List.length_replicate]
  omega

end Bytes

end TorrentEngine
