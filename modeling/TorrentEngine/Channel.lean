/-!
Bounded channels: a queue with a capacity, written at one end without ever waiting and read at the
other. Nothing can be written once the reading end is gone.
-/

namespace TorrentEngine

/-- A queue of at most `capacity` waiting things, and whether anybody still reads it. -/
structure Channel (α : Type) where
  capacity : Nat
  waiting : List α := []
  isOpen : Bool := true
  deriving Repr

namespace Channel

variable {α : Type}

/-- The channel with `x` at the end; `none` where it is full or closed. -/
def offer? (c : Channel α) (x : α) : Option (Channel α) :=
  if c.isOpen && decide (c.waiting.length < c.capacity) then
    some { c with waiting := c.waiting ++ [x] }
  else none

/-- The channel with `x` at the end if there is room, and unchanged otherwise. -/
def offer (c : Channel α) (x : α) : Channel α := (c.offer? x).getD c

def advance (c : Channel α) : Channel α := { c with waiting := c.waiting.tail }

def drain (c : Channel α) : Channel α := { c with waiting := [] }

/-- The channel whose reading end is gone, and with it all that waited. -/
def close (c : Channel α) : Channel α := { c with waiting := [], isOpen := false }

end Channel

end TorrentEngine
