import TorrentEngine.Digest.Sha1

/-!
Pieces and blocks. A piece is a range of the content with a digest of its own; it is requested and
stored in blocks, of which the last may be shorter. Each block is needed, requested, stored or
verified, and the piece as a whole becomes verified when its bytes have the expected digest.
-/

namespace TorrentEngine

/-- How far a block has come. -/
inductive BlockStatus
  | needed
  | requested
  | stored
  | verified
  deriving DecidableEq, Repr, Inhabited

def BlockStatus.isHeld : BlockStatus → Bool
  | .stored | .verified => true
  | .needed | .requested => false

/-- A block: its place among the blocks of the piece, its length, and its status. -/
structure Block where
  index : Nat
  size : Nat
  status : BlockStatus
  deriving DecidableEq, Repr

/-- A piece and its blocks. `mismatchCursor` is the block that the next digest mismatch opens
again. -/
structure Piece where
  index : Nat
  length : Nat
  digest : Digest
  blockSize : Nat
  blocks : List Block
  mismatchCursor : Nat
  deriving DecidableEq, Repr

/-- Mistakes against the division into pieces and blocks. -/
inductive PieceError
  | outOfRange (piece block : Nat)
  | lengthMismatch (expected actual : Nat)
  | notStored (piece : Nat)
  | rangeUnavailable (piece offset length : Nat)
  | unknownPiece (piece : Nat)
  deriving DecidableEq, Repr

def PieceError.message : PieceError → String
  | .outOfRange piece block => s!"block {block} is out of range for piece {piece}"
  | .lengthMismatch expected actual => s!"expected {expected} bytes for block but got {actual}"
  | .notStored piece => s!"piece {piece} is not fully stored"
  | .rangeUnavailable piece offset length =>
    s!"range {offset}+{length} of piece {piece} is not available"
  | .unknownPiece piece => s!"piece {piece} does not exist"

/-- The number of parts of at most `size` that `length` falls into. -/
def partCount (length size : Nat) : Nat := (length + size - 1) / size

namespace Piece

/-- A piece of which nothing has come yet. A block size of zero counts as one. -/
def fresh (index length : Nat) (digest : Digest) (blockSize : Nat) : Piece :=
  let size := max blockSize 1
  { index, length, digest
    blockSize := size
    blocks := (List.range (partCount length size)).map fun i =>
      { index := i, size := min size (length - i * size), status := .needed }
    mismatchCursor := 0 }

def block (p : Piece) (b : Nat) : Except PieceError Block :=
  match p.blocks[b]? with
  | some block => .ok block
  | none => .error (.outOfRange p.index b)

def blockOffset (p : Piece) (b : Nat) : Nat := b * p.blockSize

def blockIndexAt (p : Piece) (offset : Nat) : Except PieceError Nat :=
  let b := offset / p.blockSize
  if offset % p.blockSize ≠ 0 ∨ p.blocks.length ≤ b then .error (.outOfRange p.index b) else .ok b

def countStatus (p : Piece) (s : BlockStatus) : Nat := p.blocks.countP (·.status = s)

def hasStatus (p : Piece) (s : BlockStatus) : Bool := p.blocks.any (·.status = s)

def isStarted (p : Piece) : Bool := p.blocks.any (·.status ≠ .needed)

def isDone (p : Piece) : Bool := p.blocks.all (·.status = .verified)

/-- Whether the bytes of every block are in the storage. -/
def isFullyStored (p : Piece) : Bool := p.blocks.all (·.status.isHeld)

/-- The blocks with the first needed one marked as requested, and that block. -/
def claimFirst : List Block → Option (Block × List Block)
  | [] => none
  | b :: rest =>
    if b.status = .needed then some (b, { b with status := .requested } :: rest)
    else (claimFirst rest).map fun (claimed, rest) => (claimed, b :: rest)

/-- Claims the first needed block for a request. -/
def claim (p : Piece) : Option (Block × Piece) :=
  (claimFirst p.blocks).map fun (claimed, blocks) => (claimed, { p with blocks })

/-- The piece with the status of block `b` replaced; other places are left alone. -/
def mark (p : Piece) (b : Nat) (s : BlockStatus) : Piece :=
  { p with blocks := p.blocks.modify b fun block => { block with status := s } }

def setStatus (p : Piece) (b : Nat) (s : BlockStatus) : Except PieceError Piece :=
  if b < p.blocks.length then .ok (p.mark b s) else .error (.outOfRange p.index b)

/-- Fails unless block `b` exists and is exactly `length` bytes long. -/
def checkBlock (p : Piece) (b length : Nat) : Except PieceError Unit :=
  match p.block b with
  | .error e => .error e
  | .ok block => if block.size = length then .ok () else .error (.lengthMismatch block.size length)

def store (p : Piece) (b length : Nat) : Except PieceError Piece :=
  match p.checkBlock b length with
  | .error e => .error e
  | .ok () => p.setStatus b .stored

def markVerified (p : Piece) : Piece :=
  { p with blocks := p.blocks.map fun b => { b with status := .verified } }

/-- The piece with the statuses of its first blocks given in order. -/
def withStatuses (p : Piece) (statuses : List BlockStatus) : Piece :=
  statuses.zipIdx.foldl (fun p e => p.mark e.2 e.1) p

/-- Compares the digest of the whole piece with the expected one. The piece becomes verified on a
match and stays as it is on a mismatch. -/
def checkDigest (p : Piece) (data : Bytes) : Except PieceError (Bool × Piece) :=
  if !p.isFullyStored then .error (.notStored p.index)
  else if data.length ≠ p.length then .error (.lengthMismatch p.length data.length)
  else if sha1 data = p.digest then .ok (true, p.markVerified)
  else .ok (false, p)

/-- Opens one block again after a digest mismatch, each time the next one, so that repeated
mismatches go through the whole piece. -/
def reopen (p : Piece) : Nat × Piece :=
  if p.blocks.isEmpty then (0, p)
  else
    let b := p.mismatchCursor
    (b, { p.mark b .needed with mismatchCursor := (b + 1) % p.blocks.length })

/-- Fails unless the bytes of a non-empty range inside the piece are all in the storage. -/
def checkRange (p : Piece) (offset length : Nat) : Except PieceError Unit :=
  let unavailable := Except.error (.rangeUnavailable p.index offset length)
  if length = 0 ∨ p.length < offset + length then unavailable
  else
    let first := offset / p.blockSize
    let last := (offset + length - 1) / p.blockSize
    if ((p.blocks.drop first).take (last + 1 - first)).all (·.status.isHeld) then .ok ()
    else unavailable

/-- The piece with every requested block needed again. -/
def resetRequested (p : Piece) : Piece :=
  { p with blocks := p.blocks.map fun b =>
      if b.status = .requested then { b with status := .needed } else b }

end Piece

end TorrentEngine
