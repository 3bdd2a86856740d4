import TorrentEngine.Layout

/-!
Where the bytes of a file set live: in memory, in the files of a layout, or in a scripted memory
whose calls fail as planned and are recorded. Every storage is read and written by offsets into one
stream of bytes.
-/

namespace TorrentEngine

/-- How a planned call goes: as it would on its own, with a device failure, or by crashing the job
that made it. -/
inductive Fault
  | none
  | device
  | crash
  deriving DecidableEq, Repr

/-- A recorded call. -/
structure StorageCall where
  isWrite : Bool
  offset : Nat
  length : Nat
  fault : Fault
  deriving DecidableEq, Repr

/-- A memory with a plan of faults for its next reads and writes and a record of its calls. -/
structure ScriptedMemory where
  bytes : Bytes
  readPlan : List Fault := []
  writePlan : List Fault := []
  journal : List StorageCall := []
  deriving DecidableEq, Repr

/-- The answer of a storage to one call. -/
inductive Reply (α : Type)
  | done (value : α)
  | failed (cause : StorageError)
  | crashed
  deriving DecidableEq, Repr

/-- Where the bytes of a file set live. -/
inductive Storage
  | memory (bytes : Bytes)
  | disk (layout : Layout)
  | scripted (memory : ScriptedMemory)
  deriving DecidableEq, Repr

namespace Memory

def read (b : Bytes) (offset length : Nat) : Except StorageError Bytes :=
  if offset + length ≤ b.length then .ok (b.slice offset length)
  else .error (.outOfBounds offset length)

/-- The memory with `data` laid over a range that lies inside it. -/
def write (b : Bytes) (offset : Nat) (data : Bytes) : Except StorageError Bytes :=
  if offset + data.length ≤ b.length then .ok (b.overwrite offset data)
  else .error (.outOfBounds offset data.length)

end Memory

def Reply.ofExcept {α : Type} : Except StorageError α → Reply α
  | .ok a => .done a
  | .error e => .failed e

namespace ScriptedMemory

def nextFault : List Fault → Fault × List Fault
  | [] => (.none, [])
  | f :: rest => (f, rest)

def read (m : ScriptedMemory) (offset length : Nat) : Reply Bytes × ScriptedMemory :=
  let (fault, plan) := nextFault m.readPlan
  let called := { m with
    readPlan := plan
    journal := m.journal ++ [{ isWrite := false, offset, length, fault }] }
  match fault with
  | .none => (Reply.ofExcept (Memory.read m.bytes offset length), called)
  | .device => (.failed (.io .other), called)
  | .crash => (.crashed, called)

/-- A planned and recorded write. A failed write leaves the bytes as they are. -/
def write (m : ScriptedMemory) (offset : Nat) (data : Bytes) : Reply Unit × ScriptedMemory :=
  let (fault, plan) := nextFault m.writePlan
  let called := { m with
    writePlan := plan
    journal := m.journal ++ [{ isWrite := true, offset, length := data.length, fault }] }
  match fault with
  | .none =>
    match Memory.write m.bytes offset data with
    | .ok bytes => (.done (), { called with bytes })
    | .error e => (.failed e, called)
  | .device => (.failed (.io .other), called)
  | .crash => (.crashed, called)

end ScriptedMemory

namespace Storage

def read (s : Storage) (t : FileTree) (offset length : Nat) : Reply Bytes × Storage :=
  match s with
  | .memory b => (Reply.ofExcept (Memory.read b offset length), s)
  | .disk layout => (Reply.ofExcept (layout.read t offset length), s)
  | .scripted m =>
    let (reply, m) := m.read offset length
    (reply, .scripted m)

def write (s : Storage) (t : FileTree) (offset : Nat) (data : Bytes) :
    Reply Unit × Storage × FileTree :=
  match s with
  | .memory b =>
    match Memory.write b offset data with
    | .ok bytes => (.done (), .memory bytes, t)
    | .error e => (.failed e, s, t)
  | .disk layout =>
    let (t, result) := layout.write t offset data
    (Reply.ofExcept result, s, t)
  | .scripted m =>
    let (reply, m) := m.write offset data
    (reply, .scripted m, t)

def layout? : Storage → Option Layout
  | .disk layout => some layout
  | _ => none

def journal : Storage → List StorageCall
  | .scripted m => m.journal
  | _ => []

def clearJournal : Storage → Storage
  | .scripted m => .scripted { m with journal := [] }
  | s => s

end Storage

end TorrentEngine
