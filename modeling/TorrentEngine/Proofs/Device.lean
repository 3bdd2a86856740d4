import TorrentEngine.Disk.Job
import TorrentEngine.Proofs.Ranges

/-!
Devices that may fail. A device holds one flat byte string; a call to it gives what the byte string
gives, or misses. `Job.Executes` is one run of a job against such a device: everything that the job
decides is decided as in `Job.run`, and only the reply to its one call is left to the device.
-/

namespace TorrentEngine

/-- How a call to a device may go wrong. -/
inductive Miss
  | failed (cause : StorageError)
  | crashed

/-- The reply to a call that went wrong. -/
def Miss.reply {α : Type} : Miss → Reply α
  | .failed cause => .failed cause
  | .crashed => .crashed

/-- A device failure that passes. -/
inductive Miss.Transient : Miss → Prop
  | io (kind : IoError) : Transient (.failed (.io kind))

/-- The replies of a device that holds `b` to a read. -/
inductive Reads (may : Miss → Prop) (b : Bytes) (offset length : Nat) : Reply Bytes → Prop
  | done (h : offset + length ≤ b.length) :
      Reads may b offset length (.done (b.slice offset length))
  | outside (h : b.length < offset + length) :
      Reads may b offset length (.failed (.outOfBounds offset length))
  | missed {m : Miss} (h : may m) : Reads may b offset length m.reply

/-- The replies of a device that holds `b` to a write, and what it holds then. A write that failed
may have left anything inside its own range. -/
inductive Writes (may : Miss → Prop) (b : Bytes) (offset : Nat) (data : Bytes) :
    Reply Unit → Bytes → Prop
  | done (h : offset + data.length ≤ b.length) :
      Writes may b offset data (.done ()) (b.overwrite offset data)
  | outside {b' : Bytes} (h : b.length < offset + data.length)
      (left : b.AgreeOutside b' offset data.length) :
      Writes may b offset data (.failed (.outOfBounds offset data.length)) b'
  | missed {m : Miss} {b' : Bytes} (h : may m) (left : b.AgreeOutside b' offset data.length) :
      Writes may b offset data m.reply b'

/-- A read that succeeds gives what the device holds. -/
theorem Reads.of_done {may : Miss → Prop} {b bytes : Bytes} {offset length : Nat}
    (h : Reads may b offset length (.done bytes)) :
    offset + length ≤ b.length ∧ bytes = b.slice offset length := by
  generalize hReply : Reply.done bytes = reply at h
  cases h with
  | done hInside => exact ⟨hInside, (Reply.done.inj hReply)⟩
  | outside => cases hReply
  | @missed m => cases m <;> cases hReply

theorem Reads.length_eq {may : Miss → Prop} {b : Bytes} {offset length : Nat} {reply : Reply Bytes}
    (h : Reads may b offset length reply) (bytes : Bytes) (hReply : reply = .done bytes) :
    bytes.length = length := by
  obtain ⟨hInside, rfl⟩ := (hReply ▸ h).of_done
  rw [Bytes.length_slice]
  omega

/-- A write that succeeds lays its data over what the device held. -/
theorem Writes.of_done {may : Miss → Prop} {b b' data : Bytes} {offset : Nat}
    (h : Writes may b offset data (.done ()) b') :
    offset + data.length ≤ b.length ∧ b' = b.overwrite offset data := by
  generalize hReply : Reply.done () = reply at h
  cases h with
  | done hInside => exact ⟨hInside, rfl⟩
  | outside => cases hReply
  | @missed m => cases m <;> cases hReply

/-- A device that never misses. -/
def Faultless (_ : Miss) : Prop := False

theorem Reads.faultless {b : Bytes} {offset length : Nat} {reply : Reply Bytes}
    (h : Reads Faultless b offset length reply) (hInside : offset + length ≤ b.length) :
    reply = .done (b.slice offset length) := by
  cases h with
  | done => rfl
  | outside hOutside => omega
  | missed h => exact h.elim

theorem Writes.faultless {b b' data : Bytes} {offset : Nat} {reply : Reply Unit}
    (h : Writes Faultless b offset data reply b') (hInside : offset + data.length ≤ b.length) :
    reply = .done () ∧ b' = b.overwrite offset data := by
  cases h with
  | done => exact ⟨rfl, rfl⟩
  | outside hOutside => omega
  | missed h => exact h.elim

/-- Outside of its range a write leaves the device as it was. -/
theorem Writes.agreeOutside {may : Miss → Prop} {b b' data : Bytes} {offset : Nat}
    {reply : Reply Unit} (h : Writes may b offset data reply b') :
    b.AgreeOutside b' offset data.length := by
  cases h with
  | done h => exact Bytes.agreeOutside_overwrite h
  | outside _ left => exact left
  | missed _ left => exact left

namespace Storage

/-- The bytes of a storage, where the disk holds `disk`. -/
def content (disk : Bytes) : Storage → Bytes
  | .memory b => b
  | .disk _ => disk
  | .scripted m => m.bytes

/-- The storage with `b` as its content, as far as it holds its content itself. -/
def put (b : Bytes) : Storage → Storage
  | .memory _ => .memory b
  | .disk layout => .disk layout
  | .scripted m => .scripted { m with bytes := b }

/-- What the disk holds once `b` is the content of the storage. -/
def diskAfter (disk b : Bytes) : Storage → Bytes
  | .disk _ => b
  | _ => disk

@[simp] theorem content_put (s : Storage) (disk b : Bytes) :
    (s.put b).content (s.diskAfter disk b) = b := by
  cases s <;> rfl

theorem length_diskAfter {s : Storage} {disk b : Bytes}
    (h : b.length = (s.content disk).length) : (s.diskAfter disk b).length = disk.length := by
  cases s with
  | disk layout => exact h
  | _ => rfl

end Storage

namespace Torrent

theorem setStorage_self {t : Torrent} {fs : FileSet} (h : t.download.fileSet = some fs) :
    t.setStorage fs.storage = t := by
  obtain ⟨d, network, events, tree⟩ := t
  obtain ⟨⟩ := d
  simp_all [setStorage, change, Download.changeFileSet]

end Torrent

namespace Job

/-- One run of a job against a device: how it came out, and what the disk holds then. -/
inductive Executes (may : Miss → Prop) (t : Torrent) (disk : Bytes) :
    Job → Outcome → Bytes → Prop
  | storeSettled {kind : FileSetKind} {i block : Nat} {data : Bytes} {d : Download}
      {ended : JobEnd}
      (h : prepareStore t.download kind i block data.length = (d, .error ended)) :
      Executes may t disk (.store kind i block data)
        { ended, after := { t with download := d } } disk
  | storeWritten {kind : FileSetKind} {i block : Nat} {data : Bytes} {d : Download}
      {offset : Nat} {fs : FileSet} {reply : Reply Unit} {content : Bytes}
      (h : prepareStore t.download kind i block data.length = (d, .ok offset))
      (hfs : d.fileSet = some fs)
      (hWrite : Writes may (fs.storage.content disk) offset data reply content) :
      Executes may t disk (.store kind i block data)
        (finishStore ({ t with download := d }.setStorage (fs.storage.put content)) kind i block
          data.length reply)
        (fs.storage.diskAfter disk content)
  | checkSettled {kind : FileSetKind} {i : Nat} {d : Download} {ended : JobEnd}
      (h : prepareCheck t.download kind i = (d, .error ended)) :
      Executes may t disk (.check kind i) { ended, after := { t with download := d } } disk
  | checkRead {kind : FileSetKind} {i : Nat} {d : Download} {offset length : Nat} {fs : FileSet}
      {reply : Reply Bytes}
      (h : prepareCheck t.download kind i = (d, .ok (offset, length)))
      (hfs : d.fileSet = some fs)
      (hRead : Reads may (fs.storage.content disk) offset length reply) :
      Executes may t disk (.check kind i) (finishCheck { t with download := d } kind i reply) disk
  | sendSettled {peer : PeerId} {line : LineId} {i offset length : Nat} {e : PieceError}
      (h : prepareSend t.download i offset length = .error e) :
      Executes may t disk (.send peer line i offset length)
        { ended := .failed (.piece e), after := t } disk
  | sendRead {peer : PeerId} {line : LineId} {i offset length position : Nat} {fs : FileSet}
      {reply : Reply Bytes}
      (h : prepareSend t.download i offset length = .ok position)
      (hfs : t.download.fileSet = some fs)
      (hRead : Reads may (fs.storage.content disk) position length reply) :
      Executes may t disk (.send peer line i offset length) (finishSend t peer line i offset reply)
        disk

end Job

end TorrentEngine
