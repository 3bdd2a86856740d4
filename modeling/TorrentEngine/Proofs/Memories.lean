import TorrentEngine.Proofs.Calls

/-!
Runs on memories are executions. A memory, and a scripted one whose planned faults all pass, answers
as a device that holds its bytes; what a job does on such a storage is what it may do on the device,
once the plan and the record of the storage are left out of sight.
-/

namespace TorrentEngine

/-! ### Memories as devices -/

namespace Storage

/-- Storages that hold their bytes themselves and fail only in passing. -/
inductive Passing : Storage → Prop
  | memory (b : Bytes) : Passing (.memory b)
  | scripted {m : ScriptedMemory} (hRead : .crash ∉ m.readPlan) (hWrite : .crash ∉ m.writePlan) :
      Passing (.scripted m)

variable {s : Storage}

theorem nextFault_passes {plan : List Fault} (h : .crash ∉ plan) :
    (ScriptedMemory.nextFault plan).1 ≠ .crash ∧ .crash ∉ (ScriptedMemory.nextFault plan).2 := by
  cases plan with
  | nil => exact ⟨nofun, h⟩
  | cons fault rest =>
    exact ⟨fun hCrash => h (hCrash ▸ List.mem_cons_self),
      fun hMem => h (List.mem_cons_of_mem _ hMem)⟩

theorem reads_memory (b : Bytes) (offset length : Nat) :
    Reads Miss.Transient b offset length (Reply.ofExcept (Memory.read b offset length)) := by
  rw [Memory.read]
  split
  · next hInside => exact .done hInside
  · next hOutside => exact .outside (Nat.not_le.mp hOutside)

theorem Passing.read (h : s.Passing) (t : FileTree) (offset length : Nat) :
    Reads Miss.Transient (s.content []) offset length (s.read t offset length).1 ∧
      (s.read t offset length).2.Passing ∧
      (s.read t offset length).2.content [] = s.content [] := by
  cases h with
  | memory b => exact ⟨reads_memory b offset length, .memory b, rfl⟩
  | @scripted m hRead hWrite =>
    obtain ⟨hFault, hRest⟩ := nextFault_passes hRead
    simp only [Storage.read, ScriptedMemory.read]
    cases hNext : (ScriptedMemory.nextFault m.readPlan).1 with
    | none => exact ⟨reads_memory m.bytes offset length, .scripted hRest hWrite, rfl⟩
    | device => exact ⟨.missed (Miss.Transient.io .other), .scripted hRest hWrite, rfl⟩
    | crash => exact absurd hNext hFault

theorem Passing.write (h : s.Passing) (t : FileTree) (offset : Nat) (data : Bytes) :
    Writes Miss.Transient (s.content []) offset data (s.write t offset data).1
        ((s.write t offset data).2.1.content []) ∧
      (s.write t offset data).2.1.Passing ∧ (s.write t offset data).2.2 = t := by
  have hKept (b : Bytes) : b.AgreeOutside b offset data.length := .refl ..
  cases h with
  | memory b =>
    by_cases hInside : offset + data.length ≤ b.length
    · simp only [Storage.write, Memory.write, if_pos hInside]
      exact ⟨.done hInside, .memory _, trivial⟩
    · simp only [Storage.write, Memory.write, if_neg hInside]
      exact ⟨.outside (Nat.not_le.mp hInside) (hKept b), .memory b, trivial⟩
  | @scripted m hRead hWrite =>
    obtain ⟨hFault, hRest⟩ := nextFault_passes hWrite
    simp only [Storage.write, ScriptedMemory.write]
    cases hNext : (ScriptedMemory.nextFault m.writePlan).1 with
    | none =>
      by_cases hInside : offset + data.length ≤ m.bytes.length
      · simp only [Memory.write, if_pos hInside]
        exact ⟨.done hInside, .scripted hRead hRest, trivial⟩
      · simp only [Memory.write, if_neg hInside]
        exact ⟨.outside (Nat.not_le.mp hInside) (hKept m.bytes), .scripted hRead hRest, trivial⟩
    | device =>
      exact ⟨.missed (Miss.Transient.io .other) (hKept m.bytes), .scripted hRead hRest, trivial⟩
    | crash => exact absurd hNext hFault

end Storage

/-! ### Torrents on memories -/

/-- The file set with its bytes in a plain memory. -/
def FileSet.plain (fs : FileSet) : FileSet := { fs with storage := .memory (fs.storage.content []) }

/-- The torrent with the bytes of its file set in a plain memory. -/
def Download.plain (d : Download) : Download := d.changeFileSet FileSet.plain

/-- The torrent in its surroundings with the bytes of its file set in a plain memory. -/
def Torrent.plain (t : Torrent) : Torrent := { t with download := t.download.plain }

namespace Job

variable {t : Torrent} {d : Download} {kind : FileSetKind} {i b length : Nat} {data : Bytes}
  {fs : FileSet} {p : Piece} {block : Block}

theorem fileSet_plain (h : d.fileSet = some fs) : d.plain.fileSet = some fs.plain := by
  rw [Download.plain, Download.changeFileSet, h]
  rfl

theorem current?_plain (d : Download) (kind : FileSetKind) :
    current? d.plain kind = (current? d kind).map FileSet.plain := by
  simp only [current?, Download.plain, Download.changeFileSet, Option.filter_map]
  rfl

theorem prepareStore_plain (d : Download) (kind : FileSetKind) (i b length : Nat) :
    prepareStore d.plain kind i b length =
      ((prepareStore d kind i b length).1.plain, (prepareStore d kind i b length).2) := by
  simp only [prepareStore, current?_plain]
  cases hCurrent : current? d kind with
  | none => rfl
  | some fs =>
    have hPiece : fs.plain.piece i = fs.piece i := rfl
    simp only [Option.map_some, hPiece]
    cases fs.piece i with
    | error e => rfl
    | ok p =>
      dsimp only
      cases p.checkBlock b length with
      | error e => 
        simp [Download.plain, Download.changeFileSet, (current?_eq_some.mp hCurrent).1]
        rfl
      | ok =>
        dsimp only
        split <;> rfl

theorem prepareCheck_plain (d : Download) (kind : FileSetKind) (i : Nat) :
    prepareCheck d.plain kind i =
      ((prepareCheck d kind i).1.plain, (prepareCheck d kind i).2) := by
  simp only [prepareCheck, current?_plain]
  cases current? d kind with
  | none => rfl
  | some fs =>
    have hPiece : fs.plain.piece i = fs.piece i := rfl
    simp only [Option.map_some, hPiece]
    cases fs.piece i with
    | error e => rfl
    | ok p =>
      dsimp only
      split <;> rfl

theorem prepareSend_plain (d : Download) (i offset length : Nat) :
    prepareSend d.plain i offset length = prepareSend d i offset length := by
  simp only [prepareSend, current?_plain]
  cases current? d .data with
  | none => rfl
  | some fs => rfl

/-- The outcome with the bytes of the file set in a plain memory. -/
def Outcome.plain (o : Outcome) : Outcome := { o with after := o.after.plain }

theorem plain_setStorage (t : Torrent) (s : Storage) :
    (t.setStorage s).plain = t.plain.setStorage (.memory (s.content [])) := by
  simp only [Torrent.plain, Torrent.setStorage, Torrent.change, Download.plain,
    Download.changeFileSet, Option.map_map]
  rfl

theorem setStorage_plain (h : t.download.fileSet = some fs) :
    t.plain.setStorage (.memory (fs.storage.content [])) = t.plain :=
  Torrent.setStorage_self (t := t.plain) (fileSet_plain h)

theorem OpenBlock.plain (h : OpenBlock d kind i b length fs p block) :
    OpenBlock d.plain kind i b length fs.plain p block :=
  ⟨fileSet_plain h.fileSet, h.kind_eq, h.hasPiece, h.hasBlock, h.size, h.notHeld⟩

theorem StoredPiece.plain (h : StoredPiece d kind i fs p) :
    StoredPiece d.plain kind i fs.plain p :=
  ⟨fileSet_plain h.fileSet, h.kind_eq, h.hasPiece, h.full⟩

theorem finishStore_plain {reply : Reply Unit}
    (h : OpenBlock t.download kind i b length fs p block) :
    (finishStore t kind i b length reply).plain = finishStore t.plain kind i b length reply := by
  cases reply with
  | done =>
    have hPlain : OpenBlock t.plain.download kind i b length fs.plain p block := h.plain
    simp only [finishStore]
    rw [commitStore_eq h, commitStore_eq hPlain]
    rfl
  | failed e => rfl
  | crashed => rfl

theorem plain_sendToAll (t : Torrent) (m : Message) :
    (t.sendToAll m).plain = t.plain.sendToAll m := by
  have hSend (t : Torrent) (peer : PeerId) : (t.send peer m).plain = t.plain.send peer m := by
    have hLine : t.plain.lineOf? peer = t.lineOf? peer := rfl
    simp only [Torrent.send, hLine]
    cases t.lineOf? peer <;> rfl
  have hAll (ids : List PeerId) (t : Torrent) :
      (ids.foldl (fun t peer => t.send peer m) t).plain =
        ids.foldl (fun t peer => t.send peer m) t.plain := by
    induction ids generalizing t with
    | nil => rfl
    | cons id rest ih => rw [List.foldl_cons, List.foldl_cons, ih, hSend]
  exact hAll _ t

theorem plain_announcePiece (t : Torrent) (kind : FileSetKind) (i : Nat) (data : Bytes) :
    (announcePiece t kind i data).plain = announcePiece t.plain kind i data := by
  cases kind with
  | metadata => rfl
  | data =>
    simp only [announcePiece, ← plain_sendToAll]
    rfl

theorem finishCheck_plain {reply : Reply Bytes} (h : StoredPiece t.download kind i fs p)
    (hLength : ∀ bytes, reply = .done bytes → bytes.length = p.length) :
    (finishCheck t kind i reply).plain = finishCheck t.plain kind i reply := by
  cases reply with
  | done bytes =>
    have hPlain : StoredPiece t.plain.download kind i fs.plain p := h.plain
    have hBytes := hLength bytes rfl
    simp only [finishCheck]
    rw [commitCheck_eq h hBytes, commitCheck_eq hPlain hBytes]
    split
    · rw [Outcome.plain, plain_announcePiece]
      rfl
    · rfl
  | failed e =>
    simp only [finishCheck, failCheck, Outcome.plain]
    split <;> rfl
  | crashed => rfl

theorem finishSend_plain (t : Torrent) (peer : PeerId) (line : LineId) (i offset : Nat)
    (reply : Reply Bytes) :
    (finishSend t peer line i offset reply).plain =
      finishSend t.plain peer line i offset reply := by
  cases reply with
  | done bytes =>
    have hNetwork : t.plain.network = t.network := rfl
    simp only [finishSend, commitSend, hNetwork]
    cases t.network.send? line (.block i offset bytes) <;> rfl
  | failed e => rfl
  | crashed => rfl

/-- What a job does on a memory whose faults pass is what it may do on a device that fails only in
passing. -/
theorem executes_run (job : Job)
    (hPassing : ∀ fs, t.download.fileSet = some fs → fs.storage.Passing) :
    Executes Miss.Transient t.plain [] job (job.run t).plain [] := by
  cases job with
  | store kind i b data =>
    by_cases hOpen : ∃ fs p block, OpenBlock t.download kind i b data.length fs p block
    · obtain ⟨fs, p, block, hOpen⟩ := hOpen
      obtain ⟨hWrite, -, hTree⟩ := (hPassing fs hOpen.fileSet).write t.tree
        (i * fs.pieceLength + p.blockOffset b) data
      have hRun := run_store_of_open hOpen
      rw [show (written t fs p i b data).2.2 = t.tree from hTree] at hRun
      rw [hRun, finishStore_plain (hOpen.setStorage _), plain_setStorage]
      have hPlain : OpenBlock t.plain.download kind i b data.length fs.plain p block := hOpen.plain
      exact .storeWritten (prepareStore_of_open hPlain) hPlain.fileSet hWrite
    · obtain ⟨d, ended, hPrepared, hRun⟩ :=
        run_store_of_closed fun fs p block h => hOpen ⟨fs, p, block, h⟩
      have hPlain := prepareStore_plain t.download kind i b data.length
      rw [hPrepared] at hPlain
      rw [hRun]
      exact .storeSettled hPlain
  | check kind i =>
    by_cases hStored : ∃ fs p, StoredPiece t.download kind i fs p
    · obtain ⟨fs, p, hStored⟩ := hStored
      obtain ⟨hRead, -, hContent⟩ := (hPassing fs hStored.fileSet).read t.tree
        (i * fs.pieceLength) p.length
      have hSame : (t.setStorage (readBack t fs p i).2).plain = t.plain := by
        rw [plain_setStorage, show (readBack t fs p i).2.content [] = _ from hContent]
        exact setStorage_plain hStored.fileSet
      have hLength : ∀ bytes, (readBack t fs p i).1 = .done bytes → bytes.length = p.length :=
        fun _ => Storage.length_read
      have hPlain : StoredPiece t.plain.download kind i fs.plain p := hStored.plain
      rw [run_check_of_stored hStored, finishCheck_plain (hStored.setStorage _) hLength, hSame]
      exact .checkRead (prepareCheck_of_stored hPlain) hPlain.fileSet hRead
    · obtain ⟨d, ended, hPrepared, hRun⟩ := run_check_of_open fun fs p h => hStored ⟨fs, p, h⟩
      have hPlain := prepareCheck_plain t.download kind i
      rw [hPrepared] at hPlain
      rw [hRun]
      exact .checkSettled hPlain
  | send peer line i offset length =>
    cases hPrepared : prepareSend t.download i offset length with
    | error e =>
      rw [run_send_of_error hPrepared]
      exact .sendSettled ((prepareSend_plain ..).trans hPrepared)
    | ok position =>
      obtain ⟨fs, hfs, hRun⟩ := run_send_of_ready hPrepared
      obtain ⟨hRead, -, hContent⟩ := (hPassing fs hfs).read t.tree position length
      have hPlain : t.plain.download.fileSet = some fs.plain := fileSet_plain hfs
      rw [hRun, finishSend_plain, plain_setStorage, hContent, setStorage_plain hfs]
      exact .sendRead ((prepareSend_plain ..).trans hPrepared) hPlain hRead

end Job

end TorrentEngine
