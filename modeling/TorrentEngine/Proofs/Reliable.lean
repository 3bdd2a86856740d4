import TorrentEngine.Proofs.Checking

/-!
Runs of jobs on a storage that never fails, or whose reads fail in passing. `Storage.Reliable` says
what the one does: it answers every call inside the bytes that it holds. A store of an open block
then writes it, and a check of a piece that is all stored judges its bytes, at the first attempt. On
the other, which `Storage.Recovering` is about, a check may have to be tried again.
-/

namespace TorrentEngine

/-! ### Storages that never fail -/

/-- Storages of which `holds` tells the bytes, and which answer every call inside of them. -/
structure Storage.Reliable (holds : Storage → FileTree → Bytes → Prop) : Prop where
  read : ∀ {s : Storage} {t : FileTree} {b : Bytes} {offset length : Nat}, holds s t b →
    offset + length ≤ b.length →
      ∃ s', s.read t offset length = (.done (b.slice offset length), s') ∧ holds s' t b
  write : ∀ {s : Storage} {t : FileTree} {b data : Bytes} {offset : Nat}, holds s t b →
    offset + data.length ≤ b.length →
      ∃ s' t', s.write t offset data = (.done (), s', t') ∧ holds s' t' (b.overwrite offset data)

/-- A memory is reliable. -/
theorem Storage.reliable_memory : Storage.Reliable fun s _ b => s = .memory b := by
  refine ⟨?_, ?_⟩
  · rintro _ t b offset length rfl hInside
    exact ⟨.memory b, by simp only [Storage.read, Memory.read, if_pos hInside, Reply.ofExcept], rfl⟩
  · rintro _ t b data offset rfl hInside
    exact ⟨_, t, by simp only [Storage.write, Memory.write, if_pos hInside], rfl⟩

/-! ### Storages that fail in passing -/

namespace Storage

/-- Storages of which `holds` tells the bytes, and how many reads inside of them may fail from now
on, all of them in passing. -/
def Recovering (holds : Storage → FileTree → Bytes → Nat → Prop) : Prop :=
  ∀ (s : Storage) (t : FileTree) (b : Bytes) (n offset length : Nat), holds s t b n →
    offset + length ≤ b.length → ∃ s',
      (s.read t offset length = (.done (b.slice offset length), s') ∧ ∃ m ≤ n, holds s' t b m) ∨
        ∃ e, s.read t offset length = (.failed (.io e), s') ∧ ∃ m < n, holds s' t b m

/-- A storage that never fails has no failures left. -/
theorem Reliable.recovering {holds : Storage → FileTree → Bytes → Prop} (h : Reliable holds) :
    Recovering fun s t b n => holds s t b ∧ n = 0 := by
  rintro s t b _ offset length ⟨hHolds, rfl⟩ hInside
  obtain ⟨s', hRead, hHolds'⟩ := h.read hHolds hInside
  exact ⟨s', .inl ⟨hRead, 0, Nat.le_refl 0, hHolds', rfl⟩⟩

/-- The bytes of a memory, of the files of a layout if all of them are there, and of a scripted
memory, which may fail as often as that is planned. -/
inductive Holds : Storage → FileTree → Bytes → Nat → Prop
  | memory (t : FileTree) (b : Bytes) (n : Nat) : Holds (.memory b) t b n
  | disk {l : Layout} {t : FileTree} {b : Bytes} (n : Nat) (hLaid : Layout.Laid 0 l.files)
      (hFiles : ∀ f ∈ l.files, ∃ content, t.readFile f.path = .ok content)
      (hCells : Layout.cells t l.files = b.map some) : Holds (.disk l) t b n
  | scripted {m : ScriptedMemory} (t : FileTree) {n : Nat} (hCrash : .crash ∉ m.readPlan)
      (hFaults : m.readPlan.count .device ≤ n) : Holds (.scripted m) t m.bytes n

theorem read_disk {l : Layout} {t : FileTree} {b : Bytes} {offset length : Nat}
    (hLaid : Layout.Laid 0 l.files)
    (hFiles : ∀ f ∈ l.files, ∃ content, t.readFile f.path = .ok content)
    (hCells : Layout.cells t l.files = b.map some) (hInside : offset + length ≤ b.length) :
    l.read t offset length = .ok (b.slice offset length) := by
  rcases Nat.eq_zero_or_pos length with rfl | hPos
  · rw [Layout.read, if_pos rfl, Bytes.slice, List.take_zero]
  · have hWhole : l.bytes? t offset length = some (b.slice offset length) := by
      rw [Layout.bytes?, hCells, ← List.map_drop, ← List.map_take, whole?_map_some]
      rfl
    have hEnd : offset + length ≤ (Layout.cells t l.files).length := by
      rw [hCells, List.length_map]
      exact hInside
    rw [Layout.read_eq hLaid hFiles hPos hEnd, hWhole]

theorem recovering_holds : Recovering Holds := by
  intro s t b n offset length hHolds hInside
  cases hHolds with
  | memory =>
    refine ⟨.memory b, .inl ⟨?_, n, Nat.le_refl n, .memory t b n⟩⟩
    simp only [read, Memory.read, if_pos hInside, Reply.ofExcept]
  | @disk l _ _ _ hLaid hFiles hCells =>
    refine ⟨.disk l, .inl ⟨?_, n, Nat.le_refl n, .disk n hLaid hFiles hCells⟩⟩
    simp only [read, read_disk hLaid hFiles hCells hInside, Reply.ofExcept]
  | @scripted m _ _ hCrash hFaults =>
    obtain ⟨bytes, plan, writes, journal⟩ := m
    have hRead : Memory.read bytes offset length = .ok (bytes.slice offset length) :=
      if_pos hInside
    refine ⟨.scripted (ScriptedMemory.read ⟨bytes, plan, writes, journal⟩ offset length).2, ?_⟩
    cases plan with
    | nil =>
      refine .inl ⟨?_, n, Nat.le_refl n, .scripted t hCrash hFaults⟩
      simp only [read, ScriptedMemory.read, ScriptedMemory.nextFault, hRead, Reply.ofExcept]
    | cons fault rest =>
      have hRest : .crash ∉ rest := fun hMem => hCrash (List.mem_cons_of_mem _ hMem)
      cases fault with
      | none =>
        rw [List.count_cons_of_ne (by decide)] at hFaults
        refine .inl ⟨?_, n, Nat.le_refl n, .scripted t hRest hFaults⟩
        simp only [read, ScriptedMemory.read, ScriptedMemory.nextFault, hRead, Reply.ofExcept]
      | device =>
        rw [List.count_cons_self] at hFaults
        exact .inr
          ⟨.other, rfl, rest.count Fault.device, hFaults, .scripted t hRest (Nat.le_refl _)⟩
      | crash => exact absurd List.mem_cons_self hCrash

end Storage

/-! ### Runs -/

namespace Job

variable {holds : Storage → FileTree → Bytes → Prop} {t : Torrent} {d : Download}
  {kind : FileSetKind} {i b : Nat} {data stored : Bytes} {fs : FileSet} {p : Piece} {block : Block}

/-- A block that is held is not stored again. -/
theorem run_store_held (hCurrent : current? t.download kind = some fs)
    (hp : fs.pieces[i]? = some p) (hb : p.blocks[b]? = some block)
    (hSize : block.size = data.length) (hHeld : block.status.isHeld = true) :
    run (.store kind i b data) t = { ended := .done, after := t } := by
  have hPiece := FileSet.piece_eq_ok.mpr hp
  have hBlock := Piece.checkBlock_eq_ok.mpr ⟨block, hb, hSize⟩
  simp only [run, runStore, prepareStore, hCurrent, hPiece, hBlock, hb, Option.any_some, hHeld,
    if_true]

/-- A store of an open block writes it and marks it, and has the piece checked once it is all
stored. -/
theorem run_store_open (hReliable : Storage.Reliable holds)
    (h : OpenBlock t.download kind i b data.length fs p block)
    (hHolds : holds fs.storage t.tree stored)
    (hInside : i * fs.pieceLength + p.blockOffset b + data.length ≤ stored.length) :
    ∃ storage tree,
      holds storage tree (stored.overwrite (i * fs.pieceLength + p.blockOffset b) data) ∧
      run (.store kind i b data) t =
        { ended := .done
          after := { t with
            tree
            download := { t.download with
              fileSet := some ({ fs with storage }.setPiece i (p.mark b .stored))
              pendingChecks :=
                t.download.pendingChecks + if (p.mark b .stored).isFullyStored then 1 else 0 } }
          submitted := if (p.mark b .stored).isFullyStored then [.check kind i] else [] } := by
  obtain ⟨storage, tree, hWrite, hHolds'⟩ := hReliable.write hHolds hInside
  have hOpen : OpenBlock { t with tree }.download kind i b data.length fs p block := h
  refine ⟨storage, tree, hHolds', ?_⟩
  rw [run_store_of_open h]
  simp only [written, hWrite, finishStore]
  rw [commitStore_eq (hOpen.setStorage storage), download_setStorage hOpen.fileSet]
  rfl

/-- A check of a stored piece judges its bytes, or fails in passing and leaves the torrent as it is
but for the storage. -/
theorem run_check_recovering {holds : Storage → FileTree → Bytes → Nat → Prop} {n : Nat}
    (hRecovering : Storage.Recovering holds)
    (h : StoredPiece t.download .data i fs p) (hHolds : holds fs.storage t.tree stored n)
    (hInside : i * fs.pieceLength + p.length ≤ stored.length) :
    ∃ storage,
      (run (.check .data i) t =
          { ended := .done
            after := afterCheck (t.setStorage storage) { fs with storage } p i
              (stored.slice (i * fs.pieceLength) p.length) } ∧
        ∃ m ≤ n, holds storage t.tree stored m) ∨
      ∃ e, run (.check .data i) t =
          { ended := .failed (.storage (.io e)), after := t.setStorage storage } ∧
        ∃ m < n, holds storage t.tree stored m := by
  obtain ⟨storage, ⟨hRead, hKept⟩ | ⟨e, hRead, hKept⟩⟩ := hRecovering _ _ _ _ _ _ hHolds hInside
  · have hLength : (stored.slice (i * fs.pieceLength) p.length).length = p.length := by
      rw [Bytes.length_slice]
      omega
    refine ⟨storage, .inl ⟨?_, hKept⟩⟩
    rw [run_check_of_stored h, ← commitCheck_judged (h.setStorage storage) hLength]
    simp only [readBack, hRead, finishCheck]
  · refine ⟨storage, .inr ⟨e, ?_, hKept⟩⟩
    rw [run_check_of_stored h]
    simp only [readBack, hRead, finishCheck, failCheck, JobError.isRetryable, if_true]

/-- A check of a piece that is all stored judges its bytes. -/
theorem run_check_stored (hReliable : Storage.Reliable holds)
    (h : StoredPiece t.download .data i fs p) (hHolds : holds fs.storage t.tree stored)
    (hInside : i * fs.pieceLength + p.length ≤ stored.length) :
    ∃ storage after, holds storage t.tree stored ∧
      run (.check .data i) t = { ended := .done, after } ∧ after.tree = t.tree ∧
      after.download =
        { t.download.endCheck with
          fileSet := some ({ fs with storage }.setPiece i
            (judged p (stored.slice (i * fs.pieceLength) p.length))) } := by
  obtain ⟨storage, ⟨hRun, _, -, hHolds', -⟩ | ⟨_, -, _, hFewer, -, hNone⟩⟩ :=
    run_check_recovering hReliable.recovering h ⟨hHolds, rfl⟩ hInside
  · refine ⟨storage, _, hHolds', hRun, tree_afterCheck .., ?_⟩
    rw [download_afterCheck, download_setStorage h.fileSet]
    rfl
  · omega

end Job

end TorrentEngine
