import TorrentEngine.Proofs.Separation

/-!
Disk storage is one flat buffer. Files of their own that hold as many bytes as declared are, one
after the other, a byte string as long as the torrent. Reading a range of the layout gives the slice
of that string, writing one lays the data over it, and so any calls are answered as a memory with
the same bytes answers them.
-/

namespace TorrentEngine

namespace Bytes

/-! ### Byte strings laid end to end -/

theorem overwrite_zero_nil (b : Bytes) : b.overwrite 0 [] = b := by
  simp [overwrite]

theorem overwrite_append_left {a : Bytes} {offset : Nat} (h : offset ≤ a.length) (b data : Bytes) :
    overwrite (a ++ b) offset data =
      a.overwrite offset (data.take (a.length - offset)) ++
        b.overwrite 0 (data.drop (a.length - offset)) := by
  have hTaken : (data.take (a.length - offset)).length = min (a.length - offset) data.length :=
    List.length_take
  have hLength : (a.overwrite offset (data.take (a.length - offset))).length = a.length :=
    length_overwrite (by omega)
  have hWhole : offset ≤ (a ++ b).length := by
    rw [List.length_append]
    omega
  apply List.ext_getElem?
  intro k
  rw [getElem?_overwrite_of_le hWhole, List.getElem?_append, List.getElem?_append, hLength,
    getElem?_overwrite_of_le h, getElem?_overwrite_of_le (Nat.zero_le _), hTaken,
    List.getElem?_take, List.getElem?_drop, List.length_drop]
  by_cases hk : k < a.length
  · simp only [hk, if_true]
    split
    · rw [if_pos (by omega), if_pos (by omega)]
    · rw [if_neg (by omega)]
  · simp only [hk, if_false]
    split
    · rw [if_pos (by omega)]
      congr 1
      omega
    · rw [if_neg (by omega)]

theorem overwrite_append_right {a : Bytes} {offset : Nat} (h : a.length ≤ offset) (b data : Bytes) :
    overwrite (a ++ b) offset data = a ++ b.overwrite (offset - a.length) data := by
  have hGap : offset - (a.length + b.length) = offset - a.length - b.length := by omega
  have hRest : offset + data.length - a.length = offset - a.length + data.length := by omega
  simp only [overwrite, List.length_append, hGap, List.take_append, List.drop_append, hRest,
    List.take_of_length_le h, List.append_assoc, List.nil_append,
    List.drop_eq_nil_of_le (show a.length ≤ offset + data.length by omega)]

theorem take_overwrite {b data : Bytes} {offset n : Nat} (h : offset + data.length ≤ n)
    (hLong : n ≤ b.length) :
    (b.overwrite offset data).take n = overwrite (b.take n) offset data := by
  have hTaken : (b.take n).length = n := List.length_take_of_le hLong
  apply List.ext_getElem?
  intro k
  rw [List.getElem?_take, getElem?_overwrite (by omega), getElem?_overwrite (by omega),
    List.getElem?_take]
  by_cases hk : k < n
  · simp only [hk, if_true]
  · rw [if_neg hk, if_neg (by omega), if_neg hk]

end Bytes

namespace FileTree

variable {t t' : FileTree} {p q r : Path} {offset : Nat} {data : Bytes}

theorem sameFile_writeAt (h : t.writeAt r offset data = .ok t') :
    t'.SameFile p q ↔ t.SameFile p q := by
  obtain ⟨place, old, hLocate, rfl⟩ := writeAt_eq_ok.mp h
  exact sameFile_setContent (lookup_of_locate hLocate) _

theorem locate_writeAt_of_not_sameFile (h : t.writeAt p offset data = .ok t')
    (hOther : ¬ t.SameFile p q) : t'.locate q = t.locate q := by
  obtain ⟨place, old, hLocate, rfl⟩ := writeAt_eq_ok.mp h
  rw [locate_setContent (lookup_of_locate hLocate), if_neg]
  exact fun hHere => hOther ⟨place, ⟨old, hLocate⟩, old, hHere⟩

end FileTree

namespace LaidFile

variable {t t' : FileTree} {f : LaidFile} {place : Place} {bytes : Bytes}

/-- The first bytes of a file, as many as its entry declares. -/
def content (t : FileTree) (f : LaidFile) : Bytes :=
  ((t.readFile f.path).toOption.getD []).take f.length

/-- The file of an entry is there, with as many bytes as declared or more. -/
def Held (t : FileTree) (f : LaidFile) : Prop :=
  ∃ place bytes, t.locate f.path = .ok (place, some (.file bytes)) ∧ f.length ≤ bytes.length

theorem content_of_locate (h : t.locate f.path = .ok (place, some (.file bytes))) :
    f.content t = bytes.take f.length := by
  rw [content, FileTree.readFile_of_locate h]
  rfl

theorem content_congr (h : t'.locate f.path = t.locate f.path) : f.content t' = f.content t := by
  simp only [content, FileTree.readFile, h]

theorem Held.length_content (h : f.Held t) : (f.content t).length = f.length := by
  obtain ⟨place, bytes, hLocate, hLong⟩ := h
  rw [content_of_locate hLocate, List.length_take_of_le hLong]

theorem Held.cells_eq (h : f.Held t) : f.cells t = (f.content t).map some := by
  obtain ⟨place, bytes, hLocate, hLong⟩ := h
  apply List.ext_getElem?
  intro k
  rw [content_of_locate hLocate, cells, FileTree.readFile_of_locate hLocate, List.getElem?_map,
    List.getElem?_map, List.getElem?_take]
  by_cases hk : k < f.length
  · rw [List.getElem?_range hk, if_pos hk, List.getElem?_eq_getElem (by omega)]
    simp [Except.toOption, List.getElem?_eq_getElem (show k < bytes.length by omega)]
  · rw [if_neg hk, List.getElem?_eq_none (by rw [List.length_range]; omega)]
    rfl

theorem Held.readAt (h : f.Held t) {offset count : Nat} (hInside : offset + count ≤ f.length) :
    ∃ bytes, t.readAt f.path offset count = .ok bytes := by
  obtain ⟨place, bytes, hLocate, hLong⟩ := h
  rw [FileTree.readAt_of_locate hLocate, if_pos]
  · exact ⟨_, rfl⟩
  · rw [Bytes.length_slice]
    omega

/-- A write inside an entry is laid over its content. -/
theorem Held.writeAt (h : f.Held t) {offset : Nat} {data : Bytes}
    (hInside : offset + data.length ≤ f.length) :
    ∃ t', t.writeAt f.path offset data = .ok t' ∧
      f.content t' = (f.content t).overwrite offset data := by
  obtain ⟨place, old, hLocate, hLong⟩ := h
  refine ⟨_, FileTree.writeAt_eq_ok.mpr ⟨place, old, hLocate, rfl⟩, ?_⟩
  have hNow : (t.setContent place (old.overwrite offset data)).locate f.path =
      .ok (place, some (.file (old.overwrite offset data))) := by
    rw [FileTree.locate_setContent (FileTree.lookup_of_locate hLocate), if_pos hLocate]
  rw [content_of_locate hNow, content_of_locate hLocate, Bytes.take_overwrite hInside hLong]

/-- Writes take no bytes away from a file. -/
theorem Held.after_writeAt (h : f.Held t) {p : Path} {offset : Nat} {data : Bytes}
    (hWrite : t.writeAt p offset data = .ok t') : f.Held t' := by
  obtain ⟨place, bytes, hLocate, hLong⟩ := h
  obtain ⟨q, old, hOld, rfl⟩ := FileTree.writeAt_eq_ok.mp hWrite
  rw [Held, FileTree.locate_setContent (FileTree.lookup_of_locate hOld)]
  split
  · next hHere =>
    rw [hHere] at hLocate
    cases hLocate
    have hGrown := Bytes.length_le_overwrite bytes offset data
    exact ⟨_, bytes.overwrite offset data, rfl, by omega⟩
  · exact ⟨place, bytes, hLocate, hLong⟩

end LaidFile

namespace Layout

variable {t t' : FileTree} {f : LaidFile} {files rest : List LaidFile}

/-! ### The buffer -/

/-- The bytes of a torrent on disk: the content of its files, one after the other. -/
def content (t : FileTree) (files : List LaidFile) : Bytes := files.flatMap (LaidFile.content t)

theorem content_cons (t : FileTree) (f : LaidFile) (rest : List LaidFile) :
    content t (f :: rest) = f.content t ++ content t rest := rfl

theorem content_congr (h : ∀ f ∈ files, t'.locate f.path = t.locate f.path) :
    content t' files = content t files :=
  List.flatMap_congr fun f hf => LaidFile.content_congr (h f hf)

/-- Every entry leads to a file of its own that holds as many bytes as declared. -/
structure Backed (files : List LaidFile) (t : FileTree) : Prop where
  held : ∀ f ∈ files, f.Held t
  own : files.Pairwise fun f g => ¬ t.SameFile f.path g.path

theorem Backed.writeAt (h : Backed files t) {p : Path} {offset : Nat} {data : Bytes}
    (hWrite : t.writeAt p offset data = .ok t') : Backed files t' := by
  refine ⟨fun f hf => (h.held f hf).after_writeAt hWrite, h.own.imp fun hOther hSame => ?_⟩
  exact hOther ((FileTree.sameFile_writeAt hWrite).mp hSame)

theorem Backed.tail (h : Backed (f :: rest) t) : Backed rest t :=
  ⟨(List.forall_mem_cons.mp h.held).2, (List.pairwise_cons.mp h.own).2⟩

theorem Backed.apart (h : Backed (f :: rest) t) : ∀ g ∈ rest, ¬ t.SameFile g.path f.path := by
  rintro g hg ⟨place, hLeft, hRight⟩
  exact (List.pairwise_cons.mp h.own).1 g hg ⟨place, hRight, hLeft⟩

/-- A write inside the first file is laid over its content, and over nothing else. -/
theorem Backed.writeFirst (h : Backed (f :: rest) t) {offset : Nat} {data : Bytes}
    (hInside : offset + data.length ≤ f.length) :
    ∃ t', t.writeAt f.path offset data = .ok t' ∧ Backed (f :: rest) t' ∧
      f.content t' = (f.content t).overwrite offset data ∧ content t' rest = content t rest ∧
      (∀ p q, t'.SameFile p q ↔ t.SameFile p q) ∧
      ∀ p, ¬ t.SameFile f.path p → t'.locate p = t.locate p := by
  obtain ⟨t', hWrite, hContent⟩ := (h.held f List.mem_cons_self).writeAt hInside
  have hOthers := (List.pairwise_cons.mp h.own).1
  refine ⟨t', hWrite, h.writeAt hWrite, hContent, content_congr fun g hg => ?_, ?_, ?_⟩
  · exact FileTree.locate_writeAt_of_not_sameFile hWrite (hOthers g hg)
  · exact fun p q => FileTree.sameFile_writeAt hWrite
  · exact fun p hp => FileTree.locate_writeAt_of_not_sameFile hWrite hp

theorem cells_eq (h : ∀ f ∈ files, f.Held t) : cells t files = (content t files).map some := by
  induction files with
  | nil => rfl
  | cons f rest ih =>
    obtain ⟨hFirst, hRest⟩ := List.forall_mem_cons.mp h
    rw [content_cons, List.map_append, ← hFirst.cells_eq, ← ih hRest]
    rfl

theorem length_content (h : ∀ f ∈ files, f.Held t) :
    (content t files).length = (cells t files).length := by
  rw [cells_eq h, List.length_map]

/-- A range that goes past the last file is not read. -/
theorem readFiles_past {start pos count : Nat} (hLaid : Laid start files)
    (hHeld : ∀ f ∈ files, f.Held t) (hStart : start ≤ pos) (hCount : 0 < count)
    (hPast : start + (content t files).length < pos + count) :
    readFiles t files pos count = .ok none := by
  induction files generalizing start pos count with
  | nil => rfl
  | cons f rest ih =>
    obtain ⟨rfl, hLaid⟩ := hLaid
    obtain ⟨hFirst, hRest⟩ := List.forall_mem_cons.mp hHeld
    rw [content_cons, List.length_append, hFirst.length_content] at hPast
    rw [readFiles]
    split
    · next hCovers =>
      rw [covers_iff] at hCovers
      have hInside : pos - f.start + min count (f.start + f.length - pos) ≤ f.length := by omega
      obtain ⟨bytes, hRead⟩ := hFirst.readAt hInside
      have hMore : readFiles t rest (pos + min count (f.start + f.length - pos))
          (count - min count (f.start + f.length - pos)) = .ok none :=
        ih hLaid hRest (by omega) (by omega) (by omega)
      dsimp only
      rw [hRead, hMore]
      simp only [bind, Except.bind]
      rw [if_neg (by omega)]
      rfl
    · next hCovers =>
      rw [covers_iff] at hCovers
      exact ih hLaid hRest (by omega) hCount (by omega)

theorem Backed.writeFiles (h : Backed files t) (part : List LaidFile) (pos : Nat) (data : Bytes) :
    Backed files (Layout.writeFiles t part pos data).1 := by
  induction part generalizing t pos data with
  | nil => exact h
  | cons f rest ih =>
    rw [Layout.writeFiles]
    split
    · dsimp only
      split
      · exact h
      · next t₁ hWrite =>
        split
        · exact h.writeAt hWrite
        · exact ih (h.writeAt hWrite) _ _
    · exact ih h pos data

/-- A write that begins in the first file fills it, and goes on in the others with what is left. -/
theorem writeFiles_cons {pos : Nat} {data : Bytes} (hStart : f.start ≤ pos)
    (hCovered : pos < f.start + f.length)
    (hWrite : t.writeAt f.path (pos - f.start) (data.take (f.length - (pos - f.start))) = .ok t') :
    writeFiles t (f :: rest) pos data =
      if data.length ≤ f.length - (pos - f.start) then (t', .ok true)
      else writeFiles t' rest (f.start + f.length) (data.drop (f.length - (pos - f.start))) := by
  have hHere : data.take (min data.length (f.start + f.length - pos)) =
      data.take (f.length - (pos - f.start)) := by
    rw [List.take_eq_take_iff]
    omega
  rw [writeFiles, if_pos (covers_iff.mpr (by omega))]
  dsimp only
  rw [hHere, hWrite]
  dsimp only
  by_cases hAll : data.length ≤ f.length - (pos - f.start)
  · rw [if_pos (by omega), if_pos hAll]
  · have hEnd : pos + min data.length (f.start + f.length - pos) = f.start + f.length := by omega
    have hLeft : min data.length (f.start + f.length - pos) = f.length - (pos - f.start) := by omega
    rw [if_neg (by omega), if_neg hAll, hEnd, hLeft]

/-- A range of the layout is written file by file, as it is laid over the content. Paths that lead
to none of the files lead to what they led to. -/
theorem writeFiles_eq {start pos : Nat} {data : Bytes} (hLaid : Laid start files)
    (hBacked : Backed files t) (hStart : start ≤ pos) (hData : data ≠ [])
    (hInside : pos + data.length ≤ start + (content t files).length) :
    ∃ t', writeFiles t files pos data = (t', .ok true) ∧
      content t' files = (content t files).overwrite (pos - start) data ∧
      ∀ p, (∀ f ∈ files, ¬ t.SameFile f.path p) → t'.locate p = t.locate p := by
  have hSome := List.length_pos_of_ne_nil hData
  induction files generalizing t start pos data with
  | nil =>
    simp only [content, List.flatMap_nil, List.length_nil] at hInside
    omega
  | cons f rest ih =>
    obtain ⟨rfl, hLaid⟩ := hLaid
    have hLength := (hBacked.held f List.mem_cons_self).length_content
    rw [content_cons, List.length_append, hLength] at hInside
    rw [content_cons t]
    by_cases hCovered : pos < f.start + f.length
    · have hFits : pos - f.start + (data.take (f.length - (pos - f.start))).length ≤ f.length := by
        rw [List.length_take]
        omega
      obtain ⟨t₁, hWrite, hBacked₁, hContent₁, hRest₁, hSame₁, hKept₁⟩ := hBacked.writeFirst hFits
      rw [writeFiles_cons hStart hCovered hWrite, Bytes.overwrite_append_left (by omega), hLength,
        ← hContent₁, ← hRest₁]
      split
      · next hAll =>
        have hNothing : data.drop (f.length - (pos - f.start)) = [] := List.drop_eq_nil_iff.mpr hAll
        refine ⟨t₁, rfl, ?_, fun p hp => hKept₁ p (hp f List.mem_cons_self)⟩
        rw [hNothing, Bytes.overwrite_zero_nil, content_cons]
      · next hMore =>
        have hLeftSome : 0 < (data.drop (f.length - (pos - f.start))).length := by
          rw [List.length_drop]
          omega
        have hLeftInside : f.start + f.length + (data.drop (f.length - (pos - f.start))).length ≤
            f.start + f.length + (content t₁ rest).length := by
          rw [List.length_drop, hRest₁]
          omega
        obtain ⟨t', hWritten, hContent, hKept⟩ := ih hLaid hBacked₁.tail (Nat.le_refl _)
          (List.ne_nil_of_length_pos hLeftSome) hLeftInside hLeftSome
        refine ⟨t', hWritten, ?_, fun p hp => ?_⟩
        · rw [content_cons, hContent, Nat.sub_self,
            LaidFile.content_congr (hKept f.path hBacked₁.apart)]
        · obtain ⟨hFirst, hOthers⟩ := List.forall_mem_cons.mp hp
          rw [hKept p fun g hg hSame => hOthers g hg ((hSame₁ ..).mp hSame), hKept₁ p hFirst]
    · obtain ⟨t', hWritten, hContent, hKept⟩ := ih hLaid hBacked.tail
        (show f.start + f.length ≤ pos by omega) hData (by omega) hSome
      refine ⟨t', ?_, ?_, fun p hp => hKept p (List.forall_mem_cons.mp hp).2⟩
      · rw [Layout.writeFiles, if_neg (mt covers_iff.mp (by omega))]
        exact hWritten
      · rw [content_cons, hContent, LaidFile.content_congr (hKept f.path hBacked.apart),
          Bytes.overwrite_append_right (by omega), hLength, Nat.sub_sub]

variable {l : Layout} {offset length : Nat} {data : Bytes}

/-- A range of at least one byte is read from the files as it is from a memory with their content.
-/
theorem Backed.read (hLaid : Laid 0 l.files) (h : Backed l.files t) (hLength : 0 < length) :
    l.read t offset length = Memory.read (content t l.files) offset length := by
  rw [Memory.read]
  split
  · next hInside =>
    have hFiles : ∀ f ∈ l.files, ∃ bytes, t.readFile f.path = .ok bytes := by
      intro f hf
      obtain ⟨place, bytes, hLocate, -⟩ := h.held f hf
      exact ⟨bytes, FileTree.readFile_of_locate hLocate⟩
    rw [length_content h.held] at hInside
    rw [read_eq hLaid hFiles hLength hInside, bytes?, cells_eq h.held, ← List.map_drop,
      ← List.map_take, whole?_map_some]
    rfl
  · next hPast =>
    rw [Layout.read, if_neg (by omega),
      readFiles_past hLaid h.held (Nat.zero_le _) hLength (by omega)]

/-- A range that lies inside is written to the files as it is to a memory with their content. -/
theorem Backed.write (hLaid : Laid 0 l.files) (h : Backed l.files t) (hData : data ≠ [])
    (hInside : offset + data.length ≤ (content t l.files).length) :
    ∃ t', l.write t offset data = (t', .ok ()) ∧ Backed l.files t' ∧
      Memory.write (content t l.files) offset data = .ok (content t' l.files) := by
  obtain ⟨t', hWritten, hContent, -⟩ :=
    writeFiles_eq hLaid h (Nat.zero_le offset) hData (by omega)
  refine ⟨t', ?_, ?_, ?_⟩
  · rw [Layout.write, if_neg (by simpa using hData), hWritten]
  · have hBacked := h.writeFiles l.files offset data
    rwa [hWritten] at hBacked
  · rw [Memory.write, if_pos hInside, hContent, Nat.sub_zero]

end Layout

/-! ### Sequences of calls -/

/-- A call of a storage. -/
inductive Access
  | read (offset length : Nat)
  | write (offset : Nat) (data : Bytes)

/-- The answer to a call. -/
inductive Answer
  | bytes (reply : Reply Bytes)
  | written (reply : Reply Unit)

/-- The call is about bytes inside the first `size`, one at least. -/
def Access.Within (size : Nat) : Access → Prop
  | .read offset length => 0 < length ∧ offset + length ≤ size
  | .write offset data => 0 < data.length ∧ offset + data.length ≤ size

/-- The call did what it was made for. -/
inductive Answer.Succeeds : Answer → Prop
  | bytes {b : Bytes} : Succeeds (.bytes (.done b))
  | written : Succeeds (.written (.done ()))

namespace Storage

/-- The answer to a call, and the storage and the files after it. -/
def access (s : Storage) (t : FileTree) : Access → Answer × Storage × FileTree
  | .read offset length =>
    let (reply, s) := s.read t offset length
    (.bytes reply, s, t)
  | .write offset data =>
    let (reply, s, t) := s.write t offset data
    (.written reply, s, t)

/-- The answers to calls one after the other, and the storage and the files after them. -/
def serve (s : Storage) (t : FileTree) : List Access → List Answer × Storage × FileTree
  | [] => ([], s, t)
  | a :: more =>
    let (answer, s, t) := s.access t a
    let (answers, s, t) := s.serve t more
    (answer :: answers, s, t)

end Storage

namespace Layout

variable {l : Layout} {t : FileTree}

theorem Backed.access (hLaid : Laid 0 l.files) (h : Backed l.files t) (u : FileTree) {a : Access}
    (ha : a.Within (content t l.files).length) :
    ∃ answer t', answer.Succeeds ∧ Backed l.files t' ∧
      (content t' l.files).length = (content t l.files).length ∧
      (Storage.disk l).access t a = (answer, .disk l, t') ∧
      (Storage.memory (content t l.files)).access u a =
        (answer, .memory (content t' l.files), u) := by
  cases a with
  | read offset length =>
    obtain ⟨hSome, hInside⟩ := ha
    have hDone : Memory.read (content t l.files) offset length =
        .ok ((content t l.files).slice offset length) := if_pos hInside
    refine ⟨.bytes (.done ((content t l.files).slice offset length)), t, .bytes, h, rfl, ?_, ?_⟩
    · simp only [Storage.access, Storage.read, h.read hLaid hSome, hDone, Reply.ofExcept]
    · simp only [Storage.access, Storage.read, hDone, Reply.ofExcept]
  | write offset data =>
    obtain ⟨hSome, hInside⟩ := ha
    obtain ⟨t', hWrite, hBacked, hMemory⟩ :=
      h.write hLaid (List.ne_nil_of_length_pos hSome) hInside
    refine ⟨.written (.done ()), t', .written, hBacked, ?_, ?_, ?_⟩
    · rw [length_content hBacked.held, length_content h.held]
      simp [cells, LaidFile.length_cells]
    · simp only [Storage.access, Storage.write, hWrite, Reply.ofExcept]
    · simp only [Storage.access, Storage.write, hMemory]

theorem Backed.serve (hLaid : Laid 0 l.files) (h : Backed l.files t) (u : FileTree)
    {calls : List Access} (hCalls : ∀ a ∈ calls, a.Within (content t l.files).length) :
    ∃ answers t', (∀ x ∈ answers, x.Succeeds) ∧ Backed l.files t' ∧
      (content t' l.files).length = (content t l.files).length ∧
      (Storage.disk l).serve t calls = (answers, .disk l, t') ∧
      (Storage.memory (content t l.files)).serve u calls =
        (answers, .memory (content t' l.files), u) := by
  induction calls generalizing t with
  | nil => exact ⟨[], t, (fun _ hx => nomatch hx), h, rfl, rfl, rfl⟩
  | cons a more ih =>
    obtain ⟨ha, hMore⟩ := List.forall_mem_cons.mp hCalls
    obtain ⟨answer, t₁, hSucceeds, hBacked₁, hLength₁, hDisk, hMemory⟩ := h.access hLaid u ha
    obtain ⟨answers, t', hAll, hBacked, hLength, hDisk', hMemory'⟩ := ih hBacked₁ (by
      rw [hLength₁]
      exact hMore)
    refine ⟨answer :: answers, t', List.forall_mem_cons.mpr ⟨hSucceeds, hAll⟩, hBacked,
      hLength.trans hLength₁, ?_, ?_⟩
    · simp only [Storage.serve, hDisk, hDisk']
    · simp only [Storage.serve, hMemory, hMemory']

theorem length_content_ofMetainfo {root : Path} {m : Metainfo}
    (hFits : m.contentLength < 0x10000000000000000) (h : Backed (ofMetainfo root m).files t) :
    (content t (ofMetainfo root m).files).length = (ofMetainfo root m).totalSize := by
  rw [length_content h.held, length_cells_ofMetainfo t root hFits]

/-- Any calls within a torrent whose entries have lengths with a sum that is a word, and lead to
files of their own, each with as many bytes as declared, succeed, are answered as a memory with the
same bytes answers them, and leave in the files what they leave in the memory. After them, as
before, a range that goes past the end is out of bounds for both. -/
theorem serve_disk_eq_memory {root : Path} {m : Metainfo} (u : FileTree) {calls : List Access}
    (hFits : m.contentLength < 0x10000000000000000) (h : Backed (ofMetainfo root m).files t)
    (hCalls : ∀ a ∈ calls, a.Within (ofMetainfo root m).totalSize) :
    ∃ answers t',
      (Storage.disk (ofMetainfo root m)).serve t calls = (answers, .disk (ofMetainfo root m), t') ∧
      (Storage.memory (content t (ofMetainfo root m).files)).serve u calls =
        (answers, .memory (content t' (ofMetainfo root m).files), u) ∧
      (∀ x ∈ answers, x.Succeeds) ∧
      (content t' (ofMetainfo root m).files).length = (ofMetainfo root m).totalSize ∧
      ∀ offset length, 0 < length → (ofMetainfo root m).totalSize < offset + length →
        ((Storage.disk (ofMetainfo root m)).read t' offset length).1 =
            .failed (.outOfBounds offset length) ∧
          ((Storage.memory (content t' (ofMetainfo root m).files)).read u offset length).1 =
            .failed (.outOfBounds offset length) := by
  have hLaid := laid_ofMetainfo root hFits
  rw [← length_content_ofMetainfo hFits h] at hCalls
  obtain ⟨answers, t', hAll, hBacked, -, hDisk, hMemory⟩ := h.serve hLaid u hCalls
  have hSize := length_content_ofMetainfo hFits hBacked
  refine ⟨answers, t', hDisk, hMemory, hAll, hSize, fun offset length hLength hPast => ?_⟩
  have hOutside : Memory.read (content t' (ofMetainfo root m).files) offset length =
      .error (.outOfBounds offset length) := if_neg (by omega)
  constructor
  · simp only [Storage.read, hBacked.read hLaid hLength, hOutside, Reply.ofExcept]
  · simp only [Storage.read, hOutside, Reply.ofExcept]

/-- A torrent of three files, the second without a byte. -/
def triple : Metainfo :=
  { infoBytes := []
    info :=
      { files := [⟨2, ["a"]⟩, ⟨0, ["b"]⟩, ⟨3, ["c"]⟩]
        name := "t" } }

/-- Its files on disk, the first longer than declared. -/
def tripleTree : FileTree :=
  { home := []
    entries := [(["dl"], .folder), (["dl", "a"], .file [1, 2, 9]), (["dl", "b"], .file []),
      (["dl", "c"], .file [3, 4, 5])] }

theorem files_triple : (ofMetainfo ⟨"dl"⟩ triple).files =
    [⟨⟨"dl/a"⟩, 2, 0⟩, ⟨⟨"dl/b"⟩, 0, 2⟩, ⟨⟨"dl/c"⟩, 3, 2⟩] := by
  decide +kernel

theorem locate_triple :
    tripleTree.locate ⟨"dl/a"⟩ = .ok (["dl", "a"], some (.file [1, 2, 9])) ∧
    tripleTree.locate ⟨"dl/b"⟩ = .ok (["dl", "b"], some (.file [])) ∧
    tripleTree.locate ⟨"dl/c"⟩ = .ok (["dl", "c"], some (.file [3, 4, 5])) := by
  refine ⟨?_, ?_, ?_⟩ <;> decide +kernel

theorem backed_triple : Backed (ofMetainfo ⟨"dl"⟩ triple).files tripleTree := by
  obtain ⟨ha, hb, hc⟩ := locate_triple
  rw [files_triple]
  constructor
  · simp only [List.forall_mem_cons, List.not_mem_nil, false_implies, implies_true, and_true]
    exact ⟨⟨_, _, ha, by decide⟩, ⟨_, _, hb, by decide⟩, ⟨_, _, hc, by decide⟩⟩
  · simp only [List.pairwise_cons, List.forall_mem_cons, List.not_mem_nil, false_implies,
      implies_true, List.Pairwise.nil, and_true, FileTree.SameFile, FileTree.LeadsTo, ha, hb, hc]
    refine ⟨⟨?_, ?_⟩, ?_⟩ <;> simp

theorem content_triple :
    content tripleTree (ofMetainfo ⟨"dl"⟩ triple).files = [1, 2, 3, 4, 5] := by
  obtain ⟨ha, hb, hc⟩ := locate_triple
  rw [files_triple, content_cons, content_cons, content_cons, LaidFile.content_of_locate ha,
    LaidFile.content_of_locate hb, LaidFile.content_of_locate hc]
  rfl

/-- A write and a read across all three files, and a read that goes past the last. -/
theorem serve_triple :
    ∃ t', (Storage.disk (ofMetainfo ⟨"dl"⟩ triple)).serve tripleTree
          [.write 1 [7, 8], .read 0 4] =
        ([.written (.done ()), .bytes (.done [1, 7, 8, 4])], .disk (ofMetainfo ⟨"dl"⟩ triple), t') ∧
      content t' (ofMetainfo ⟨"dl"⟩ triple).files = [1, 7, 8, 4, 5] ∧
      ((Storage.disk (ofMetainfo ⟨"dl"⟩ triple)).read t' 4 2).1 = .failed (.outOfBounds 4 2) := by
  have hSize : (ofMetainfo ⟨"dl"⟩ triple).totalSize = 5 := by decide +kernel
  have hCalls : ∀ a ∈ [Access.write 1 [7, 8], .read 0 4],
      a.Within (ofMetainfo ⟨"dl"⟩ triple).totalSize := by
    rw [hSize]
    simp only [List.forall_mem_cons, List.not_mem_nil, false_implies, implies_true, and_true]
    exact ⟨⟨by decide, by decide⟩, by decide, by decide⟩
  obtain ⟨answers, t', hDisk, hMemory, -, -, hPast⟩ :=
    serve_disk_eq_memory tripleTree (by decide) backed_triple hCalls
  have hServed : (Storage.memory [1, 2, 3, 4, 5]).serve tripleTree [.write 1 [7, 8], .read 0 4] =
      ([.written (.done ()), .bytes (.done [1, 7, 8, 4])], .memory [1, 7, 8, 4, 5], tripleTree) :=
    rfl
  rw [content_triple, hServed] at hMemory
  simp only [Prod.mk.injEq, Storage.memory.injEq, and_true] at hMemory
  obtain ⟨rfl, hLeft⟩ := hMemory
  exact ⟨t', hDisk, hLeft.symm, (hPast 4 2 (by decide) (by omega)).1⟩

end Layout

end TorrentEngine
