import Mathlib.Algebra.Ring.Nat
import TorrentEngine.Proofs.Allocation
import TorrentEngine.Proofs.Ranges

/-!
The stream of a layout. The files of a layout, one after the other, make a stream of places for
bytes; a file that is shorter than declared leaves its last places empty. Reading a range gives its
bytes if all of them are there, and runs into the end of a file otherwise.
-/

namespace TorrentEngine

/-- The bytes at some places, if there is one at each. -/
def whole? : List (Option UInt8) → Option Bytes
  | [] => some []
  | none :: _ => none
  | some b :: rest => (whole? rest).map (b :: ·)

theorem whole?_map_some (bytes : Bytes) : whole? (bytes.map some) = some bytes := by
  induction bytes with
  | nil => rfl
  | cons b rest ih => simp [whole?, ih]

theorem whole?_eq_none {cells : List (Option UInt8)} : whole? cells = none ↔ none ∈ cells := by
  induction cells with
  | nil => simp [whole?]
  | cons cell rest ih =>
    cases cell with
    | none => simp [whole?]
    | some b => simpa [whole?] using ih

theorem length_whole? {cells : List (Option UInt8)} {bytes : Bytes}
    (h : whole? cells = some bytes) : bytes.length = cells.length := by
  induction cells generalizing bytes with
  | nil =>
    obtain rfl := Option.some.inj h
    rfl
  | cons cell rest ih =>
    cases cell with
    | none => cases h
    | some b =>
      obtain ⟨more, hMore, rfl⟩ := Option.map_eq_some_iff.mp h
      rw [List.length_cons, List.length_cons, ih hMore]

theorem whole?_append (cells cells' : List (Option UInt8)) :
    whole? (cells ++ cells') =
      (whole? cells).bind fun bytes => (whole? cells').map fun more => bytes ++ more := by
  induction cells with
  | nil => cases h : whole? cells' <;> simp [whole?, h]
  | cons cell rest ih =>
    cases cell with
    | none => rfl
    | some b =>
      simp only [List.cons_append, whole?, ih]
      cases whole? rest <;> cases whole? cells' <;> simp

/-- The length of all files of a torrent. -/
def Metainfo.contentLength (m : Metainfo) : Nat := (m.fileList.map (·.2)).sum

namespace LaidFile

/-- The places of a file in the stream, with the bytes that it holds. -/
def cells (t : FileTree) (f : LaidFile) : List (Option UInt8) :=
  (List.range f.length).map fun k => ((t.readFile f.path).toOption.getD [])[k]?

theorem length_cells (t : FileTree) (f : LaidFile) : (f.cells t).length = f.length := by
  simp [cells]

/-- Bytes are read from a file as far as it holds them all. -/
theorem readAt_eq {t : FileTree} {f : LaidFile} {content : Bytes}
    (h : t.readFile f.path = .ok content) {offset count : Nat}
    (hInside : offset + count ≤ f.length) :
    t.readAt f.path offset count =
      match whole? (((f.cells t).drop offset).take count) with
      | some bytes => .ok bytes
      | none => .error .unexpectedEof := by
  have hCell (k : Nat) : (((f.cells t).drop offset).take count)[k]? =
      if k < count then some content[offset + k]? else none := by
    simp only [List.getElem?_take, List.getElem?_drop, cells, h]
    split
    · rw [List.getElem?_map, List.getElem?_range (by omega)]
      rfl
    · rfl
  have hHeld (hLength : (content.slice offset count).length = count) (k : Nat) (hk : k < count) :
      offset + k < content.length := by
    rw [Bytes.length_slice] at hLength
    omega
  simp only [FileTree.readAt, h, bind, Except.bind, pure, Except.pure]
  split
  · next hLength =>
    have hCells : ((f.cells t).drop offset).take count = (content.slice offset count).map some := by
      apply List.ext_getElem?
      intro k
      rw [hCell, List.getElem?_map, Bytes.getElem?_slice]
      split
      · rw [List.getElem?_eq_getElem (hHeld hLength _ (by assumption))]
        rfl
      · rfl
    rw [hCells, whole?_map_some]
  · next hLength =>
    have hNone : none ∈ ((f.cells t).drop offset).take count := by
      rw [Bytes.length_slice] at hLength
      have hLast := hCell (count - 1)
      have hPast : content[offset + (count - 1)]? = none := List.getElem?_eq_none (by omega)
      rw [if_pos (by omega), hPast] at hLast
      exact List.mem_of_getElem? hLast
    rw [whole?_eq_none.mpr hNone]
    rfl

end LaidFile

namespace Layout

variable {t : FileTree} {files : List LaidFile}

/-- The places of the stream, with the bytes that the files hold. -/
def cells (t : FileTree) (files : List LaidFile) : List (Option UInt8) :=
  files.flatMap (LaidFile.cells t)

/-- The bytes of a range of the stream, if all of them are on disk. -/
def bytes? (l : Layout) (t : FileTree) (offset length : Nat) : Option Bytes :=
  whole? (((cells t l.files).drop offset).take length)

theorem covers_iff {f : LaidFile} {pos : Nat} :
    LaidFile.covers f pos = true ↔ f.start ≤ pos ∧ pos < f.start + f.length := by
  simp [LaidFile.covers]

/-- Files lie one after the other from `start` on. -/
def Laid : (start : Nat) → List LaidFile → Prop
  | _, [] => True
  | start, f :: rest => f.start = start ∧ Laid (start + f.length) rest

/-- They do so if no offset is more than a word. -/
theorem laid_lay (root : Path) {start : Nat} {list : List (List String × Nat)}
    (hFits : start + (list.map (·.2)).sum < 0x10000000000000000) :
    Laid start (lay root start list) := by
  induction list generalizing start with
  | nil => trivial
  | cons e rest ih =>
    rw [List.map_cons, List.sum_cons] at hFits
    have hNext : addWords start e.2 = start + e.2 := Nat.mod_eq_of_lt (by omega)
    refine ⟨rfl, ?_⟩
    change Laid (start + e.2) (lay root (addWords start e.2) rest)
    rw [hNext]
    exact ih (by omega)

theorem length_cells_lay (t : FileTree) (root : Path) (start : Nat)
    (list : List (List String × Nat)) :
    (cells t (lay root start list)).length = (list.map (·.2)).sum := by
  induction list generalizing start with
  | nil => rfl
  | cons e rest ih =>
    obtain ⟨names, length⟩ := e
    simp only [cells, lay, List.flatMap_cons, List.length_append, LaidFile.length_cells,
      List.map_cons, List.sum_cons] at ih ⊢
    rw [ih]

theorem foldl_addWords (start : Nat) (lengths : List Nat) :
    lengths.foldl addWords (start % 0x10000000000000000) =
      (start + lengths.sum) % 0x10000000000000000 := by
  induction lengths generalizing start with
  | nil => rfl
  | cons n rest ih =>
    have hNext : addWords (start % 0x10000000000000000) n = (start + n) % 0x10000000000000000 :=
      Nat.mod_add_mod ..
    rw [List.foldl_cons, hNext, ih, List.sum_cons, Nat.add_assoc]

/-- The size of a layout is the length of the files, as far as a word holds it. -/
theorem totalSize_ofMetainfo (root : Path) (m : Metainfo) :
    (ofMetainfo root m).totalSize = m.contentLength % 0x10000000000000000 := by
  have hSize := foldl_addWords 0 (m.fileList.map (·.2))
  rwa [Nat.zero_mod, Nat.zero_add] at hSize

section

variable {m : Metainfo}

theorem laid_ofMetainfo (root : Path) (hFits : m.contentLength < 0x10000000000000000) :
    Laid 0 (ofMetainfo root m).files := by
  refine laid_lay root ?_
  rwa [Nat.zero_add]

theorem length_cells_ofMetainfo (t : FileTree) (root : Path)
    (hFits : m.contentLength < 0x10000000000000000) :
    (cells t (ofMetainfo root m).files).length = (ofMetainfo root m).totalSize := by
  rw [totalSize_ofMetainfo, Nat.mod_eq_of_lt hFits]
  exact length_cells_lay t root 0 m.fileList

end

/-- A range of the stream is read file by file. -/
theorem readFiles_eq {start pos count : Nat} (hLaid : Laid start files)
    (hFiles : ∀ f ∈ files, ∃ content, t.readFile f.path = .ok content) (hStart : start ≤ pos)
    (hCount : 0 < count) (hInside : pos + count ≤ start + (cells t files).length) :
    readFiles t files pos count =
      match whole? (((cells t files).drop (pos - start)).take count) with
      | some bytes => .ok (some bytes)
      | none => .error .unexpectedEof := by
  induction files generalizing start pos count with
  | nil =>
    simp only [cells, List.flatMap_nil, List.length_nil] at hInside
    omega
  | cons f rest ih =>
    obtain ⟨rfl, hRest⟩ := hLaid
    obtain ⟨content, hContent⟩ := hFiles f List.mem_cons_self
    have hOthers : ∀ g ∈ rest, ∃ content, t.readFile g.path = .ok content :=
      fun g hg => hFiles g (List.mem_cons_of_mem f hg)
    have hCells : cells t (f :: rest) = f.cells t ++ cells t rest := rfl
    rw [hCells, List.length_append, LaidFile.length_cells] at hInside
    simp only [readFiles, covers_iff]
    have hSplit : ((cells t (f :: rest)).drop (pos - f.start)).take count =
        ((f.cells t).drop (pos - f.start)).take count ++
          ((cells t rest).drop (pos - (f.start + f.length))).take
            (count - (f.length - (pos - f.start))) := by
      rw [hCells, List.drop_append, List.take_append, List.length_drop, LaidFile.length_cells,
        Nat.sub_sub]
    split
    · next hCovers =>
      have hHere : ((f.cells t).drop (pos - f.start)).take count =
          ((f.cells t).drop (pos - f.start)).take (min count (f.start + f.length - pos)) := by
        rw [List.take_eq_take_iff, List.length_drop, LaidFile.length_cells]
        omega
      rw [hSplit, hHere, whole?_append, LaidFile.readAt_eq hContent (by omega)]
      cases hFirst : whole? (((f.cells t).drop (pos - f.start)).take
          (min count (f.start + f.length - pos))) with
      | none => rfl
      | some bytes =>
        simp only [bind, Except.bind, pure, Except.pure]
        split
        · next hAll =>
          have hNothing : count - (f.length - (pos - f.start)) = 0 := by omega
          rw [hNothing, List.take_zero]
          simp [whole?]
        · next hMore =>
          have hEnd : pos + min count (f.start + f.length - pos) = f.start + f.length := by omega
          have hLeft : count - min count (f.start + f.length - pos) =
              count - (f.length - (pos - f.start)) := by omega
          have hBefore : pos - (f.start + f.length) = 0 := by omega
          rw [ih hRest hOthers (by omega) (by omega) (by omega), hEnd, hLeft, hBefore, Nat.sub_self]
          cases whole? (((cells t rest).drop 0).take (count - (f.length - (pos - f.start)))) <;> rfl
    · next hCovers =>
      have hPast : (f.cells t).drop (pos - f.start) = [] := by
        rw [List.drop_eq_nil_iff, LaidFile.length_cells]
        omega
      have hCount : count - (f.length - (pos - f.start)) = count := by omega
      rw [ih hRest hOthers (by omega) (by omega) (by omega), hSplit, hPast, hCount, List.take_nil,
        List.nil_append]

variable {l : Layout}

/-- A range inside a layout whose files are all there is read as far as its bytes are. -/
theorem read_eq {offset length : Nat} (hLaid : Laid 0 l.files)
    (hFiles : ∀ f ∈ l.files, ∃ content, t.readFile f.path = .ok content) (hLength : 0 < length)
    (hInside : offset + length ≤ (cells t l.files).length) :
    l.read t offset length =
      match l.bytes? t offset length with
      | some bytes => .ok bytes
      | none => .error (.io .unexpectedEof) := by
  simp only [read, bytes?]
  rw [if_neg (by omega), readFiles_eq hLaid hFiles (Nat.zero_le _) hLength (by omega), Nat.sub_zero]
  cases whole? (((cells t l.files).drop offset).take length) <;> rfl

theorem length_bytes? {offset length : Nat} {bytes : Bytes}
    (hInside : offset + length ≤ (cells t l.files).length)
    (h : l.bytes? t offset length = some bytes) : bytes.length = length := by
  rw [length_whole? h, List.length_take, List.length_drop]
  omega

/-! ### Where bytes are missing -/

theorem Laid.start_le {start : Nat} (h : Laid start files) {f : LaidFile} (hf : f ∈ files) :
    start ≤ f.start := by
  induction files generalizing start with
  | nil => cases hf
  | cons g rest ih =>
    obtain ⟨rfl, hRest⟩ := h
    rcases List.mem_cons.mp hf with rfl | hf
    · exact Nat.le_refl _
    · exact Nat.le_trans (Nat.le_add_right _ _) (ih hRest hf)

theorem Laid.end_le {start : Nat} (h : Laid start files) {f : LaidFile} (hf : f ∈ files) :
    f.start + f.length ≤ start + (cells t files).length := by
  induction files generalizing start with
  | nil => cases hf
  | cons g rest ih =>
    obtain ⟨rfl, hRest⟩ := h
    have hCells : cells t (g :: rest) = g.cells t ++ cells t rest := rfl
    rw [hCells, List.length_append, LaidFile.length_cells]
    rcases List.mem_cons.mp hf with rfl | hf
    · omega
    · have := ih hRest hf
      omega

/-- A position of the stream is empty where the file around it is. -/
theorem cells_eq_none {start pos : Nat} (hLaid : Laid start files) (hPos : start ≤ pos) :
    (cells t files)[pos - start]? = some none ↔
      ∃ f ∈ files, LaidFile.covers f pos = true ∧ (f.cells t)[pos - f.start]? = some none := by
  induction files generalizing start with
  | nil => simp [cells]
  | cons g rest ih =>
    obtain ⟨rfl, hRest⟩ := hLaid
    have hCells : cells t (g :: rest) = g.cells t ++ cells t rest := rfl
    rw [hCells, List.getElem?_append, LaidFile.length_cells]
    split
    · next hInside =>
      have hCovers : LaidFile.covers g pos = true := by
        rw [covers_iff]
        omega
      constructor
      · intro hEmpty
        exact ⟨g, List.mem_cons_self, hCovers, hEmpty⟩
      · rintro ⟨f, hf, hOther, hEmpty⟩
        rcases List.mem_cons.mp hf with rfl | hf
        · exact hEmpty
        · have := hRest.start_le hf
          rw [covers_iff] at hOther
          omega
    · next hPast =>
      have hNot : ¬ LaidFile.covers g pos = true := by
        rw [covers_iff]
        omega
      rw [Nat.sub_sub, ih hRest (by omega)]
      constructor
      · rintro ⟨f, hf, hEmpty⟩
        exact ⟨f, List.mem_cons_of_mem g hf, hEmpty⟩
      · rintro ⟨f, hf, hCovers, hEmpty⟩
        rcases List.mem_cons.mp hf with rfl | hf
        · exact absurd hCovers hNot
        · exact ⟨f, hf, hCovers, hEmpty⟩

/-- A range lacks bytes where it has an empty position. -/
theorem bytes?_eq_none {offset length : Nat} (hLaid : Laid 0 l.files) :
    l.bytes? t offset length = none ↔
      ∃ k, offset ≤ k ∧ k < offset + length ∧
        ∃ f ∈ l.files, LaidFile.covers f k = true ∧ (f.cells t)[k - f.start]? = some none := by
  rw [bytes?, whole?_eq_none, List.mem_iff_getElem?]
  simp only [List.getElem?_take, List.getElem?_drop]
  constructor
  · rintro ⟨j, hj⟩
    split at hj
    · refine ⟨offset + j, by omega, by omega, ?_⟩
      exact (cells_eq_none hLaid (Nat.zero_le _)).mp hj
    · cases hj
  · rintro ⟨k, hLow, hHigh, hEmpty⟩
    have hCell := (cells_eq_none (t := t) hLaid (Nat.zero_le k)).mpr hEmpty
    refine ⟨k - offset, ?_⟩
    rw [if_pos (by omega), Nat.add_sub_cancel' hLow]
    exact hCell

/-- Position `k` of the stream belongs to a file that stood there before the allocation and ended
before it. -/
def Truncated (l : Layout) (before t : FileTree) (k : Nat) : Prop :=
  ∃ f ∈ l.files, LaidFile.covers f k = true ∧ ∃ place content, t.placeOf? f.path = some place ∧
    before.lookup place = some (.file content) ∧ f.start + content.length ≤ k

theorem cells_of_locate {f : LaidFile} {place : Place} {content : Bytes}
    (h : t.locate f.path = .ok (place, some (.file content))) {k : Nat}
    (hk : LaidFile.covers f k = true) :
    (f.cells t)[k - f.start]? = some none ↔ f.start + content.length ≤ k := by
  rw [covers_iff] at hk
  have hContent : (t.readFile f.path).toOption.getD [] = content := by
    rw [FileTree.readFile_of_locate h]
    rfl
  rw [LaidFile.cells, hContent, List.getElem?_map, List.getElem?_range (by omega),
    Option.map_some, Option.some_inj, List.getElem?_eq_none_iff]
  omega

/-- After an allocation bytes are missing where they were truncated, and nowhere else. -/
theorem bytes?_of_allocate {before : FileTree} (h : l.allocate before = (t, .ok ()))
    (hOwn : l.OwnPlaces t) (hLaid : Laid 0 l.files) {offset length : Nat} :
    l.bytes? t offset length = none ↔
      ∃ k, offset ≤ k ∧ k < offset + length ∧ l.Truncated before t k := by
  rw [bytes?_eq_none hLaid]
  constructor
  · rintro ⟨k, hLow, hHigh, f, hf, hk, hEmpty⟩
    obtain ⟨place, content, hLocate, hKept | ⟨_, hBlank⟩⟩ := file_of_allocate h hOwn hf
    · have hPlace : t.placeOf? f.path = some place := by
        rw [FileTree.placeOf?, hLocate]
        rfl
      exact ⟨k, hLow, hHigh, f, hf, hk, place, content, hPlace, hKept,
        (cells_of_locate hLocate hk).mp hEmpty⟩
    · have hShort := (cells_of_locate hLocate hk).mp hEmpty
      rw [covers_iff] at hk
      rw [hBlank, List.length_replicate] at hShort
      omega
  · rintro ⟨k, hLow, hHigh, f, hf, hk, place, content, hPlace, hStood, hShort⟩
    obtain ⟨q, now, hLocate, hNow⟩ := file_of_allocate h hOwn hf
    obtain rfl : q = place := by
      rw [FileTree.placeOf?, hLocate] at hPlace
      exact Option.some.inj hPlace
    have hSame : now = content := by
      rcases hNow with hKept | ⟨hNone, _⟩
      · rw [hKept] at hStood
        exact Entry.file.inj (Option.some.inj hStood)
      · rw [hNone] at hStood
        cases hStood
    refine ⟨k, hLow, hHigh, f, hf, hk, (cells_of_locate hLocate hk).mpr ?_⟩
    rw [hSame]
    exact hShort

end Layout

end TorrentEngine
