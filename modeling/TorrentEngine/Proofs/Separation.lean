import Mathlib.Data.List.TFAE
import Mathlib.Order.CompletePartialOrder
import Mathlib.Order.Interval.Set.Disjoint
import Mathlib.Tactic.TFAE
import TorrentEngine.Proofs.Changes
import TorrentEngine.Proofs.Stream

/-!
Which bytes of a torrent share a place on disk. The entries of a layout lie apart in the stream, but
two of them may name one file, which allocation makes for the first. Reads and writes of disjoint
ranges leave each other alone where no two entries with bytes do, and nowhere else.
-/

namespace TorrentEngine

namespace FileTree

variable {t : FileTree} {place : Place} {old : Bytes}

/-! ### Replacing the content of a file -/

theorem find?_setContent (t : FileTree) (place : Place) (new : Bytes) (q : Place) :
    ((t.setContent place new).entries.find? fun e => e.1 = q) =
      (t.entries.find? fun e => e.1 = q).map fun e =>
        if e.1 = place then (place, .file new) else e := by
  have hNames : (fun e : Place × Entry => decide (e.1 = q)) ∘
      (fun e => if e.1 = place then (place, .file new) else e) = fun e => decide (e.1 = q) := by
    funext e
    rw [Function.comp_apply]
    split
    · next hPlace => rw [hPlace]
    · rfl
  rw [setContent, List.find?_map, hNames]

theorem lookup_setContent (h : t.lookup place = some (.file old)) (new : Bytes) (q : Place) :
    (t.setContent place new).lookup q = if q = place then some (.file new) else t.lookup q := by
  have hHome : (t.setContent place new).home = t.home := rfl
  simp only [lookup, hHome] at h ⊢
  rw [find?_setContent]
  split
  · next hAbove =>
    rw [if_neg]
    rintro rfl
    rw [if_pos hAbove] at h
    cases h
  · next hBelow =>
    split
    · next hq =>
      obtain rfl := hq
      rw [if_neg hBelow] at h
      obtain ⟨e, hFound, -⟩ := Option.map_eq_some_iff.mp h
      have hHere : e.1 = q := by simpa using List.find?_some hFound
      rw [hFound, Option.map_some, if_pos hHere, Option.map_some]
    · next hq =>
      cases hFound : t.entries.find? fun e => e.1 = q with
      | none => rfl
      | some e =>
        have hHere : e.1 = q := by simpa using List.find?_some hFound
        rw [Option.map_some, if_neg (hHere ▸ hq)]

/-- Paths lead where they led: what is a file stays one. -/
theorem walk_setContent (h : t.lookup place = some (.file old)) (new : Bytes) (q : Place)
    (names : List String) : (t.setContent place new).walk q names = t.walk q names := by
  induction names generalizing q with
  | nil => rfl
  | cons name rest ih =>
    simp only [walk, lookup_setContent h, ih]
    by_cases hq : q = place
    · rw [if_pos hq, hq, h]
    · rw [if_neg hq]

/-- A path that leads to the file finds the new content, and every other path what it found. -/
theorem locate_setContent (h : t.lookup place = some (.file old)) (new : Bytes) (p : Path) :
    (t.setContent place new).locate p =
      if t.locate p = .ok (place, some (.file old)) then .ok (place, some (.file new))
      else t.locate p := by
  have hHome : (t.setContent place new).home = t.home := rfl
  simp only [locate, hHome, walk_setContent h, lookup_setContent h, bind, Except.bind, pure,
    Except.pure, throw, throwThe, MonadExceptOf.throw]
  by_cases hEmpty : p.text.isEmpty = true
  · simp [hEmpty]
  by_cases hNul : '\x00' ∈ p.text.toList
  · simp [hEmpty, hNul]
  by_cases hLong : p.text.utf8ByteSize > maxPathLength
  · simp [hEmpty, hNul, hLong]
  simp only [hEmpty, hNul, hLong]
  cases hWalk : t.walk (if p.isAbsolute then [] else t.home) p.names with
  | error e => simp
  | ok q =>
    by_cases hq : q = place
    · rw [hq]
      by_cases hFolder : p.namesFolder = true <;> simp [h, hFolder]
    · cases hFound : t.lookup q with
      | none => simp [hFound, hq]
      | some entry =>
        cases entry with
        | folder => simp [hFound, hq]
        | file content => by_cases hFolder : p.namesFolder = true <;> simp [hFound, hq, hFolder]

/-- A path leads to a file at a place. -/
def LeadsTo (t : FileTree) (p : Path) (place : Place) : Prop :=
  ∃ content, t.locate p = .ok (place, some (.file content))

/-- Two paths lead to one file. -/
def SameFile (t : FileTree) (p q : Path) : Prop := ∃ place, t.LeadsTo p place ∧ t.LeadsTo q place

theorem lookup_of_locate {p : Path} {entry : Option Entry} (h : t.locate p = .ok (place, entry)) :
    t.lookup place = entry := (locate_eq_ok.mp h).2.2.2.2.1

theorem LeadsTo.locate_eq {p : Path} (h : t.LeadsTo p place)
    (hOld : t.lookup place = some (.file old)) : t.locate p = .ok (place, some (.file old)) := by
  obtain ⟨content, hLocate⟩ := h
  rw [hLocate, ← lookup_of_locate hLocate, hOld]

theorem leadsTo_setContent (h : t.lookup place = some (.file old)) (new : Bytes) {p : Path}
    {q : Place} : (t.setContent place new).LeadsTo p q ↔ t.LeadsTo p q := by
  simp only [LeadsTo, locate_setContent h]
  split
  · next hLocate => simp [hLocate]
  · rfl

theorem sameFile_setContent (h : t.lookup place = some (.file old)) (new : Bytes) {p q : Path} :
    (t.setContent place new).SameFile p q ↔ t.SameFile p q := by
  simp only [SameFile, leadsTo_setContent h]

theorem writeAt_eq_ok {t' : FileTree} {p : Path} {offset : Nat} {data : Bytes} :
    t.writeAt p offset data = .ok t' ↔
      ∃ place content, t.locate p = .ok (place, some (.file content)) ∧
        t' = t.setContent place (content.overwrite offset data) := by
  simp only [writeAt, bind_eq_ok]
  constructor
  · rintro ⟨⟨place, found⟩, hLocate, h⟩
    cases found with
    | none => cases h
    | some entry =>
      cases entry with
      | folder => cases h
      | file content => exact ⟨place, content, hLocate, (Except.ok.inj h).symm⟩
  · rintro ⟨place, content, hLocate, rfl⟩
    exact ⟨_, hLocate, rfl⟩

theorem readAt_of_locate {p : Path} {content : Bytes}
    (h : t.locate p = .ok (place, some (.file content))) (offset count : Nat) :
    t.readAt p offset count =
      if (content.slice offset count).length = count then .ok (content.slice offset count)
      else .error .unexpectedEof := by
  simp only [readAt, readFile_of_locate h]
  rfl

theorem readAt_congr {t' : FileTree} {p : Path} (h : t'.locate p = t.locate p)
    (offset count : Nat) : t'.readAt p offset count = t.readAt p offset count := by
  simp only [readAt, readFile, h]

end FileTree

namespace Layout

variable {t t' : FileTree} {files part : List LaidFile} {f g : LaidFile}

/-! ### Files that are not shared -/

/-- No two entries with bytes lead to one file, and only an entry of a single byte leads to a file
that is shorter than declared. -/
structure Unshared (files : List LaidFile) (t : FileTree) : Prop where
  own : ∀ f ∈ files, ∀ g ∈ files, t.SameFile f.path g.path → 0 < f.length → 0 < g.length → f = g
  long : ∀ f ∈ files, ∀ place content, t.locate f.path = .ok (place, some (.file content)) →
    f.length ≤ max content.length 1

theorem Unshared.writeAt (h : Unshared files t) {offset : Nat} {data : Bytes}
    (hWrite : t.writeAt f.path offset data = .ok t') : Unshared files t' := by
  obtain ⟨place, old, hLocate, rfl⟩ := FileTree.writeAt_eq_ok.mp hWrite
  have hOld := FileTree.lookup_of_locate hLocate
  constructor
  · intro a ha b hb hSame
    exact h.own a ha b hb ((FileTree.sameFile_setContent hOld _).mp hSame)
  · intro a ha q content hFound
    rw [FileTree.locate_setContent hOld] at hFound
    split at hFound
    · next hHere =>
      obtain ⟨rfl, rfl⟩ : place = q ∧ old.overwrite offset data = content := by
        simpa using hFound
      have hLong := h.long a ha place old hHere
      have hGrown := Bytes.length_le_overwrite old offset data
      omega
    · exact h.long a ha q content hFound

/-- Writing through one entry changes nothing that is read through another, nor what is read through
the same apart from the range written. -/
theorem Unshared.readAt_writeAt (h : Unshared files t) {offset start count : Nat} {data : Bytes}
    (hf : f ∈ files) (hg : g ∈ files) (hWrite : t.writeAt f.path offset data = .ok t')
    (hOffset : offset < f.length) (hStart : start < g.length)
    (hApart : f = g → start + count ≤ offset ∨ offset + data.length ≤ start) :
    t'.readAt g.path start count = t.readAt g.path start count := by
  obtain ⟨place, old, hLocate, rfl⟩ := FileTree.writeAt_eq_ok.mp hWrite
  have hOld := FileTree.lookup_of_locate hLocate
  by_cases hSame : t.locate g.path = .ok (place, some (.file old))
  · have hEq := h.own f hf g hg ⟨place, ⟨old, hLocate⟩, old, hSame⟩ (by omega) (by omega)
    have hLong := h.long f hf place old hLocate
    have hNow : (t.setContent place (old.overwrite offset data)).locate g.path =
        .ok (place, some (.file (old.overwrite offset data))) := by
      rw [FileTree.locate_setContent hOld, if_pos hSame]
    have hSlice : (old.overwrite offset data).slice start count = old.slice start count :=
      Bytes.slice_overwrite_apart (by omega) (hApart hEq)
    rw [FileTree.readAt_of_locate hNow, FileTree.readAt_of_locate hSame, hSlice]
  · apply FileTree.readAt_congr
    rw [FileTree.locate_setContent hOld, if_neg hSame]

/-- A range of the stream is read as before where every part of it is. -/
theorem readFiles_congr {pos count : Nat} (hCount : 0 < count)
    (h : ∀ f ∈ part, ∀ start here, start < f.length → 0 < here → start + here ≤ f.length →
      pos ≤ f.start + start → f.start + start + here ≤ pos + count →
      t'.readAt f.path start here = t.readAt f.path start here) :
    readFiles t' part pos count = readFiles t part pos count := by
  induction part generalizing pos count with
  | nil => rfl
  | cons f rest ih =>
    have hRest : ∀ pos' count', 0 < count' → pos ≤ pos' → pos' + count' ≤ pos + count →
        readFiles t' rest pos' count' = readFiles t rest pos' count' := by
      intro pos' count' hCount' hLow hHigh
      apply ih hCount'
      intro g hg start here hStart hHere hInside hFrom hTo
      exact h g (List.mem_cons_of_mem f hg) start here hStart hHere hInside (by omega) (by omega)
    rw [readFiles, readFiles]
    split
    · next hCovers =>
      rw [covers_iff] at hCovers
      dsimp only
      rw [h f List.mem_cons_self (pos - f.start) (min count (f.start + f.length - pos)) (by omega)
        (by omega) (by omega) (by omega) (by omega)]
      cases t.readAt f.path (pos - f.start) (min count (f.start + f.length - pos)) with
      | error e => rfl
      | ok bytes =>
        by_cases hAll : min count (f.start + f.length - pos) = count
        · simp only [bind, Except.bind, hAll, if_true]
        · rw [hRest _ _ (by omega) (by omega) (by omega)]
    · exact hRest pos count hCount (Nat.le_refl _) (Nat.le_refl _)

/-- A write of a range of the stream leaves every entry, apart from that range, as it was. -/
theorem Unshared.writeFiles (h : Unshared files t) (hPart : ∀ f ∈ part, f ∈ files) (pos : Nat)
    {data : Bytes} (hData : data ≠ []) :
    Unshared files (writeFiles t part pos data).1 ∧
      ∀ g ∈ files, ∀ start count, start < g.length →
        g.start + start + count ≤ pos ∨ pos + data.length ≤ g.start + start →
        (Layout.writeFiles t part pos data).1.readAt g.path start count =
          t.readAt g.path start count := by
  induction part generalizing t pos data with
  | nil => exact ⟨h, fun _ _ _ _ _ _ => rfl⟩
  | cons f rest ih =>
    have hf := hPart f List.mem_cons_self
    have hRest : ∀ g ∈ rest, g ∈ files := fun g hg => hPart g (List.mem_cons_of_mem f hg)
    have hSome := List.length_pos_of_ne_nil hData
    rw [Layout.writeFiles]
    split
    · next hCovers =>
      rw [covers_iff] at hCovers
      dsimp only
      split
      · exact ⟨h, fun _ _ _ _ _ _ => rfl⟩
      · next t₁ hWrite =>
        have hFirst := h.writeAt hWrite
        have hKept : ∀ g ∈ files, ∀ start count, start < g.length →
            g.start + start + count ≤ pos ∨ pos + data.length ≤ g.start + start →
            t₁.readAt g.path start count = t.readAt g.path start count := by
          intro g hg start count hStart hApart
          refine h.readAt_writeAt hf hg hWrite (by omega) hStart ?_
          rintro rfl
          rw [List.length_take]
          omega
        split
        · exact ⟨hFirst, hKept⟩
        · next hMore =>
          have hLeft : data.drop (min data.length (f.start + f.length - pos)) ≠ [] := by
            rw [Ne, List.drop_eq_nil_iff]
            omega
          obtain ⟨hLast, hOthers⟩ := ih hFirst hRest _ hLeft
          refine ⟨hLast, fun g hg start count hStart hApart => ?_⟩
          rw [hOthers g hg start count hStart, hKept g hg start count hStart hApart]
          rw [List.length_drop]
          omega
    · exact ih h hRest pos hData

end Layout

/-! ### Storages -/

/-- A write inside the first `size` bytes does not change what is read from a range that does not
meet it. -/
def Storage.Separates (s : Storage) (size : Nat) (t : FileTree) : Prop :=
  ∀ offset data start count, data ≠ [] → offset + data.length ≤ size →
    Disjoint (Set.Ico offset (offset + data.length)) (Set.Ico start (start + count)) →
    (s.read (s.write t offset data).2.2 start count).1 = (s.read t start count).1

/-- Trees that writes to a storage lead to. -/
def Storage.Leads (s : Storage) : FileTree → FileTree → Prop :=
  Relation.ReflTransGen fun t t' => ∃ offset data, (s.write t offset data).2.2 = t'

namespace Layout

variable {l : Layout} {t t' : FileTree}

theorem tree_write (l : Layout) (t : FileTree) (offset : Nat) (data : Bytes) :
    ((Storage.disk l).write t offset data).2.2 =
      if data = [] then t else (writeFiles t l.files offset data).1 := by
  simp only [Storage.write, Layout.write, List.isEmpty_iff]
  split
  · rfl
  · split <;> simp [*]

theorem Unshared.separates (h : Unshared l.files t) (size : Nat) :
    (Storage.disk l).Separates size t := by
  intro offset data start count hData _ hDisjoint
  have hSome := List.length_pos_of_ne_nil hData
  rw [Set.Ico_disjoint_Ico] at hDisjoint
  rw [tree_write, if_neg hData]
  simp only [Storage.read, Layout.read]
  by_cases hCount : count = 0
  · rw [if_pos hCount, if_pos hCount]
  · rw [if_neg hCount, if_neg hCount]
    have hKept := (h.writeFiles (fun f hf => hf) offset hData).2
    rw [readFiles_congr (by omega) fun f hf first here hFirst hHere _ hLow hHigh =>
      hKept f hf first here hFirst (by omega)]

theorem Unshared.leads (h : Unshared l.files t) (hLeads : (Storage.disk l).Leads t t') :
    Unshared l.files t' := by
  induction hLeads with
  | refl => exact h
  | tail _ hWrite ih =>
    obtain ⟨offset, data, rfl⟩ := hWrite
    rw [tree_write]
    split
    · exact ih
    · next hData => exact (ih.writeFiles (fun f hf => hf) offset hData).1

/-! ### Files as they were made -/

/-- The file that an entry leads to stood before the allocation, or was made for that entry or one
before it. -/
theorem made_of_allocateFiles {files : List LaidFile} (h : allocateFiles t files = (t', .ok ()))
    {i : Nat} {f : LaidFile} (hf : files[i]? = some f) {place : Place} {content : Bytes}
    (hLocate : t'.locate f.path = .ok (place, some (.file content))) :
    t.lookup place = some (.file content) ∨
      ∃ j ≤ i, ∃ g, files[j]? = some g ∧ Blank t' g place content := by
  induction files generalizing t i with
  | nil => cases hf
  | cons e rest ih =>
    simp only [allocateFiles] at h
    split at h
    · next t₁ hFirst =>
      obtain ⟨hExtends, q, entry, hPlaced⟩ := allocateFile_extends hFirst
      have hGrows := (allocateFiles_extends h).1.grows
      have hBlank : t₁.lookup place = some (.file content) →
          t.lookup place = some (.file content) ∨ Blank t' e place content := by
        intro hFound
        rcases hExtends.new place content hFound with hOld | hNew
        · exact .inl hOld
        · exact .inr ⟨hGrows.locate_eq hNew.1, hNew.2⟩
      cases i with
      | zero =>
        obtain rfl := Option.some.inj hf
        rw [hGrows.locate_eq hPlaced] at hLocate
        obtain ⟨rfl, rfl⟩ : q = place ∧ entry = .file content := by simpa using hLocate
        refine (hBlank (FileTree.lookup_of_locate hPlaced)).imp_right fun hNew => ?_
        exact ⟨0, Nat.le_refl 0, _, rfl, hNew⟩
      | succ i =>
        rcases ih h hf with hFound | ⟨j, hj, g, hg, hNew⟩
        · refine (hBlank hFound).imp_right fun hNew => ?_
          exact ⟨0, Nat.zero_le _, e, rfl, hNew⟩
        · exact .inr ⟨j + 1, by omega, g, hg, hNew⟩
    · cases h

/-- None of the files that the entries lead to stood before. -/
def Unmade (files : List LaidFile) (before t : FileTree) : Prop :=
  ∀ f ∈ files, ∀ place content, t.LeadsTo f.path place →
    before.lookup place ≠ some (.file content)

/-- Two entries, in order, that have no byte to share: if both lead to one file, the second has no
bytes, or it has one and the first has none. -/
def Apart (t : FileTree) (f g : LaidFile) : Prop :=
  t.SameFile f.path g.path → g.length = 0 ∨ f.length = 0 ∧ g.length = 1

/-- The content of a file that was made is the one that its first entry declares. -/
theorem made_of_allocate (h : l.allocate t = (t', .ok ())) (hUnmade : Unmade l.files t t') {i : Nat}
    (hi : i < l.files.length) {place : Place} {content : Bytes}
    (hLocate : t'.locate l.files[i].path = .ok (place, some (.file content))) :
    ∃ j, ∃ hj : j ≤ i, Blank t' l.files[j] place content := by
  have hf : l.files[i]? = some l.files[i] := List.getElem?_eq_getElem hi
  rcases made_of_allocateFiles h hf hLocate with hOld | ⟨j, hj, g, hg, hBlank⟩
  · exact absurd hOld (hUnmade _ (List.getElem_mem hi) place content ⟨content, hLocate⟩)
  · obtain ⟨_, rfl⟩ := List.getElem?_eq_some_iff.mp hg
    exact ⟨j, hj, hBlank⟩

theorem unshared_of_allocate (h : l.allocate t = (t', .ok ())) (hUnmade : Unmade l.files t t')
    (hApart : l.files.Pairwise (Apart t')) : Unshared l.files t' := by
  constructor
  · intro f hf g hg hSame hBytes hOthers
    obtain ⟨i, hi, rfl⟩ := List.getElem_of_mem hf
    obtain ⟨j, hj, rfl⟩ := List.getElem_of_mem hg
    obtain ⟨place, hLeft, hRight⟩ := hSame
    have hPairs := List.pairwise_iff_getElem.mp hApart
    rcases Nat.lt_trichotomy i j with hLess | rfl | hLess
    · have := hPairs i j hi hj hLess ⟨place, hLeft, hRight⟩
      omega
    · rfl
    · have := hPairs j i hj hi hLess ⟨place, hRight, hLeft⟩
      omega
  · intro f hf place content hLocate
    obtain ⟨i, hi, rfl⟩ := List.getElem_of_mem hf
    obtain ⟨j, hj, hFirst, rfl⟩ := made_of_allocate h hUnmade hi hLocate
    rw [List.length_replicate]
    rcases Nat.lt_or_eq_of_le hj with hj | rfl
    · have hPair := List.pairwise_iff_getElem.mp hApart j i (by omega) hi hj
        ⟨place, ⟨_, hFirst⟩, _, hLocate⟩
      omega
    · omega

/-! ### Single bytes -/

theorem Laid.pairwise {start : Nat} {files : List LaidFile} (h : Laid start files) :
    files.Pairwise fun f g => f.start + f.length ≤ g.start := by
  induction files generalizing start with
  | nil => exact .nil
  | cons f rest ih =>
    obtain ⟨rfl, hRest⟩ := h
    exact .cons (fun g hg => hRest.start_le hg) (ih hRest)

theorem readFiles_one {start : Nat} {files : List LaidFile} (hLaid : Laid start files)
    {f : LaidFile} (hf : f ∈ files) {offset : Nat} (hOffset : offset < f.length) :
    readFiles t files (f.start + offset) 1 = (t.readAt f.path offset 1).map some := by
  induction files generalizing start with
  | nil => cases hf
  | cons e rest ih =>
    obtain ⟨rfl, hRest⟩ := hLaid
    rw [readFiles]
    rcases List.mem_cons.mp hf with rfl | hf
    · have hOne : min 1 (f.start + f.length - (f.start + offset)) = 1 := by omega
      rw [if_pos (covers_iff.mpr ⟨by omega, by omega⟩), Nat.add_sub_cancel_left]
      dsimp only
      rw [hOne]
      cases t.readAt f.path offset 1 <;> rfl
    · have hBefore := hRest.start_le hf
      rw [if_neg, ih hRest hf]
      rw [covers_iff]
      omega

theorem writeFiles_one {start : Nat} {files : List LaidFile} (hLaid : Laid start files)
    {f : LaidFile} (hf : f ∈ files) {offset : Nat} (hOffset : offset < f.length) {x : UInt8}
    (h : t.writeAt f.path offset [x] = .ok t') :
    (writeFiles t files (f.start + offset) [x]).1 = t' := by
  induction files generalizing start with
  | nil => cases hf
  | cons e rest ih =>
    obtain ⟨rfl, hRest⟩ := hLaid
    rw [writeFiles]
    rcases List.mem_cons.mp hf with rfl | hf
    · have hOne : min [x].length (f.start + f.length - (f.start + offset)) = 1 := by
        rw [List.length_singleton]
        omega
      rw [if_pos (covers_iff.mpr ⟨by omega, by omega⟩), Nat.add_sub_cancel_left]
      dsimp only
      rw [hOne, List.take_succ_cons, List.take_zero, h]
      rfl
    · have hBefore := hRest.start_le hf
      rw [if_neg, ih hRest hf]
      rw [covers_iff]
      omega

/-- Where writes and reads are separated, a byte written through one entry is not read at another
position. -/
theorem readAt_of_separates {size : Nat} (h : (Storage.disk l).Separates size t)
    (hLaid : Laid 0 l.files) {f g : LaidFile} (hf : f ∈ l.files) (hg : g ∈ l.files) {i j : Nat}
    (hi : i < f.length) (hj : j < g.length) (hSize : g.start + j < size)
    (hOther : f.start + i ≠ g.start + j) {x : UInt8} (hWrite : t.writeAt g.path j [x] = .ok t') :
    t'.readAt f.path i 1 = t.readAt f.path i 1 := by
  have hDisjoint : Disjoint (Set.Ico (g.start + j) (g.start + j + [x].length))
      (Set.Ico (f.start + i) (f.start + i + 1)) := by
    rw [Set.Ico_disjoint_Ico, List.length_singleton]
    omega
  have hReply := h (g.start + j) [x] (f.start + i) 1 (by simp) hSize hDisjoint
  rw [tree_write, if_neg (by simp), writeFiles_one hLaid hg hj hWrite] at hReply
  simp only [Storage.read, Layout.read, Nat.one_ne_zero, if_false, readFiles_one hLaid hf hi]
    at hReply
  cases hNow : t'.readAt f.path i 1 <;> cases hThen : t.readAt f.path i 1 <;>
    simp_all [Except.map, Reply.ofExcept]

/-- So a byte written into a file through one of its entries does not show at another position. -/
theorem slice_of_separates {size : Nat} (h : (Storage.disk l).Separates size t)
    (hLaid : Laid 0 l.files) {f g : LaidFile} (hf : f ∈ l.files) (hg : g ∈ l.files) {i j : Nat}
    (hi : i < f.length) (hj : j < g.length) (hSize : g.start + j < size)
    (hOther : f.start + i ≠ g.start + j) {place : Place} {old : Bytes}
    (hLeft : t.locate f.path = .ok (place, some (.file old)))
    (hRight : t.locate g.path = .ok (place, some (.file old))) (x : UInt8) :
    (old.overwrite j [x]).slice i 1 = old.slice i 1 := by
  have hWrite : t.writeAt g.path j [x] = .ok (t.setContent place (old.overwrite j [x])) :=
    FileTree.writeAt_eq_ok.mpr ⟨place, old, hRight, rfl⟩
  have hSame := readAt_of_separates h hLaid hf hg hi hj hSize hOther hWrite
  have hNow : (t.setContent place (old.overwrite j [x])).locate f.path =
      .ok (place, some (.file (old.overwrite j [x]))) := by
    rw [FileTree.locate_setContent (FileTree.lookup_of_locate hLeft), if_pos hLeft]
  have hOne (b : Bytes) (hNot : (b.slice i 1).length ≠ 1) : b.slice i 1 = [] := by
    rw [Bytes.length_slice] at hNot
    rw [← List.length_eq_zero_iff, Bytes.length_slice]
    omega
  rw [FileTree.readAt_of_locate hNow, FileTree.readAt_of_locate hLeft] at hSame
  split at hSame
  · split at hSame
    · exact Except.ok.inj hSame
    · cases hSame
  · next hShort =>
    split at hSame
    · cases hSame
    · next hOldShort => rw [hOne _ hShort, hOne _ hOldShort]

/-- Two entries with bytes that lead to one blank file are not separated. -/
theorem length_eq_zero_of_separates {size n : Nat} (h : (Storage.disk l).Separates size t)
    (hLaid : Laid 0 l.files) {f g : LaidFile} (hf : f ∈ l.files) (hg : g ∈ l.files)
    (hOrder : f.start + f.length ≤ g.start) (hSize : g.start + g.length ≤ size) {place : Place}
    (hLeft : t.locate f.path = .ok (place, some (.file (List.replicate n 0))))
    (hRight : t.locate g.path = .ok (place, some (.file (List.replicate n 0))))
    (hBytes : 0 < f.length) : g.length = 0 := by
  by_contra hOthers
  have hSame := slice_of_separates h hLaid hf hg hBytes (Nat.pos_of_ne_zero hOthers) (by omega)
    (by omega) hLeft hRight 1
  cases n <;> simp [Bytes.overwrite, Bytes.slice, List.replicate_succ] at hSame

/-- An entry of an empty file that is separated has one byte at most. -/
theorem length_le_one_of_separates {size : Nat} (h : (Storage.disk l).Separates size t)
    (hLaid : Laid 0 l.files) {g : LaidFile} (hg : g ∈ l.files) (hSize : g.start + g.length ≤ size)
    {place : Place} (hLocate : t.locate g.path = .ok (place, some (.file []))) :
    g.length ≤ 1 := by
  by_contra hMore
  have hTwo : 1 < g.length := Nat.lt_of_not_le hMore
  have hSame := slice_of_separates (i := 0) h hLaid hg hg (by omega) hTwo (by omega) (by omega)
    hLocate hLocate 1
  simp [Bytes.overwrite, Bytes.slice] at hSame

theorem apart_of_separates {size : Nat} (hMade : l.allocate t = (t', .ok ()))
    (hUnmade : Unmade l.files t t') (hLaid : Laid 0 l.files)
    (hSize : ∀ f ∈ l.files, f.start + f.length ≤ size)
    (h : (Storage.disk l).Separates size t') : l.files.Pairwise (Apart t') := by
  have hOrder := List.pairwise_iff_getElem.mp hLaid.pairwise
  rw [List.pairwise_iff_getElem]
  intro i j hi hj hLess hSame
  have hg := List.getElem_mem hj
  obtain ⟨place, ⟨content, hLeft⟩, other, hRight⟩ := hSame
  obtain rfl : content = other := by
    have hFound := FileTree.lookup_of_locate hRight
    rw [FileTree.lookup_of_locate hLeft] at hFound
    exact Entry.file.inj (Option.some.inj hFound)
  -- the first of the entries that lead to the file decides what is in it
  obtain ⟨k, hk, hFirst, rfl⟩ := made_of_allocate hMade hUnmade hi hLeft
  have hFirstEmpty : l.files[k].length = 0 ∨ l.files[j].length = 0 := by
    rcases Nat.eq_zero_or_pos l.files[k].length with hZero | hBytes
    · exact .inl hZero
    · exact .inr (length_eq_zero_of_separates h hLaid (List.getElem_mem _) hg
        (hOrder k j _ hj (by omega)) (hSize _ hg) hFirst hRight hBytes)
  rcases hFirstEmpty with hZero | hNone
  · rw [hZero, List.replicate_zero] at hLeft hRight
    have hOne := length_le_one_of_separates h hLaid hg (hSize _ hg) hRight
    rcases Nat.eq_zero_or_pos l.files[i].length with hEmpty | hBytes
    · omega
    · exact .inl (length_eq_zero_of_separates (n := 0) h hLaid (List.getElem_mem hi) hg
        (hOrder i j hi hj hLess) (hSize _ hg) hLeft hRight hBytes)
  · exact .inl hNone

end Layout

namespace FileSet

/-- In a torrent whose files were just made, with lengths that have a word for their sum, reads and
writes of disjoint ranges leave each other alone, now and after any writes, exactly where no two of
its entries share bytes of a file. -/
theorem separates_tfae {m : Metainfo} {root : Path} {blockSize : Nat} {fs : FileSet}
    {before t : FileTree} (hFits : m.contentLength < 0x10000000000000000)
    (hSet : forTorrent m root blockSize = .ok fs)
    (hMade : (Layout.ofMetainfo root m).allocate before = (t, .ok ()))
    (hUnmade : Layout.Unmade (Layout.ofMetainfo root m).files before t) :
    [fs.storage.Separates fs.totalLength t,
      ∀ t', fs.storage.Leads t t' → fs.storage.Separates fs.totalLength t',
      (Layout.ofMetainfo root m).files.Pairwise (Layout.Apart t)].TFAE := by
  obtain ⟨hStorage, hTotal⟩ : fs.storage = .disk (Layout.ofMetainfo root m) ∧
      fs.totalLength = (Layout.ofMetainfo root m).totalSize := by
    obtain ⟨_, _, rfl⟩ := create_eq_ok (PhaseId.forTorrent_ok hSet)
    exact ⟨rfl, rfl⟩
  have hLaid := Layout.laid_ofMetainfo root hFits
  have hSize : ∀ f ∈ (Layout.ofMetainfo root m).files, f.start + f.length ≤ fs.totalLength := by
    intro f hf
    have hEnd := hLaid.end_le (t := t) hf
    rwa [Layout.length_cells_ofMetainfo t root hFits, Nat.zero_add, ← hTotal] at hEnd
  rw [hStorage]
  tfae_have 3 → 2 := fun hApart t' hLeads =>
    ((Layout.unshared_of_allocate hMade hUnmade hApart).leads hLeads).separates _
  tfae_have 2 → 1 := fun hAlways => hAlways t .refl
  tfae_have 1 → 3 := Layout.apart_of_separates hMade hUnmade hLaid hSize
  tfae_finish

/-- A torrent that names its only file twice. -/
def twins : Metainfo :=
  { infoBytes := []
    info :=
      { pieceLength := 2
        pieces := List.replicate 20 0
        files := [{ length := 1, path := ["a"] }, { length := 1, path := ["a"] }]
        name := "t" } }

def twinsContent : FileSet :=
  { kind := .data
    pieceLength := 2
    totalLength := 2
    pieces := cut 2 2 2 [Digest.zero]
    storage := .disk (.ofMetainfo ⟨"dl"⟩ twins) }

def twinsTree : FileTree :=
  { home := [], entries := [(["dl"], .folder), (["dl", "a"], .file [0])] }

/-- A torrent that names a file twice writes one byte over the other. -/
theorem not_separates_twins :
    forTorrent twins ⟨"dl"⟩ 2 = .ok twinsContent ∧
      (Layout.ofMetainfo ⟨"dl"⟩ twins).allocate { home := [] } = (twinsTree, .ok ()) ∧
      Layout.Unmade (Layout.ofMetainfo ⟨"dl"⟩ twins).files { home := [] } twinsTree ∧
      ¬ twinsContent.storage.Separates 2 twinsTree := by
  have hSet : forTorrent twins ⟨"dl"⟩ 2 = .ok twinsContent := by rfl
  have hMade : (Layout.ofMetainfo ⟨"dl"⟩ twins).allocate { home := [] } = (twinsTree, .ok ()) := by
    decide +kernel
  have hUnmade : Layout.Unmade (Layout.ofMetainfo ⟨"dl"⟩ twins).files { home := [] } twinsTree := by
    intro f hf place content hLeads
    simp only [FileTree.lookup]
    split <;> simp
  refine ⟨hSet, hMade, hUnmade, fun hSeparates => ?_⟩
  have hPairs := ((separates_tfae (by decide) hSet hMade hUnmade).out 0 2).mp hSeparates
  have hFiles : (Layout.ofMetainfo ⟨"dl"⟩ twins).files = [⟨⟨"dl/a"⟩, 1, 0⟩, ⟨⟨"dl/a"⟩, 1, 1⟩] := by
    decide +kernel
  have hLocate : twinsTree.locate ⟨"dl/a"⟩ = .ok (["dl", "a"], some (.file [0])) := by
    decide +kernel
  rw [hFiles, List.pairwise_pair] at hPairs
  rcases hPairs ⟨["dl", "a"], ⟨[0], hLocate⟩, [0], hLocate⟩ with hNone | ⟨hNone, -⟩ <;> cases hNone

end FileSet

end TorrentEngine
