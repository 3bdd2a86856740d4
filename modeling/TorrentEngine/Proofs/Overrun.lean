import TorrentEngine.Proofs.Device
import TorrentEngine.Proofs.FlatBuffer

/-!
Writes that go past the end. A memory looks first whether the data fit, and is left alone by data
that do not. A layout finds the end only after it has walked its files, and what it has put into
them by then stays there: an out-of-bounds write leaves every stored byte as it was exactly if the
bytes that were put into the files and not overwritten again stood there before. Where the entries
of a layout lead to files of their own, `Layout.Backed.write_past` says what such a write leaves.
-/

namespace TorrentEngine

/-- Where a byte of the tree is: the place of its file and its number there. -/
abbrev Spot := Place × Nat

namespace Spot

/-- What bytes that are put at spots one after the other leave at one of them: the last put there.
-/
def last (s : Spot) : List (Spot × UInt8) → Option UInt8
  | [] => none
  | put :: later => (s.last later).or (if put.1 = s then some put.2 else none)

/-- Data put into one file from a number on. -/
def chunk (place : Place) (first : Nat) (data : Bytes) : List (Spot × UInt8) :=
  (data.zipIdx first).map fun b => ((place, b.2), b.1)

theorem last_append (s : Spot) (puts later : List (Spot × UInt8)) :
    s.last (puts ++ later) = (s.last later).or (s.last puts) := by
  induction puts with
  | nil => exact (Option.or_none ..).symm
  | cons put rest ih =>
    show (s.last (rest ++ later)).or _ = _
    rw [ih, Option.or_assoc]
    rfl

theorem last_chunk (s : Spot) (place : Place) (first : Nat) (data : Bytes) :
    s.last (chunk place first data) =
      if s.1 = place ∧ first ≤ s.2 then data[s.2 - first]? else none := by
  induction data generalizing first with
  | nil => simp [chunk, last]
  | cons byte rest ih =>
    show (s.last (chunk place (first + 1) rest)).or
      (if (place, first) = s then some byte else none) = _
    rw [ih]
    obtain ⟨q, k⟩ := s
    dsimp only
    by_cases hPlace : q = place
    · rcases Nat.lt_trichotomy k first with hBefore | rfl | hAfter
      · rw [if_neg (by omega), if_neg (by simp; omega), if_neg (by omega)]
        rfl
      · rw [if_neg (by omega), if_pos (by rw [hPlace]), if_pos ⟨hPlace, Nat.le_refl _⟩,
          Nat.sub_self]
        rfl
      · have hNext : k - first = k - (first + 1) + 1 := by omega
        rw [if_pos ⟨hPlace, hAfter⟩, if_neg (by simp; omega), if_pos ⟨hPlace, by omega⟩, hNext,
          List.getElem?_cons_succ, Option.or_none]
    · have hOther : (place, first) ≠ (q, k) := fun h => hPlace (congrArg Prod.fst h).symm
      simp [hPlace, hOther]

theorem map_snd_chunk (place : Place) (first : Nat) (data : Bytes) :
    (chunk place first data).map (·.2) = data := by
  rw [chunk, List.map_map]
  exact List.zipIdx_map_fst ..

theorem length_chunk (place : Place) (first : Nat) (data : Bytes) :
    (chunk place first data).length = data.length := by
  rw [chunk, List.length_map, List.length_zipIdx]

end Spot

namespace FileTree

variable {t t' t'' : FileTree} {p : Path} {place : Place} {old data : Bytes} {offset : Nat}

/-- The byte at a spot, where a file has one there. -/
def byteAt (t : FileTree) (s : Spot) : Option UInt8 :=
  match t.lookup s.1 with
  | some (.file content) => content[s.2]?
  | _ => none

/-- Where a path leads that leads somewhere. -/
def placeOf (t : FileTree) (p : Path) : Place := (t.placeOf? p).getD []

/-- Nothing but the contents of files tells the trees apart. -/
def Alike (t t' : FileTree) : Prop :=
  ∀ place, t'.lookup place = t.lookup place ∨
    ∃ old new, t.lookup place = some (.file old) ∧ t'.lookup place = some (.file new)

theorem Alike.refl (t : FileTree) : t.Alike t := fun _ => .inl rfl

theorem Alike.trans (h : t.Alike t') (h' : t'.Alike t'') : t.Alike t'' := by
  intro place
  rcases h' place with hSame' | ⟨old', new', hOld', hNew'⟩
  · rw [hSame']
    exact h place
  · rcases h place with hSame | ⟨old, new, hOld, hNew⟩
    · exact .inr ⟨old', new', hSame ▸ hOld', hNew'⟩
    · exact .inr ⟨old, new', hOld, hNew'⟩

/-- Trees that differ in the contents of files only are told apart by a byte. -/
theorem Alike.lookup_eq_iff (h : t.Alike t') :
    (∀ place, t'.lookup place = t.lookup place) ↔ ∀ s, t'.byteAt s = t.byteAt s := by
  constructor
  · intro hSame s
    rw [byteAt, hSame]
    rfl
  · intro hBytes place
    rcases h place with hSame | ⟨old, new, hOld, hNew⟩
    · exact hSame
    · rw [hOld, hNew]
      congr 2
      apply List.ext_getElem?
      intro k
      have hByte := hBytes (place, k)
      simpa only [byteAt, hOld, hNew] using hByte

theorem alike_setContent (h : t.lookup place = some (.file old)) (new : Bytes) :
    t.Alike (t.setContent place new) := by
  intro q
  rw [lookup_setContent h]
  split
  · next hq => exact .inr ⟨old, new, hq ▸ h, rfl⟩
  · exact .inl rfl

theorem placeOf_setContent (h : t.lookup place = some (.file old)) (new : Bytes) (p : Path) :
    (t.setContent place new).placeOf p = t.placeOf p := by
  unfold placeOf placeOf?
  rw [locate_setContent h]
  by_cases hHere : t.locate p = .ok (place, some (.file old))
  · rw [if_pos hHere, hHere]
    rfl
  · rw [if_neg hHere]

/-- Laying data over a part of a file puts its bytes there, and nothing else. -/
theorem byteAt_overwrite (h : t.lookup place = some (.file old))
    (hInside : offset + data.length ≤ old.length) (s : Spot) :
    (t.setContent place (old.overwrite offset data)).byteAt s =
      (s.last (Spot.chunk place offset data)).or (t.byteAt s) := by
  obtain ⟨q, k⟩ := s
  rw [Spot.last_chunk]
  unfold byteAt
  rw [lookup_setContent h]
  dsimp only
  by_cases hq : q = place
  · rw [if_pos hq, hq, h]
    dsimp only
    rw [Bytes.getElem?_overwrite hInside]
    by_cases hLow : offset ≤ k
    · by_cases hHigh : k < offset + data.length
      · rw [if_pos ⟨hLow, hHigh⟩, if_pos ⟨rfl, hLow⟩, List.getElem?_eq_getElem (by omega)]
        rfl
      · have hNone : data[k - offset]? = none := List.getElem?_eq_none (by omega)
        rw [if_neg (by omega), if_pos ⟨rfl, hLow⟩, hNone]
        rfl
    · rw [if_neg (by omega), if_neg fun h => hLow h.2]
      rfl
  · rw [if_neg hq, if_neg fun h => hq h.1]
    rfl

end FileTree

/-- A write inside an entry whose file is there puts its bytes into the file. -/
theorem LaidFile.Held.put {t : FileTree} {f : LaidFile} {offset : Nat} {data : Bytes}
    (h : f.Held t) (hInside : offset + data.length ≤ f.length) :
    ∃ t', t.writeAt f.path offset data = .ok t' ∧ t.Alike t' ∧
      (∀ p, t'.placeOf p = t.placeOf p) ∧
      ∀ s, t'.byteAt s =
        (s.last (Spot.chunk (t.placeOf f.path) offset data)).or (t.byteAt s) := by
  obtain ⟨place, old, hLocate, hLong⟩ := h
  have hOld := FileTree.lookup_of_locate hLocate
  have hPlace : t.placeOf f.path = place := by
    unfold FileTree.placeOf FileTree.placeOf?
    rw [hLocate]
    rfl
  rw [hPlace]
  exact ⟨_, FileTree.writeAt_eq_ok.mpr ⟨place, old, hLocate, rfl⟩,
    FileTree.alike_setContent hOld _, FileTree.placeOf_setContent hOld _,
    FileTree.byteAt_overwrite hOld (by omega)⟩

namespace Layout

variable {t t' : FileTree} {files : List LaidFile} {data : Bytes}

/-- The bytes of data that files take which are written at `pos` of the stream, in turn. -/
def puts (t : FileTree) : List LaidFile → (pos : Nat) → (data : Bytes) → List (Spot × UInt8)
  | [], _, _ => []
  | f :: rest, pos, data =>
    if LaidFile.covers f pos then
      let here := min data.length (f.start + f.length - pos)
      Spot.chunk (t.placeOf f.path) (pos - f.start) (data.take here) ++
        puts t rest (pos + here) (data.drop here)
    else puts t rest pos data

theorem puts_congr (h : ∀ p, t'.placeOf p = t.placeOf p) (files : List LaidFile) (pos : Nat)
    (data : Bytes) : puts t' files pos data = puts t files pos data := by
  induction files generalizing pos data with
  | nil => rfl
  | cons f rest ih => simp only [puts, h, ih]

/-- The files take data from the front on. -/
theorem map_snd_puts (t : FileTree) (files : List LaidFile) (pos : Nat) (data : Bytes) :
    (puts t files pos data).map (·.2) = data.take (puts t files pos data).length := by
  induction files generalizing pos data with
  | nil => rfl
  | cons f rest ih =>
    unfold puts
    split
    · dsimp only
      rw [List.map_append, Spot.map_snd_chunk, ih, List.length_append, Spot.length_chunk,
        List.length_take, Nat.min_eq_left (Nat.min_le_left ..), List.take_add]
    · exact ih pos data

theorem length_puts_le (t : FileTree) (files : List LaidFile) (pos : Nat) (data : Bytes) :
    (puts t files pos data).length ≤ data.length := by
  have hLength := congrArg List.length (map_snd_puts t files pos data)
  rw [List.length_map, List.length_take] at hLength
  omega

theorem puts_nil (t : FileTree) (files : List LaidFile) (pos : Nat) : puts t files pos [] = [] :=
  List.eq_nil_of_length_eq_zero (Nat.le_zero.mp (length_puts_le t files pos []))

/-- A write into files that are there puts the bytes that the files take, and goes well if they take
all of them. -/
theorem writeFiles_puts (hHeld : ∀ f ∈ files, f.Held t) (pos : Nat) (hData : data ≠ []) :
    ∃ t' fits, writeFiles t files pos data = (t', .ok fits) ∧
      (fits = true ↔ (puts t files pos data).length = data.length) ∧
      t.Alike t' ∧ ∀ s, t'.byteAt s = (s.last (puts t files pos data)).or (t.byteAt s) := by
  induction files generalizing t pos data with
  | nil =>
    have hSome := List.length_pos_of_ne_nil hData
    refine ⟨t, false, rfl, ?_, .refl t, fun _ => rfl⟩
    show false = true ↔ 0 = data.length
    simp only [Bool.false_eq_true, false_iff]
    omega
  | cons f rest ih =>
    obtain ⟨hFirst, hRest⟩ := List.forall_mem_cons.mp hHeld
    unfold writeFiles puts
    by_cases hCovers : LaidFile.covers f pos = true
    · simp only [if_pos hCovers]
      rw [covers_iff] at hCovers
      generalize hHere : min data.length (f.start + f.length - pos) = here
      have hTaken : (data.take here).length = here := List.length_take_of_le (by omega)
      have hInside : pos - f.start + (data.take here).length ≤ f.length := by omega
      obtain ⟨t₁, hWrite, hAlike₁, hPlaces, hBytes₁⟩ := hFirst.put hInside
      rw [hWrite]
      dsimp only
      by_cases hAll : here = data.length
      · have hNothing : data.drop here = [] := List.drop_eq_nil_iff.mpr (by omega)
        simp only [if_pos hAll, hNothing, puts_nil, List.append_nil, Spot.length_chunk, hTaken]
        exact ⟨t₁, true, rfl, by simp [hAll], hAlike₁, hBytes₁⟩
      · have hLeft : data.drop here ≠ [] := by
          rw [Ne, List.drop_eq_nil_iff]
          omega
        have hHeld₁ : ∀ g ∈ rest, g.Held t₁ := fun g hg => (hRest g hg).after_writeAt hWrite
        obtain ⟨t', fits, hWritten, hFits, hAlike, hBytes⟩ := ih hHeld₁ (pos + here) hLeft
        rw [puts_congr hPlaces] at hFits hBytes
        refine ⟨t', fits, ?_, ?_, hAlike₁.trans hAlike, fun s => ?_⟩
        · rw [if_neg hAll, hWritten]
        · rw [hFits, List.length_append, Spot.length_chunk, hTaken, List.length_drop]
          omega
        · rw [hBytes, hBytes₁, Spot.last_append, Option.or_assoc]
    · simp only [if_neg hCovers]
      exact ih hRest pos hData

variable {l : Layout} {offset start length : Nat}

/-- An out-of-bounds write has put less than the data into files, and has left them as they were
just if every byte that stands at its spot in the end stood there before. -/
theorem write_outOfBounds (hHeld : ∀ f ∈ l.files, f.Held t) (hData : data ≠ [])
    (hPast : (l.write t offset data).2 = .error (.outOfBounds start length)) :
    (puts t l.files offset data).length < data.length ∧
      ((∀ place, (l.write t offset data).1.lookup place = t.lookup place) ↔
        ∀ s byte, s.last (puts t l.files offset data) = some byte → t.byteAt s = some byte) := by
  have hSome : ¬ data.isEmpty = true := by rwa [List.isEmpty_iff]
  obtain ⟨t', fits, hWritten, hFits, hAlike, hBytes⟩ := writeFiles_puts hHeld offset hData
  unfold Layout.write at hPast ⊢
  rw [if_neg hSome, hWritten] at hPast ⊢
  cases fits with
  | true => cases hPast
  | false =>
    have hShort := length_puts_le t l.files offset data
    have hNotAll : ¬ (puts t l.files offset data).length = data.length := by simpa using hFits
    refine ⟨by omega, ?_⟩
    dsimp only
    rw [hAlike.lookup_eq_iff]
    apply forall_congr'
    intro s
    rw [hBytes]
    cases s.last (puts t l.files offset data) with
    | none => simp
    | some byte => simp [eq_comm]

/-! ### Files of their own -/

/-- Past the last file there is nothing to write to. -/
theorem writeFiles_beyond {start pos : Nat} (hLaid : Laid start files)
    (hHeld : ∀ f ∈ files, f.Held t) (hBeyond : start + (content t files).length ≤ pos)
    (data : Bytes) : writeFiles t files pos data = (t, .ok false) := by
  induction files generalizing start with
  | nil => rfl
  | cons f rest ih =>
    obtain ⟨rfl, hRest⟩ := hLaid
    obtain ⟨hFirst, hOthers⟩ := List.forall_mem_cons.mp hHeld
    rw [content_cons, List.length_append, hFirst.length_content] at hBeyond
    unfold writeFiles
    rw [if_neg (mt covers_iff.mp (by omega))]
    exact ih hRest hOthers (by omega)

/-- A write that goes past the last file leaves what a write of the part that fits leaves. -/
theorem writeFiles_past {start pos : Nat} (hLaid : Laid start files)
    (hHeld : ∀ f ∈ files, f.Held t) (hStart : start ≤ pos)
    (hInside : pos < start + (content t files).length)
    (hPast : start + (content t files).length < pos + data.length) :
    writeFiles t files pos data =
      ((writeFiles t files pos (data.take (start + (content t files).length - pos))).1,
        .ok false) := by
  induction files generalizing t start pos data with
  | nil =>
    simp only [content, List.flatMap_nil, List.length_nil] at hInside
    omega
  | cons f rest ih =>
    obtain ⟨rfl, hRest⟩ := hLaid
    obtain ⟨hFirst, hOthers⟩ := List.forall_mem_cons.mp hHeld
    rw [content_cons, List.length_append, hFirst.length_content] at hInside hPast ⊢
    by_cases hCovered : pos < f.start + f.length
    · have hFits : pos - f.start + (data.take (f.length - (pos - f.start))).length ≤ f.length := by
        rw [List.length_take]
        omega
      obtain ⟨t₁, hWrite, -⟩ := hFirst.writeAt hFits
      have hHeld₁ : ∀ g ∈ rest, g.Held t₁ := fun g hg => (hOthers g hg).after_writeAt hWrite
      have hLength₁ : (content t₁ rest).length = (content t rest).length := by
        rw [length_content hHeld₁, length_content hOthers]
        simp [cells, LaidFile.length_cells]
      generalize hFit : f.start + (f.length + (content t rest).length) - pos = fit
      generalize hRoom : f.length - (pos - f.start) = room at hWrite
      have hFront : (data.take fit).take room = data.take room := by
        rw [List.take_take, Nat.min_eq_left (by omega)]
      have hFrontLength : (data.take fit).length = fit := List.length_take_of_le (by omega)
      have hWriteFront : t.writeAt f.path (pos - f.start) ((data.take fit).take room) = .ok t₁ := by
        rw [hFront, hWrite]
      subst hRoom
      rw [writeFiles_cons hStart hCovered hWrite, writeFiles_cons hStart hCovered hWriteFront,
        hFrontLength, if_neg (by omega)]
      by_cases hLast : fit ≤ f.length - (pos - f.start)
      · rw [if_pos hLast]
        exact writeFiles_beyond hRest hHeld₁ (by omega) _
      · have hLeft : f.start + f.length + (content t₁ rest).length - (f.start + f.length) =
            fit - (f.length - (pos - f.start)) := by omega
        rw [if_neg hLast, List.drop_take, ← hLeft]
        exact ih hRest hHeld₁ (Nat.le_refl _) (by omega) (by rw [List.length_drop]; omega)
    · have hSkip : ¬ LaidFile.covers f pos = true := mt covers_iff.mp (by omega)
      unfold writeFiles
      rw [if_neg hSkip, if_neg hSkip, ← Nat.add_assoc]
      exact ih hRest hOthers (by omega) (by omega) (by omega)

/-- Where every entry leads to a file of its own, an out-of-bounds write lays the part of the data
that fits over the bytes of the torrent. -/
theorem Backed.write_past (hLaid : Laid 0 l.files) (h : Backed l.files t) (hData : data ≠ [])
    (hPast : (content t l.files).length < offset + data.length) :
    ∃ t', l.write t offset data = (t', .error (.outOfBounds offset data.length)) ∧
      Backed l.files t' ∧ ∀ k, (content t' l.files)[k]? =
        if offset ≤ k ∧ k < (content t l.files).length then data[k - offset]?
        else (content t l.files)[k]? := by
  have hSome : ¬ data.isEmpty = true := by rwa [List.isEmpty_iff]
  unfold Layout.write
  rw [if_neg hSome]
  by_cases hInside : offset < (content t l.files).length
  · have hFrontLength : (data.take ((content t l.files).length - offset)).length =
        (content t l.files).length - offset := List.length_take_of_le (by omega)
    have hFront : 0 < (data.take ((content t l.files).length - offset)).length := by omega
    have hOver : 0 + (content t l.files).length < offset + data.length := by omega
    have hCut := writeFiles_past hLaid h.held (Nat.zero_le offset) (by omega) hOver
    obtain ⟨t', hWritten, hContent, -⟩ :=
      writeFiles_eq hLaid h (Nat.zero_le offset) (List.ne_nil_of_length_pos hFront) (by omega)
    rw [Nat.zero_add] at hCut
    have hBacked := h.writeFiles l.files offset (data.take ((content t l.files).length - offset))
    rw [hWritten] at hCut hBacked
    rw [hCut]
    refine ⟨t', rfl, hBacked, fun k => ?_⟩
    rw [hContent, Nat.sub_zero, Bytes.getElem?_overwrite (by omega), hFrontLength,
      Nat.add_sub_cancel' (by omega), List.getElem?_take]
    split
    · rw [if_pos (by omega)]
    · rfl
  · rw [writeFiles_beyond hLaid h.held (by omega)]
    refine ⟨t, rfl, h, fun k => ?_⟩
    rw [if_neg (by omega)]

end Layout

namespace Storage

variable {s : Storage} {t : FileTree} {offset start length : Nat} {data : Bytes}

/-- A memory looks first whether the data fit. -/
theorem memory_write_outOfBounds {b : Bytes}
    (hPast : ((memory b).write t offset data).1 = .failed (.outOfBounds start length)) :
    (memory b).write t offset data = (.failed (.outOfBounds start length), .memory b, t) := by
  unfold Storage.write Memory.write at hPast ⊢
  dsimp only at hPast ⊢
  by_cases hInside : offset + data.length ≤ b.length
  · rw [if_pos hInside] at hPast
    cases hPast
  · rw [if_neg hInside] at hPast ⊢
    rw [← hPast]

theorem scripted_write_outOfBounds {m : ScriptedMemory}
    (hPast : ((scripted m).write t offset data).1 = .failed (.outOfBounds start length)) :
    ((scripted m).write t offset data).2.1.content [] = m.bytes ∧
      ((scripted m).write t offset data).2.2 = t := by
  unfold Storage.write ScriptedMemory.write at hPast ⊢
  dsimp only at hPast ⊢
  cases hFault : (ScriptedMemory.nextFault m.writePlan).1 with
  | none =>
    cases hWrite : Memory.write m.bytes offset data with
    | ok bytes =>
      simp only [hFault, hWrite] at hPast
      cases hPast
    | error e => exact ⟨rfl, rfl⟩
  | device => exact ⟨rfl, rfl⟩
  | crash => exact ⟨rfl, rfl⟩

theorem disk_write_outOfBounds {l : Layout}
    (hPast : ((disk l).write t offset data).1 = .failed (.outOfBounds start length)) :
    (l.write t offset data).2 = .error (.outOfBounds start length) := by
  unfold Storage.write at hPast
  dsimp only at hPast
  cases hWrite : (l.write t offset data).2 with
  | ok =>
    rw [hWrite] at hPast
    cases hPast
  | error e =>
    rw [hWrite] at hPast
    cases hPast
    rfl

/-- What an out-of-bounds write leaves as it was. A memory it never changes. On disk it has put less
than the data into files, from the front on, and has changed nothing just if every byte that stands
at its spot in the end stood there before. -/
theorem overrun_keeps_iff (hData : data ≠ [])
    (hHeld : ∀ l, s.layout? = some l → ∀ f ∈ l.files, f.Held t)
    (hPast : (s.write t offset data).1 = .failed (.outOfBounds start length)) :
    (s.write t offset data).2.1.content [] = s.content [] ∧
      (s.layout? = none → (s.write t offset data).2.2 = t) ∧
      ∀ l, s.layout? = some l →
        (∃ n < data.length, (Layout.puts t l.files offset data).map (·.2) = data.take n) ∧
        ((∀ place, (s.write t offset data).2.2.lookup place = t.lookup place) ↔
          ∀ spot byte, spot.last (Layout.puts t l.files offset data) = some byte →
            t.byteAt spot = some byte) := by
  cases s with
  | memory b =>
    rw [memory_write_outOfBounds hPast]
    exact ⟨rfl, fun _ => rfl, nofun⟩
  | disk layout =>
    refine ⟨rfl, nofun, fun l hl => ?_⟩
    obtain rfl := Option.some.inj hl
    obtain ⟨hShort, hKeeps⟩ :=
      Layout.write_outOfBounds (hHeld _ rfl) hData (disk_write_outOfBounds hPast)
    exact ⟨⟨_, hShort, Layout.map_snd_puts ..⟩, hKeeps⟩
  | scripted m =>
    obtain ⟨hBytes, hTree⟩ := scripted_write_outOfBounds hPast
    exact ⟨hBytes, fun _ => hTree, nofun⟩

/-- A torrent of one file of four bytes, and the file. -/
def fourBytes : Layout := { files := [⟨⟨"a"⟩, 4, 0⟩], totalSize := 4 }

def fourZeros : FileTree := { home := [], entries := [(["a"], .file [0, 0, 0, 0])] }

/-- Three bytes written at the third of four: two of them stay. -/
theorem overrun_changes_fourZeros :
    ((disk fourBytes).write fourZeros 2 [1, 2, 3]).1 = .failed (.outOfBounds 2 3) ∧
      ¬ ∀ place, ((disk fourBytes).write fourZeros 2 [1, 2, 3]).2.2.lookup place =
        fourZeros.lookup place := by
  have hLocate : fourZeros.locate ⟨"a"⟩ = .ok (["a"], some (.file [0, 0, 0, 0])) := by
    decide +kernel
  have hHeld : ∀ l, (disk fourBytes).layout? = some l → ∀ f ∈ l.files, f.Held fourZeros := by
    intro l hl f hf
    obtain rfl := Option.some.inj hl
    obtain rfl := List.mem_singleton.mp hf
    exact ⟨_, _, hLocate, by decide⟩
  have hPast : ((disk fourBytes).write fourZeros 2 [1, 2, 3]).1 = .failed (.outOfBounds 2 3) := by
    decide +kernel
  obtain ⟨-, hKeeps⟩ := (overrun_keeps_iff (by decide) hHeld hPast).2.2 fourBytes rfl
  refine ⟨hPast, fun hSame => ?_⟩
  have hPuts : Layout.puts fourZeros fourBytes.files 2 [1, 2, 3] =
      [((["a"], 2), 1), ((["a"], 3), 2)] := by
    decide +kernel
  have hByte := hKeeps.mp hSame (["a"], 2) 1 (by rw [hPuts]; rfl)
  simp [FileTree.byteAt, fourZeros, FileTree.lookup] at hByte

end Storage

end TorrentEngine
