import Mathlib.Algebra.Ring.Int.Defs
import TorrentEngine.Proofs.Saving
import TorrentEngine.Proofs.Stream

/-!
The numbers of a torrent. Every number of a torrent that was read is a word with a sign, since
readers yield no others. So the length that the torrent tells and the size that its files are laid
out with can differ only in a few ways, and what these are is told here.
-/

namespace TorrentEngine

namespace Bencode

variable {α β δ : Type} {P : α → Prop} {Q : δ → Prop}
  {read : Nat → Bytes → Except Error (α × Bytes)}

/-! ### What a reader yields -/

/-- All that `read` makes of any input has the property `P`. -/
def Yields (read : Nat → Bytes → Except Error (α × Bytes)) (P : α → Prop) : Prop :=
  ∀ fuel b x rest, read fuel b = .ok (x, rest) → P x

theorem inRange_iff {n : Int} :
    integerInRange n = true ↔ -0x8000000000000000 ≤ n ∧ n < 0x8000000000000000 := by
  rw [integerInRange, Bool.and_eq_true, decide_eq_true_eq, decide_eq_true_eq]

theorem yields_number : Yields (fun _ => readNumber) fun n => integerInRange n = true := by
  intro fuel b n rest h
  obtain ⟨⟨token, after⟩, hRead, hMore⟩ := bind_eq_ok.mp h
  cases token with
  | integer k =>
    cases hMore
    obtain ⟨front, _, hSpelled⟩ := Token.read_eq_ok hRead
    exact hSpelled.inRange
  | _ => cases hMore

theorem Yields.map {R : β → Prop} (h : Yields read P) {f : α → Except Error β}
    (hf : ∀ x y, P x → f x = .ok y → R y) :
    Yields (fun fuel b => do
      let (x, rest) ← read fuel b
      return (← f x, rest)) R := by
  intro fuel b y rest hRead
  obtain ⟨⟨x, after⟩, hx, hMore⟩ := bind_eq_ok.mp hRead
  obtain ⟨y', hy, hPure⟩ := bind_eq_ok.mp hMore
  cases hPure
  exact hf x y (h _ _ _ _ hx) hy

theorem Yields.items (h : Yields read P) : Yields (readItemsWith read) fun xs => ∀ x ∈ xs, P x := by
  intro fuel
  induction fuel with
  | zero => nofun
  | succ fuel ih =>
    intro b xs rest hRead
    rcases readItemsWith_eq_ok hRead with ⟨_, rfl⟩ | ⟨x, after, more, hx, hMore, rfl⟩
    · exact fun x hMem => nomatch hMem
    · exact List.forall_mem_cons.mpr ⟨h _ _ _ _ hx, ih _ _ _ hMore⟩

theorem Yields.list (h : Yields read P) : Yields (readListWith read) fun xs => ∀ x ∈ xs, P x := by
  intro fuel b xs rest hRead
  obtain ⟨⟨token, after⟩, _, hMore⟩ := bind_eq_ok.mp hRead
  cases token with
  | list => exact h.items _ _ _ _ hMore
  | _ => cases hMore

/-- What is read into a slot does no harm to the property `Q` of drafts. -/
def Slot.Keeps (s : Slot δ) (Q : δ → Prop) : Prop :=
  ∀ d, Q d → Yields s.read fun x => Q (s.put x d)

theorem Yields.keeps {s : Slot δ} {R : s.Content → Prop} (h : Yields s.read R)
    (hPut : ∀ d x, Q d → R x → Q (s.put x d)) : s.Keeps Q :=
  fun d hd fuel b x rest hRead => hPut d x hd (h fuel b x rest hRead)

theorem Slot.Keeps.of_put {s : Slot δ} (hPut : ∀ d x, Q d → Q (s.put x d)) : s.Keeps Q :=
  fun d hd _ _ x _ _ => hPut d x hd

variable {slots : List (Slot δ)} {fuel : Nat} {b rest : Bytes} {d d' : δ}

theorem Slot.Keeps.field {s : Slot δ} (h : s.Keeps Q)
    (hRead : s.field.read fuel d b = .ok (d', rest)) (hd : Q d) : Q d' := by
  obtain ⟨⟨x, after⟩, hx, hPut⟩ := bind_eq_ok.mp hRead
  cases hPut
  exact h d hd _ _ _ _ hx

/-- The value under a key goes into a slot, or it is passed over. -/
theorem keeps_of_readField (hSlots : ∀ s ∈ slots, s.Keeps Q) {key : String}
    (hRead : readField (slots.map Slot.field) key d fuel b = .ok (d', rest)) (hd : Q d) : Q d' := by
  rw [readField_slots] at hRead
  split at hRead
  · next s found =>
    split at hRead
    · cases hRead
    · exact (hSlots s (List.mem_of_find?_eq_some found)).field hRead hd
  · obtain ⟨_, _, hKept⟩ := bind_eq_ok.mp hRead
    cases hKept
    exact hd

theorem keeps_of_readFields (hSlots : ∀ s ∈ slots, s.Keeps Q)
    (hRead : readFields (slots.map Slot.field) fuel d b = .ok (d', rest)) (hd : Q d) : Q d' := by
  induction fuel generalizing d b with
  | zero => cases hRead
  | succ fuel ih =>
    rcases readFields_eq_ok hRead with ⟨_, rfl⟩ | ⟨_, _, _, _, _, _, _, hField, hMore⟩
    · exact hd
    · exact ih hMore (keeps_of_readField hSlots hField hd)

theorem keeps_of_readPlaces {name : String} {size place : Nat} (hSlots : ∀ s ∈ slots, s.Keeps Q)
    (hRead : readPlaces name size fuel place (slots.map Slot.field) d b = .ok (d', rest))
    (hd : Q d) : Q d' := by
  induction slots generalizing place d b with
  | nil =>
    cases hRead
    exact hd
  | cons s slots ih =>
    obtain ⟨hFirst, hRest⟩ := List.forall_mem_cons.mp hSlots
    rcases readPlaces_eq_ok hRead with ⟨_, _, _, hMore⟩ | ⟨_, _, hField, hMore⟩
    · exact ih hRest hMore hd
    · exact ih hRest hMore (hFirst.field hField hd)

theorem Yields.record (hSlots : ∀ s ∈ slots, s.Keeps Q) (name : String) {blank : δ}
    (hBlank : Q blank) : Yields (readRecord name (slots.map Slot.field) blank) Q := by
  intro fuel b d rest hRead
  obtain ⟨⟨token, after⟩, _, hMore⟩ := bind_eq_ok.mp hRead
  cases token with
  | dict => exact keeps_of_readFields hSlots hMore hBlank
  | list => exact keeps_of_readPlaces hSlots hMore hBlank
  | _ => cases hMore

end Bencode

open Bencode

/-! ### The numbers of a torrent -/

/-- The numbers of an `info` dictionary are words with a sign. -/
structure Info.Signed (info : Info) : Prop where
  pieceLength : integerInRange info.pieceLength = true
  isPrivate : ∀ n ∈ info.isPrivate, integerInRange n = true
  length : integerInRange info.length = true
  files : ∀ f ∈ info.files, integerInRange f.length = true

/-- So are those that were read of one so far. -/
structure Info.Draft.Signed (d : Info.Draft) : Prop where
  pieceLength : ∀ n ∈ d.pieceLength, integerInRange n = true
  isPrivate : ∀ n ∈ d.isPrivate, integerInRange n = true
  length : ∀ n ∈ d.length, integerInRange n = true
  files : ∀ files ∈ d.files, ∀ f ∈ files, integerInRange f.length = true

theorem yields_infoFile : Yields readInfoFile fun f => integerInRange f.length = true := by
  have hSlots : ∀ s ∈ InfoFile.slots, s.Keeps fun d => ∀ n ∈ d.length, integerInRange n = true := by
    simp only [InfoFile.slots, List.forall_mem_cons, List.not_mem_nil, false_implies, implies_true,
      and_true]
    refine ⟨yields_number.keeps ?_, .of_put fun _ _ hd => hd⟩
    rintro d n - hn _ ⟨⟩
    exact hn
  have hBlank : ∀ n ∈ ({} : InfoFile.Draft).length, integerInRange n = true := by
    rintro _ ⟨⟩
  refine (Yields.record hSlots "InfoFile" hBlank).map fun d f hd hFinish => ?_
  obtain ⟨n, hLength, hMore⟩ := bind_eq_ok.mp hFinish
  obtain ⟨path, _, hPure⟩ := bind_eq_ok.mp hMore
  cases hPure
  exact hd n (require_eq_ok hLength)

theorem Info.keeps_signed : ∀ s ∈ Info.slots readInfoFile, s.Keeps Info.Draft.Signed := by
  simp only [Info.slots, List.forall_mem_cons, List.not_mem_nil, false_implies, implies_true,
    and_true]
  refine ⟨yields_number.keeps ?_, .of_put ?_, yields_number.keeps ?_,
    yields_infoFile.list.keeps ?_, .of_put ?_, yields_number.keeps ?_⟩
  · intro d n hd hn
    refine ⟨?_, hd.isPrivate, hd.length, hd.files⟩
    rintro _ ⟨⟩
    exact hn
  · exact fun _ _ hd => ⟨hd.pieceLength, hd.isPrivate, hd.length, hd.files⟩
  · intro d n hd hn
    refine ⟨hd.pieceLength, ?_, hd.length, hd.files⟩
    rintro _ ⟨⟩
    exact hn
  · intro d files hd hFiles
    refine ⟨hd.pieceLength, hd.isPrivate, hd.length, ?_⟩
    rintro _ ⟨⟩
    exact hFiles
  · exact fun _ _ hd => ⟨hd.pieceLength, hd.isPrivate, hd.length, hd.files⟩
  · intro d n hd hn
    refine ⟨hd.pieceLength, hd.isPrivate, ?_, hd.files⟩
    rintro _ ⟨⟩
    exact hn

theorem yields_info : Yields readInfo Info.Signed := by
  have hBlank : ({} : Info.Draft).Signed := ⟨nofun, nofun, nofun, nofun⟩
  refine (Yields.record Info.keeps_signed "Info" hBlank).map fun d info hd hFinish => ?_
  obtain ⟨n, hPieceLength, hMore⟩ := bind_eq_ok.mp hFinish
  obtain ⟨name, _, hPure⟩ := bind_eq_ok.mp hMore
  cases hPure
  refine ⟨hd.pieceLength n (require_eq_ok hPieceLength), hd.isPrivate, ?_, ?_⟩
  · cases hLength : d.length with
    | none => rfl
    | some k => exact hd.length k hLength
  · cases hFiles : d.files with
    | none => nofun
    | some files => exact hd.files files hFiles

variable {b : Bytes} {m : Metainfo}

/-- `m` was read, from a file or from an `info` dictionary on its own. -/
def Metainfo.WasRead (m : Metainfo) (b : Bytes) : Prop :=
  Metainfo.parse b = .ok m ∨ Metainfo.ofInfo b = .ok m

theorem Metainfo.WasRead.signed (h : m.WasRead b) : m.info.Signed := by
  rcases h with hFile | hInfo
  · obtain ⟨_, draft, rest, _, hRecord, hGiven, _⟩ := parse_eq_ok.mp hFile
    have hSlots : ∀ s ∈ Metainfo.slots readInfo,
        s.Keeps fun d => ∀ info ∈ d.info, info.Signed := by
      simp only [Metainfo.slots, Metainfo.infoSlot, List.forall_mem_cons, List.not_mem_nil,
        false_implies, implies_true, and_true]
      refine ⟨yields_info.keeps ?_, .of_put fun _ _ hd => hd, .of_put fun _ _ hd => hd⟩
      rintro d info - hInfo _ ⟨⟩
      exact hInfo
    have hBlank : ∀ info ∈ ({} : Metainfo.Draft).info, info.Signed := by
      rintro _ ⟨⟩
    rw [Metainfo.fields_eq] at hRecord
    exact Yields.record hSlots "Torrent" hBlank _ _ _ _ hRecord m.info hGiven
  · obtain ⟨_, _, left, hRead⟩ := ofInfo_eq_ok hInfo
    exact yields_info _ _ _ _ hRead

/-! ### Lengths -/

/-- The length of the files of a torrent as it is given: of those that are listed together, or of
the single one. -/
def Info.filesLength (info : Info) : Int :=
  if info.files = [] then info.length else (info.files.map (·.length)).sum

/-- The length that a torrent tells is the one that its files are laid out with: if a single file is
given a length, no others are listed, or as far as a word holds it the list has this length; if not,
what is laid out is no more than a word with a sign. -/
structure Info.OneLength (info : Info) : Prop where
  given : 0 < info.length → info.files = [] ∨
    (info.files.map (·.length)).sum % 0x10000000000000000 = info.length
  absent : info.length ≤ 0 → info.filesLength % 0x10000000000000000 < 0x8000000000000000

theorem sum_unsigned64 (files : List InfoFile) :
    ((files.map fun f => unsigned64 f.length).sum : Int) % 0x10000000000000000 =
      (files.map (·.length)).sum % 0x10000000000000000 := by
  induction files with
  | nil => rfl
  | cons f rest ih =>
    simp only [List.map_cons, List.sum_cons, unsigned64]
    simp only [unsigned64] at ih
    omega

/-- The size that the files are laid out with is their length, as far as a word holds it. -/
theorem contentLength_emod (m : Metainfo) :
    (m.contentLength : Int) % 0x10000000000000000 =
      m.info.filesLength % 0x10000000000000000 := by
  simp only [Metainfo.contentLength, Metainfo.fileList, Info.filesLength, List.isEmpty_iff]
  split
  · simp only [List.map_cons, List.map_nil, List.sum_singleton, unsigned64]
    omega
  · rw [List.map_map]
    exact sum_unsigned64 m.info.files

theorem signed64_eq_iff {n : Int} :
    n % 0x10000000000000000 = signed64 n ↔ n % 0x10000000000000000 < 0x8000000000000000 := by
  rw [signed64, Int.bmod]
  split <;> omega

theorem Info.totalLength_eq_iff {info : Info} (h : info.Signed) :
    info.filesLength % 0x10000000000000000 = info.totalLength ↔ info.OneLength := by
  obtain ⟨hLow, hHigh⟩ := inRange_iff.mp h.length
  by_cases hGiven : 0 < info.length
  · have hTotal : info.totalLength = info.length := if_pos hGiven
    have hOne : info.OneLength ↔ info.files = [] ∨
        (info.files.map (·.length)).sum % 0x10000000000000000 = info.length :=
      ⟨fun hOne => hOne.given hGiven, fun hEither => ⟨fun _ => hEither, fun _ => by omega⟩⟩
    rw [hTotal, hOne, Info.filesLength]
    split
    · next hNone =>
      simp only [hNone, true_or, iff_true]
      omega
    · next hSome => simp only [hSome, false_or]
  · have hTotal : info.totalLength = signed64 (info.files.map (·.length)).sum := if_neg hGiven
    have hOne : info.OneLength ↔
        info.filesLength % 0x10000000000000000 < 0x8000000000000000 :=
      ⟨fun hOne => hOne.absent (by omega), fun hSmall => ⟨fun _ => by omega, fun _ => hSmall⟩⟩
    rw [hTotal, hOne, Info.filesLength]
    split
    · next hNone =>
      have hZero : signed64 (info.files.map (·.length)).sum = 0 := by
        rw [hNone]
        rfl
      omega
    · exact signed64_eq_iff

end TorrentEngine
