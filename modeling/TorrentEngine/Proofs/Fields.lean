import TorrentEngine.Metainfo.Encoding
import TorrentEngine.Proofs.Records

/-!
The fields of a torrent as slots. A file, an `info` dictionary and a whole torrent are records whose
known fields are read into places of their own. The slots of a record that holds other records are
given with the reader of these, so that they also serve a reader that is stricter about them.
-/

namespace TorrentEngine

open Bencode

/-! ### Files -/

def InfoFile.slots : List (Slot InfoFile.Draft) :=
  [ { key := "length"
      Content := Int
      get := (·.length)
      put := fun n d => { d with length := some n }
      read := fun _ => readNumber
      get_put := fun _ _ => rfl },
    { key := "path"
      Content := List String
      get := (·.path)
      put := fun names d => { d with path := some names }
      read := readListWith fun _ => readText
      get_put := fun _ _ => rfl } ]

theorem InfoFile.fields_eq : InfoFile.fields = InfoFile.slots.map Slot.field := rfl

theorem InfoFile.slots_apart : InfoFile.slots.Pairwise Slot.Apart := by
  simp only [InfoFile.slots, List.pairwise_cons, List.forall_mem_cons, List.not_mem_nil,
    false_implies, implies_true, List.Pairwise.nil, and_true]
  exact ⟨fun _ _ _ => rfl, fun _ _ => rfl, fun _ _ => rfl⟩

theorem InfoFile.plain_slots : ∀ s ∈ InfoFile.slots, s.Plain := by
  simp only [InfoFile.slots, List.forall_mem_cons, List.not_mem_nil, false_implies, implies_true,
    and_true]
  exact ⟨⟨readsValue_number, readsWritten_number⟩,
    readsValue_text.list, readsWritten_text.list readsValue_text⟩

theorem readsFront_infoFile : ReadsFront readInfoFile := by
  have hSlots : ∀ s ∈ InfoFile.slots, ReadsFront s.read :=
    fun s hs => (InfoFile.plain_slots s hs).readsValue.readsFront
  exact (ReadsFront.record (reads_slots hSlots) "InfoFile" {}).map InfoFile.Draft.finish

/-! ### Info dictionaries -/

/-- The slots of an `info` dictionary whose files are read by `readFile`. -/
def Info.slots (readFile : Nat → Bytes → Except Bencode.Error (InfoFile × Bytes)) :
    List (Slot Info.Draft) :=
  [ { key := "piece length"
      Content := Int
      get := (·.pieceLength)
      put := fun n d => { d with pieceLength := some n }
      read := fun _ => readNumber
      get_put := fun _ _ => rfl },
    { key := "pieces"
      Content := Bytes
      get := (·.pieces)
      put := fun pieces d => { d with pieces := some pieces }
      read := readBytes
      hasDefault := true
      get_put := fun _ _ => rfl },
    { key := "private"
      Content := Int
      get := (·.isPrivate)
      put := fun n d => { d with isPrivate := some n }
      read := fun _ => readNumber
      hasDefault := true
      get_put := fun _ _ => rfl },
    { key := "files"
      Content := List InfoFile
      get := (·.files)
      put := fun files d => { d with files := some files }
      read := readListWith readFile
      hasDefault := true
      get_put := fun _ _ => rfl },
    { key := "name"
      Content := String
      get := (·.name)
      put := fun name d => { d with name := some name }
      read := fun _ => readText
      get_put := fun _ _ => rfl },
    { key := "length"
      Content := Int
      get := (·.length)
      put := fun n d => { d with length := some n }
      read := fun _ => readNumber
      hasDefault := true
      get_put := fun _ _ => rfl } ]

theorem Info.fields_eq : Info.fields = (Info.slots readInfoFile).map Slot.field := rfl

section

variable {readFile : Nat → Bytes → Except Bencode.Error (InfoFile × Bytes)}

theorem Info.slots_apart : (Info.slots readFile).Pairwise Slot.Apart := by
  simp only [Info.slots, List.pairwise_cons, List.forall_mem_cons, List.not_mem_nil,
    false_implies, implies_true, List.Pairwise.nil, and_true]
  and_intros
  all_goals exact ⟨fun _ _ _ => rfl, fun _ _ => rfl, fun _ _ => rfl⟩

theorem Info.plain_slots (hValue : ReadsValue readFile) (hWritten : ReadsWritten readFile) :
    ∀ s ∈ Info.slots readFile, s.Plain := by
  simp only [Info.slots, List.forall_mem_cons, List.not_mem_nil, false_implies, implies_true,
    and_true]
  exact ⟨⟨readsValue_number, readsWritten_number⟩, ⟨readsValue_bytes, readsWritten_bytes⟩,
    ⟨readsValue_number, readsWritten_number⟩, ⟨hValue.list, hWritten.list hValue⟩,
    ⟨readsValue_text, readsWritten_text⟩, readsValue_number, readsWritten_number⟩

theorem Info.readsFront_slots (h : ReadsFront readFile) :
    ∀ s ∈ Info.slots readFile, ReadsFront s.read := by
  simp only [Info.slots, List.forall_mem_cons, List.not_mem_nil, false_implies, implies_true,
    and_true]
  exact ⟨readsValue_number.readsFront, readsValue_bytes.readsFront, readsValue_number.readsFront,
    h.list, readsValue_text.readsFront, readsValue_number.readsFront⟩

end

theorem readsFront_info : ReadsFront readInfo :=
  (ReadsFront.record (reads_slots (Info.readsFront_slots readsFront_infoFile)) "Info" {}).map
    Info.Draft.finish

/-! ### Torrents -/

section

variable (readInfo : Nat → Bytes → Except Bencode.Error (Info × Bytes))

def Metainfo.infoSlot : Slot Metainfo.Draft where
  key := "info"
  Content := Info
  get d := d.info
  put info d := { d with info := some info }
  read := readInfo
  get_put _ _ := rfl

/-- The slots of a torrent whose `info` dictionary is read by `readInfo`. -/
def Metainfo.slots : List (Slot Metainfo.Draft) :=
  [ Metainfo.infoSlot readInfo,
    { key := "announce"
      Content := String
      get := (·.announce)
      put := fun url d => { d with announce := some url }
      read := fun _ => readText
      get_put := fun _ _ => rfl },
    { key := "announce-list"
      Content := List (List String)
      get := (·.announceList)
      put := fun tiers d => { d with announceList := some tiers }
      read := readListWith (readListWith fun _ => readText)
      hasDefault := true
      get_put := fun _ _ => rfl } ]

variable {readInfo}

theorem Metainfo.slots_apart : (Metainfo.slots readInfo).Pairwise Slot.Apart := by
  simp only [Metainfo.slots, List.pairwise_cons, List.forall_mem_cons, List.not_mem_nil,
    false_implies, implies_true, List.Pairwise.nil, and_true]
  and_intros
  all_goals exact ⟨fun _ _ _ => rfl, fun _ _ => rfl, fun _ _ => rfl⟩

theorem Metainfo.plain_slots (hValue : ReadsValue readInfo) (hWritten : ReadsWritten readInfo) :
    ∀ s ∈ Metainfo.slots readInfo, s.Plain := by
  simp only [Metainfo.slots, Metainfo.infoSlot, List.forall_mem_cons, List.not_mem_nil,
    false_implies, implies_true, and_true]
  exact ⟨⟨hValue, hWritten⟩, ⟨readsValue_text, readsWritten_text⟩, readsValue_text.list.list,
    (readsWritten_text.list readsValue_text).list readsValue_text.list⟩

theorem Metainfo.readsFront_slots (h : ReadsFront readInfo) :
    ∀ s ∈ Metainfo.slots readInfo, ReadsFront s.read := by
  simp only [Metainfo.slots, Metainfo.infoSlot, List.forall_mem_cons, List.not_mem_nil,
    false_implies, implies_true, and_true]
  exact ⟨h, readsValue_text.readsFront, readsValue_text.list.list.readsFront⟩

/-- The fields of a torrent other than its `info` dictionary are values. -/
theorem Metainfo.readsValue_of_ne {s : Slot Metainfo.Draft} (hs : s ∈ Metainfo.slots readInfo)
    (hOther : s.key ≠ "info") : ReadsValue s.read := by
  simp only [Metainfo.slots, List.mem_cons, List.not_mem_nil, or_false] at hs
  rcases hs with rfl | rfl | rfl
  · exact absurd rfl hOther
  · exact readsValue_text
  · exact readsValue_text.list.list

end

theorem Metainfo.fields_eq : Metainfo.fields = (Metainfo.slots readInfo).map Slot.field := rfl

end TorrentEngine
