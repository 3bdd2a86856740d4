import TorrentEngine.Proofs.Saving

/-!
Writing a torrent and reading it back. `Writes read x v` says that `v` is a value whose written form
`read` turns into `x`; numbers, texts and byte strings that machine words can hold are written so,
and lists and records are if their items and fields are. The entries of a dictionary may be given in
any order, for they are sorted when it is made.
-/

namespace TorrentEngine

theorem Bytes.text?_ofText (s : String) : Bytes.text? (Bytes.ofText s) = some s := by
  have hBytes : (⟨(Bytes.ofText s).toArray⟩ : ByteArray) = s.toByteArray := rfl
  rw [Bytes.text?, hBytes, String.fromUTF8?, dif_pos s.isValidUTF8]
  rfl

namespace Bencode

variable {α β δ : Type} {x : α} {v : Value} {read : Nat → Bytes → Except Error (α × Bytes)}

/-- `read` makes `x` of the written form of the value `v`. -/
structure Writes (read : Nat → Bytes → Except Error (α × Bytes)) (x : α) (v : Value) : Prop where
  wellformed : v.Wellformed
  takes : Takes read x v.print

/-! ### Single values -/

theorem Writes.number {n : Int} (h : integerInRange n = true) :
    Writes (fun _ => readNumber) n (.integer n) :=
  ⟨.integer h, takes_written_number (.integer h)⟩

theorem Writes.text {s : String} (h : (Bytes.ofText s).length < 0x10000000000000000) :
    Writes (fun _ => readText) s (textValue s) :=
  ⟨.bytes h, takes_written_text (.bytes h) (Bytes.text?_ofText s)⟩

theorem Writes.bytes {s : Bytes} (h : s.length < 0x10000000000000000) :
    Writes readBytes s (.bytes s) :=
  ⟨.bytes h, takes_written_bytes (.bytes h)⟩

theorem Writes.map (h : Writes read x v) {f : α → Except Error β} {y : β} (hy : f x = .ok y) :
    Writes (fun fuel b => do
      let (x, rest) ← read fuel b
      return (← f x, rest)) y v :=
  ⟨h.wellformed, h.takes.map hy⟩

/-! ### Lists -/

theorem takes_items_map {xs : List α} {toValue : α → Value}
    (h : ∀ x ∈ xs, Writes read x (toValue x)) :
    Takes (readItemsWith read) xs (Value.printItems (xs.map toValue) ++ [101]) := by
  induction xs with
  | nil => exact .stop .of_stop
  | cons x xs ih =>
    obtain ⟨hFirst, hMore⟩ := List.forall_mem_cons.mp h
    rw [List.map_cons, Value.printItems, List.append_assoc]
    exact .cons hFirst.wellformed.spelled.skips.opens hFirst.takes (ih hMore)

theorem Writes.list {xs : List α} {toValue : α → Value}
    (h : ∀ x ∈ xs, Writes read x (toValue x)) :
    Writes (readListWith read) xs (.list (xs.map toValue)) := by
  refine ⟨.list fun v hv => ?_, .list .of_list (takes_items_map h)⟩
  obtain ⟨x, hx, rfl⟩ := List.mem_map.mp hv
  exact (h x hx).wellformed

/-! ### Records -/

/-- The entries of a dictionary, under keys that are given as text. -/
def keyed (entries : List (String × Value)) : List (Bytes × Value) :=
  entries.map fun e => (Bytes.ofText e.1, e.2)

theorem dictOf_eq (entries : List (String × Value)) :
    dictOf entries = .dict (enter (keyed entries) []) := by
  rw [dictOf, enter, keyed, List.foldl_map]

theorem keyed_append (entries more : List (String × Value)) :
    keyed (entries ++ more) = keyed entries ++ keyed more :=
  List.map_append

/-- Entries that fill the slots of a record one after the other, and are written as values of their
kinds. -/
structure Fields (slots : List (Slot δ)) (d : δ) (entries : List (String × Value)) (d' : δ) :
    Prop where
  wellformed : ∀ e ∈ keyed entries, e.1.length < 0x10000000000000000 ∧ e.2.Wellformed
  fills : Fills slots d (keyed entries) d'

variable {slots : List (Slot δ)} {d d' e : δ} {entries more : List (String × Value)}

theorem Fields.nil : Fields slots d [] d := ⟨fun _ h => (nomatch h), .nil⟩

theorem Fields.cons {key : String} {s : Slot δ} {x : s.Content}
    (hFound : slots.find? (fun t => t.key == key) = some s)
    (hKey : (Bytes.ofText key).length < 0x10000000000000000) (hVacant : s.get d = none)
    (h : Writes s.read x v) (hMore : Fields slots (s.put x d) more d') :
    Fields slots d ((key, v) :: more) d' := by
  refine ⟨fun e he => ?_,
    .cons (Bytes.text?_ofText key) (.known hFound hVacant h.takes) hMore.fills⟩
  rcases List.mem_cons.mp he with rfl | he
  · exact ⟨hKey, h.wellformed⟩
  · exact hMore.wellformed e he

theorem Fills.append {entries more : List (Bytes × Value)} (h : Fills slots d entries e)
    (hMore : Fills slots e more d') : Fills slots d (entries ++ more) d' := by
  induction h with
  | nil => exact hMore
  | cons text edits _ ih => exact .cons text edits (ih hMore)

theorem Fields.append (h : Fields slots d entries e) (hMore : Fields slots e more d') :
    Fields slots d (entries ++ more) d' := by
  refine ⟨fun entry hMem => ?_, ?_⟩
  · rw [keyed_append] at hMem
    rcases List.mem_append.mp hMem with hMem | hMem
    · exact h.wellformed entry hMem
    · exact hMore.wellformed entry hMem
  · rw [keyed_append]
    exact h.fills.append hMore.fills

/-- A field that may be absent. -/
theorem Fields.option {key : String} {o : Option β} {toValue : β → Value}
    (hNone : o = none → d = d') (hSome : ∀ x, o = some x → Fields slots d [(key, toValue x)] d') :
    Fields slots d (o.map fun x => (key, toValue x)).toList d' := by
  cases o with
  | none =>
    rw [hNone rfl]
    exact .nil
  | some x => exact hSome x rfl

theorem wellformed_enter {entries more : List (Bytes × Value)} (h : (Value.dict entries).Wellformed)
    (hMore : ∀ e ∈ more, e.1.length < 0x10000000000000000 ∧ e.2.Wellformed) :
    (Value.dict (enter more entries)).Wellformed := by
  induction more generalizing entries with
  | nil => exact h
  | cons e more ih =>
    obtain ⟨⟨hKey, hValue⟩, hRest⟩ := List.forall_mem_cons.mp hMore
    exact ih (h.insert hKey hValue) hRest

/-- A record is read from the dictionary of its fields. -/
theorem Writes.record (hApart : slots.Pairwise Slot.Apart) {blank : δ}
    (h : Fields slots blank entries d) (name : String) :
    Writes (readRecord name (slots.map Slot.field) blank) d (dictOf entries) := by
  have hWellformed : (Value.dict (enter (keyed entries) [])).Wellformed :=
    wellformed_enter (.dict .nil (fun _ hMem => nomatch hMem) fun _ hMem => nomatch hMem)
      h.wellformed
  have hFills : Fills slots blank (enter (keyed entries) []) d :=
    Fills.nil.enter hApart .nil h.fills
  rw [dictOf_eq]
  cases hWellformed with
  | dict ascending keys values =>
    exact ⟨.dict ascending keys values, .record .of_dict (hFills.takes keys)⟩

end Bencode

open Bencode

/-! ### Torrents -/

/-- A text whose length a machine word holds. -/
def TextInWord (s : String) : Prop := (Bytes.ofText s).length < 0x10000000000000000

instance (s : String) : Decidable (TextInWord s) := Nat.decLt _ _

/-- The numbers of a file are words with a sign, the lengths of its texts words without one. -/
structure InfoFile.InWords (f : InfoFile) : Prop where
  length : integerInRange f.length = true
  path : ∀ name ∈ f.path, TextInWord name

structure Info.InWords (i : Info) : Prop where
  pieceLength : integerInRange i.pieceLength = true
  pieces : i.pieces.length < 0x10000000000000000
  isPrivate : ∀ n ∈ i.isPrivate, integerInRange n = true
  files : ∀ f ∈ i.files, f.InWords
  name : TextInWord i.name
  length : integerInRange i.length = true

structure Metainfo.InWords (m : Metainfo) : Prop where
  info : m.info.InWords
  announce : ∀ url ∈ m.announce, TextInWord url
  announceList : ∀ tiers ∈ m.announceList, ∀ tier ∈ tiers, ∀ url ∈ tier, TextInWord url

theorem writes_texts {texts : List String} (h : ∀ s ∈ texts, TextInWord s) :
    Writes (readListWith fun _ => readText) texts (.list (texts.map textValue)) :=
  .list fun s hs => .text (h s hs)

theorem InfoFile.InWords.writes {f : InfoFile} (h : f.InWords) :
    Writes readInfoFile f f.toValue := by
  have hFields : Fields InfoFile.slots {}
      [("length", .integer f.length), ("path", .list (f.path.map textValue))]
      { length := some f.length, path := some f.path } :=
    .cons rfl (by decide) rfl (.number h.length) <|
      .cons rfl (by decide) rfl (writes_texts h.path) .nil
  exact (Writes.record InfoFile.slots_apart hFields "InfoFile").map rfl

theorem Info.InWords.writes {i : Info} (h : i.InWords) : Writes readInfo i i.toValue := by
  have hAlways : Fields (Info.slots readInfoFile) {}
      [ ("files", .list (i.files.map InfoFile.toValue)), ("length", .integer i.length),
        ("name", textValue i.name), ("piece length", .integer i.pieceLength),
        ("pieces", .bytes i.pieces) ]
      { files := some i.files, length := some i.length, name := some i.name,
        pieceLength := some i.pieceLength, pieces := some i.pieces } :=
    .cons rfl (by decide) rfl (.list fun f hf => (h.files f hf).writes) <|
      .cons rfl (by decide) rfl (.number h.length) <|
      .cons rfl (by decide) rfl (.text h.name) <|
      .cons rfl (by decide) rfl (.number h.pieceLength) <|
      .cons rfl (by decide) rfl (.bytes h.pieces) .nil
  have hPrivate : Fields (Info.slots readInfoFile)
      { files := some i.files, length := some i.length, name := some i.name,
        pieceLength := some i.pieceLength, pieces := some i.pieces }
      (i.isPrivate.map fun n => ("private", Value.integer n)).toList
      { files := some i.files, length := some i.length, name := some i.name,
        pieceLength := some i.pieceLength, pieces := some i.pieces, isPrivate := i.isPrivate } := by
    refine .option (fun hNone => by rw [hNone]) fun n hSome => ?_
    rw [hSome]
    exact .cons rfl (by decide) rfl (.number (h.isPrivate n hSome)) .nil
  exact (Writes.record Info.slots_apart (hAlways.append hPrivate) "Info").map rfl

/-- What a torrent file is parsed to once it was read as a value and as a record. -/
theorem parse_of_reads {b infoBytes rest : Bytes} {draft : Metainfo.Draft} {info : Info}
    (hCanonical : canonicalInfo b = .ok infoBytes)
    (hRecord : readRecord "Torrent" Metainfo.fields {} (fuelFor b) b = .ok (draft, rest))
    (hInfo : draft.info = some info) :
    Metainfo.parse b = Metainfo.checkPieces
      { infoBytes, info, announce := draft.announce, announceList := draft.announceList } := by
  simp only [Metainfo.parse, hCanonical, hRecord, hInfo, require, Except.mapError, bind,
    Except.bind]

theorem Metainfo.InWords.writes {m : Metainfo} (h : m.InWords) :
    Writes (readRecord "Torrent" Metainfo.fields {})
      { info := some m.info, announce := m.announce, announceList := m.announceList }
      m.toValue := by
  have hAnnounce : Fields (Metainfo.slots readInfo) {}
      (m.announce.map fun url => ("announce", textValue url)).toList
      { announce := m.announce } := by
    refine .option (fun hNone => by rw [hNone]) fun url hSome => ?_
    rw [hSome]
    exact .cons rfl (by decide) rfl (.text (h.announce url hSome)) .nil
  have hList : Fields (Metainfo.slots readInfo) { announce := m.announce }
      (m.announceList.map fun tiers => ("announce-list", tiersValue tiers)).toList
      { announce := m.announce, announceList := m.announceList } := by
    refine .option (fun hNone => by rw [hNone]) fun tiers hSome => ?_
    rw [hSome]
    have hTiers := h.announceList tiers hSome
    exact .cons rfl (by decide) rfl (.list fun tier hTier => writes_texts (hTiers tier hTier)) .nil
  have hInfo : Fields (Metainfo.slots readInfo)
      { announce := m.announce, announceList := m.announceList } [("info", m.info.toValue)]
      { info := some m.info, announce := m.announce, announceList := m.announceList } :=
    .cons rfl (by decide) rfl h.info.writes .nil
  exact Writes.record Metainfo.slots_apart ((hAnnounce.append hList).append hInfo) "Torrent"

/-- Under `info`, the written torrent holds the written `info` dictionary. -/
theorem lookup_toValue (m : Metainfo) :
    ∃ entries, m.toValue = .dict entries ∧
      Value.lookup (Bytes.ofText "info") entries = some m.info.toValue := by
  refine ⟨_, rfl, ?_⟩
  rw [List.foldl_append]
  exact lookup_insert_self _ _ _

/-- A torrent that is written and read back has its fields, and is named by its written `info`
dictionary; if its digests do not have whole lengths, it is refused with their length. -/
theorem Metainfo.parse_encode {m : Metainfo} (h : m.InWords) :
    Metainfo.parse m.encode =
      if 20 ∣ m.info.pieces.length then
        .ok { infoBytes := m.info.encode, info := m.info, announce := m.announce,
              announceList := m.announceList }
      else .error (.unevenPieces m.info.pieces.length) := by
  obtain ⟨hWellformed, hTakes⟩ := h.writes
  obtain ⟨entries, hDict, hLookup⟩ := lookup_toValue m
  have hFuel : 2 * m.encode.length ≤ fuelFor m.encode := Nat.le_add_right _ 2
  have hRead : readValue m.encode = .ok (.dict entries, []) := by
    have hWhole := hWellformed.spelled.takes (fuelFor m.encode) [] hFuel
    rw [List.append_nil] at hWhole
    rw [← hDict]
    exact hWhole
  have hCanonical : canonicalInfo m.encode = .ok m.info.encode :=
    canonicalInfo_eq_ok.mpr ⟨entries, [], m.info.toValue, hRead, hLookup, rfl⟩
  have hRecord := hTakes (fuelFor m.encode) [] hFuel
  rw [List.append_nil] at hRecord
  rw [parse_of_reads hCanonical hRecord rfl, Metainfo.checkPieces, Metainfo.hasWholePieces,
    digestLength]
  simp only [beq_iff_eq, Nat.dvd_iff_mod_eq_zero]

/-- A torrent with all its fields, two of whose numbers are the least and the greatest there are. -/
def fullTorrent : Metainfo where
  infoBytes := []
  info :=
    { pieceLength := -0x8000000000000000
      pieces := List.replicate 20 7
      isPrivate := some 1
      files := [{ length := 3, path := ["é", ""] }, { length := 0, path := [] }]
      name := "a"
      length := 0x7fffffffffffffff }
  announce := some "udp://t"
  announceList := some [["u", "v"], []]

theorem fullTorrent_inWords : fullTorrent.InWords where
  info :=
    { pieceLength := by decide
      pieces := by decide
      isPrivate := by decide
      files := by
        intro f hf
        simp only [fullTorrent, List.mem_cons, List.not_mem_nil, or_false] at hf
        rcases hf with rfl | rfl
        · exact ⟨by decide, by decide⟩
        · exact ⟨by decide, by decide⟩
      name := by decide
      length := by decide }
  announce := by decide
  announceList := by decide

theorem Metainfo.parse_encode_fullTorrent :
    fullTorrent.InWords ∧ Metainfo.parse fullTorrent.encode =
      .ok { fullTorrent with infoBytes := fullTorrent.info.encode } :=
  ⟨fullTorrent_inWords, (Metainfo.parse_encode fullTorrent_inWords).trans (if_pos (by decide))⟩

end TorrentEngine
