import TorrentEngine.Proofs.Saving

/-!
A torrent file and its saved copy. The name of a torrent is taken from the written form of its
`info` dictionary, while its fields are read from the file as it stands. The written form has the
same fields, whatever the order of the keys in the file, the spelling of its numbers and byte
strings and the entries that are passed over. So it describes the same torrent, alone or wrapped up
as a file, and is named by its own bytes.
-/

namespace TorrentEngine

open Bencode

variable {b : Bytes} {m : Metainfo} {entries : List (Bytes × Value)} {k : Bytes} {v : Value}

theorem mem_of_lookup (h : Value.lookup k entries = some v) : (k, v) ∈ entries := by
  obtain ⟨⟨k', w⟩, hFind, rfl⟩ := Option.map_eq_some_iff.mp h
  obtain rfl : k' = k := by simpa using List.find?_some hFind
  exact List.mem_of_find?_eq_some hFind

/-- In its written form, too, the `info` dictionary of a torrent file has the torrent's fields. -/
theorem takes_info_of_parse (hSize : b.length < 0x10000000000000000)
    (hNo : ¬ FindsList strictTorrent b) (h : Metainfo.parse b = .ok m) :
    ∃ v : Value, v.print = m.infoBytes ∧ v.Spelled v.print ∧ Takes readInfo m.info v.print := by
  obtain ⟨_, draft, _, hCanonical, hRecord, hInfo, _, _⟩ := parse_eq_ok.mp h
  obtain ⟨entries, rest, v, hRead, hLookup, hPrint⟩ := canonicalInfo_eq_ok.mp hCanonical
  obtain ⟨front, rfl, hSpelled⟩ := valueAt_eq_ok hRead
  rw [List.length_append] at hSize
  -- The file is read a second time as a record, from the same front.
  obtain ⟨front', hFront, hSkips, hTakes⟩ :=
    readsValue_strictTorrent _ _ _ _ (stricter_torrent.eq_ok hNo hRecord)
  obtain ⟨rfl, _⟩ := hSpelled.skips.unique hSkips hFront
  obtain ⟨_, hDict, hFills⟩ :=
    fills_of_dictionary Metainfo.slots_apart Metainfo.plain_strict hTakes hSpelled (by omega)
  cases hDict
  obtain ⟨info, hTakesInfo, hGiven⟩ := hFills.get Metainfo.slots_apart
    (show _ = some (Metainfo.infoSlot strictInfo) from rfl) text?_info (mem_of_lookup hLookup)
  obtain rfl : m.info = info := Option.some.inj (hInfo.symm.trans hGiven)
  cases hSpelled.wellformed (by omega) with
  | dict _ _ values =>
    exact ⟨v, hPrint, (values _ (mem_of_lookup hLookup)).spelled, stricter_info.takes hTakesInfo⟩

/-- A torrent file `b`, of a length that a machine word holds and with no list in place of a record,
describes the same torrent as the written form of its `info` dictionary: read on its own, that has
the same fields and the same name, and wrapped up as a file it is read back with the same fields and
byte for byte the same dictionary. -/
theorem Metainfo.copies_of_parse (hSize : b.length < 0x10000000000000000)
    (hNo : ¬ FindsList strictTorrent b) (h : Metainfo.parse b = .ok m) :
    (∃ bare, Metainfo.ofInfo m.infoBytes = .ok bare ∧ bare.info = m.info ∧
      bare.infoHash = m.infoHash) ∧
    ∃ saved, Metainfo.parse (wrapInfo m.infoBytes) = .ok saved ∧ saved.info = m.info ∧
      saved.infoBytes = m.infoBytes := by
  obtain ⟨hWhole, -⟩ := parse_eq_ok.mp h
  obtain ⟨v, hPrint, hSpelled, hTakes⟩ := takes_info_of_parse hSize hNo h
  have hRead := hTakes (fuelFor v.print) [] (Nat.le_add_right _ 2)
  rw [List.append_nil] at hRead
  have hBare : Metainfo.ofInfo v.print = .ok { infoBytes := v.print, info := m.info } :=
    bind_eq_ok.mpr ⟨(m.info, []), mapError_eq_ok.mpr hRead, if_pos hWhole⟩
  have hSaved := parse_of_spelled hRead hWhole hSpelled
  rw [hPrint] at hBare hSaved
  exact ⟨⟨_, hBare, rfl, rfl⟩, _, hSaved, rfl, rfl⟩

/-- A file whose keys stand in no order, with two unknown keys that stand twice, numbers and a
length with more digits than they need, and the digests of the pieces as a list of numbers. -/
def scrambledFile : Bytes := Bytes.ofText <|
  "d1:zi1e4:infod04:name1:a1:xi1e6:piecesl" ++
  "i07ei7ei7ei7ei7ei7ei7ei7ei7ei7ei7ei7ei7ei7ei7ei7ei7ei7ei7ei7e" ++
  "e1:xl1:be12:piece lengthi+016ee1:zdee"

/-- The torrent that it describes, with the written form of its `info` dictionary. -/
def scrambledTorrent : Metainfo where
  infoBytes := Bytes.ofText <|
    "d4:name1:a12:piece lengthi16e6:piecesl" ++
    "i7ei7ei7ei7ei7ei7ei7ei7ei7ei7ei7ei7ei7ei7ei7ei7ei7ei7ei7ei7e" ++
    "e1:xl1:bee"
  info := { pieceLength := 16, pieces := List.replicate 20 7, name := "a" }

set_option maxRecDepth 2000 in
theorem Metainfo.copies_of_scrambledFile :
    Metainfo.parse scrambledFile = .ok scrambledTorrent ∧
    (∃ bare, Metainfo.ofInfo scrambledTorrent.infoBytes = .ok bare ∧
      bare.info = scrambledTorrent.info ∧ bare.infoHash = scrambledTorrent.infoHash) ∧
    ∃ saved, Metainfo.parse (wrapInfo scrambledTorrent.infoBytes) = .ok saved ∧
      saved.info = scrambledTorrent.info ∧ saved.infoBytes = scrambledTorrent.infoBytes := by
  have hParse : Metainfo.parse scrambledFile = .ok scrambledTorrent := by decide +kernel
  have hSize : scrambledFile.length < 0x10000000000000000 := by decide
  have hNo : ¬ FindsList strictTorrent scrambledFile :=
    not_findsList_of_ok (r := ({ info := some scrambledTorrent.info }, [])) (by rfl)
  exact ⟨hParse, Metainfo.copies_of_parse hSize hNo hParse⟩

end TorrentEngine
