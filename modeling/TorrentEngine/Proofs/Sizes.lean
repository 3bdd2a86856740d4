import TorrentEngine.Metainfo.Summary
import TorrentEngine.Proofs.Genuine

/-!
The size of a torrent. The files of a torrent are listed, laid out and downloaded with the sum of
their lengths, whereas the size that it tells is the length of a single file as soon as one is
given. So a torrent has one size unless it gives both a file list and a length that is not its sum.
-/

namespace TorrentEngine

open Bencode

namespace Metainfo

variable {b : Bytes} {m : Metainfo}

/-- `n` is the length of the files that a torrent lists, of those that are laid out for it below any
folder, and of the file set that is downloaded. -/
structure Holds (m : Metainfo) (n : Nat) : Prop where
  listed : (m.fileList.map (·.2)).sum = n
  laid : ∀ root, (Layout.ofMetainfo root m).totalSize = n
  downloaded : ∀ root blockSize fs, FileSet.forTorrent m root blockSize = .ok fs →
    fs.totalLength = n

/-- `n` is the size that a torrent tells, and the one in its summary. -/
structure Tells (m : Metainfo) (n : Nat) : Prop where
  told : m.info.totalLength = n
  printed : ∃ behind, m.summary =
    summaryLine "name:         " m.info.name ++ summaryLine "info hash:    " m.infoHash.hex ++
      summaryLine "size:         " s!"{n} bytes" ++ behind

theorem holds_contentLength (hFits : m.contentLength < 0x10000000000000000) :
    m.Holds m.contentLength := by
  refine ⟨rfl, fun root => ?_, fun root blockSize fs hfs => ?_⟩
  · rw [Layout.totalSize_ofMetainfo, Nat.mod_eq_of_lt hFits]
  · have hTotal := (FileSet.contentOf_forTorrent hfs).totalLength_eq
    rw [← contentLength_emod] at hTotal
    omega

theorem tells_iff {n : Nat} : m.Tells n ↔ m.info.totalLength = n := by
  refine ⟨Tells.told, fun hTold => ⟨hTold, ?_⟩⟩
  simp only [summary, List.cons_append, String.join_cons, hTold]
  exact ⟨_, by simp only [String.append_assoc]; rfl⟩

theorem unsigned64_of_word {n : Int} (h : 0 ≤ n ∧ n < 0x10000000000000000) :
    (unsigned64 n : Int) = n := by
  simp only [unsigned64]
  omega

theorem sum_of_words {files : List InfoFile}
    (h : ∀ f ∈ files, 0 ≤ f.length ∧ f.length < 0x10000000000000000) :
    ((files.map fun f => unsigned64 f.length).sum : Int) = (files.map (·.length)).sum := by
  induction files with
  | nil => rfl
  | cons f rest ih =>
    obtain ⟨hFirst, hRest⟩ := List.forall_mem_cons.mp h
    have hSum := ih hRest
    have hWord := unsigned64_of_word hFirst
    simp only [List.map_cons, List.sum_cons]
    omega

/-- A torrent that was read, whose lengths are not negative and have a sum that is a word with a
sign: its files are listed, laid out below any folder and downloaded with one size, such a word. The
torrent tells the same size, and so does its summary, just if the length of a single file is absent
or zero, or there is no file list, or the two have the same sum. -/
theorem tells_contentLength_iff (hRead : m.WasRead b) (hLength : 0 ≤ m.info.length)
    (hFiles : ∀ f ∈ m.info.files, 0 ≤ f.length)
    (hSum : (m.info.files.map (·.length)).sum < 0x8000000000000000) :
    m.Holds m.contentLength ∧ m.contentLength < 0x8000000000000000 ∧
      (m.Tells m.contentLength ↔
        m.info.length = 0 ∨ m.info.files = [] ∨
          m.info.length = (m.info.files.map (·.length)).sum) := by
  have hSigned := hRead.signed
  have hSingle : m.info.length < 0x8000000000000000 := (inRange_iff.mp hSigned.length).2
  have hWords := sum_of_words fun f hf =>
    ⟨hFiles f hf, by have := (inRange_iff.mp (hSigned.files f hf)).2; omega⟩
  have hContent : (m.contentLength : Int) = m.info.filesLength := by
    simp only [contentLength, fileList, Info.filesLength, List.isEmpty_iff]
    split
    · exact unsigned64_of_word ⟨hLength, by omega⟩
    · rw [List.map_map]
      exact hWords
  have hSmall : m.info.filesLength < 0x8000000000000000 := by
    rw [Info.filesLength]
    split <;> assumption
  refine ⟨holds_contentLength (by omega), by omega, ?_⟩
  have hWord : m.info.filesLength % 0x10000000000000000 = m.info.filesLength := by omega
  rw [tells_iff, hContent, ← hWord, eq_comm, Info.totalLength_eq_iff hSigned]
  constructor
  · intro hOne
    by_cases hZero : m.info.length = 0
    · exact .inl hZero
    · refine .inr ((hOne.given (by omega)).imp_right fun hSame => ?_)
      omega
  · intro hEither
    refine ⟨fun hGiven => (hEither.resolve_left (by omega)).imp_right fun hSame => ?_,
      fun _ => by omega⟩
    omega

end Metainfo

/-- A torrent with a file list and a length of a single file besides. -/
def twiceSized : Bytes := Bytes.ofText <|
  "d4:infod5:filesld6:lengthi3e4:pathl1:aeee6:lengthi5e4:name1:t12:piece lengthi4e6:pieces" ++
  "20:aaaaaaaaaaaaaaaaaaaaee"

def twiceSizedTorrent : Metainfo where
  infoBytes := Bytes.ofText <|
    "d5:filesld6:lengthi3e4:pathl1:aeee6:lengthi5e4:name1:t12:piece lengthi4e6:pieces" ++
    "20:aaaaaaaaaaaaaaaaaaaae"
  info :=
    { pieceLength := 4
      pieces := List.replicate 20 97
      files := [{ length := 3, path := ["a"] }]
      name := "t"
      length := 5 }

set_option maxRecDepth 2000 in
/-- It holds three bytes and tells five. -/
theorem Metainfo.tells_twiceSized :
    Metainfo.parse twiceSized = .ok twiceSizedTorrent ∧ twiceSizedTorrent.Holds 3 ∧
      twiceSizedTorrent.Tells 5 ∧ ¬ twiceSizedTorrent.Tells 3 := by
  have hParse : Metainfo.parse twiceSized = .ok twiceSizedTorrent := by decide +kernel
  obtain ⟨hHolds, -, hTells⟩ :=
    Metainfo.tells_contentLength_iff (.inl hParse) (by decide) (by decide) (by decide)
  refine ⟨hParse, hHolds, Metainfo.tells_iff.mpr rfl, fun hThree => ?_⟩
  exact absurd (hTells.mp hThree) (by decide)

end TorrentEngine
