import TorrentEngine.Proofs.Dispatch
import TorrentEngine.Proofs.Numbers

/-!
A torrent that is known by its name alone fetches the metadata that the name stands for. Whatever
peers send, and however the parts of jobs come between other things, metadata are known only once
they have the digest that the torrent is named by; it is they that are saved, and what they describe
is what is downloaded.
-/

namespace TorrentEngine

/-! ### The content of a torrent -/

/-- What is downloaded are the pieces that a torrent describes: their digests, of twenty bytes each,
are its `pieces` one after the other. Their length together is that of the files, as far as a word
holds it. -/
structure FileSet.ContentOf (fs : FileSet) (m : Metainfo) : Prop where
  kind_eq : fs.kind = .data
  digests_eq : fs.pieces.flatMap (·.digest.bytes) = m.info.pieces
  pieceLength_eq : (fs.pieceLength : Int) = m.info.pieceLength
  totalLength_eq : (fs.totalLength : Int) = m.info.filesLength % 0x10000000000000000

theorem Digest.bytes_ofBytes {b : Bytes} (h : b.length = digestLength) : (ofBytes b).bytes = b := by
  apply List.ext_getElem
  · rw [length_bytes, h, digestLength]
  · intro i hi hi'
    simp only [bytes, ofBytes, Vector.toArray_ofFn, Array.toList_ofFn, List.getElem_ofFn]
    exact (List.getElem_eq_getD 0).symm

/-- Groups of twenty bytes, put together again. -/
theorem flatMap_chunks {n : Nat} {b : Bytes} (h : b.length = n * digestLength) :
    ((chunks digestLength n b).map Digest.ofBytes).flatMap Digest.bytes = b := by
  induction n generalizing b with
  | zero =>
    rw [Nat.zero_mul] at h
    exact (List.length_eq_zero_iff.mp h).symm
  | succ n ih =>
    rw [Nat.succ_mul] at h
    rw [chunks, List.map_cons, List.flatMap_cons, ih (by rw [List.length_drop]; omega),
      Digest.bytes_ofBytes (by rw [List.length_take]; omega), List.take_append_drop]

namespace FileSet

variable {fs fs' : FileSet} {m : Metainfo}

theorem SameCut.digests_eq (h : SameCut fs fs') :
    fs'.pieces.map (·.digest) = fs.pieces.map (·.digest) := by
  have hDigests := congrArg (List.map Piece.digest) h.outlines_eq
  rwa [List.map_map, List.map_map] at hDigests

theorem ContentOf.sameCut (h : fs.ContentOf m) (hCut : SameCut fs fs') : fs'.ContentOf m := by
  have hDigests : fs'.pieces.flatMap (·.digest.bytes) = fs.pieces.flatMap (·.digest.bytes) := by
    have hSame := congrArg (List.flatMap Digest.bytes) hCut.digests_eq
    rwa [List.flatMap_map, List.flatMap_map] at hSame
  refine ⟨hCut.kind_eq.trans h.kind_eq, hDigests.trans h.digests_eq, ?_, ?_⟩
  · rw [hCut.pieceLength_eq]
    exact h.pieceLength_eq
  · rw [hCut.totalLength_eq]
    exact h.totalLength_eq

theorem digests_cut (pieceLength total blockSize : Nat) (digests : List Digest) :
    (cut pieceLength total blockSize digests).map (·.digest) = digests := by
  rw [cut, List.map_map]
  exact List.zipIdx_map_fst 0 digests

theorem hasWholePieces_of_forTorrent {root : Path} {blockSize : Nat}
    (h : forTorrent m root blockSize = .ok fs) : m.hasWholePieces = true := by
  simp only [forTorrent] at h
  split at h
  · cases h
  · next hWhole => simpa using hWhole

theorem contentOf_forTorrent {root : Path} {blockSize : Nat}
    (h : forTorrent m root blockSize = .ok fs) : fs.ContentOf m := by
  have hWhole : m.info.pieces.length = m.pieceCount * digestLength := by
    have hEven := hasWholePieces_of_forTorrent h
    simp only [Metainfo.hasWholePieces, beq_iff_eq, digestLength] at hEven
    simp only [Metainfo.pieceCount, digestLength]
    omega
  obtain ⟨hPos, -, rfl⟩ := create_eq_ok (PhaseId.forTorrent_ok h)
  refine ⟨rfl, ?_, Int.toNat_of_nonneg (by omega), ?_⟩
  · have hDigests := congrArg (List.flatMap Digest.bytes)
      (digests_cut m.info.pieceLength.toNat (Layout.ofMetainfo root m).totalSize blockSize
        m.pieceDigests)
    rw [List.flatMap_map] at hDigests
    exact hDigests.trans (flatMap_chunks hWhole)
  · rw [← contentLength_emod]
    exact congrArg _ (Layout.totalSize_ofMetainfo root m)

end FileSet

/-! ### Names of files -/

/-- The digits of a byte string, from the least to the greatest. -/
def hexDigits : List Char := "0123456789abcdef".toList

/-- `name` has the two digits of each byte of `b`, the higher one first. -/
def Bytes.DigitsIn (b : Bytes) (name : String) : Prop :=
  name.toList.map some =
    b.flatMap fun x => [hexDigits[x.toNat / 16]?, hexDigits[x.toNat % 16]?]

theorem hexDigits_getElem? : ∀ n < 16, hexDigits[n]? = some (Bytes.hexDigit n) := by decide

theorem digitsIn_hex (b : Bytes) : b.DigitsIn (Bytes.hex b) := by
  have hByte (x : UInt8) : [hexDigits[x.toNat / 16]?, hexDigits[x.toNat % 16]?] =
      [Bytes.hexDigit (x.toNat / 16), Bytes.hexDigit (x.toNat % 16)].map some := by
    have hx := x.toNat_lt
    rw [hexDigits_getElem? _ (by omega), hexDigits_getElem? _ (by omega)]
    rfl
  simp only [Bytes.DigitsIn, Bytes.hex, String.toList_ofList, List.map_flatMap, hByte]

/-! ### What a run keeps -/

/-- How far a torrent named by `h` is: still looking for its metadata, or at work on the content
that they describe. -/
inductive PhaseId.Stage (h : Digest) (d : Download) (phase : PhaseId) : Prop
  | seeking (hPhase : phase.kind? ≠ some .data) (hMetainfo : d.metainfo = none)
      (hSet : ∀ fs, d.fileSet = some fs → fs.kind = .metadata ∧ ∀ p ∈ fs.pieces, p.digest = h)
  | loaded {b : Bytes} {m : Metainfo} {fs : FileSet} (hPhase : phase.kind? = some .data)
      (hBytes : d.metadataBytes = some b) (hRead : Metainfo.ofInfo b = .ok m)
      (hMetainfo : d.metainfo = some m) (hfs : d.fileSet = some fs) (hContent : fs.ContentOf m)

namespace PhaseId

variable {c : PhaseConfig} {h : Digest} {d d' : Download} {phase : PhaseId}

/-- Metadata that become known have the digest that the torrent is named by. -/
theorem Stage.metadataBytes (hStage : phase.Stage h d) (hOn : d.GoesOn d') :
    d'.metadataBytes = d.metadataBytes ∨
      phase.kind? ≠ some .data ∧ ∃ b, d'.metadataBytes = some b ∧ sha1 b = h := by
  rcases hOn.metadataBytes with hSame | ⟨fs, p, b, hfs, hKind, hp, hBytes, hDigest⟩
  · exact .inl hSame
  · cases hStage with
    | seeking hPhase _ hSet =>
      exact .inr ⟨hPhase, b, hBytes, hDigest.trans ((hSet fs hfs).2 p hp)⟩
    | loaded _ _ _ _ hfs' hContent =>
      obtain rfl := Option.some.inj (hfs.symm.trans hfs')
      rw [hContent.kind_eq] at hKind
      cases hKind

theorem Stage.goesOn (hStage : phase.Stage h d) (hOn : d.GoesOn d') : phase.Stage h d' := by
  have hKnown := hStage.metadataBytes hOn
  cases hStage with
  | seeking hPhase hMetainfo hSet =>
    refine .seeking hPhase (hOn.metainfo_eq.trans hMetainfo) fun fs' hfs' => ?_
    obtain ⟨fs, hfs, hCut⟩ := hOn.exists_before hfs'
    obtain ⟨hKind, hDigests⟩ := hSet fs hfs
    refine ⟨hCut.kind_eq.trans hKind, fun p hp => ?_⟩
    obtain ⟨q, hq, hEq⟩ := List.mem_map.mp (hCut.digests_eq ▸ List.mem_map_of_mem hp)
    exact hEq.symm.trans (hDigests q hq)
  | loaded hPhase hBytes hRead hMetainfo hfs hContent =>
    obtain ⟨fs', hfs', hCut⟩ := hOn.exists_after hfs
    have hSame := hKnown.resolve_right fun hEarly => hEarly.1 hPhase
    exact .loaded hPhase (hSame.trans hBytes) hRead (hOn.metainfo_eq.trans hMetainfo) hfs'
      (hContent.sameCut hCut)

/-- The pieces of the metadata have the digest that the torrent is named by. -/
theorem digest_of_metadataFileSet {fs : FileSet} (hfs : metadataFileSet d = .ok fs) :
    fs.kind = .metadata ∧ ∀ p ∈ fs.pieces, p.digest = d.infoHash := by
  obtain ⟨b, created, hCreated, hEq⟩ := metadataFileSet_ok hfs
  obtain ⟨-, -, rfl⟩ := FileSet.create_eq_ok hCreated
  have hDigests : fs.pieces.map (·.digest) = [d.infoHash] := by
    rcases hEq with rfl | rfl
    · exact FileSet.digests_cut ..
    · rw [List.map_map]
      exact FileSet.digests_cut ..
  refine ⟨?_, fun p hp => ?_⟩
  · rcases hEq with rfl | rfl <;> rfl
  · exact List.mem_singleton.mp (hDigests ▸ List.mem_map_of_mem hp)

theorem Stage.moves {next : PhaseId} (hStage : phase.Stage h d) (hHash : d.infoHash = h)
    (hMoves : Moves c d phase next d') : next.Stage h d' := by
  cases hMoves with
  | toMetadata hfs =>
    cases hStage with
    | seeking hPhase hMetainfo hSet =>
      refine .seeking nofun hMetainfo ?_
      rintro _ ⟨⟩
      exact hHash ▸ digest_of_metadataFileSet hfs
    | loaded hPhase => cases hPhase
  | @toData m fs _ hm hfs =>
    cases hStage with
    | seeking hPhase hMetainfo hSet =>
      simp only [torrentOf, hMetainfo] at hm
      split at hm
      · next hNone => cases hNone
      · next b _ hSome =>
        exact .loaded rfl hSome (mapError_eq_ok.mp hm) rfl rfl (FileSet.contentOf_forTorrent hfs)
      · cases hm
    | loaded hPhase => cases hPhase
  | toSeed =>
    cases hStage with
    | seeking hPhase => exact absurd rfl hPhase
    | loaded hPhase hBytes hRead hMetainfo hfs hContent =>
      exact .loaded rfl hBytes hRead hMetainfo hfs hContent

theorem not_persist_mem_enter {effects : List Effect} {path : Path} {bytes : Bytes}
    (hEnter : phase.enter c d = .ok (d', effects)) : .persist path bytes ∉ effects := by
  intro hMem
  cases phase with
  | preMetadata =>
    cases hEnter
    cases hMem
  | metadata =>
    simp only [enter] at hEnter
    split at hEnter
    · cases hEnter
      cases hMem
    · cases hEnter
  | data =>
    obtain ⟨m, fs, -, -, -, rfl⟩ := enterData_eq_ok hEnter
    simp at hMem
  | seed =>
    cases hEnter
    simp at hMem

/-- Only leaving the metadata saves anything, and that is the metadata. -/
theorem persist_mem_leave {effects : List Effect} {path : Path} {bytes : Bytes}
    (hLeave : phase.leave c d = .ok (d', effects)) (hMem : .persist path bytes ∈ effects) :
    phase = .metadata ∧ ∃ b, d.metadataBytes = some b ∧ bytes = wrapInfo b ∧
      path = metadataFile c d := by
  cases phase with
  | preMetadata =>
    obtain ⟨fs, -, h⟩ := bind_eq_ok.mp hLeave
    cases h
    cases hMem
  | metadata =>
    simp only [leave] at hLeave
    split at hLeave
    · cases hLeave
    · next b hb =>
      cases hLeave
      obtain ⟨rfl, rfl⟩ := by simpa using hMem
      exact ⟨rfl, b, hb, rfl, rfl⟩
  | data =>
    cases hLeave
    simp at hMem
  | seed =>
    cases hLeave
    cases hMem

theorem persist_mem_advance {chain : PhaseChain} {path : Path} {bytes : Bytes}
    (hMem : .persist path bytes ∈ (chain.advance phase d).2.1) :
    phase = .metadata ∧ ∃ b, d.metadataBytes = some b ∧ bytes = wrapInfo b ∧
      path = metadataFile chain.config d := by
  simp only [PhaseChain.advance] at hMem
  split at hMem
  · cases hMem
  · split at hMem
    · cases hMem
    · next left leaving hLeave =>
      split at hMem
      · exact persist_mem_leave hLeave hMem
      · next entered entering hEnter =>
        simp only [List.mem_append, List.mem_singleton, reduceCtorEq, or_false] at hMem
        rcases hMem with hMem | hMem
        · exact persist_mem_leave hLeave hMem
        · exact absurd hMem (not_persist_mem_enter hEnter)

end PhaseId

/-! ### Runs -/

namespace Dispatch

/-- A torrent at the beginning of the standard chain, of which nothing but its name is known. -/
structure Nameless (c : PhaseConfig) (h : Digest) (k : Dispatch) : Prop where
  chain_eq : k.session.chain = .standard c
  phase_eq : k.session.phase = .preMetadata
  download_eq : ∃ limit window, k.download = { Download.named h limit with window }
  idle : k.outbox = []

/-- What is known, saved and downloaded is what `h` stands for. The metadata are saved under the
digits of `h`. What is downloaded has the pieces that the metadata describe, and their length is the
one that the metadata tell just if these do not tell two. -/
structure Genuine (c : PhaseConfig) (h : Digest) (k : Dispatch) : Prop where
  infoHash_eq : k.download.infoHash = h
  metadata : ∀ b, k.download.metadataBytes = some b → sha1 b = h
  saved : ∀ path bytes, .persist path bytes ∈ k.outbox → ∃ b name,
    k.download.metadataBytes = some b ∧ bytes = wrapInfo b ∧ h.bytes.DigitsIn name ∧
      path = c.metadataFolder.push (name ++ ".torrent")
  content : k.session.phase = .data ∨ k.session.phase = .seed → ∃ b m fs,
    k.download.metadataBytes = some b ∧ Metainfo.ofInfo b = .ok m ∧
      k.download.metainfo = some m ∧ m.infoHash = h ∧ k.download.fileSet = some fs ∧
      fs.ContentOf m ∧ ((fs.totalLength : Int) = m.info.totalLength ↔ m.info.OneLength)

/-- What every step keeps. Metadata that are being saved do not change, since the content is at work
by then. -/
structure Fetching (c : PhaseConfig) (h : Digest) (k : Dispatch) : Prop where
  chain_eq : k.session.chain = .standard c
  infoHash_eq : k.download.infoHash = h
  metadata : ∀ b, k.download.metadataBytes = some b → sha1 b = h
  stage : k.session.phase.Stage h k.download
  saved : ∀ path bytes, .persist path bytes ∈ k.outbox → k.session.phase.kind? = some .data ∧
    ∃ b, k.download.metadataBytes = some b ∧ bytes = wrapInfo b ∧
      path = c.metadataFolder.push (h.hex ++ ".torrent")

variable {c : PhaseConfig} {h : Digest} {k k₀ k' : Dispatch}

theorem Nameless.fetching (hStart : k.Nameless c h) : k.Fetching c h := by
  obtain ⟨limit, window, hDownload⟩ := hStart.download_eq
  refine ⟨hStart.chain_eq, ?_, ?_, ?_, ?_⟩
  · rw [hDownload]
    rfl
  · rw [hDownload]
    rintro b ⟨⟩
  · rw [hStart.phase_eq, hDownload]
    exact .seeking nofun rfl nofun
  · rw [hStart.idle]
    nofun

theorem Fetching.goesOn (hFetching : k.Fetching c h) (hOn : k.GoesOn k') : k'.Fetching c h := by
  have hBytes := hFetching.stage.metadataBytes hOn.download
  refine ⟨hOn.chain_eq.trans hFetching.chain_eq,
    hOn.download.infoHash_eq.trans hFetching.infoHash_eq, fun b hb => ?_, ?_,
    fun path bytes hMem => ?_⟩
  · rcases hBytes with hSame | ⟨-, b', hNew, hDigest⟩
    · exact hFetching.metadata b (hSame ▸ hb)
    · exact Option.some.inj (hNew.symm.trans hb) ▸ hDigest
  · rw [hOn.phase_eq]
    exact hFetching.stage.goesOn hOn.download
  · obtain ⟨hPhase, b, hb, hSaved⟩ := hFetching.saved path bytes (hOn.saves path bytes hMem)
    rcases hBytes with hSame | ⟨hEarly, -⟩
    · exact ⟨hOn.phase_eq ▸ hPhase, b, hSame.trans hb, hSaved⟩
    · exact absurd hPhase hEarly

theorem Fetching.advanced (hFetching : k.Fetching c h) : k.advanced.Fetching c h := by
  have hAttempts := PhaseId.advance_attempts c k.session.phase k.download
  have hSaved (path : Path) (bytes : Bytes)
      (hMem : .persist path bytes ∈
        ((PhaseChain.standard c).advance k.session.phase k.session.download).2.1) :=
    PhaseId.persist_mem_advance hMem
  obtain ⟨hChain, hHash, hMetadata, hStage, -⟩ := hFetching
  simp only [Dispatch.advanced, hChain]
  change PhaseId.Attempts c k.download k.session.phase
    ((PhaseChain.standard c).advance k.session.phase k.session.download) at hAttempts
  generalize (PhaseChain.standard c).advance k.session.phase k.session.download = attempt
    at hAttempts hSaved ⊢
  cases hAttempts with
  | stayed =>
    refine ⟨hChain, hHash, hMetadata, hStage, ?_⟩
    rintro _ _ ⟨⟩
  | failed e =>
    refine ⟨hChain, hHash, hMetadata, hStage, ?_⟩
    rintro _ _ ⟨⟩
  | @moved next d effects hMoves =>
    have hKnown : d.infoHash = k.download.infoHash ∧
        d.metadataBytes = k.download.metadataBytes := by
      generalize k.session.phase = phase at hMoves
      cases hMoves <;> exact ⟨rfl, rfl⟩
    refine ⟨hChain, hKnown.1.trans hHash, fun b hb => hMetadata b (hKnown.2 ▸ hb),
      hStage.moves hHash hMoves, fun path bytes hMem => ?_⟩
    obtain ⟨hPhase, b, hb, hBytes, hPath⟩ := hSaved path bytes hMem
    have hNext : next = .data := by
      rw [hPhase] at hMoves
      cases hMoves
      rfl
    refine ⟨congrArg PhaseId.kind? hNext, b, hKnown.2.trans hb, hBytes, ?_⟩
    rw [hPath, ← hHash]
    rfl

theorem Fetching.toGenuine (hFetching : k.Fetching c h) : k.Genuine c h := by
  refine ⟨hFetching.infoHash_eq, hFetching.metadata, fun path bytes hMem => ?_, fun hPhase => ?_⟩
  · obtain ⟨-, b, hb, hBytes, hPath⟩ := hFetching.saved path bytes hMem
    exact ⟨b, h.hex, hb, hBytes, digitsIn_hex h.bytes, hPath⟩
  · cases hFetching.stage with
    | seeking hEarly =>
      refine absurd ?_ hEarly
      rcases hPhase with hPhase | hPhase <;> rw [hPhase] <;> rfl
    | @loaded b m fs _ hBytes hRead hMetainfo hfs hContent =>
      have hHash : m.infoHash = h := by
        rw [Metainfo.infoHash, (ofInfo_eq_ok hRead).1]
        exact hFetching.metadata b hBytes
      have hSigned : m.info.Signed := Metainfo.WasRead.signed (.inr hRead)
      refine ⟨b, m, fs, hBytes, hRead, hMetainfo, hHash, hfs, hContent, ?_⟩
      rw [hContent.totalLength_eq]
      exact Info.totalLength_eq_iff hSigned

/-- On every run of a torrent that is started by its name alone, what is known, saved and downloaded
is what the name stands for. -/
theorem Nameless.genuine (hStart : k₀.Nameless c h) (hReaches : k₀.Reaches k) :
    k.Genuine c h := by
  have hFetching : k.Fetching c h := by
    refine hReaches.invariant hStart.fetching fun k k' hFetching hStep => ?_
    rcases hStep.goesOn with hOn | ⟨-, rfl⟩
    · exact hFetching.goesOn hOn
    · exact hFetching.advanced
  exact hFetching.toGenuine

/-! ### A short run

A peer tells the size of the metadata and sends them. They describe a list with a file of three
bytes, and a single file of five bytes besides. -/

/-- A torrent at the beginning of the standard chain. -/
def fresh (c : PhaseConfig) (t : Torrent) : Dispatch :=
  { session := { engine := { torrent := t }, chain := .standard c, phase := .preMetadata } }

/-- Starting a session is a run from there. -/
theorem reaches_start (c : PhaseConfig) {t : Torrent} (hFresh : t.download.Fresh) :
    (fresh c t).Reaches { session := (Session.start t (.standard c)).1 } := by
  have hAdvanced : (fresh c t).Reaches { session := (fresh c t).session.advance.1 } :=
    (Reaches.refl (fresh c t)).advanceUpTo Session.changeLimit
  have hStart : (Session.start t (.standard c)).1 = (fresh c t).session.advance.1 := by
    have hFirst : (PhaseChain.standard c).first = .ok .preMetadata := rfl
    simp only [Session.start, hFirst, PhaseId.enter, hFresh.defaults]
    split <;> next hAdvance => exact (congrArg Prod.fst hAdvance).symm
  rw [hStart]
  exact hAdvanced

/-- Metadata that were fetched are saved, and the content that they describe comes next. -/
theorem advanced_of_fetched (hChain : k.session.chain = .standard c)
    (hPhase : k.session.phase = .metadata) (hDone : PhaseId.metadata.isDone k.download = true)
    (hNone : k.download.metainfo = none) {b : Bytes} (hBytes : k.download.metadataBytes = some b)
    {m : Metainfo} (hm : Metainfo.ofInfo b = .ok m) {fs : FileSet}
    (hfs : FileSet.forTorrent m (PhaseId.rootFolder c m) c.blockSize = .ok fs) :
    k.advanced.session.phase = .data ∧
      .persist (PhaseId.metadataFile c k.download) (wrapInfo b) ∈ k.advanced.outbox := by
  have hTorrent : PhaseId.torrentOf k.download = .ok m := by
    simp only [PhaseId.torrentOf, hNone, hBytes, hm]
    rfl
  have hConfig : (PhaseChain.standard c).config = c := rfl
  have hAdvance : ∃ d more, (PhaseChain.standard c).advance .metadata k.download =
      (d, .persist (PhaseId.metadataFile c k.download) (wrapInfo b) :: more, .moved .data) := by
    simp only [PhaseChain.advance, PhaseId.successor?_standard, hDone, if_true, PhaseId.leave,
      hBytes, PhaseId.enter, PhaseId.enterData, hTorrent, bind, Except.bind]
    simp only [hConfig, hfs]
    exact ⟨_, _, rfl⟩
  obtain ⟨d, more, hAdvance⟩ := hAdvance
  change (PhaseChain.standard c).advance .metadata k.session.download = _ at hAdvance
  simp only [advanced, hChain, hPhase, hAdvance]
  exact ⟨trivial, List.mem_cons_self⟩

def bothInfo : Bytes := Bytes.ofText <|
  "d5:filesld6:lengthi3e4:pathl1:aeee6:lengthi5e4:name1:t12:piece lengthi8e6:pieces" ++
  "20:aaaaaaaaaaaaaaaaaaaae"

/-- The torrent that they describe. -/
def bothTorrent : Metainfo :=
  { infoBytes := bothInfo
    info :=
      { pieceLength := 8
        pieces := List.replicate 20 97
        files := [{ length := 3, path := ["a"] }]
        name := "t"
        length := 5 } }

def bothNamed : Torrent :=
  { download := Download.named (sha1 bothInfo) 1
    events := { capacity := 0 }
    tree := { home := [] } }

/-- The session once the metadata have come. -/
def bothFetched : Session :=
  let started := (Session.start bothNamed (.standard World.oneByteConfig)).1
  let told := started.command 0 (.connect "p" 0 (some bothInfo.length))
  ((told.advanceUpTo 1).1.command 0 (.metadataBlock "p" 0 bothInfo)).drain 1

theorem reaches_bothFetched :
    (fresh World.oneByteConfig bothNamed).Reaches { session := bothFetched } :=
  ((((reaches_start World.oneByteConfig (.named ..)).command ..).advanceUpTo 1).command ..).drain 1

/-- The metadata are saved, and three bytes in one piece are downloaded then. The torrent tells that
they are five. -/
theorem genuine_bothFetched :
    (fresh World.oneByteConfig bothNamed).Nameless World.oneByteConfig (sha1 bothInfo) ∧
      ∃ k fs, (fresh World.oneByteConfig bothNamed).Reaches k ∧ k.session.phase = .data ∧
        k.Genuine World.oneByteConfig (sha1 bothInfo) ∧
        (∃ path, .persist path (wrapInfo bothInfo) ∈ k.outbox) ∧
        k.download.metainfo = some bothTorrent ∧ k.download.fileSet = some fs ∧
        fs.pieces.flatMap (·.digest.bytes) = List.replicate 20 97 ∧ fs.totalLength = 3 ∧
        bothTorrent.info.totalLength = 5 := by
  have hStart : (fresh World.oneByteConfig bothNamed).Nameless World.oneByteConfig
      (sha1 bothInfo) := ⟨rfl, rfl, ⟨1, _, rfl⟩, rfl⟩
  have hReaches := reaches_bothFetched.step (.advance rfl)
  have hFetched : bothFetched.phase = .metadata ∧
      PhaseId.metadata.isDone bothFetched.download = true ∧
      bothFetched.download.metainfo = none ∧
      bothFetched.download.metadataBytes = some bothInfo := by decide +kernel
  obtain ⟨hPhase, hDone, hNone, hBytes⟩ := hFetched
  have hParse : Metainfo.ofInfo bothInfo = .ok bothTorrent := by decide +kernel
  obtain ⟨hData, hSaved⟩ := advanced_of_fetched (k := { session := bothFetched })
    (c := World.oneByteConfig) rfl hPhase hDone hNone hBytes hParse rfl
  have hGenuine := hStart.genuine hReaches
  obtain ⟨b, name, hKnown, hWrapped, -⟩ := hGenuine.saved _ _ hSaved
  obtain rfl : bothInfo = b := by simpa [wrapInfo] using hWrapped
  obtain ⟨b, m, fs, hHere, hRead, hMetainfo, -, hfs, hContent, -⟩ := hGenuine.content (.inl hData)
  obtain rfl : bothInfo = b := Option.some.inj (hKnown.symm.trans hHere)
  obtain rfl : bothTorrent = m := Except.ok.inj (hParse.symm.trans hRead)
  exact ⟨hStart, _, fs, hReaches, hData, hGenuine, ⟨_, hSaved⟩, hMetainfo, hfs, hContent.digests_eq,
    Int.ofNat.inj hContent.totalLength_eq, rfl⟩

end Dispatch

end TorrentEngine
