import TorrentEngine.Proofs.Changes

/-!
The frame of a run: in every reachable world the current file set is the one of the current phase,
it is cut as its content is, and its bytes live in memory or on disk as those of its kind do.
-/

namespace TorrentEngine

namespace FileSet

/-- Metadata live in a memory of their length, a content lives on disk. -/
def Housed (fs : FileSet) : Prop :=
  match fs.kind with
  | .metadata => ∃ b, fs.storage = .memory b ∧ b.length = fs.totalLength
  | .data => ∃ layout, fs.storage = .disk layout

theorem Housed.congr {fs fs' : FileSet} (h : fs.Housed) (hKind : fs'.kind = fs.kind)
    (hTotal : fs'.totalLength = fs.totalLength) (hStorage : fs'.storage = fs.storage) :
    fs'.Housed := by
  rw [Housed, hKind, hTotal, hStorage]
  exact h

/-- Content of the same length may take the place of what a file set holds. -/
theorem Housed.put {fs fs' : FileSet} {disk content : Bytes} (h : fs.Housed)
    (hKind : fs'.kind = fs.kind) (hTotal : fs'.totalLength = fs.totalLength)
    (hStorage : fs'.storage = fs.storage.put content)
    (hLength : content.length = (fs.storage.content disk).length) : fs'.Housed := by
  rw [Housed, hKind, hTotal, hStorage]
  rw [Housed] at h
  cases hk : fs.kind with
  | metadata =>
    simp only [hk] at h
    obtain ⟨b, hMemory, hTotal⟩ := h
    rw [hMemory] at hLength ⊢
    exact ⟨content, rfl, hLength.trans hTotal⟩
  | data =>
    simp only [hk] at h
    obtain ⟨layout, hDisk⟩ := h
    rw [hDisk]
    exact ⟨layout, rfl⟩

end FileSet

/-! ### Taking unverified pieces for stored, or for missing -/

namespace Session

theorem getElem?_setUnverified (s : BlockStatus) (fs : FileSet) (i : Nat) :
    (setUnverified s fs).pieces[i]? =
      fs.pieces[i]?.map fun p => if p.isDone then p else setAll s p := by
  simp only [setUnverified, List.getElem?_map]

theorem mem_unverified_iff {fs : FileSet} {i : Nat} :
    i ∈ unverified fs ↔ ∃ p, fs.pieces[i]? = some p ∧ p.isDone = false := by
  simp only [unverified, List.mem_map, List.mem_filter, Prod.exists, List.mem_zipIdx_iff_getElem?,
    Bool.not_eq_true', exists_eq_right]

theorem outline_setAll (s : BlockStatus) (p : Piece) : (setAll s p).outline = p.outline :=
  Piece.outline_map p _ fun _ => rfl

theorem sameCut_setUnverified (s : BlockStatus) (fs : FileSet) :
    FileSet.SameCut fs (setUnverified s fs) := by
  refine ⟨rfl, rfl, rfl, ?_, fun hAll p' hp' => ?_⟩
  · simp only [setUnverified, List.map_map]
    refine List.map_congr_left fun p _ => ?_
    simp only [Function.comp_apply]
    split
    · rfl
    · exact outline_setAll s p
  · obtain ⟨p, hp, rfl⟩ := List.mem_map.mp hp'
    have := hAll p hp
    split
    · exact this
    · simpa [setAll] using this

/-- A piece with blocks of one status other than verified is not done. -/
theorem isDone_setAll {s : BlockStatus} {p : Piece} (hs : s ≠ .verified)
    (hBlocks : 0 < p.blocks.length) : (setAll s p).isDone = false := by
  rw [Bool.eq_false_iff]
  intro hDone
  have hFirst := List.getElem_mem hBlocks
  exact hs (Piece.isDone_iff.mp hDone _ (List.mem_map_of_mem hFirst))

end Session

/-! ### Keeping the file set -/

namespace Download

/-- The file set of `d'` is that of `d`, further on. -/
inductive Keeps (d d' : Download) : Prop
  | none (hMetainfo : d'.metainfo = d.metainfo) (h : d.fileSet = none) (h' : d'.fileSet = none)
  | some {fs fs' : FileSet} (hMetainfo : d'.metainfo = d.metainfo) (h : d.fileSet = some fs)
      (h' : d'.fileSet = some fs') (hCut : FileSet.SameCut fs fs')
      (hHoused : fs.Housed → fs'.Housed)

variable {d d' : Download}

theorem Keeps.kind?_eq (h : d.Keeps d') : d'.kind? = d.kind? := by
  cases h with
  | none _ h h' => rw [kind?, kind?, h, h']
  | some _ h h' hCut _ =>
    rw [kind?, kind?, h, h', Option.map_some, Option.map_some, hCut.kind_eq]

theorem keeps_of_core (h : d'.core = d.core) : d.Keeps d' := by
  have hMetainfo : d'.metainfo = d.metainfo := by
    change d'.core.metainfo = d.core.metainfo
    rw [h]
  cases hfs : d.fileSet with
  | none =>
    cases hfs' : d'.fileSet with
    | none => exact .none hMetainfo hfs hfs'
    | some fs' =>
      obtain ⟨fs, hSome, _⟩ := fileSet_of_core h hfs'
      rw [hfs] at hSome
      cases hSome
  | some fs =>
    obtain ⟨fs', hfs', hEq⟩ := fileSet_of_core h.symm hfs
    have hEq := hEq.symm
    obtain ⟨hKind, _, hTotal, hStorage⟩ := FileSet.dimensions_of_settled hEq
    exact .some hMetainfo hfs hfs' (FileSet.sameCut_of_settled hEq)
      fun hHoused => hHoused.congr hKind hTotal hStorage

theorem keeps_of_fileSet (hMetainfo : d'.metainfo = d.metainfo) (h : d'.fileSet = d.fileSet) :
    d.Keeps d' := by
  cases hfs : d.fileSet with
  | none => exact .none hMetainfo hfs (h.trans hfs)
  | some fs => exact .some hMetainfo hfs (h.trans hfs) (.refl fs) id

theorem keeps_setPiece {fs : FileSet} {i : Nat} {p q : Piece}
    (hMetainfo : d'.metainfo = d.metainfo) (hfs : d.fileSet = some fs)
    (hfs' : d'.fileSet = some (fs.setPiece i q)) (hp : fs.pieces[i]? = some p)
    (hOutline : q.outline = p.outline)
    (hCursor : p.mismatchCursor < p.blocks.length → q.mismatchCursor < q.blocks.length) :
    d.Keeps d' :=
  .some hMetainfo hfs hfs' (FileSet.sameCut_setPiece hp hOutline hCursor)
    fun hHoused => hHoused.congr rfl rfl rfl

end Download

/-- No run of a job replaces the file set by another. -/
theorem Job.Turns.keeps {may : Miss → Prop} {d d' : Download} {disk disk' : Bytes} {job : Job}
    {left : Multiset Job} (h : Turns may d disk job d' disk' left) : d.Keeps d' := by
  cases h with
  | storeIdle => exact Download.keeps_of_fileSet rfl rfl
  | @storeMisfit kind i b data fs p hfs hp =>
    refine Download.keeps_setPiece rfl (current?_eq_some.mp hfs).1 rfl hp (Piece.outline_mark ..) ?_
    simp [Piece.mark]
  | storeMissed h hContent =>
    exact .some rfl h.fileSet rfl ⟨rfl, rfl, rfl, rfl, id⟩
      fun hHoused => hHoused.put rfl rfl rfl hContent.length_eq
  | @stored kind i b data fs p block h hInside =>
    have hCut := FileSet.sameCut_setPiece h.hasPiece (Piece.outline_mark p b .stored)
      (by simp [Piece.mark])
    refine .some rfl h.fileSet rfl ⟨rfl, rfl, rfl, hCut.outlines_eq, hCut.cursors⟩ ?_
    exact fun hHoused => hHoused.put rfl rfl rfl (Bytes.length_overwrite hInside)
  | checkVoid => exact Download.keeps_of_fileSet rfl rfl
  | checkRetried => exact Download.keeps_of_fileSet rfl rfl
  | checkFailed => exact Download.keeps_of_fileSet rfl rfl
  | checkCrashed => exact Download.keeps_of_fileSet rfl rfl
  | @verified kind i fs p h =>
    refine Download.keeps_setPiece rfl h.fileSet rfl h.hasPiece (Piece.outline_markVerified p) ?_
    simp [Piece.markVerified]
  | @mismatched kind i fs p h =>
    exact Download.keeps_setPiece rfl h.fileSet rfl h.hasPiece (Piece.outline_reopen p)
      Piece.reopen_cursor_lt
  | sent h => exact Download.keeps_of_core h

/-! ### The frame -/

/-- The kind of the file set that a phase works on. -/
def PhaseId.kind? : PhaseId → Option FileSetKind
  | .preMetadata => none
  | .metadata => some .metadata
  | .data | .seed => some .data

/-- The current file set is the one of the phase, cut as its content is, with its bytes where they
belong. -/
structure Framed (v : View) : Prop where
  kind_eq : v.download.kind? = v.phase.kind?
  cut : ∀ fs, v.download.fileSet = some fs → ∃ blockSize digests, fs.CutFrom blockSize digests ∧
    (fs.kind = .data → ∃ m, v.download.metainfo = some m ∧ digests = m.pieceDigests)
  housed : ∀ fs, v.download.fileSet = some fs → fs.Housed

/-- A content is cut by the torrent's piece digests, and on disk. -/
theorem Framed.data {v : View} (h : Framed v) {fs : FileSet} (hfs : v.download.fileSet = some fs)
    (hKind : fs.kind = .data) : ∃ blockSize m layout, v.download.metainfo = some m ∧
      fs.CutFrom blockSize m.pieceDigests ∧ fs.storage = .disk layout := by
  obtain ⟨blockSize, digests, hCut, hDigests⟩ := h.cut fs hfs
  obtain ⟨m, hm, rfl⟩ := hDigests hKind
  have hHoused := h.housed fs hfs
  simp only [FileSet.Housed, hKind] at hHoused
  obtain ⟨layout, hDisk⟩ := hHoused
  exact ⟨blockSize, m, layout, hm, hCut, hDisk⟩

theorem Framed.keeps {v v' : View} (h : Framed v) (hPhase : v'.phase.kind? = v.phase.kind?)
    (hKeeps : v.download.Keeps v'.download) : Framed v' := by
  refine ⟨?_, ?_, ?_⟩
  · rw [hKeeps.kind?_eq, hPhase, h.kind_eq]
  · intro fs' hfs'
    cases hKeeps with
    | none _ _ hNone => rw [hNone] at hfs'; cases hfs'
    | some hMetainfo hfs hfs'' hCut _ =>
      obtain rfl := Option.some.inj (hfs''.symm.trans hfs')
      obtain ⟨blockSize, digests, hFrom, hDigests⟩ := h.cut _ hfs
      refine ⟨blockSize, digests, hFrom.sameCut hCut, ?_⟩
      rw [hCut.kind_eq, hMetainfo]
      exact hDigests
  · intro fs' hfs'
    cases hKeeps with
    | none _ _ hNone => rw [hNone] at hfs'; cases hfs'
    | some _ hfs hfs'' _ hHoused =>
      obtain rfl := Option.some.inj (hfs''.symm.trans hfs')
      exact hHoused (h.housed _ hfs)

theorem Framed.moved {c : PhaseConfig} {v : View} {phase : PhaseId} {d : Download} (h : Framed v)
    (hMoves : PhaseId.Moves c v.download v.phase phase d) :
    Framed { v with phase, download := d } := by
  obtain ⟨current, download, jobs, disk, verifying⟩ := v
  cases hMoves with
  | @toMetadata fs hfs =>
    obtain ⟨b, created, hCreated, hEq⟩ := PhaseId.metadataFileSet_ok hfs
    have hCut := FileSet.cutFrom_create hCreated
    obtain ⟨_, _, rfl⟩ := FileSet.create_eq_ok hCreated
    rcases hEq with rfl | rfl
    · refine ⟨rfl, ?_, ?_⟩
      · rintro _ ⟨⟩
        exact ⟨_, _, hCut, nofun⟩
      · rintro _ ⟨⟩
        exact ⟨b, rfl, rfl⟩
    · refine ⟨rfl, ?_, ?_⟩
      · rintro _ ⟨⟩
        refine ⟨_, _, hCut.sameCut ⟨rfl, rfl, rfl, ?_, ?_⟩, nofun⟩
        · simp [Function.comp_def]
        · intro hAll p' hp'
          obtain ⟨p, hp, rfl⟩ := List.mem_map.mp hp'
          simpa [Piece.markVerified] using hAll p hp
      · rintro _ ⟨⟩
        exact ⟨b, rfl, rfl⟩
  | @toData m fs _ _ hfs =>
    have hCreated := PhaseId.forTorrent_ok hfs
    have hCut := FileSet.cutFrom_create hCreated
    obtain ⟨_, _, rfl⟩ := FileSet.create_eq_ok hCreated
    refine ⟨rfl, ?_, ?_⟩
    · rintro _ ⟨⟩
      exact ⟨_, _, hCut, fun _ => ⟨m, rfl, rfl⟩⟩
    · rintro _ ⟨⟩
      exact ⟨_, rfl⟩
  | toSeed => exact h.keeps rfl (Download.keeps_of_fileSet rfl rfl)

/-- Steps stay inside the frame. -/
theorem Framed.change {c : PhaseConfig} {may : Miss → Prop} {v v' : View} (h : Framed v)
    (hChange : Change c may v v') : Framed v' := by
  cases hChange with
  | quiet hCore => exact h.keeps rfl (Download.keeps_of_core hCore)
  | moved hMoves => exact h.moved hMoves
  | @begun fs hfs =>
    have hCut := Session.sameCut_setUnverified .stored fs
    exact h.keeps rfl (.some rfl (Job.current?_eq_some.mp hfs).1 rfl hCut
      fun hHoused => hHoused.congr rfl rfl rfl)
  | @ended fs hfs =>
    have hCut := Session.sameCut_setUnverified .needed fs
    exact h.keeps rfl (.some rfl hfs rfl hCut fun hHoused => hHoused.congr rfl rfl rfl)
  | executed hJobs hTurn => exact h.keeps rfl hTurn.keeps

theorem World.Fresh.fileSet_eq {c : PhaseConfig} {w : World} (h : World.Fresh c w) :
    w.download.fileSet = none := by
  have hFresh := h.download
  generalize w.download = d at hFresh
  cases hFresh <;> rfl

theorem World.Fresh.pendingChecks_eq {c : PhaseConfig} {w : World} (h : World.Fresh c w) :
    w.download.pendingChecks = 0 := by
  have hFresh := h.download
  generalize w.download = d at hFresh
  cases hFresh <;> rfl

theorem World.Fresh.framed {c : PhaseConfig} {w : World} (h : World.Fresh c w) :
    Framed w.view := by
  have hNone : w.view.download.fileSet = none := h.fileSet_eq
  have hPhase : w.view.phase = .preMetadata := h.phase_eq
  refine ⟨?_, ?_, ?_⟩
  · rw [hPhase, Download.kind?, hNone]
    rfl
  · intro fs hfs
    rw [hNone] at hfs
    cases hfs
  · intro fs hfs
    rw [hNone] at hfs
    cases hfs

end TorrentEngine
