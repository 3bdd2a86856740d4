import TorrentEngine.Proofs.Frame

/-!
Which outstanding jobs there can be. Every outstanding check is of the current file set's kind, and
every outstanding store fits the current file set or is a late one for the metadata.
-/

namespace TorrentEngine

namespace Job

/-- Whether a job checks a digest. -/
def isCheck : Job → Bool
  | .check .. => true
  | _ => false

theorem Fits.kind?_eq {d : Download} {kind : FileSetKind} {i b : Nat} {data : Bytes}
    (h : Fits d (.store kind i b data)) : d.kind? = some kind := by
  cases h with
  | store hfs _ _ =>
    obtain ⟨hfs, hKind⟩ := current?_eq_some.mp hfs
    rw [Download.kind?, hfs, Option.map_some, hKind]

theorem Fits.not_isCheck {d : Download} {job : Job} (h : job.Fits d) : job.isCheck = false := by
  cases h <;> rfl

/-- What fits a file set fits it further on. -/
theorem Fits.keeps {d d' : Download} {job : Job} (h : job.Fits d) (hKeeps : d.Keeps d') :
    job.Fits d' := by
  cases h with
  | send => exact .send ..
  | store hCurrent hp hBlock =>
    obtain ⟨hfs, hKind⟩ := current?_eq_some.mp hCurrent
    cases hKeeps with
    | none _ hNone _ =>
      rw [hfs] at hNone
      cases hNone
    | some _ hSome hSome' hCut _ =>
      obtain rfl := Option.some.inj (hfs.symm.trans hSome)
      obtain ⟨p', hp', hOutline⟩ := FileSet.piece_of_outlines hCut.outlines_eq.symm hp
      have hBlock' := (Piece.checkBlock_of_outline hOutline _ _).symm.trans hBlock
      exact .store (current?_eq_some.mpr ⟨hSome', hCut.kind_eq.trans hKind⟩) hp' hBlock'

/-- A run of a job leaves itself outstanding, or a check of the current file set. -/
theorem Turns.mem_left {may : Miss → Prop} {d d' : Download} {disk disk' : Bytes} {job job' : Job}
    {left : Multiset Job} (h : Turns may d disk job d' disk' left) (hMem : job' ∈ left) :
    job' = job ∨ ∃ kind i, job' = .check kind i ∧ d.kind? = some kind := by
  cases h with
  | storeMissed _ _ hLeft => exact .inl (Multiset.mem_singleton.mp (Multiset.mem_of_le hLeft hMem))
  | @stored kind i b data fs p block hOpen =>
    split at hMem
    · refine .inr ⟨kind, i, Multiset.mem_singleton.mp hMem, ?_⟩
      rw [Download.kind?, hOpen.fileSet, Option.map_some, hOpen.kind_eq]
    · cases Multiset.notMem_zero _ hMem
  | checkRetried => exact .inl (Multiset.mem_singleton.mp hMem)
  | sent _ hLeft => exact .inl (Multiset.mem_singleton.mp (Multiset.mem_of_le hLeft hMem))
  | _ => cases Multiset.notMem_zero _ hMem

end Job

/-! ### Stores -/

/-- Outstanding stores fit the current file set, but for late stores of metadata. -/
def StoresFit (v : View) : Prop :=
  ∀ kind i b data, .store kind i b data ∈ v.jobs →
    (Job.store kind i b data).Fits v.download ∨ kind = .metadata ∧ v.download.kind? = some .data

namespace StoresFit

variable {v v' : View}

theorem keeps (h : StoresFit v) (hKeeps : v.download.Keeps v'.download)
    (hStores : ∀ kind i b data, .store kind i b data ∈ v'.jobs →
      .store kind i b data ∈ v.jobs ∨ (Job.store kind i b data).Fits v.download) :
    StoresFit v' := by
  intro kind i b data hMem
  rw [hKeeps.kind?_eq]
  rcases hStores kind i b data hMem with hOld | hFits
  · exact (h kind i b data hOld).imp_left (·.keeps hKeeps)
  · exact .inl (hFits.keeps hKeeps)

theorem moved {c : PhaseConfig} {phase : PhaseId} {d : Download} (h : StoresFit v)
    (hFramed : Framed v) (hMoves : PhaseId.Moves c v.download v.phase phase d) :
    StoresFit { v with phase, download := d } := by
  have hKind := hFramed.kind_eq
  obtain ⟨current, download, jobs, disk, verifying⟩ := v
  cases hMoves with
  | toMetadata =>
    intro kind i b data hMem
    rcases h kind i b data hMem with hFits | ⟨_, hData⟩
    · cases hKind.symm.trans hFits.kind?_eq
    · cases hKind.symm.trans hData
  | toData _ _ hfs =>
    have hCreated := PhaseId.forTorrent_ok hfs
    obtain ⟨_, _, rfl⟩ := FileSet.create_eq_ok hCreated
    intro kind i b data hMem
    rcases h kind i b data hMem with hFits | ⟨_, hData⟩
    · have hMetadata := hKind.symm.trans hFits.kind?_eq
      exact .inr ⟨(Option.some.inj hMetadata).symm, rfl⟩
    · cases hKind.symm.trans hData
  | toSeed => exact h.keeps (Download.keeps_of_fileSet rfl rfl) fun _ _ _ _ hMem => .inl hMem

/-- Steps add only stores that fit. -/
theorem change {c : PhaseConfig} {may : Miss → Prop} (h : StoresFit v) (hFramed : Framed v)
    (hChange : Change c may v v') : StoresFit v' := by
  cases hChange with
  | quiet hCore hFits =>
    refine h.keeps (Download.keeps_of_core hCore) fun kind i b data hMem => ?_
    rcases Multiset.mem_add.mp hMem with hAdded | hOld
    · exact .inr (hFits _ hAdded)
    · exact .inl hOld
  | moved hMoves => exact h.moved hFramed hMoves
  | @begun fs hCurrent =>
    have hCut := Session.sameCut_setUnverified .stored fs
    refine h.keeps (.some rfl (Job.current?_eq_some.mp hCurrent).1 rfl hCut
      fun hHoused => hHoused.congr rfl rfl rfl) fun kind i b data hMem => ?_
    rcases Multiset.mem_add.mp hMem with hAdded | hOld
    · obtain ⟨j, _, hEq⟩ := List.mem_map.mp (Multiset.mem_coe.mp hAdded)
      cases hEq
    · exact .inl hOld
  | @ended fs hfs =>
    have hCut := Session.sameCut_setUnverified .needed fs
    exact h.keeps (.some rfl hfs rfl hCut fun hHoused => hHoused.congr rfl rfl rfl)
      fun _ _ _ _ hMem => .inl hMem
  | @executed job rest left d disk hJobs hTurn =>
    refine h.keeps hTurn.keeps fun kind i b data hMem => .inl ?_
    rw [hJobs, Multiset.mem_cons]
    rcases Multiset.mem_add.mp hMem with hLeft | hOld
    · rcases hTurn.mem_left hLeft with hSelf | ⟨kind', i', hEq, _⟩
      · exact .inl hSelf
      · cases hEq
    · exact .inr hOld

end StoresFit

/-! ### All labels -/

/-- Outstanding jobs and checks of the disk belong to the current file set, but for late stores of
metadata. -/
structure Labelled (v : View) : Prop where
  checks : ∀ kind i, .check kind i ∈ v.jobs → v.download.kind? = some kind
  stores : ∀ kind i b data, .store kind i b data ∈ v.jobs →
    (Job.store kind i b data).Fits v.download ∨
      kind = .metadata ∧ v.download.kind? = some .data
  verifying : 0 < v.verifying → v.download.kind? = some .data

namespace Labelled

variable {v v' : View}

/-- Labels are the same along one file set. -/
theorem of_keeps (hKeeps : v.download.Keeps v'.download) (hStores : StoresFit v')
    (hChecks : ∀ kind i, .check kind i ∈ v'.jobs → v.download.kind? = some kind)
    (hVerifying : 0 < v'.verifying → v.download.kind? = some .data) : Labelled v' := by
  refine ⟨?_, hStores, ?_⟩
  · intro kind i hMem
    rw [hKeeps.kind?_eq]
    exact hChecks kind i hMem
  · intro hPos
    rw [hKeeps.kind?_eq]
    exact hVerifying hPos

theorem moved {c : PhaseConfig} {phase : PhaseId} {d : Download} (h : Labelled v)
    (hFramed : Framed v) (hStores : StoresFit { v with phase, download := d })
    (hNone : v.phase = .metadata → PhaseId.isDone .metadata v.download = true →
      ∀ kind i, .check kind i ∉ v.jobs)
    (hMoves : PhaseId.Moves c v.download v.phase phase d) :
    Labelled { v with phase, download := d } := by
  have hKind := hFramed.kind_eq
  obtain ⟨current, download, jobs, disk, verifying⟩ := v
  cases hMoves with
  | toMetadata =>
    refine ⟨?_, hStores, ?_⟩
    · intro kind i hMem
      cases hKind.symm.trans (h.checks kind i hMem)
    · intro hPos
      cases hKind.symm.trans (h.verifying hPos)
  | toData hDone _ hfs =>
    have hCreated := PhaseId.forTorrent_ok hfs
    obtain ⟨_, _, rfl⟩ := FileSet.create_eq_ok hCreated
    refine ⟨?_, hStores, ?_⟩
    · intro kind i hMem
      exact absurd hMem (hNone rfl hDone kind i)
    · intro _
      rfl
  | toSeed => exact of_keeps (Download.keeps_of_fileSet rfl rfl) hStores h.checks h.verifying

/-- Steps keep the labels, provided that no check is left when the metadata are. -/
theorem change {c : PhaseConfig} {may : Miss → Prop} (h : Labelled v) (hFramed : Framed v)
    (hNone : v.phase = .metadata → PhaseId.isDone .metadata v.download = true →
      ∀ kind i, .check kind i ∉ v.jobs)
    (hChange : Change c may v v') : Labelled v' := by
  have hStores : StoresFit v' := StoresFit.change h.stores hFramed hChange
  cases hChange with
  | quiet hCore hFits =>
    refine of_keeps (Download.keeps_of_core hCore) hStores (fun kind i hMem => ?_) h.verifying
    rcases Multiset.mem_add.mp hMem with hAdded | hOld
    · cases (hFits _ hAdded).not_isCheck
    · exact h.checks kind i hOld
  | moved hMoves => exact h.moved hFramed hStores hNone hMoves
  | @begun fs hCurrent =>
    obtain ⟨hfs, hKind⟩ := Job.current?_eq_some.mp hCurrent
    have hData : v.download.kind? = some .data := by
      rw [Download.kind?, hfs, Option.map_some, hKind]
    have hCut := Session.sameCut_setUnverified .stored fs
    refine of_keeps (v := v) (.some rfl hfs rfl hCut fun hHoused => hHoused.congr rfl rfl rfl)
      hStores (fun kind i hMem => ?_) fun _ => hData
    rcases Multiset.mem_add.mp hMem with hAdded | hOld
    · obtain ⟨j, _, hEq⟩ := List.mem_map.mp (Multiset.mem_coe.mp hAdded)
      cases hEq
      exact hData
    · exact h.checks kind i hOld
  | @ended fs hfs hBegun =>
    have hCut := Session.sameCut_setUnverified .needed fs
    exact of_keeps (v := v) (.some rfl hfs rfl hCut fun hHoused => hHoused.congr rfl rfl rfl)
      hStores h.checks fun _ => h.verifying hBegun
  | @executed job rest left d disk hJobs hTurn =>
    refine of_keeps hTurn.keeps hStores (fun kind i hMem => ?_) h.verifying
    rcases Multiset.mem_add.mp hMem with hLeft | hOld
    · rcases hTurn.mem_left hLeft with rfl | ⟨kind', i', hEq, hKind⟩
      · refine h.checks kind i ?_
        rw [hJobs]
        exact Multiset.mem_cons_self _ rest
      · cases hEq
        exact hKind
    · refine h.checks kind i ?_
      rw [hJobs]
      exact Multiset.mem_cons_of_mem hOld

end Labelled

end TorrentEngine
