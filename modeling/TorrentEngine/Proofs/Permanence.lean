import Mathlib.Logic.Relation
import TorrentEngine.Proofs.Labels
import TorrentEngine.Proofs.Requests
import TorrentEngine.Proofs.Soundness

/-!
Verified progress is never lost. A block goes back from verified only after a digest mismatch, which
sound data rule out, after a store that does not fit, of which none is outstanding, or when a check
of the disk begins or ends, which leaves verified pieces alone. So pieces stay verified, and seeding
never ends, asks for nothing and stores nothing.
-/

namespace TorrentEngine

namespace FileSet

/-- `fs'` has the pieces of `fs`, and those verified in `fs` are verified in it too. -/
structure KeepsDone (fs fs' : FileSet) : Prop where
  count_eq : fs'.pieces.length = fs.pieces.length
  piece : ∀ (i : Nat) (p : Piece), fs.pieces[i]? = some p → p.isDone = true →
    ∃ p', fs'.pieces[i]? = some p' ∧ p'.isDone = true ∧ p'.outline = p.outline

variable {fs fs' : FileSet}

theorem KeepsDone.refl (fs : FileSet) : fs.KeepsDone fs :=
  ⟨rfl, fun _ p hp hDone => ⟨p, hp, hDone, rfl⟩⟩

theorem KeepsDone.trans {fs'' : FileSet} (h : fs.KeepsDone fs') (h' : fs'.KeepsDone fs'') :
    fs.KeepsDone fs'' := by
  refine ⟨h'.count_eq.trans h.count_eq, fun i p hp hDone => ?_⟩
  obtain ⟨p', hp', hDone', hOutline'⟩ := h.piece i p hp hDone
  obtain ⟨p'', hp'', hDone'', hOutline''⟩ := h'.piece i p' hp' hDone'
  exact ⟨p'', hp'', hDone'', hOutline''.trans hOutline'⟩

theorem KeepsDone.isDone (h : fs.KeepsDone fs') (hAll : fs.isDone = true) : fs'.isDone = true := by
  refine List.all_eq_true.mpr fun p' hMem => ?_
  obtain ⟨i, hi⟩ := List.getElem?_of_mem hMem
  have hLt : i < fs.pieces.length := by
    rw [← h.count_eq]
    exact (List.getElem?_eq_some_iff.mp hi).1
  have hDone := List.all_eq_true.mp hAll _ (List.getElem_mem hLt)
  obtain ⟨p, hp, hDone', _⟩ := h.piece i _ (List.getElem?_eq_getElem hLt) hDone
  obtain rfl := Option.some.inj (hp.symm.trans hi)
  exact hDone'

theorem keepsDone_of_settled (h : fs'.settled = fs.settled) : fs.KeepsDone fs' := by
  refine ⟨?_, fun i p hp hDone => ?_⟩
  · have hCount := congrArg (·.pieces.length) h
    simpa [settled] using hCount
  · obtain ⟨p', hp', hReset⟩ := piece_of_settled h.symm hp
    refine ⟨p', hp', ?_, ?_⟩
    · rw [← Piece.isDone_resetRequested, ← hReset, Piece.isDone_resetRequested]
      exact hDone
    · rw [← Piece.outline_resetRequested, ← hReset, Piece.outline_resetRequested]

/-- One piece may change if it is verified afterwards or was not before. -/
theorem keepsDone_set {i : Nat} {p q : Piece} (hp : fs.pieces[i]? = some p)
    (hPieces : fs'.pieces = fs.pieces.set i q) (hOutline : q.outline = p.outline)
    (hDone : p.isDone = true → q.isDone = true) : fs.KeepsDone fs' := by
  refine ⟨by rw [hPieces, List.length_set], fun k r hr hDoneR => ?_⟩
  have hSet : fs'.pieces[k]? = if k = i then some q else fs.pieces[k]? := by
    rw [hPieces]
    exact getElem?_setPiece hp q k
  rw [hSet]
  split
  · next hk =>
    rw [hk, hp] at hr
    cases hr
    exact ⟨q, rfl, hDone hDoneR, hOutline⟩
  · exact ⟨r, hr, hDoneR, rfl⟩

theorem keepsDone_setUnverified (s : BlockStatus) (fs : FileSet) :
    fs.KeepsDone (Session.setUnverified s fs) := by
  refine ⟨by simp [Session.setUnverified], fun i p hp hDone => ⟨p, ?_, hDone, rfl⟩⟩
  rw [Session.getElem?_setUnverified, hp, Option.map_some, if_pos hDone]

end FileSet

/-! ### Steps -/

/-- The content of `d` is that of `d'`, where all its verified pieces are verified too. -/
def Download.KeepsDone (d d' : Download) : Prop :=
  ∀ fs, Job.current? d .data = some fs →
    ∃ fs', Job.current? d' .data = some fs' ∧ fs.KeepsDone fs'

theorem Download.KeepsDone.trans {d d' d'' : Download} (h : d.KeepsDone d')
    (h' : d'.KeepsDone d'') : d.KeepsDone d'' := by
  intro fs hfs
  obtain ⟨fs', hfs', hKept⟩ := h fs hfs
  obtain ⟨fs'', hfs'', hKept'⟩ := h' fs' hfs'
  exact ⟨fs'', hfs'', hKept.trans hKept'⟩

theorem Download.keepsDone_of_some {d d' : Download} {fs fs' : FileSet} (hfs : d.fileSet = some fs)
    (hfs' : d'.fileSet = some fs') (hKind : fs'.kind = fs.kind) (h : fs.KeepsDone fs') :
    d.KeepsDone d' := by
  intro current hCurrent
  obtain ⟨hSome, hData⟩ := Job.current?_eq_some.mp hCurrent
  obtain rfl := Option.some.inj (hSome.symm.trans hfs)
  exact ⟨fs', Job.current?_eq_some.mpr ⟨hfs', hKind.trans hData⟩, h⟩

theorem Download.keepsDone_of_fileSet {d d' : Download} (h : d'.fileSet = d.fileSet) :
    d.KeepsDone d' := by
  intro fs hfs
  obtain ⟨hSome, hData⟩ := Job.current?_eq_some.mp hfs
  exact ⟨fs, Job.current?_eq_some.mpr ⟨h.trans hSome, hData⟩, .refl fs⟩

theorem Download.keepsDone_of_core {d d' : Download} (h : d'.core = d.core) : d.KeepsDone d' := by
  intro fs hfs
  obtain ⟨hSome, hData⟩ := Job.current?_eq_some.mp hfs
  obtain ⟨fs', hfs', hSettled⟩ := fileSet_of_core h.symm hSome
  have hKind := (FileSet.dimensions_of_settled hSettled).1
  exact ⟨fs', Job.current?_eq_some.mpr ⟨hfs', hKind.symm.trans hData⟩,
    FileSet.keepsDone_of_settled hSettled.symm⟩

variable {c : PhaseConfig} {may : Miss → Prop} {v v' : View}

/-- No run of an outstanding job takes a verified piece back. -/
theorem Job.Turns.keepsDone {d : Download} {disk : Bytes} {job : Job} {left : Multiset Job}
    (h : Job.Turns may v.download v.disk job d disk left) (hFramed : Framed v) (hSound : v.Sound)
    (hFits : StoresFit v) (hMem : job ∈ v.jobs) : v.download.KeepsDone d := by
  cases h with
  | storeIdle => exact Download.keepsDone_of_fileSet rfl
  | storeMisfit hCurrent hp hMisfit =>
    -- Only metadata can be left to store that do not fit, and then the content is another file set.
    rcases hFits _ _ _ _ hMem with hStore | ⟨rfl, hData⟩
    · cases hStore with
      | store hCurrent' hp' hBlock =>
        obtain rfl := Option.some.inj (hCurrent.symm.trans hCurrent')
        obtain rfl := Option.some.inj (hp.symm.trans hp')
        exact absurd hBlock hMisfit
    · obtain ⟨hfs, hKind⟩ := Job.current?_eq_some.mp hCurrent
      rw [Download.kind?, hfs, Option.map_some, hKind] at hData
      cases hData
  | @storeMissed _ _ _ _ fs _ _ _ _ hOpen =>
    exact Download.keepsDone_of_some hOpen.fileSet rfl rfl ⟨rfl, (FileSet.KeepsDone.refl fs).piece⟩
  | @stored kind i b data fs p block hOpen =>
    refine Download.keepsDone_of_some hOpen.fileSet rfl rfl
      (FileSet.keepsDone_set hOpen.hasPiece rfl (Piece.outline_mark p b .stored) fun hDone => ?_)
    have hShort := Piece.not_isFullyStored hOpen.hasBlock hOpen.notHeld
    rw [Piece.isFullyStored_of_isDone hDone] at hShort
    cases hShort
  | checkVoid => exact Download.keepsDone_of_fileSet rfl
  | checkRetried => exact Download.keepsDone_of_fileSet rfl
  | checkFailed => exact Download.keepsDone_of_fileSet rfl
  | checkCrashed => exact Download.keepsDone_of_fileSet rfl
  | verified hStored =>
    exact Download.keepsDone_of_some hStored.fileSet rfl rfl
      (FileSet.keepsDone_set hStored.hasPiece rfl (Piece.outline_markVerified _)
        fun _ => Piece.isDone_markVerified _)
  | @mismatched kind i fs p hStored _ hDigest =>
    intro current hCurrent
    obtain ⟨hfs, hData⟩ := Job.current?_eq_some.mp hCurrent
    obtain rfl : current = fs := Option.some.inj (hfs.symm.trans hStored.fileSet)
    refine ⟨current.setPiece i p.reopen.2, Job.current?_eq_some.mpr ⟨rfl, hData⟩,
      FileSet.keepsDone_set hStored.hasPiece rfl (Piece.outline_reopen p) fun hDone => ?_⟩
    -- The bytes of a verified piece have its digest.
    obtain ⟨_, _, _, _, _, hDisk⟩ := hFramed.data hfs hData
    rw [hDisk] at hDigest
    exact absurd (hSound _ hCurrent i p hStored.hasPiece hDone).2 hDigest
  | sent hCore => exact Download.keepsDone_of_core hCore

/-- Steps take no verified piece back. -/
theorem Change.keepsDone (h : Change c may v v') (hFramed : Framed v) (hSound : v.Sound)
    (hFits : StoresFit v) : v.download.KeepsDone v'.download := by
  cases h with
  | quiet hCore => exact Download.keepsDone_of_core hCore
  | moved hMoves =>
    intro fs hfs
    obtain ⟨hSome, hData⟩ := Job.current?_eq_some.mp hfs
    have hKind : v.phase.kind? = some .data := by
      rw [← hFramed.kind_eq, Download.kind?, hSome, Option.map_some, hData]
    generalize v.phase = phase at hMoves hKind
    cases hMoves with
    | toMetadata => cases hKind
    | toData => cases hKind
    | toSeed => exact Download.keepsDone_of_fileSet rfl fs hfs
  | @begun fs hCurrent =>
    exact Download.keepsDone_of_some (Job.current?_eq_some.mp hCurrent).1 rfl rfl
      (FileSet.keepsDone_setUnverified .stored fs)
  | @ended fs hfs =>
    exact Download.keepsDone_of_some hfs rfl rfl (FileSet.keepsDone_setUnverified .needed fs)
  | executed hJobs hTurn =>
    refine hTurn.keepsDone hFramed hSound hFits ?_
    rw [hJobs]
    exact Multiset.mem_cons_self _ _

/-- A phase is left in one way only. -/
theorem Change.phase_cases (h : Change c may v v') :
    v'.phase = v.phase ∨
      PhaseId.Moves c v.download v.phase v'.phase v'.download := by
  cases h with
  | moved hMoves => exact .inr hMoves
  | _ => exact .inl rfl

theorem Change.seed (h : Change c may v v') (hSeed : v.phase = .seed) : v'.phase = .seed := by
  rcases h.phase_cases with hSame | hMoves
  · rw [hSame, hSeed]
  · rw [hSeed] at hMoves
    cases hMoves

/-! ### A content that is all verified -/

/-- Whether a message asks for a block. -/
def Message.AsksForBlock : Message → Prop
  | .request .. | .metadataRequest .. => True
  | _ => False

namespace Download

/-- All pieces of the content are verified. -/
def ContentDone (d : Download) : Prop :=
  ∃ fs, Job.current? d .data = some fs ∧ fs.isDone = true

variable {d : Download}

theorem KeepsDone.contentDone {d' : Download} (h : d.KeepsDone d') (hDone : d.ContentDone) :
    d'.ContentDone := by
  obtain ⟨fs, hfs, hAll⟩ := hDone
  obtain ⟨fs', hfs', hKept⟩ := h fs hfs
  exact ⟨fs', hfs', hKept.isDone hAll⟩

theorem contentDone_of_isDone (h : PhaseId.isDone .data d = true) : d.ContentDone := by
  simp only [PhaseId.isDone, Bool.and_eq_true, Option.any_eq_true, beq_iff_eq] at h
  obtain ⟨_, fs, hfs, hKind, hAll⟩ := h
  exact ⟨fs, Job.current?_eq_some.mpr ⟨hfs, hKind⟩, hAll⟩

theorem ContentDone.kind?_eq (h : d.ContentDone) : d.kind? = some .data := by
  obtain ⟨fs, hfs, _⟩ := h
  obtain ⟨hSome, hData⟩ := Job.current?_eq_some.mp hfs
  rw [kind?, hSome, Option.map_some, hData]

theorem ContentDone.congr {d' : Download} (h : d.ContentDone) (hfs : d'.fileSet = d.fileSet) :
    d'.ContentDone := (keepsDone_of_fileSet hfs).contentDone h

/-- Nothing is requested of a content that is all verified. -/
theorem fill_of_isDone {fs : FileSet} (h : fs.isDone = true) (selector : Selector) (r : Rarity)
    (now : Time) (slots : Nat) (peer : Peer) :
    fill selector r now slots fs peer = (fs, peer, []) := by
  cases slots with
  | zero => rfl
  | succ slots =>
    simp only [fill]
    split
    · rfl
    · next i _ =>
      have hNone : (fs.piece? i).bind Piece.claim = none := by
        cases hp : fs.piece? i with
        | none => rfl
        | some p =>
          have hDone : p.isDone = true := List.all_eq_true.mp h p (List.mem_of_getElem? hp)
          exact Piece.claim_of_isDone hDone
      rw [hNone]

theorem not_asks_flagMessages (old new : Peer) :
    ∀ m ∈ flagMessages old new, ¬ m.AsksForBlock := by
  intro m hm
  rcases mem_flagMessages hm with ⟨v, rfl⟩ | ⟨v, rfl⟩ <;> cases v <;> exact id

theorem ContentDone.serve (h : d.ContentDone) (r : Rarity) (now : Time) (id : PeerId) :
    (d.serve r now id).1.ContentDone ∧ ∀ m ∈ (d.serve r now id).2, ¬ m.AsksForBlock := by
  obtain ⟨fs, hfs, hAll⟩ := h
  have hSome := (Job.current?_eq_some.mp hfs).1
  have hDone : d.ContentDone := ⟨fs, hfs, hAll⟩
  simp only [Download.serve]
  split
  · exact ⟨hDone, by simp⟩
  · next old _ =>
    have hFlags := not_asks_flagMessages old (d.choking.update d.fileSet old)
    split
    · exact ⟨hDone.congr rfl, hFlags⟩
    · next fs' hMay =>
      obtain rfl : fs' = fs :=
        Option.some.inj ((Option.filter_eq_some_iff.mp hMay).1.symm.trans hSome)
      rw [fill_of_isDone hAll, List.append_nil]
      exact ⟨hDone.congr hSome.symm, hFlags⟩

theorem ContentDone.serveAll (h : d.ContentDone) (r : Rarity) (now : Time) (ids : List PeerId) :
    ∀ id m, .send id m ∈ (serveAll r now ids d).2 → ¬ m.AsksForBlock := by
  induction ids generalizing d with
  | nil => intro id m hMem; cases hMem
  | cons first rest ih =>
    obtain ⟨hDone, hFirst⟩ := h.serve r now first
    intro id m hMem
    rcases List.mem_append.mp hMem with hMem | hMem
    · obtain ⟨m', hm', hEq⟩ := List.mem_map.mp hMem
      cases hEq
      exact hFirst m hm'
    · exact ih hDone id m hMem

theorem takeBlock_of_isDone {fs : FileSet} (h : fs.isDone = true) (now : Time) (id : PeerId)
    (i b : Nat) (data : Bytes) {effects : List Effect}
    (hTaken : (d.takeBlock fs now id i b data).2 = .ok effects) : effects = [] := by
  simp only [takeBlock] at hTaken
  split at hTaken
  · cases hTaken
  · next p hp =>
    split at hTaken
    · cases hTaken
    · next hBlock =>
      obtain ⟨block, hb, _⟩ := Piece.checkBlock_eq_ok.mp hBlock
      have hDone : p.isDone = true :=
        List.all_eq_true.mp h p (List.mem_of_getElem? (FileSet.piece_eq_ok.mp hp))
      have hHeld : (p.blocks[b]?).any (·.status.isHeld) = true := by
        rw [hb, Option.any_some, Piece.isDone_iff.mp hDone block (List.mem_of_getElem? hb)]
        rfl
      rw [if_pos hHeld] at hTaken
      cases hTaken
      rfl

/-- Nothing is stored of a content that is all verified. -/
theorem ContentDone.handle (h : d.ContentDone) (now : Time) (c : Command) {effects : List Effect}
    (hHandled : (d.handle now c).2 = .ok effects) :
    ∀ kind i b data, .store kind i b data ∉ effects := by
  obtain ⟨fs, hfs, hAll⟩ := h
  obtain ⟨hSome, hData⟩ := Job.current?_eq_some.mp hfs
  intro kind i b data hMem
  cases c with
  | block id i offset bytes =>
    simp only [Download.handle, show d.fileSet.filter (·.kind = .data) = some fs from hfs]
      at hHandled
    split at hHandled
    · cases hHandled
    · rw [takeBlock_of_isDone hAll now id i _ bytes hHandled] at hMem
      cases hMem
  | metadataBlock id b bytes =>
    have hNone : d.fileSet.filter (·.kind = .metadata) = none := by
      simp [hSome, hData, Option.filter]
    simp only [Download.handle, hNone] at hHandled
    cases hHandled
    cases hMem
  | requestUpload =>
    simp only [Download.handle] at hHandled
    split at hHandled <;> cases hHandled <;> simp at hMem
  | _ =>
    cases hHandled
    cases hMem

end Download

/-! ### Runs -/

namespace World

variable {w w' : World}

theorem Reachable.storesFit (h : Reachable c may w) : StoresFit w.view := by
  have hBoth : Framed w.view ∧ StoresFit w.view := by
    refine h.view_induction (motive := fun v => Framed v ∧ StoresFit v) ?_ ?_
    · intro w hFresh
      refine ⟨hFresh.framed, fun kind i b data hMem => ?_⟩
      rw [show w.view.jobs = 0 from hFresh.noJobs] at hMem
      cases Multiset.notMem_zero _ hMem
    · intro v v' hInv hChange
      exact ⟨hInv.1.change hChange, hInv.2.change hInv.1 hChange⟩
  exact hBoth.2

/-- Whatever comes later is reached too. -/
theorem Reachable.later (h : Reachable c may w) (hLater : Relation.ReflTransGen (Step may) w w') :
    Reachable c may w' := by
  induction hLater with
  | refl => exact h
  | tail _ hStep ih => exact ih.step hStep

theorem Reachable.keepsDone_step (h : Reachable c may w) (hStep : Step may w w') :
    w.download.KeepsDone w'.download := by
  obtain ⟨hFramed, hSound⟩ := h.framed_sound
  exact (hStep.change h.chain_eq).keepsDone hFramed hSound h.storesFit

theorem Reachable.keepsDone (h : Reachable c may w)
    (hLater : Relation.ReflTransGen (Step may) w w') : w.download.KeepsDone w'.download := by
  induction hLater with
  | refl => exact Download.keepsDone_of_fileSet rfl
  | tail hBefore hStep ih => exact ih.trans ((h.later hBefore).keepsDone_step hStep)

theorem Reachable.seed_later (h : Reachable c may w)
    (hLater : Relation.ReflTransGen (Step may) w w') (hSeed : w.session.phase = .seed) :
    w'.session.phase = .seed := by
  induction hLater with
  | refl => exact hSeed
  | tail hBefore hStep ih => exact (hStep.change (h.later hBefore).chain_eq).seed ih

/-- Seeding begins with the content all verified, which it stays. -/
theorem Reachable.contentDone (h : Reachable c may w) (hSeed : w.session.phase = .seed) :
    w.download.ContentDone := by
  induction h with
  | fresh hFresh =>
    rw [hFresh.phase_eq] at hSeed
    cases hSeed
  | @step w w' hBefore hStep ih =>
    have hChange := hStep.change hBefore.chain_eq
    rcases hChange.phase_cases with hSame | hMoves
    · exact (hBefore.keepsDone_step hStep).contentDone (ih (hSame.symm.trans hSeed))
    · rw [show w'.view.phase = .seed from hSeed] at hMoves
      have hKept := hBefore.keepsDone_step hStep
      refine hKept.contentDone ?_
      generalize w'.view.download = d at hMoves
      generalize w.view.phase = phase at hMoves
      cases hMoves with
      | toSeed hDone => exact Download.contentDone_of_isDone hDone

/-- Verified progress is never lost, whatever the devices miss: a verified piece of the content is
verified in every later world. Once seeding has begun it never ends, every piece stays verified, no
scheduling pass asks for a block, and no input has a block stored. -/
theorem Reachable.progress_kept (h : Reachable c may w)
    (hLater : Relation.ReflTransGen (Step may) w w') :
    (∀ (fs : FileSet) (i : Nat) (p : Piece), Job.current? w.download .data = some fs →
      fs.pieces[i]? = some p → p.isDone = true →
        ∃ (fs' : FileSet) (p' : Piece), Job.current? w'.download .data = some fs' ∧
          fs'.pieces[i]? = some p' ∧ p'.isDone = true ∧ p'.outline = p.outline) ∧
    (w.session.phase = .seed → w'.session.phase = .seed ∧
      (∃ fs', Job.current? w'.download .data = some fs' ∧ ∀ p ∈ fs'.pieces, p.isDone = true) ∧
      (∀ relevant now id m, .send id m ∈ (w'.download.tick relevant now).2 →
        ¬ m.AsksForBlock) ∧
      (∀ now cmd effects, (w'.download.handle now cmd).2 = .ok effects →
        ∀ kind i b data, .store kind i b data ∉ effects)) := by
  refine ⟨?_, fun hSeed => ?_⟩
  · intro fs i p hfs hp hDone
    obtain ⟨fs', hfs', hKept⟩ := h.keepsDone hLater fs hfs
    obtain ⟨p', hp', hDone', hOutline⟩ := hKept.piece i p hp hDone
    exact ⟨fs', p', hfs', hp', hDone', hOutline⟩
  · have hSeed' := h.seed_later hLater hSeed
    have hContent := (h.later hLater).contentDone hSeed'
    refine ⟨hSeed', ?_, ?_, ?_⟩
    · obtain ⟨fs', hfs', hAll⟩ := hContent
      exact ⟨fs', hfs', List.all_eq_true.mp hAll⟩
    · intro relevant now
      exact hContent.serveAll _ now relevant
    · intro now cmd effects
      exact hContent.handle now cmd

/-- The short run goes on to seed its piece. -/
def oneByteSeeding : World :=
  { oneByteVerified with session := (oneByteVerified.session.advanceUpTo 1).1 }

/-- A peer connects then. -/
def oneByteVisited : World :=
  { oneByteSeeding with session := oneByteSeeding.session.command 0 (.connect "p" 0 none) }

/-- The piece stays verified; the peer is asked for nothing, and its byte is not stored. -/
theorem progress_kept_oneByte :
    oneByteSeeding.session.phase = .seed ∧ oneByteVisited.session.phase = .seed ∧
    (∃ fs, Job.current? oneByteVisited.download .data = some fs ∧
      ∀ p ∈ fs.pieces, p.isDone = true) ∧
    (∀ id m, .send id m ∈ (oneByteVisited.download.tick ["p"] 0).2 → ¬ m.AsksForBlock) ∧
    ∀ effects, (oneByteVisited.download.handle 0 (.block "p" 0 0 [65])).2 = .ok effects →
      .store .data 0 0 [65] ∉ effects := by
  have hSeed : oneByteSeeding.session.phase = .seed := by decide +kernel
  have hReached : Reachable oneByteConfig (fun _ => True) oneByteSeeding :=
    reachable_oneByteVerified.step .advance
  have hLater : Relation.ReflTransGen (Step fun _ => True) oneByteSeeding oneByteVisited :=
    .single (.command 0 (.connect "p" 0 none))
  obtain ⟨_, hKept⟩ := Reachable.progress_kept hReached hLater
  obtain ⟨hPhase, hPieces, hAsks, hStores⟩ := hKept hSeed
  refine ⟨hSeed, hPhase, hPieces, hAsks ["p"] 0, fun effects hHandled => ?_⟩
  exact hStores 0 _ effects hHandled .data 0 0 [65]

end World

end TorrentEngine
