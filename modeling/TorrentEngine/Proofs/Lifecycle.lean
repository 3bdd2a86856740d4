import TorrentEngine.Proofs.Calls
import TorrentEngine.Proofs.Genuine
import TorrentEngine.Proofs.Offered
import TorrentEngine.Proofs.Permanence

/-!
The life of a torrent. At every moment of a run, also after a phase that could not begin, the file
set and the strategies are those of the phase. The phase goes up the standard chain only, one place
at a time and each with one notification, so no run has more than three phase changes, and no
attempt to go on along the chain takes more.
-/

namespace TorrentEngine

/-- Whether an effect tells of a phase change. -/
def Effect.isPhaseChange : Effect → Bool
  | .notify (.phaseChanged ..) => true
  | _ => false

namespace PhaseId

/-- What the file set and the strategies are in a phase. -/
def Agrees (phase : PhaseId) (d : Download) : Prop :=
  match phase with
  | .preMetadata => d.fileSet = none ∧ d.selector = .null
  | .metadata => d.kind? = some .metadata ∧ d.selector = .single ∧ d.choking = .metadata
  | .data => d.kind? = some .data ∧ d.metainfo.isSome ∧ d.selector = .rarest ∧
      d.choking = .permissive
  | .seed => d.kind? = some .data ∧ d.selector = .null ∧ d.choking = .upload

/-- The place of a phase on the standard chain. -/
def rank : PhaseId → Nat
  | .preMetadata => 0
  | .metadata => 1
  | .data => 2
  | .seed => 3

/-- The phase changes of the standard chain in order. -/
def lifecycle : List (PhaseId × PhaseId) :=
  [(.preMetadata, .metadata), (.metadata, .data), (.data, .seed)]

variable {c : PhaseConfig} {d d' : Download} {phase next : PhaseId} {effects : List Effect}
  {effect : Effect}

theorem rank_le (phase : PhaseId) : phase.rank ≤ 3 := by
  cases phase <;> decide

theorem Agrees.congr (h : phase.Agrees d) (hKind : d'.kind? = d.kind?)
    (hMetainfo : d'.metainfo = d.metainfo) (hSelector : d'.selector = d.selector)
    (hChoking : d'.choking = d.choking) : phase.Agrees d' := by
  have hNone : d.fileSet = none → d'.fileSet = none := fun hfs => by
    simpa [Download.kind?, hfs] using hKind
  cases phase with
  | preMetadata => exact ⟨hNone h.1, hSelector.trans h.2⟩
  | metadata => exact ⟨hKind.trans h.1, hSelector.trans h.2.1, hChoking.trans h.2.2⟩
  | data =>
    exact ⟨hKind.trans h.1, hMetainfo ▸ h.2.1, hSelector.trans h.2.2.1, hChoking.trans h.2.2.2⟩
  | seed => exact ⟨hKind.trans h.1, hSelector.trans h.2.1, hChoking.trans h.2.2⟩

/-! ### Phase changes -/

theorem kind_of_metadataFileSet {fs : FileSet} (h : metadataFileSet d = .ok fs) :
    fs.kind = .metadata := by
  obtain ⟨b, created, hCreated, hEq⟩ := metadataFileSet_ok h
  obtain ⟨_, _, hShape⟩ := FileSet.create_eq_ok hCreated
  rcases hEq with rfl | rfl <;> rw [hShape]

theorem kind_of_forTorrent {m : Metainfo} {root : Path} {blockSize : Nat} {fs : FileSet}
    (h : FileSet.forTorrent m root blockSize = .ok fs) : fs.kind = .data := by
  obtain ⟨_, _, rfl⟩ := FileSet.create_eq_ok (forTorrent_ok h)
  rfl

/-- A phase change installs what the next phase needs. -/
theorem Moves.agrees (h : Moves c d phase next d') : next.Agrees d' := by
  cases h with
  | toMetadata hfs =>
    exact ⟨congrArg some (kind_of_metadataFileSet hfs), rfl, rfl⟩
  | toData _ _ hfs => exact ⟨congrArg some (kind_of_forTorrent hfs), rfl, rfl, rfl⟩
  | toSeed hDone => exact ⟨(Download.contentDone_of_isDone hDone).kind?_eq, rfl, rfl⟩

theorem Moves.rank_eq (h : Moves c d phase next d') : next.rank = phase.rank + 1 := by
  cases h <;> rfl

theorem Moves.infoHash_eq (h : Moves c d phase next d') : d'.infoHash = d.infoHash := by
  cases h <;> rfl

/-- Leaving a phase saves something or tells of something else than a phase change. -/
theorem leave_effect (h : phase.leave c d = .ok (d', effects)) (hEffect : effect ∈ effects) :
    (∃ path bytes, effect = .persist path bytes) ∨
      ∃ event, effect = .notify event ∧ effect.isPhaseChange = false := by
  cases phase with
  | preMetadata =>
    obtain ⟨fs, -, hLeft⟩ := bind_eq_ok.mp h
    cases hLeft
    cases hEffect
  | metadata =>
    simp only [leave] at h
    split at h
    · cases h
    · cases h
      simp only [List.mem_cons, List.not_mem_nil, or_false] at hEffect
      rcases hEffect with rfl | rfl
      · exact .inl ⟨_, _, rfl⟩
      · exact .inr ⟨_, rfl, rfl⟩
  | data =>
    cases h
    simp only [List.mem_cons, List.not_mem_nil, or_false] at hEffect
    rcases hEffect with rfl | rfl <;> exact .inr ⟨_, rfl, rfl⟩
  | seed =>
    cases h
    cases hEffect

/-- Entering a phase has files made, or, where it is seeding, ends the interest in a peer's data. -/
theorem enter_effect (h : phase.enter c d = .ok (d', effects)) (hEffect : effect ∈ effects) :
    (∃ layout, effect = .allocate layout) ∨
      phase = .seed ∧ ∃ id, effect = .send id .notInterested := by
  cases phase with
  | preMetadata =>
    cases h
    cases hEffect
  | metadata =>
    simp only [enter] at h
    split at h
    · cases h
      cases hEffect
    · cases h
  | data =>
    obtain ⟨m, fs, -, -, -, rfl⟩ := enterData_eq_ok h
    obtain ⟨layout, -, rfl⟩ := Option.map_eq_some_iff.mp (Option.mem_toList.mp hEffect)
    exact .inl ⟨layout, rfl⟩
  | seed =>
    cases h
    obtain ⟨entry, -, rfl⟩ := List.mem_map.mp hEffect
    exact .inr ⟨rfl, entry.1, rfl⟩

theorem filter_eq_nil_of_leave (h : phase.leave c d = .ok (d', effects)) :
    effects.filter Effect.isPhaseChange = [] := by
  refine List.filter_eq_nil_iff.mpr fun effect hEffect => ?_
  rcases leave_effect h hEffect with ⟨path, bytes, rfl⟩ | ⟨event, -, hOther⟩
  · nofun
  · simp [hOther]

theorem filter_eq_nil_of_enter (h : phase.enter c d = .ok (d', effects)) :
    effects.filter Effect.isPhaseChange = [] := by
  refine List.filter_eq_nil_iff.mpr fun effect hEffect => ?_
  rcases enter_effect h hEffect with ⟨layout, rfl⟩ | ⟨-, id, rfl⟩ <;> nofun

/-- Going on from a phase tells of exactly one phase change. -/
theorem phaseChanges_advance {chain : PhaseChain}
    (h : chain.advance phase d = (d', effects, .moved next)) :
    ∃ id, chain.successor? phase d = some (id, next) ∧
      effects.filter Effect.isPhaseChange = [.notify (.phaseChanged d.infoHash phase id)] := by
  simp only [PhaseChain.advance] at h
  split at h
  · cases h
  · next id made hSuccessor =>
    split at h
    · cases h
    · next left leaving hLeave =>
      split at h
      · cases h
      · next entered entering hEnter =>
        cases h
        refine ⟨id, hSuccessor, ?_⟩
        rw [List.filter_append, List.filter_append, filter_eq_nil_of_leave hLeave,
          filter_eq_nil_of_enter hEnter]
        rfl

/-- Phases of the standard chain begin under their own names. -/
theorem name_of_successor {id : PhaseId}
    (h : (PhaseChain.standard c).successor? phase d = some (id, next)) : id = next := by
  rw [successor?_standard] at h
  split at h
  · cases phase <;> cases h <;> rfl
  · cases h

theorem Moves.lifecycle_take (h : Moves c d phase next d') :
    lifecycle.take next.rank = lifecycle.take phase.rank ++ [(phase, next)] := by
  cases h <;> rfl

end PhaseId

/-! ### Going on as long as phases are done -/

/-- An attempt to go on along the chain as far as it goes: `n` phase changes, then a phase that is
not done or one that cannot begin. The effects of a change that failed are not carried out. -/
inductive Session.Advances : Session → (n : Nat) → Session → Except PhaseError Unit → Prop
  | stays {s : Session} {d : Download} {effects : List Effect}
      (h : s.chain.advance s.phase s.download = (d, effects, .stay)) :
      Advances s 0 (s.changeEngine fun e => (e.setDownload d).carryOutAll effects) (.ok ())
  | fails {s : Session} {d : Download} {effects : List Effect} {e : PhaseError}
      (h : s.chain.advance s.phase s.download = (d, effects, .failed e)) :
      Advances s 0 (s.changeEngine (·.setDownload d)) (.error e)
  | moves {s s' : Session} {d : Download} {effects : List Effect} {phase : PhaseId} {n : Nat}
      {result : Except PhaseError Unit}
      (h : s.chain.advance s.phase s.download = (d, effects, .moved phase))
      (hRest : Advances
        { s.changeEngine fun e => (e.setDownload d).carryOutAll effects with phase } n s' result) :
      Advances s (n + 1) s' result

/-- On the standard chain an attempt comes to its end within the places that are left. -/
theorem Session.advances_advanceUpTo {c : PhaseConfig} {s : Session}
    (hChain : s.chain = .standard c) {limit : Nat} (hLimit : 3 < s.phase.rank + limit) :
    ∃ n, s.Advances n (s.advanceUpTo limit).1 (s.advanceUpTo limit).2 ∧
      (s.advanceUpTo limit).1.phase.rank = s.phase.rank + n := by
  induction limit generalizing s with
  | zero =>
    have := s.phase.rank_le
    omega
  | succ limit ih =>
    have hAttempts := PhaseId.advance_attempts c s.phase s.download
    rw [← hChain] at hAttempts
    cases hAttempt : s.chain.advance s.phase s.download with
    | mk d rest =>
      obtain ⟨effects, result⟩ := rest
      simp only [advanceUpTo, hAttempt]
      cases result with
      | stay => exact ⟨0, .stays hAttempt, rfl⟩
      | failed e => exact ⟨0, .fails hAttempt, rfl⟩
      | moved phase =>
        have hRank : phase.rank = s.phase.rank + 1 := by
          rw [hAttempt] at hAttempts
          cases hAttempts with
          | moved hMoves => exact hMoves.rank_eq
        obtain ⟨n, hAdvances, hEnd⟩ := ih
          (s := { s.changeEngine fun e => (e.setDownload d).carryOutAll effects with phase }) hChain
          (by dsimp only; omega)
        refine ⟨n + 1, .moves hAttempt hAdvances, ?_⟩
        dsimp only at hEnd
        have hNext : phase.rank + n = s.phase.rank + (n + 1) := by omega
        exact hEnd.trans hNext

/-! ### Between phase changes -/

theorem Download.GoesOn.kind?_eq {d d' : Download} (h : d.GoesOn d') : d'.kind? = d.kind? := by
  have hRel := h.fileSet
  simp only [Download.kind?]
  generalize d.fileSet = fs? at hRel ⊢
  generalize d'.fileSet = fs?' at hRel ⊢
  cases hRel with
  | none => rfl
  | some hCut => rw [Option.map_some, Option.map_some, hCut.kind_eq]

/-- The strategies of a torrent. -/
def Download.strategies (d : Download) : Selector × Choking := (d.selector, d.choking)

theorem Download.strategies_of_core {d d' : Download} (h : d'.core = d.core) :
    d'.strategies = d.strategies := by
  change d'.core.strategies = d.core.strategies
  rw [h]

theorem Job.Part.strategies {t t' : Torrent} (h : Part t t') :
    t'.download.strategies = t.download.strategies := by
  change t'.download.aside.strategies = t.download.aside.strategies
  rcases h.aside with hSame | ⟨id, count, hSent⟩
  · rw [hSame]
  · rw [hSent]
    rfl

namespace Dispatch

variable {c : PhaseConfig} {k₀ k k' : Dispatch}

/-- `k'` is in the phase of `k` with all that a phase relies on, and no phase change is told. -/
structure Steady (k k' : Dispatch) : Prop where
  goesOn : k.GoesOn k'
  strategies : k'.download.strategies = k.download.strategies
  quiet : k.outbox = [] → k'.outbox.filter Effect.isPhaseChange = []

/-- A step that leaves the outbox as it is. -/
theorem steady_of_outbox (hOn : k.GoesOn k')
    (hStrategies : k'.download.strategies = k.download.strategies)
    (hOutbox : k'.outbox = k.outbox) : k.Steady k' := by
  refine ⟨hOn, hStrategies, fun hIdle => ?_⟩
  rw [hOutbox, hIdle]
  rfl

/-- Every step but a phase change is steady. -/
theorem Step.steady (h : Step k k') : k.Steady k' ∨ k.outbox = [] ∧ k' = k.advanced := by
  rcases h.goesOn with hOn | hAdvanced
  · cases h with
    | command _ now cmd =>
      refine .inl ⟨hOn, Download.strategies_of_core (Download.core_handle k.download now cmd),
        fun _ => List.filter_eq_nil_iff.mpr fun effect hEffect => ?_⟩
      rcases commanded_effect hEffect with ⟨_, _, _, _, rfl⟩ | ⟨_, _, _, _, rfl⟩ <;> nofun
    | pass _ relevant now =>
      refine .inl ⟨hOn, Download.strategies_of_core (Download.core_tick k.download relevant now),
        fun _ => List.filter_eq_nil_iff.mpr fun effect hEffect => ?_⟩
      obtain ⟨id, m, rfl⟩ := Download.serveAll_sends _ now relevant k.download _ hEffect
      nofun
    | advance hIdle => exact .inr ⟨hIdle, rfl⟩
    | @beginVerify _ fs =>
      refine .inl (steady_of_outbox hOn ?_ rfl)
      change (k.session.beginVerify fs).download.strategies = k.download.strategies
      rw [Session.download_beginVerify]
      rfl
    | endVerify => exact .inl (steady_of_outbox hOn rfl rfl)
    | carry hOutbox =>
      refine .inl ⟨hOn, ?_, fun hIdle => ?_⟩
      · change (k.session.engine.carryOut _).download.strategies = k.download.strategies
        rw [Engine.download_carryOut]
        rfl
      · rw [hIdle] at hOutbox
        cases hOutbox
    | part hPart => exact .inl (steady_of_outbox hOn hPart.strategies rfl)
    | meanwhile => exact .inl (steady_of_outbox hOn rfl rfl)
  · exact .inr hAdvanced

/-- An attempt to go on changes nothing, or goes on to the next phase and tells of it. -/
theorem advanced_cases (hChain : k.session.chain = .standard c) :
    k.advanced.session.phase = k.session.phase ∧ k.advanced.download = k.download ∧
        k.advanced.outbox = [] ∨
      PhaseId.Moves c k.download k.session.phase k.advanced.session.phase k.advanced.download ∧
        k.advanced.outbox.filter Effect.isPhaseChange = [.notify (.phaseChanged k.download.infoHash
          k.session.phase k.advanced.session.phase)] := by
  have hAttempts := PhaseId.advance_attempts c k.session.phase k.download
  rw [← hChain] at hAttempts
  cases hAttempt : k.session.chain.advance k.session.phase k.download with
  | mk d rest =>
    obtain ⟨effects, result⟩ := rest
    have hAdvance : k.session.chain.advance k.session.phase k.session.download =
        (d, effects, result) := hAttempt
    rw [hAttempt] at hAttempts
    simp only [advanced, hAdvance]
    cases hAttempts with
    | stayed => exact .inl ⟨rfl, rfl, rfl⟩
    | failed e => exact .inl ⟨rfl, rfl, rfl⟩
    | moved hMoves =>
      obtain ⟨id, hSuccessor, hTold⟩ := PhaseId.phaseChanges_advance hAttempt
      rw [hChain] at hSuccessor
      obtain rfl := PhaseId.name_of_successor hSuccessor
      exact .inr ⟨hMoves, hTold⟩

/-! ### Runs -/

/-- The effects that a run has called for, in order. They are those of the outbox each time that it
is filled. -/
def calledFor : List Dispatch → List Effect
  | [] => []
  | [k] => k.outbox
  | k' :: k :: past => calledFor (k :: past) ++ if k.outbox = [] then k'.outbox else []

/-- What every step keeps. -/
structure InPhase (c : PhaseConfig) (h : Digest) (k : Dispatch) : Prop where
  chain_eq : k.session.chain = .standard c
  infoHash_eq : k.download.infoHash = h
  agrees : k.session.phase.Agrees k.download

variable {h : Digest}

theorem inPhase_fresh (c : PhaseConfig) {t : Torrent} (hFresh : t.download.Fresh) :
    (fresh c t).InPhase c t.download.infoHash := by
  refine ⟨rfl, rfl, ?_⟩
  change t.download.fileSet = none ∧ t.download.selector = .null
  generalize t.download = d at hFresh
  cases hFresh <;> exact ⟨rfl, rfl⟩

theorem Steady.inPhase (hSteady : k.Steady k') (hIn : k.InPhase c h) : k'.InPhase c h := by
  have hOn := hSteady.goesOn
  refine ⟨hOn.chain_eq.trans hIn.chain_eq, hOn.download.infoHash_eq.trans hIn.infoHash_eq, ?_⟩
  rw [hOn.phase_eq]
  exact hIn.agrees.congr hOn.download.kind?_eq hOn.download.metainfo_eq
    (congrArg Prod.fst hSteady.strategies) (congrArg Prod.snd hSteady.strategies)

/-- A step stays in its phase and tells of no phase change, or goes on to the next phase and tells
of that. -/
theorem Step.inPhase (hStep : Step k k') (hIn : k.InPhase c h) : k'.InPhase c h ∧
    (k'.session.phase = k.session.phase ∧
        (k.outbox = [] → k'.outbox.filter Effect.isPhaseChange = []) ∨
      k.outbox = [] ∧ PhaseId.Moves c k.download k.session.phase k'.session.phase k'.download ∧
        k'.outbox.filter Effect.isPhaseChange =
          [.notify (.phaseChanged h k.session.phase k'.session.phase)]) := by
  rcases hStep.steady with hSteady | ⟨hIdle, rfl⟩
  · exact ⟨hSteady.inPhase hIn, .inl ⟨hSteady.goesOn.phase_eq, hSteady.quiet⟩⟩
  · have hChain : k.advanced.session.chain = .standard c := by
      refine Eq.trans ?_ hIn.chain_eq
      simp only [advanced]
      split <;> rfl
    rcases advanced_cases hIn.chain_eq with ⟨hPhase, hSame, hQuiet⟩ | ⟨hMoves, hTold⟩
    · refine ⟨⟨hChain, ?_, ?_⟩, .inl ⟨hPhase, fun _ => ?_⟩⟩
      · rw [hSame]
        exact hIn.infoHash_eq
      · rw [hSame, hPhase]
        exact hIn.agrees
      · rw [hQuiet]
        rfl
    · rw [hIn.infoHash_eq] at hTold
      exact ⟨⟨hChain, hMoves.infoHash_eq.trans hIn.infoHash_eq, hMoves.agrees⟩,
        .inr ⟨hIdle, hMoves, hTold⟩⟩

/-- The effects that tell of phase changes. -/
def tellings (h : Digest) (changes : List (PhaseId × PhaseId)) : List Effect :=
  changes.map fun e => .notify (.phaseChanged h e.1 e.2)

theorem Run.inPhase {states : List Dispatch} (hRun : Run k₀ states) (hStart : k₀.InPhase c h)
    (hTold : k₀.outbox.filter Effect.isPhaseChange =
      tellings h (PhaseId.lifecycle.take k₀.session.phase.rank)) :
    ∀ k past, states = k :: past → k.InPhase c h ∧
      (calledFor states).filter Effect.isPhaseChange =
        tellings h (PhaseId.lifecycle.take k.session.phase.rank) := by
  induction hRun with
  | start =>
    rintro k past ⟨⟩
    exact ⟨hStart, hTold⟩
  | @step before after past _ hStep ih =>
    rintro k past ⟨⟩
    obtain ⟨hIn, hTold⟩ := ih _ _ rfl
    obtain ⟨hAfter, hOutcome⟩ := hStep.inPhase hIn
    refine ⟨hAfter, ?_⟩
    rw [calledFor, List.filter_append, hTold]
    rcases hOutcome with ⟨hPhase, hQuiet⟩ | ⟨hIdle, hMoves, hChange⟩
    · rw [hPhase]
      split
      · next hIdle => rw [hQuiet hIdle, List.append_nil]
      · exact List.append_nil _
    · rw [if_pos hIdle, hChange, hMoves.lifecycle_take, tellings, tellings, List.map_append]
      rfl

/-- In every state of a run the file set and the strategies are those of the phase; the run so far
has told of the phase changes up to it, each once and in order; and an attempt to go on along the
chain ends after at most three. -/
theorem agrees_of_run (c : PhaseConfig) {t : Torrent} (hFresh : t.download.Fresh) {k : Dispatch}
    {past : List Dispatch} (hRun : Run (fresh c t) (k :: past)) :
    k.session.phase.Agrees k.download ∧
      (calledFor (k :: past)).filter Effect.isPhaseChange =
        tellings t.download.infoHash (PhaseId.lifecycle.take k.session.phase.rank) ∧
      ∃ n ≤ 3, k.session.Advances n k.session.advance.1 k.session.advance.2 := by
  obtain ⟨hIn, hTold⟩ := hRun.inPhase (inPhase_fresh c hFresh) rfl k past rfl
  refine ⟨hIn.agrees, hTold, ?_⟩
  have hLimit : 3 < k.session.phase.rank + Session.changeLimit :=
    Nat.lt_of_lt_of_le (by decide) (Nat.le_add_left ..)
  obtain ⟨n, hAdvances, hRank⟩ := Session.advances_advanceUpTo hIn.chain_eq hLimit
  refine ⟨n, ?_, hAdvances⟩
  have := (k.session.advanceUpTo Session.changeLimit).1.phase.rank_le
  omega

/-! ### A short run

The torrent of one byte is known from the start. Once it is downloading, its file is put in place
from outside, and the disk is checked. -/

open World (oneByte oneByteConfig oneByteContent)

def oneByteKnown : Torrent :=
  { download := (Download.named oneByte.infoHash 1).withMetainfo oneByte
    events := { capacity := 0 }
    tree := { home := [] } }

/-- A disk with its file. -/
def copiedTree : FileTree :=
  { home := [], entries := [(["dl"], .folder), (["dl", "a"], .file [65])] }

/-- The session with this disk, once the check has begun. -/
def copiedChecking : Session :=
  (((fresh oneByteConfig oneByteKnown).session.advanceUpTo 2).1.changeEngine fun e =>
    { e with torrent := { e.torrent with tree := copiedTree } }).beginVerify oneByteContent

/-- The session after the check. -/
def copiedSeeded : Session :=
  (copiedChecking.changeEngine fun e =>
    { e with torrent := ((Job.check .data 0).run e.torrent).after }).endVerify.1

theorem reaches_copiedSeeded :
    (fresh oneByteConfig oneByteKnown).Reaches { session := copiedSeeded } := by
  have hBegun := (Reaches.refl (fresh oneByteConfig oneByteKnown)).advanceUpTo 2
  have hCopied := hBegun.step (.meanwhile {} { capacity := 0 } copiedTree {})
  have hChecking := hCopied.step
    (.beginVerify rfl (rfl : Job.current? _ .data = some oneByteContent))
  exact (hChecking.parts (Job.parts_run (.check .data 0) _)).endVerify

/-- The check finds the byte. -/
theorem run_copiedChecking : (Job.check .data 0).run copiedChecking.engine.torrent =
    Job.finishCheck copiedChecking.engine.torrent .data 0 (.done [65]) := by
  let marked := Session.setUnverified .stored oneByteContent
  have hStored : Job.StoredPiece copiedChecking.engine.torrent.download .data 0 marked
      (Session.setAll .stored (Piece.fresh 0 1 (Digest.ofBytes oneByte.info.pieces) 1)) :=
    ⟨rfl, rfl, rfl, rfl⟩
  have hRead : Storage.read (.disk (.ofMetainfo ⟨"dl"⟩ oneByte)) copiedTree 0 1 =
      (.done [65], .disk (.ofMetainfo ⟨"dl"⟩ oneByte)) := by decide +kernel
  have hBack : Job.readBack copiedChecking.engine.torrent marked
      (Session.setAll .stored (Piece.fresh 0 1 (Digest.ofBytes oneByte.info.pieces) 1)) 0 =
      (.done [65], marked.storage) := hRead
  rw [Job.run_check_of_stored hStored, hBack, Torrent.setStorage_self hStored.fileSet]

theorem agrees_of_run_copiedSeeded : ∃ past,
    Run (fresh oneByteConfig oneByteKnown) ({ session := copiedSeeded } :: past) ∧
      copiedSeeded.phase = .seed ∧ PhaseId.seed.Agrees copiedSeeded.download ∧
      (calledFor ({ session := copiedSeeded } :: past)).filter Effect.isPhaseChange =
        tellings oneByte.infoHash PhaseId.lifecycle := by
  have hSeed : copiedSeeded.phase = .seed := by
    rw [copiedSeeded, Session.changeEngine, run_copiedChecking]
    decide +kernel
  obtain ⟨past, hRun⟩ := reaches_copiedSeeded
  obtain ⟨hAgrees, hTold, _⟩ := agrees_of_run oneByteConfig (.known ..) hRun
  rw [hSeed] at hAgrees hTold
  exact ⟨past, hRun, hSeed, hAgrees, hTold⟩

end Dispatch

end TorrentEngine
