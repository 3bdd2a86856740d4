import TorrentEngine.Proofs.Outstanding
import TorrentEngine.Proofs.Results
import TorrentEngine.Proofs.World

/-!
What a step can do to the parts of a world that matter for its storage. A `View` keeps these parts,
`Change` lists the seven ways in which a step changes them, and `World.Step.change` says that there
are no others. Invariants of runs are proved from `Change` alone.
-/

namespace TorrentEngine

/-! ### The jobs that effects call for -/

namespace Job

/-- A job of the current file set: a block to store fits its place. -/
inductive Fits (d : Download) : Job → Prop
  | send (peer : PeerId) (line : LineId) (i offset length : Nat) :
      Fits d (.send peer line i offset length)
  | store {kind : FileSetKind} {i b : Nat} {data : Bytes} {fs : FileSet} {p : Piece}
      (hfs : current? d kind = some fs) (hp : fs.pieces[i]? = some p)
      (h : p.checkBlock b data.length = .ok ()) : Fits d (.store kind i b data)

end Job

namespace Download

variable {d d' : Download} {effects : List Effect} {effect : Effect} {job : Job}
  {lineOf? : PeerId → Option LineId}

theorem takeBlock_fits {fs : FileSet} {now : Time} {id : PeerId} {i b : Nat} {data : Bytes}
    (hfs : d.fileSet = some fs) (h : d.takeBlock fs now id i b data = (d', .ok effects))
    (hEffect : effect ∈ effects) (hJob : effect.job? lineOf? = some job) : job.Fits d := by
  simp only [takeBlock] at h
  split at h
  · cases h
  · next p hp =>
    split at h
    · cases h
    · next hBlock =>
      split at h
      · obtain ⟨rfl, rfl⟩ := by simpa using h
        cases hEffect
      · obtain ⟨rfl, rfl⟩ := by simpa using h
        obtain rfl := List.mem_singleton.mp hEffect
        obtain rfl := Option.some.inj hJob
        exact .store (Job.current?_eq_some.mpr ⟨hfs, rfl⟩) (FileSet.piece_eq_ok.mp hp) hBlock

/-- Input from a peer calls for jobs of the current file set only. -/
theorem handle_fits {now : Time} {c : Command} (h : d.handle now c = (d', .ok effects))
    (hEffect : effect ∈ effects) (hJob : effect.job? lineOf? = some job) : job.Fits d := by
  cases c with
  | block id i offset data =>
    simp only [handle] at h
    split at h
    · obtain ⟨rfl, rfl⟩ := by simpa using h
      cases hEffect
    · next fs hfs =>
      split at h
      · cases h
      · exact takeBlock_fits (Option.filter_eq_some_iff.mp hfs).1 h hEffect hJob
  | metadataBlock id b data =>
    simp only [handle] at h
    split at h
    · obtain ⟨rfl, rfl⟩ := by simpa using h
      cases hEffect
    · next fs hfs => exact takeBlock_fits (Option.filter_eq_some_iff.mp hfs).1 h hEffect hJob
  | requestUpload id i offset length =>
    simp only [handle] at h
    split at h
    · obtain ⟨rfl, rfl⟩ := by simpa using h
      obtain rfl := List.mem_singleton.mp hEffect
      obtain ⟨line, _, rfl⟩ := Option.map_eq_some_iff.mp hJob
      exact .send ..
    · obtain ⟨rfl, rfl⟩ := by simpa using h
      cases hEffect
  | _ =>
    obtain ⟨rfl, rfl⟩ := by simpa [handle] using h
    cases hEffect

theorem serveAll_sends (r : Rarity) (now : Time) (ids : List PeerId) (d : Download) :
    ∀ effect ∈ (serveAll r now ids d).2, ∃ id m, effect = .send id m := by
  induction ids generalizing d with
  | nil => intro effect h; cases h
  | cons id rest ih =>
    intro effect h
    rcases List.mem_append.mp h with h | h
    · obtain ⟨m, _, rfl⟩ := List.mem_map.mp h
      exact ⟨id, m, rfl⟩
    · exact ih _ effect h

/-- A scheduling pass calls for no jobs. -/
theorem tick_jobless {relevant : List PeerId} {now : Time}
    (h : effect ∈ (d.tick relevant now).2) : effect.job? lineOf? = none := by
  obtain ⟨id, m, rfl⟩ := serveAll_sends _ now relevant d effect h
  rfl

end Download

/-! ### Phase changes -/

/-- Whether an effect tells that the download is over. -/
def Effect.EndsDownload : Effect → Prop
  | .notify (.downloadComplete _) => True
  | .notify (.phaseChanged _ left _) => left = .data
  | _ => False

namespace PhaseId

theorem ofMetadata_ok {size : Nat} {infoHash : Digest} {storage : Storage} {fs : FileSet}
    (h : FileSet.ofMetadata size infoHash storage = .ok fs) :
    FileSet.create .metadata (max size 1) size [infoHash] metadataBlockSize storage = .ok fs := by
  simp only [FileSet.ofMetadata] at h
  split at h
  · exact h
  · cases h

/-- The file set of the metadata is in memory. -/
theorem metadataFileSet_ok {d : Download} {fs : FileSet} (h : metadataFileSet d = .ok fs) :
    ∃ b created, FileSet.create .metadata (max b.length 1) b.length [d.infoHash] metadataBlockSize
        (.memory b) = .ok created ∧
      (fs = created ∨ fs = { created with pieces := created.pieces.map Piece.markVerified }) := by
  simp only [metadataFileSet] at h
  split at h
  · next bytes _ =>
    have hKnown := mapError_eq_ok.mp h
    simp only [FileSet.forKnownMetadata] at hKnown
    cases hCreated : FileSet.ofMetadata bytes.length d.infoHash (.memory bytes) with
    | error e => simp [hCreated] at hKnown
    | ok created =>
      rw [hCreated] at hKnown
      cases hKnown
      exact ⟨bytes, created, ofMetadata_ok hCreated, .inr rfl⟩
  · next size _ _ =>
    have hFetched := mapError_eq_ok.mp h
    simp only [FileSet.forMetadata] at hFetched
    split at hFetched
    · cases hFetched
    · refine ⟨List.replicate size 0, fs, ?_, .inl rfl⟩
      simpa using ofMetadata_ok hFetched
  · cases h

/-- The file set of a torrent's content is on disk, one piece for each digest. -/
theorem forTorrent_ok {m : Metainfo} {root : Path} {blockSize : Nat} {fs : FileSet}
    (h : FileSet.forTorrent m root blockSize = .ok fs) :
    FileSet.create .data m.info.pieceLength.toNat (Layout.ofMetainfo root m).totalSize
      m.pieceDigests blockSize (.disk (Layout.ofMetainfo root m)) = .ok fs := by
  simp only [FileSet.forTorrent] at h
  split at h
  · cases h
  · split at h
    · exact mapError_eq_ok.mp h
    · cases h

/-- What beginning to download does. -/
theorem enterData_eq_ok {c : PhaseConfig} {d d' : Download} {effects : List Effect}
    (h : enterData c d = .ok (d', effects)) :
    ∃ m fs, torrentOf d = .ok m ∧ FileSet.forTorrent m (rootFolder c m) c.blockSize = .ok fs ∧
      d' = { d with
        peers := d.peers.map fun _ p => p.dropRequests
        pendingChecks := 0
        fileSet := some fs
        metainfo := some m
        selector := .rarest
        choking := .permissive } ∧
      effects = (fs.layout?.map Effect.allocate).toList := by
  obtain ⟨m, hm, h⟩ := bind_eq_ok.mp h
  obtain ⟨fs, hfs, h⟩ := bind_eq_ok.mp h
  obtain ⟨rfl, rfl⟩ := Prod.mk.inj (Except.ok.inj h)
  exact ⟨m, fs, hm, hfs, rfl, rfl⟩

/-- The phase changes of the standard chain: the state before, the phases, and the state after. -/
inductive Moves (c : PhaseConfig) (d : Download) : PhaseId → PhaseId → Download → Prop
  | toMetadata {fs : FileSet} (h : metadataFileSet d = .ok fs) :
      Moves c d .preMetadata .metadata
        { d with fileSet := some fs, selector := .single, choking := .metadata }
  | toData {m : Metainfo} {fs : FileSet} (hDone : isDone .metadata d) (hm : torrentOf d = .ok m)
      (h : FileSet.forTorrent m (rootFolder c m) c.blockSize = .ok fs) :
      Moves c d .metadata .data
        { d with
          peers := d.peers.map fun _ p => p.dropRequests
          pendingChecks := 0
          fileSet := some fs
          metainfo := some m
          selector := .rarest
          choking := .permissive }
  | toSeed (hDone : isDone .data d) :
      Moves c d .data .seed
        { d with
          peers := d.peers.map fun _ p => settle p, selector := .null, choking := .upload }

/-- What one attempt to go on along the standard chain can come to. -/
inductive Attempts (c : PhaseConfig) (d : Download) (phase : PhaseId) :
    Download × List Effect × PhaseChain.Advance → Prop
  | stayed : Attempts c d phase (d, [], .stay)
  | failed {effects : List Effect} (e : PhaseError)
      (hEnds : ∀ effect ∈ effects, ¬ effect.EndsDownload) :
      Attempts c d phase (d, effects, .failed e)
  | moved {next : PhaseId} {d' : Download} {effects : List Effect} (h : Moves c d phase next d')
      (hJobless : ∀ effect ∈ effects, ∀ lineOf?, effect.job? lineOf? = none)
      (hEnds : ∀ effect ∈ effects, effect.EndsDownload → phase = .data) :
      Attempts c d phase (d', effects, .moved next)

theorem successor?_standard (c : PhaseConfig) (phase : PhaseId) (d : Download) :
    (PhaseChain.standard c).successor? phase d =
      if phase.isDone d then
        match phase with
        | .preMetadata => some (.metadata, .metadata)
        | .metadata => some (.data, .data)
        | .data => some (.seed, .seed)
        | .seed => none
      else none := by
  simp only [PhaseChain.successor?]
  split
  · cases phase <;> rfl
  · rfl

theorem advance_attempts (c : PhaseConfig) (phase : PhaseId) (d : Download) :
    Attempts c d phase ((PhaseChain.standard c).advance phase d) := by
  have hConfig : (PhaseChain.standard c).config = c := rfl
  simp only [PhaseChain.advance, successor?_standard, hConfig]
  by_cases hDone : phase.isDone d = true
  · rw [if_pos hDone]
    cases phase with
    | preMetadata =>
      simp only [leave]
      cases hfs : metadataFileSet d with
      | error e => exact .failed e (by simp)
      | ok fs =>
        obtain ⟨b, created, hCreated, hEq⟩ := metadataFileSet_ok hfs
        obtain ⟨_, _, hShape⟩ := FileSet.create_eq_ok hCreated
        have hKind : fs.kind = .metadata := by
          rcases hEq with rfl | rfl <;> rw [hShape]
        have hWorks : Download.worksOn { d with fileSet := some fs } .metadata = true := by
          simp [Download.worksOn, Download.kind?, hKind]
        simp only [bind, Except.bind, pure, Except.pure, enter, hWorks, if_true]
        exact .moved (.toMetadata hfs) (by simp [Effect.job?]) (by simp [Effect.EndsDownload])
    | metadata =>
      simp only [leave]
      cases hBytes : d.metadataBytes with
      | none => exact .failed _ (by simp)
      | some bytes =>
        simp only [enter, enterData, bind, Except.bind, pure, Except.pure]
        cases hm : torrentOf d with
        | error e => exact .failed e (by simp [Effect.EndsDownload])
        | ok m =>
          dsimp only
          cases hfs : FileSet.forTorrent m (rootFolder c m) c.blockSize with
          | error e => exact .failed e (by simp [Effect.EndsDownload])
          | ok fs =>
            refine .moved (.toData hDone hm hfs) ?_ ?_ <;>
              simp only [List.mem_append, List.mem_cons, List.not_mem_nil, or_false,
                Option.mem_toList, Option.map_eq_some_iff]
            · rintro effect (((rfl | rfl) | ⟨layout, _, rfl⟩) | rfl) lineOf? <;> rfl
            · rintro effect (((rfl | rfl) | ⟨layout, _, rfl⟩) | rfl) hEnds <;> cases hEnds
    | data =>
      simp only [leave, enter, enterSeed]
      refine .moved (.toSeed hDone) (fun effect hEffect lineOf? => ?_) fun _ _ _ => rfl
      simp only [List.mem_append, List.mem_cons, List.not_mem_nil, or_false, List.mem_map]
        at hEffect
      rcases hEffect with ((rfl | rfl) | ⟨peer, _, rfl⟩) | rfl <;> rfl
    | seed => cases hDone
  · rw [if_neg hDone]
    exact .stayed

end PhaseId

/-- A session whose phase is not done stays as it is. -/
theorem Session.advanceUpTo_of_not_done {s : Session} (h : s.phase.isDone s.download = false)
    (limit : Nat) : s.advanceUpTo limit = (s, .ok ()) := by
  have hStay : s.chain.advance s.phase s.download = (s.download, [], .stay) := by
    simp [PhaseChain.advance, PhaseChain.successor?, h]
  cases limit with
  | zero => rfl
  | succ limit =>
    simp only [advanceUpTo, hStay]
    rfl

/-! ### Changes -/

/-- The parts of a world that matter for its storage. -/
structure View where
  phase : PhaseId
  download : Download
  jobs : Multiset Job
  disk : Bytes
  verifying : Nat

/-- The view of a world. -/
def World.view (w : World) : View :=
  { phase := w.session.phase, download := w.download, jobs := w.jobs, disk := w.disk
    verifying := w.verifying }

/-- What one step does to a view. -/
inductive Change (c : PhaseConfig) (may : Miss → Prop) (v : View) : View → Prop
  | quiet {d : Download} {added : Multiset Job} (hCore : d.core = v.download.core)
      (hFits : ∀ job ∈ added, job.Fits v.download) :
      Change c may v { v with download := d, jobs := added + v.jobs }
  | moved {phase : PhaseId} {d : Download} (h : PhaseId.Moves c v.download v.phase phase d) :
      Change c may v { v with phase, download := d }
  | begun {fs : FileSet} (h : Job.current? v.download .data = some fs) :
      Change c may v
        { v with
          download := { v.download with
            fileSet := some (Session.setUnverified .stored fs)
            pendingChecks := v.download.pendingChecks + (Session.unverified fs).length }
          jobs := ((Session.unverified fs).map (Job.check .data) : List Job) + v.jobs
          verifying := v.verifying + 1 }
  | ended {fs : FileSet} (h : v.download.fileSet = some fs) (hBegun : 0 < v.verifying) :
      Change c may v
        { v with
          download := { v.download with fileSet := some (Session.setUnverified .needed fs) }
          verifying := v.verifying - 1 }
  | executed {job : Job} {rest left : Multiset Job} {d : Download} {disk : Bytes}
      (hJobs : v.jobs = job ::ₘ rest) (h : Job.Turns may v.download v.disk job d disk left) :
      Change c may v { v with download := d, jobs := left + rest, disk }

/-- A change of what requests leave alone only. -/
theorem Change.core {c : PhaseConfig} {may : Miss → Prop} {v : View} {d : Download}
    (hCore : d.core = v.download.core) : Change c may v { v with download := d } := by
  have h : Change c may v { v with download := d, jobs := 0 + v.jobs } := .quiet hCore (by simp)
  rwa [Multiset.zero_add] at h

namespace World

variable {c : PhaseConfig} {may : Miss → Prop} {w w' : World}

theorem change_command (w : World) (now : Time) (cmd : Command) :
    Change c may w.view { w with session := w.session.command now cmd }.view := by
  have hCore := Download.core_handle w.download now cmd
  cases hHandle : w.download.handle now cmd with
  | mk d result =>
    have hEngine : w.session.engine.handle now cmd = (w.session.engine.setDownload d, result) := by
      simp only [Engine.handle]
      rw [show w.session.engine.download = w.download from rfl, hHandle]
    rw [hHandle] at hCore
    cases result with
    | error e =>
      simp only [Session.command, hEngine]
      exact .core hCore
    | ok effects =>
      have hFits : ∀ job ∈ (effects.filterMap
          (Effect.job? (w.session.engine.setDownload d).torrent.lineOf?) : Multiset Job),
          job.Fits w.download := by
        intro job hJob
        obtain ⟨effect, hEffect, hJob⟩ := List.mem_filterMap.mp (Multiset.mem_coe.mp hJob)
        exact Download.handle_fits hHandle hEffect hJob
      have h : Change c may w.view _ := .quiet hCore hFits
      have hBag := Engine.bag_carryOutAll (w.session.engine.setDownload d) effects
      have hDownload := Engine.download_carryOutAll (w.session.engine.setDownload d) effects
      simp only [Session.command, hEngine]
      simp only [view, download, jobs, Session.download, hBag, hDownload] at h ⊢
      exact h

theorem change_pass (w : World) (relevant : List PeerId) (now : Time) :
    Change c may w.view { w with session := w.session.pass relevant now }.view := by
  have hCore := Download.core_tick w.download relevant now
  have hBag := Engine.bag_carryOutAll
    (w.session.engine.setDownload (w.download.tick relevant now).1)
    (w.download.tick relevant now).2
  have hDownload := Engine.download_carryOutAll
    (w.session.engine.setDownload (w.download.tick relevant now).1)
    (w.download.tick relevant now).2
  rw [List.filterMap_eq_nil_iff.mpr fun effect h => Download.tick_jobless h] at hBag
  have h : Change c may w.view _ := .core hCore
  simp only [view, download, jobs, Session.download, Session.pass, Engine.tick]
    at h hBag hDownload ⊢
  rw [hBag, hDownload]
  simpa using h

theorem change_advance (w : World) (hChain : w.session.chain = .standard c) :
    Change c may w.view { w with session := (w.session.advanceUpTo 1).1 }.view := by
  have hAttempts := PhaseId.advance_attempts c w.session.phase w.session.download
  simp only [Session.advanceUpTo, hChain]
  generalize (PhaseChain.standard c).advance w.session.phase w.session.download = attempt
    at hAttempts ⊢
  cases hAttempts with
  | stayed => exact .core rfl
  | failed e => exact .core rfl
  | @moved next d effects h hJobless _ =>
    have hBag := Engine.bag_carryOutAll (w.session.engine.setDownload d) effects
    have hDownload := Engine.download_carryOutAll (w.session.engine.setDownload d) effects
    rw [List.filterMap_eq_nil_iff.mpr fun effect hEffect => hJobless effect hEffect _] at hBag
    have hMoved : Change c may w.view _ := .moved h
    simp only [view, download, jobs, Session.download, Session.changeEngine] at hMoved hBag ⊢
    rw [hBag, hDownload]
    simpa using hMoved

theorem bag_submitChecks (e : Engine) (pieces : List Nat) :
    (pieces.foldl (fun e i => e.submit (.check .data i)) e).bag =
      (pieces.map (Job.check .data) : List Job) + e.bag ∧
    (pieces.foldl (fun e i => e.submit (.check .data i)) e).download = e.download := by
  rw [Engine.submitChecks_eq]
  refine ⟨?_, rfl⟩
  rw [Engine.bag, Scheduler.bag_submitAll, List.map_map]
  rfl

theorem change_beginVerify (w : World) {fs : FileSet}
    (h : Job.current? w.download .data = some fs) :
    Change c may w.view
      { w with session := w.session.beginVerify fs, verifying := w.verifying + 1 }.view := by
  have hBegun : Change c may w.view _ := .begun h
  simp only [view, download, jobs, Session.download, Session.beginVerify, Session.change,
    Session.changeEngine, bag_submitChecks] at hBegun ⊢
  exact hBegun

theorem change_execute (w : World) {entry : QueuedJob Job} {rest : Scheduler Job}
    {o : Job.Outcome} {disk : Bytes} (hTake : w.session.engine.scheduler.Takes entry rest)
    (hRun : Job.Executes may w.session.engine.torrent w.disk entry.job o disk) :
    Change c may w.view { w with session := settleRun w.session rest entry o, disk }.view := by
  have h : Change c may w.view _ := .executed hTake.bag hRun.turns
  have hBag : (settleRun w.session rest entry o).engine.bag = o.left entry.job + rest.bag := by
    simp only [settleRun, Session.changeEngine, Engine.bag, Scheduler.bag_settle_submitAll,
      Job.Outcome.left, List.map_map, Function.comp_def, List.map_id']
    rw [Multiset.add_assoc]
  simp only [view, download, jobs, hBag] at h ⊢
  exact h

/-- Every step is one of the changes of the view, and stays on the chain. -/
theorem Step.change (h : Step may w w') (hChain : w.session.chain = .standard c) :
    Change c may w.view w'.view := by
  cases h with
  | command now cmd => exact change_command w now cmd
  | pass relevant now => exact change_pass w relevant now
  | advance => exact change_advance w hChain
  | beginVerify h => exact change_beginVerify w h
  | endVerify h hBegun => exact .ended h hBegun
  | execute hTake hRun => exact change_execute w hTake hRun
  | elapse now =>
    have hBag : ({ w.session.engine.scheduler with now }.wake).bag = w.jobs :=
      Scheduler.bag_wake _
    have h : Change c may w.view _ := .core (d := w.view.download) rfl
    simp only [view, download, jobs, Session.changeEngine, Engine.bag, hBag] at h ⊢
    exact h
  | surroundings network events tree => exact .core rfl

theorem chain_advanceUpTo (limit : Nat) (s : Session) :
    (s.advanceUpTo limit).1.chain = s.chain := by
  induction limit generalizing s with
  | zero => rfl
  | succ limit ih =>
    simp only [Session.advanceUpTo]
    split
    · rfl
    · rfl
    · rw [ih]
      rfl

theorem Step.chain_eq (h : Step may w w') : w'.session.chain = w.session.chain := by
  cases h with
  | command now cmd =>
    simp only [Session.command]
    split <;> rfl
  | advance => exact chain_advanceUpTo ..
  | _ => rfl

theorem Reachable.chain_eq (h : Reachable c may w) : w.session.chain = .standard c := by
  induction h with
  | fresh h => exact h.chain_eq
  | step _ hStep ih => exact hStep.chain_eq.trans ih

/-- What holds of every beginning and is kept by every change holds of every world reached. -/
theorem Reachable.view_induction {motive : View → Prop} (hReachable : Reachable c may w)
    (hFresh : ∀ w, Fresh c w → motive w.view)
    (hChange : ∀ v v', motive v → Change c may v v' → motive v') : motive w.view := by
  induction hReachable with
  | fresh h => exact hFresh _ h
  | step h hStep ih => exact hChange _ _ ih (hStep.change h.chain_eq)

end World

end TorrentEngine
