import TorrentEngine.Proofs.Changes

/-!
Phase changes in place. Leaving a phase and entering the next one work on one torrent, assignment
after assignment, and what they assigned before a failure would stay. `PhaseChain.on_proceed` says
that going on along a chain in this way comes to what `PhaseChain.advance` gives, failures included.
On the standard chain no assignment comes before the last step that can fail, so that a phase change
that fails leaves the torrent as it was.
-/

namespace TorrentEngine

/-- A computation on a torrent and the list of its effects. What it did before it failed stays. -/
abbrev Hook := EStateM PhaseError (Download × List Effect)

namespace Hook

variable {α β : Type} {d : Download} {effects : List Effect}

/-- What a computation comes to, and the torrent and the effects after it. -/
def on (h : Hook α) (d : Download) (effects : List Effect) :
    Except PhaseError α × Download × List Effect :=
  match h.run (d, effects) with
  | .ok a after => (.ok a, after)
  | .error e after => (.error e, after)

def download : Hook Download := return (← get).1

def assign (f : Download → Download) : Hook Unit := modify fun s => (f s.1, s.2)

def emit (effect : Effect) : Hook Unit := modify fun s => (s.1, s.2 ++ [effect])

/-- The value of a computation without a state, or its failure. -/
def require : Except PhaseError α → Hook α
  | .ok a => return a
  | .error e => throw e

theorem on_bind (h : Hook α) (f : α → Hook β) :
    (h >>= f).on d effects =
      match h.on d effects with
      | (.ok a, after) => (f a).on after.1 after.2
      | (.error e, after) => (.error e, after) := by
  show (match EStateM.bind h f (d, effects) with
    | .ok a after => (Except.ok a, after)
    | .error e after => (Except.error e, after)) = _
  unfold EStateM.bind on EStateM.run
  cases h (d, effects) <;> rfl

@[simp] theorem on_pure (a : α) : (pure a : Hook α).on d effects = (.ok a, d, effects) := rfl

@[simp] theorem on_download : download.on d effects = (.ok d, d, effects) := rfl

@[simp] theorem on_assign (f : Download → Download) :
    (assign f).on d effects = (.ok (), f d, effects) := rfl

@[simp] theorem on_emit (effect : Effect) :
    (emit effect).on d effects = (.ok (), d, effects ++ [effect]) := rfl

@[simp] theorem on_require (r : Except PhaseError α) :
    (require r).on d effects = (r, d, effects) := by
  cases r <;> rfl

theorem on_forM_emit (told : List Effect) (effects : List Effect) :
    (told.forM emit).on d effects = (.ok (), d, effects ++ told) := by
  induction told generalizing effects with
  | nil => rw [List.append_nil]; rfl
  | cons effect rest ih =>
    show (emit effect >>= fun _ => rest.forM emit).on d effects = _
    rw [on_bind, on_emit]
    show (rest.forM emit).on d (effects ++ [effect]) = _
    rw [ih, List.append_assoc]
    rfl

end Hook

namespace PhaseId

open Hook

/-- Leaving a phase, in place. -/
def leaving (phase : PhaseId) (c : PhaseConfig) : Hook Unit :=
  match phase with
  | .preMetadata => do
    let fs ← require (metadataFileSet (← download))
    assign fun d => { d with fileSet := some fs }
  | .metadata => do
    let d ← download
    match d.metadataBytes with
    | none => throw .missingMetadata
    | some bytes =>
      emit (.persist (metadataFile c d) (wrapInfo bytes))
      emit (.notify (.metadataLoaded d.infoHash))
  | .data => do
    let d ← download
    emit (.notify (.downloadComplete d.infoHash))
    emit (.notify (.announceCompleted d.infoHash ((d.metainfo.map (·.trackers)).getD [])))
  | .seed => return ()

/-- Beginning to download the content, in place. -/
def enteringData (c : PhaseConfig) : Hook Unit := do
  let m ← require (torrentOf (← download))
  let fs ← require (FileSet.forTorrent m (rootFolder c m) c.blockSize)
  (fs.layout?.map Effect.allocate).toList.forM emit
  assign fun d => { d with peers := d.peers.map fun _ p => p.dropRequests }
  assign fun d => { d with pendingChecks := 0 }
  assign fun d => { d with fileSet := some fs }
  assign fun d => { d with metainfo := some m }
  assign fun d => { d with selector := .rarest }
  assign fun d => { d with choking := .permissive }

/-- Entering a phase, in place. -/
def entering (phase : PhaseId) (c : PhaseConfig) : Hook Unit :=
  match phase with
  | .preMetadata => do
    assign fun d => { d with selector := .null }
    assign fun d => { d with choking := .metadata }
  | .metadata => do
    if (← download).worksOn .metadata then
      assign fun d => { d with selector := .single }
      assign fun d => { d with choking := .metadata }
    else throw .missingMetadata
  | .data => enteringData c
  | .seed => do
    assign fun d => { d with selector := .null }
    assign fun d => { d with choking := .upload }
    -- Nothing fails from here on, so the peers may be settled in one assignment.
    let (settled, told) := enterSeed (← download)
    assign fun _ => settled
    told.forM emit

/-- Leaving in place is leaving: a failure comes before the first assignment. -/
theorem on_leaving (phase : PhaseId) (c : PhaseConfig) (d : Download) (effects : List Effect) :
    (phase.leaving c).on d effects =
      match phase.leave c d with
      | .ok (left, more) => (.ok (), left, effects ++ more)
      | .error e => (.error e, d, effects) := by
  cases phase with
  | preMetadata =>
    simp only [leaving, leave, on_bind, on_download, on_require]
    cases metadataFileSet d with
    | error e => rfl
    | ok fs =>
      show (assign _).on d effects = _
      rw [on_assign]
      show _ = (Except.ok (), { d with fileSet := some fs }, effects ++ [])
      rw [List.append_nil]
  | metadata =>
    simp only [leaving, leave, on_bind, on_download]
    cases d.metadataBytes with
    | none => rfl
    | some bytes =>
      simp only [on_bind, on_emit, List.append_assoc]
      rfl
  | data =>
    simp only [leaving, leave, on_bind, on_download, on_emit, List.append_assoc]
    rfl
  | seed =>
    show (Except.ok (), d, effects) = (Except.ok (), d, effects ++ [])
    rw [List.append_nil]

/-- The two steps that can fail come first, and assign nothing. -/
theorem on_enteringData (c : PhaseConfig) (d : Download) (effects : List Effect) :
    (enteringData c).on d effects =
      match enterData c d with
      | .ok (entered, more) => (.ok (), entered, effects ++ more)
      | .error e => (.error e, d, effects) := by
  simp only [enteringData, enterData, on_bind, on_download, on_require]
  cases torrentOf d with
  | error e => rfl
  | ok m =>
    simp only [bind, Except.bind]
    cases FileSet.forTorrent m (rootFolder c m) c.blockSize with
    | error e => rfl
    | ok fs =>
      simp only [on_forM_emit, on_assign]
      rfl

theorem on_entering (phase : PhaseId) (c : PhaseConfig) (d : Download) (effects : List Effect) :
    (phase.entering c).on d effects =
      match phase.enter c d with
      | .ok (entered, more) => (.ok (), entered, effects ++ more)
      | .error e => (.error e, d, effects) := by
  cases phase with
  | preMetadata =>
    simp only [entering, enter, on_bind, on_assign, List.append_nil]
  | metadata =>
    simp only [entering, enter, on_bind, on_download]
    cases d.worksOn .metadata with
    | false => rfl
    | true => simp only [if_true, on_bind, on_assign, List.append_nil]
  | data => exact on_enteringData c d effects
  | seed =>
    simp only [entering, enter, on_bind, on_assign, on_download, on_forM_emit]
    rfl

end PhaseId

namespace PhaseChain

open Hook

/-- Goes on to the next phase, if the current one is done, in place. -/
def proceed (c : PhaseChain) (current : PhaseId) : Hook (Option PhaseId) := do
  match c.successor? current (← download) with
  | none => return none
  | some (id, phase) =>
    current.leaving c.config
    phase.entering c.config
    emit (.notify (.phaseChanged (← download).infoHash current id))
    return some phase

/-- The phase to go on with, if there is one, or why it could not begin. -/
def Advance.result : Advance → Except PhaseError (Option PhaseId)
  | .stay => .ok none
  | .moved phase => .ok (some phase)
  | .failed e => .error e

theorem Advance.result_eq_error {a : Advance} {e : PhaseError} :
    a.result = .error e ↔ a = .failed e := by
  cases a <;> simp [Advance.result]

theorem Advance.result_eq_none {a : Advance} : a.result = .ok none ↔ a = .stay := by
  cases a <;> simp [Advance.result]

theorem leave_infoHash {phase : PhaseId} {c : PhaseConfig} {d left : Download}
    {effects : List Effect} (h : phase.leave c d = .ok (left, effects)) :
    left.infoHash = d.infoHash := by
  cases phase with
  | preMetadata =>
    obtain ⟨fs, _, h⟩ := bind_eq_ok.mp h
    cases h
    rfl
  | metadata =>
    unfold PhaseId.leave at h
    dsimp only at h
    split at h <;> cases h
    rfl
  | data => cases h; rfl
  | seed => cases h; rfl

theorem enter_infoHash {phase : PhaseId} {c : PhaseConfig} {d entered : Download}
    {effects : List Effect} (h : phase.enter c d = .ok (entered, effects)) :
    entered.infoHash = d.infoHash := by
  cases phase with
  | preMetadata => cases h; rfl
  | metadata =>
    unfold PhaseId.enter at h
    dsimp only at h
    split at h <;> cases h
    rfl
  | data =>
    obtain ⟨m, fs, _, _, rfl, _⟩ := PhaseId.enterData_eq_ok h
    rfl
  | seed => cases h; rfl

/-- Going on in place comes to one step along the chain, whatever the chain and the torrent are. -/
theorem on_proceed (c : PhaseChain) (current : PhaseId) (d : Download) (effects : List Effect) :
    (c.proceed current).on d effects =
      ((c.advance current d).2.2.result, (c.advance current d).1,
        effects ++ (c.advance current d).2.1) := by
  simp only [proceed, advance, on_bind, on_download]
  cases c.successor? current d with
  | none =>
    show (Except.ok none, d, effects) = (Except.ok none, d, effects ++ [])
    rw [List.append_nil]
  | some next =>
    obtain ⟨id, phase⟩ := next
    simp only [on_bind, PhaseId.on_leaving]
    cases hLeave : current.leave c.config d with
    | error e =>
      show (Except.error e, d, effects) = (Except.error e, d, effects ++ [])
      rw [List.append_nil]
    | ok leave =>
      obtain ⟨left, before⟩ := leave
      simp only [PhaseId.on_entering]
      cases hEnter : phase.enter c.config left with
      | error e => rfl
      | ok enter =>
        obtain ⟨entered, more⟩ := enter
        have hHash : entered.infoHash = d.infoHash :=
          (enter_infoHash hEnter).trans (leave_infoHash hLeave)
        simp only [on_download, on_emit, on_pure, hHash, List.append_assoc]
        rfl

/-- A step along a chain stays where it is only for want of a phase to go on with. -/
theorem advance_stays {c : PhaseChain} {current : PhaseId} {d : Download}
    (h : c.successor? current d = none) : c.advance current d = (d, [], .stay) := by
  unfold advance
  rw [h]

theorem advance_ne_stay {c : PhaseChain} {current id phase : PhaseId} {d : Download}
    (h : c.successor? current d = some (id, phase)) : (c.advance current d).2.2 ≠ .stay := by
  unfold advance
  rw [h]
  dsimp only
  split
  · exact Advance.noConfusion
  · split <;> exact Advance.noConfusion

/-- On the standard chain every phase that is done has one to go on with. -/
theorem standard_successor? (config : PhaseConfig) (current : PhaseId) (d : Download) :
    (standard config).successor? current d = none ↔ current.isDone d = false := by
  rw [PhaseId.successor?_standard]
  cases current with
  | seed => simp [PhaseId.isDone]
  | _ => simp

theorem keeps_of_failed {config : PhaseConfig} {d : Download} {current : PhaseId}
    {advanced : Download × List Effect × Advance}
    (h : PhaseId.Attempts config d current advanced) {e : PhaseError}
    (hFailed : advanced.2.2 = .failed e) : advanced.1 = d := by
  cases h with
  | stayed => cases hFailed
  | failed => rfl
  | moved => cases hFailed

/-- A phase change that fails leaves the torrent as it was, whatever its state and its phase, and
one that has nowhere to go leaves the effects as they were as well. Both hold of the change in
place, where what was assigned before a failure would stay. -/
theorem standard_failure_keeps (config : PhaseConfig) (current : PhaseId) (d : Download)
    (effects : List Effect) :
    let advanced := (standard config).advance current d
    let after := ((standard config).proceed current).on d effects
    after = (advanced.2.2.result, advanced.1, effects ++ advanced.2.1) ∧
      (∀ e, after.1 = .error e → after.2.1 = d) ∧
      (after.1 = .ok none → after.2 = (d, effects)) ∧
      (after.1 = .ok none ↔ current.isDone d = false) := by
  intro advanced after
  have hAfter : after = (advanced.2.2.result, advanced.1, effects ++ advanced.2.1) :=
    on_proceed (standard config) current d effects
  have hStays : after.1 = .ok none ↔ current.isDone d = false := by
    rw [hAfter, Advance.result_eq_none, ← standard_successor? config]
    cases hNext : (standard config).successor? current d with
    | none => simp [advanced, advance_stays hNext]
    | some next => simpa using advance_ne_stay hNext
  refine ⟨hAfter, fun e hError => ?_, fun hNone => ?_, hStays⟩
  · rw [hAfter] at hError ⊢
    have hFailed : advanced.2.2 = .failed e := Advance.result_eq_error.mp hError
    exact keeps_of_failed (PhaseId.advance_attempts config current d) hFailed
  · have hNext := (standard_successor? config current d).mpr (hStays.mp hNone)
    have hAdvanced : advanced = (d, [], .stay) := advance_stays hNext
    rw [hAfter, hAdvanced, List.append_nil]

/-- Metadata that were fetched whole, as an empty dictionary, which names no files. -/
def emptyFetched : Download :=
  { Download.named Digest.zero 5 with
    metadataBytes := some [0x64, 0x65]
    fileSet := (FileSet.forKnownMetadata [0x64, 0x65] Digest.zero).toOption }

/-- The phase that fetches metadata is left, with two effects, before the next one finds that they
cannot be read. -/
theorem standard_failure_keeps_emptyFetched :
    let after := ((standard oneByteConfig).proceed .metadata).on emptyFetched []
    (∃ e, after.1 = .error e) ∧ after.2.2.length = 2 ∧ after.2.1 = emptyFetched := by
  intro after
  have hKeeps := standard_failure_keeps oneByteConfig .metadata emptyFetched []
  have hError : ∃ e, after.1 = .error e := ⟨_, rfl⟩
  obtain ⟨e, he⟩ := hError
  exact ⟨⟨e, he⟩, rfl, hKeeps.2.1 e he⟩

end PhaseChain

end TorrentEngine
