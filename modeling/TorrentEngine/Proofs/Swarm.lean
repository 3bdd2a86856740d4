import TorrentEngine.Proofs.Filling
import TorrentEngine.Proofs.Labels
import TorrentEngine.Proofs.Patience

/-!
A swarm of honest peers completes the download. A round is a scheduling pass, the answers to all of
its requests in any order, and the work of the disk until nothing is left of it. As long as a block
is missing each round asks for one at least, and all blocks asked for are stored and checked when
the round is over; so there are at most as many rounds as blocks.
-/

namespace TorrentEngine

variable {holds : Storage → FileTree → Bytes → Prop} {plan : FileSet} {content : Bytes}
  {missing : Finset BlockPlace} {asks : Multiset Ask} {jobs : Multiset Job}

/-- A torrent whose content is being filled in from peers that have it all between them. -/
structure Underway (holds : Storage → FileTree → Bytes → Prop) (plan : FileSet) (content : Bytes)
    (missing : Finset BlockPlace) (asks : Multiset Ask) (jobs : Multiset Job) (t : Torrent) :
    Prop where
  filling : ∃ fs stored, t.download.Fetches fs ∧ holds fs.storage t.tree stored ∧
    Filling plan content stored missing (asks.map Prod.snd) jobs fs
  asks_eq : t.download.peers.asks = asks
  serves : t.download.peers.Serves plan.pieces.length
  checks_eq : t.download.pendingChecks = jobs.countP fun job => job.isCheck = true

/-! ### Runs of jobs -/

/-- How much work a job is: a store may have a check follow it. -/
def Job.weight : Job → Nat
  | .store .. => 2
  | _ => 1

theorem Job.weight_le_two (job : Job) : job.weight ≤ 2 := by
  cases job <;> simp [weight]

namespace Underway

/-- A store of the content finds its block held, or writes it. -/
theorem work_store (hReliable : Storage.Reliable holds) (hCuts : plan.Cuts content) {t : Torrent}
    {x : BlockPlace} {fs : FileSet} {stored : Bytes} (hFetches : t.download.Fetches fs)
    (hHolds : holds fs.storage t.tree stored)
    (hFilling : Filling plan content stored missing (asks.map Prod.snd)
      (plan.storeOf content x ::ₘ jobs) fs)
    (hx : (fs.status? x).isSome = true) (hAsks : t.download.peers.asks = asks)
    (hServes : t.download.peers.Serves plan.pieces.length)
    (hChecks : t.download.pendingChecks = jobs.countP fun job => job.isCheck = true) :
    ∃ after submitted,
      Job.run (plan.storeOf content x) t = { ended := .done, after, submitted } ∧
      (submitted.map Job.weight).sum < 2 ∧
      Underway holds plan content missing asks ((submitted : Multiset Job) + jobs) after := by
  obtain ⟨i, b⟩ := x
  obtain ⟨p, block, hp, hb⟩ := FileSet.exists_block hx
  have hStatus := FileSet.status?_of_block hp hb
  have hCuts' := hCuts.sameCut hFilling.sameCut
  have hLength : (plan.bytesAt content (i, b)).length = block.size := by
    rw [← hFilling.sameCut.bytesAt_eq]
    exact hCuts'.length_bytesAt hp hb
  cases hHeld : block.status.isHeld with
  | true =>
    have hCurrent := Job.current?_eq_some.mpr ⟨hFetches.fileSet, hFetches.kind_eq⟩
    refine ⟨t, [], Job.run_store_held hCurrent hp hb hLength.symm hHeld, by decide, ?_⟩
    rw [Multiset.coe_nil, Multiset.zero_add]
    exact ⟨⟨fs, stored, hFetches, hHolds, hFilling.store_held hStatus hHeld⟩, hAsks, hServes,
      hChecks⟩
  | false =>
    have hOpen : Job.OpenBlock t.download .data i b (plan.bytesAt content (i, b)).length fs p
        block :=
      ⟨hFetches.fileSet, hFetches.kind_eq, hp, hb, hLength.symm, hHeld⟩
    have hInside : i * fs.pieceLength + p.blockOffset b + (plan.bytesAt content (i, b)).length ≤
        stored.length := by
      rw [hLength, hFilling.length_eq]
      exact hCuts'.inside hp hb
    obtain ⟨storage, tree, hHolds', hRun⟩ := Job.run_store_open hReliable hOpen hHolds hInside
    refine ⟨_, _, hRun, ?_, ⟨_, _, hFetches.change (FileSet.sameCut_mark hp storage .stored) _,
      hHolds', hFilling.store_open hCuts' hp hb hHeld⟩, hAsks, hServes, ?_⟩
    · split
      · exact Nat.one_lt_two
      · exact Nat.two_pos
    · rw [Multiset.countP_add, ← hChecks, Nat.add_comm]
      dsimp only
      split <;> rfl

/-- A check verifies its piece. -/
theorem work_check (hReliable : Storage.Reliable holds) (hCuts : plan.Cuts content) {t : Torrent}
    {i : Nat} {p : Piece} {fs : FileSet} {stored : Bytes} (hFetches : t.download.Fetches fs)
    (hHolds : holds fs.storage t.tree stored)
    (hFilling : Filling plan content stored missing (asks.map Prod.snd) (.check .data i ::ₘ jobs)
      fs)
    (hp : fs.pieces[i]? = some p) (hFull : p.isFullyStored = true)
    (hAsks : t.download.peers.asks = asks) (hServes : t.download.peers.Serves plan.pieces.length)
    (hChecks : t.download.pendingChecks = (jobs.countP fun job => job.isCheck = true) + 1) :
    ∃ after, Job.run (.check .data i) t = { ended := .done, after } ∧
      Underway holds plan content missing asks jobs after := by
  have hCuts' := hCuts.sameCut hFilling.sameCut
  have hStored : Job.StoredPiece t.download .data i fs p :=
    ⟨hFetches.fileSet, hFetches.kind_eq, hp, hFull⟩
  have hRight : stored.slice (i * fs.pieceLength) p.length =
      content.slice (i * fs.pieceLength) p.length := by
    obtain ⟨_, _, hFrom⟩ := hCuts'.cut
    refine hFrom.slice_eq hp fun b block hb => ?_
    rw [hFilling.sameCut.bytesAt_eq]
    exact hFilling.right (i, b) block.status (FileSet.status?_of_block hp hb)
      (Piece.isFullyStored_iff.mp hFull block (List.mem_of_getElem? hb))
  have hInside : i * fs.pieceLength + p.length ≤ stored.length := by
    obtain ⟨_, _, hFrom⟩ := hCuts'.cut
    rw [hFilling.length_eq, hCuts'.length_eq]
    exact hFrom.end_le hp
  have hDigest := hCuts'.digest_eq i p hp
  rw [← hRight] at hDigest
  obtain ⟨storage, after, hHolds', hRun, hTree, hDownload⟩ :=
    Job.run_check_stored hReliable hStored hHolds hInside
  rw [Job.judged, if_pos hDigest] at hDownload
  refine ⟨after, hRun, ⟨{ fs with storage }.setPiece i p.markVerified, stored, ?_, ?_,
    hFilling.check hp hFull⟩, ?_, ?_, ?_⟩
  · rw [hDownload]
    exact hFetches.change (FileSet.sameCut_markVerified hp storage) _
  · rw [hTree]
    exact hHolds'
  · rw [hDownload]
    exact hAsks
  · rw [hDownload]
    exact hServes
  · rw [hDownload]
    simp only [Download.endCheck, hChecks, Nat.add_sub_cancel]

/-- Every outstanding job is done when it is run, and leaves less work than it was. -/
theorem work (hReliable : Storage.Reliable holds) (hCuts : plan.Cuts content) {job : Job}
    {t : Torrent} (h : Underway holds plan content missing asks (job ::ₘ jobs) t) :
    (job.work t).verdict = .done ∧
      ((job.work t).submitted.map fun e => e.2.weight).sum < job.weight ∧
      Underway holds plan content missing asks
        (((job.work t).submitted.map (·.2) : List Job) + jobs) (job.work t).after := by
  obtain ⟨⟨fs, stored, hFetches, hHolds, hFilling⟩, hAsks, hServes, hChecks⟩ := h
  rcases hFilling.known_jobs job (Multiset.mem_cons_self job jobs) with
    ⟨x, hx, rfl⟩ | ⟨i, p, rfl, hp, hFull⟩
  · rw [Multiset.countP_cons_of_neg _ (by simp [FileSet.storeOf, Job.isCheck])] at hChecks
    obtain ⟨after, submitted, hRun, hWeight, hAfter⟩ :=
      work_store hReliable hCuts hFetches hHolds hFilling hx hAsks hServes hChecks
    simp only [Job.work, hRun, List.map_map, Function.comp_def, List.map_id']
    exact ⟨rfl, hWeight, hAfter⟩
  · rw [Multiset.countP_cons_of_pos _ (by simp [Job.isCheck])] at hChecks
    obtain ⟨after, hRun, hAfter⟩ :=
      work_check hReliable hCuts hFetches hHolds hFilling hp hFull hAsks hServes hChecks
    simp only [Job.work, hRun, List.map_nil, List.sum_nil, Multiset.coe_nil, Multiset.zero_add]
    exact ⟨rfl, Nat.one_pos, hAfter⟩

end Underway

/-! ### Sessions -/

namespace Download

variable {d : Download} {fs : FileSet}

/-- A pass over peers that were asked for nothing: what they are asked for now are needed blocks,
which are requested then, and they are sent as many requests. -/
theorem tick_asks (h : d.Fetches fs) (hFree : d.peers.asks = 0) (relevant : List PeerId)
    (now : Time) (content : Bytes) :
    ∃ (asks : List Ask) (fs' : FileSet), (d.tick relevant now).1.Fetches fs' ∧
      fs'.settled = fs.settled ∧ (d.tick relevant now).1.peers.asks = asks ∧
      (∀ a ∈ asks, fs.status? a.2 = some .needed) ∧
      (∀ x, fs'.status? x =
        if x ∈ (asks : Multiset Ask).map Prod.snd then some .requested else fs.status? x) ∧
      (d.tick relevant now).2.filterMap
          (Effect.answer? content fs.pieceLength metadataBlockSize) =
        asks.map (fs.answer content) := by
  obtain ⟨added, hAdded⟩ := tick_requests relevant now h.numbered_of_fileSet
  obtain ⟨fs', h', hSettled⟩ := h.core (core_tick d relevant now)
  obtain ⟨asks, hAsks, hAnswers⟩ := serveAll_asks h
    (.ofPeers (relevant.filterMap d.peers.find?)) now relevant content metadataBlockSize
  rw [hFree, Multiset.add_zero] at hAsks
  have hPlaces : (asks : Multiset Ask).map Prod.snd = added := by
    have hClaims := hAdded.claims_eq
    rw [← Roster.map_snd_asks, ← Roster.map_snd_asks, hFree, Multiset.map_zero,
      Multiset.add_zero] at hClaims
    rw [← hClaims, ← hAsks]
    rfl
  refine ⟨asks, fs', h', hSettled, hAsks, fun a ha => ?_, fun x => ?_, hAnswers⟩
  · rw [← h.status?_eq]
    exact hAdded.needed a.2 (hPlaces ▸ Multiset.mem_map_of_mem Prod.snd ha)
  · have hAfter := hAdded.status?_eq x
    rwa [h'.status?_eq, h.status?_eq, ← hPlaces] at hAfter

/-- A pass with a block needed asks for one at least, where all peers are open and were asked for
nothing. -/
theorem tick_asks_some {x : BlockPlace} (h : d.Fetches fs) (hFree : d.peers.asks = 0)
    (hNeeded : fs.status? x = some .needed) (hServes : d.peers.Serves fs.pieces.length)
    {relevant : List PeerId} (hAll : ∀ id p, d.peers.find? id = some p → id ∈ relevant)
    (now : Time) : (d.tick relevant now).1.peers.asks ≠ 0 := by
  obtain ⟨piece, hPiece, _⟩ := not_done_of_needed hNeeded
  obtain ⟨id, p, hFind, hHas⟩ := hServes.covers x.1 (List.getElem?_eq_some_iff.mp hPiece).1
  obtain ⟨hUnchoked, hLimit⟩ := hServes.allOpen id p hFind
  have hSlots : 0 < p.freeSlots := by
    rw [Peer.freeSlots, Roster.pending_of_asks_eq_zero hFree hFind, List.length_nil]
    omega
  have hGrows := serveAll_grows h hNeeded hFind hHas hUnchoked hSlots
    (.ofPeers (relevant.filterMap d.peers.find?)) now (hAll id p hFind)
  intro hNone
  rw [tick] at hNone
  rw [hFree, hNone] at hGrows
  exact Nat.lt_irrefl _ hGrows

end Download

/-- A torrent under way, no job of which sleeps. -/
structure Engine.Loads (holds : Storage → FileTree → Bytes → Prop) (plan : FileSet)
    (content : Bytes) (missing : Finset BlockPlace) (asks : Multiset Ask) (e : Engine) : Prop where
  underway : Underway holds plan content missing asks e.bag e.torrent
  awake : e.scheduler.Awake

/-- The disk gets through all jobs. -/
theorem Engine.Loads.drain {e : Engine} (h : e.Loads holds plan content missing asks)
    (hReliable : Storage.Reliable holds) (hCuts : plan.Cuts content) {span : Time}
    (hSpan : 0 < span) :
    (e.drain span).Loads holds plan content missing asks ∧ (e.drain span).bag = 0 := by
  have hPatient : Scheduler.Patient Job.work Job.weight
      fun jobs _ t => Underway holds plan content missing asks jobs t := by
    intro job rest n t h
    obtain ⟨hVerdict, hLess, hUnderway⟩ := h.work hReliable hCuts
    exact .inl ⟨hVerdict, hLess, n, Nat.le_refl n, hUnderway⟩
  obtain ⟨hAwake, hNone, -, hAfter⟩ := Scheduler.drain_patient (n := 0) hPatient Job.weight_le_two
    h.awake h.underway (by rwa [Nat.zero_mul])
  have hBag : (e.drain span).bag = 0 := hNone
  refine ⟨⟨?_, hAwake⟩, hBag⟩
  rw [hBag]
  exact hAfter

namespace Session

variable {s s' : Session}

/-- An answer ends what was asked, and its block is handed over unless it is held already. -/
theorem loads_answer (hCuts : plan.Cuts content) {a : Ask}
    (h : s.engine.Loads holds plan content missing (a ::ₘ asks)) (now : Time) :
    (s.command now (plan.answer content a)).engine.Loads holds plan content missing asks := by
  obtain ⟨⟨⟨fs, stored, hFetches, hHolds, hFilling⟩, hAsks, hServes, hChecks⟩, hAwake⟩ := h
  obtain ⟨id, i, b⟩ := a
  rw [Multiset.map_cons] at hFilling
  obtain ⟨p, block, hp, hb⟩ :=
    FileSet.exists_block (hFilling.known (i, b) (Multiset.mem_cons_self _ _))
  have hLength := (hCuts.sameCut hFilling.sameCut).length_bytesAt hp hb
  have hHandle := Download.handle_answer hFetches hp hb hLength now id
  rw [Download.answer_of_sameCut hFilling.sameCut, hFilling.sameCut.bytesAt_eq] at hHandle
  have hAsks' := Download.asks_answered hAsks s.download.window now block.size
  have hServes' := hServes.update id
    (fun p hOpen => Download.open_received hOpen s.download.window now i b block.size)
    (Download.pieces_received s.download.window now i b block.size)
  cases hHeld : block.status.isHeld with
  | true =>
    rw [hHeld, if_pos rfl] at hHandle
    have hAfter : (s.command now (plan.answer content (id, i, b))).engine =
        s.engine.setDownload (s.download.changePeer id
          (Download.received s.download.window now i b block.size)) := by
      simp only [command, Engine.handle, Engine.download, hHandle]
      rfl
    rw [hAfter]
    exact ⟨⟨⟨fs, stored, hFetches.changePeer id _, hHolds,
      hFilling.deliver_held (FileSet.status?_of_block hp hb) hHeld⟩, hAsks', hServes', hChecks⟩,
      hAwake⟩
  | false =>
    rw [hHeld, if_neg Bool.false_ne_true] at hHandle
    have hAfter : (s.command now (plan.answer content (id, i, b))).engine =
        (s.engine.setDownload (s.download.changePeer id
          (Download.received s.download.window now i b block.size))).submit
            (plan.storeOf content (i, b)) := by
      simp only [command, Engine.handle, Engine.download, hHandle]
      rfl
    rw [hAfter]
    refine ⟨⟨⟨fs, stored, hFetches.changePeer id _, hHolds, ?_⟩, hAsks', hServes', ?_⟩,
      hAwake.submit _ _⟩
    · rw [Engine.bag_submit]
      exact hFilling.deliver
    · rw [Engine.bag_submit,
        Multiset.countP_cons_of_neg _ (by simp [FileSet.storeOf, Job.isCheck])]
      exact hChecks

/-- Input from peers, one after the other. -/
def commandAll (s : Session) (input : List (Time × Command)) : Session :=
  input.foldl (fun s e => s.command e.1 e.2) s

/-- The answers may come in any order. -/
theorem loads_answers (hCuts : plan.Cuts content)
    (h : s.engine.Loads holds plan content missing asks) {input : List (Time × Command)}
    (hInput : asks.map (plan.answer content) = (input.map (·.2) : List Command)) :
    (s.commandAll input).engine.Loads holds plan content missing 0 := by
  induction input generalizing s asks with
  | nil =>
    obtain rfl := Multiset.map_eq_zero.mp hInput
    exact h
  | cons first rest ih =>
    rw [List.map_cons, ← Multiset.cons_coe] at hInput
    obtain ⟨a, hMem, hFirst, hRest⟩ := (Multiset.map_eq_cons _ _ _ _).mpr hInput
    rw [← Multiset.cons_erase hMem] at h
    have hAnswered := loads_answer hCuts h first.1
    rw [hFirst] at hAnswered
    exact ih hAnswered hRest

/-- A pass sends a request for each ask, and asks for something while a block is missing. -/
theorem loads_pass (h : s.engine.Loads holds plan content missing 0)
    {relevant : List PeerId} (hAll : ∀ id p, s.download.peers.find? id = some p → id ∈ relevant)
    (now : Time) :
    ∃ (asks : List Ask) (missing' : Finset BlockPlace), missing'.card ≤ missing.card - 1 ∧
      (s.pass relevant now).engine.Loads holds plan content missing' asks ∧
      (s.download.tick relevant now).2.filterMap
          (Effect.answer? content plan.pieceLength metadataBlockSize) =
        asks.map (plan.answer content) := by
  obtain ⟨⟨⟨fs, stored, hFetches, hHolds, hFilling⟩, hAsks, hServes, hChecks⟩, hAwake⟩ := h
  obtain ⟨asks, fs', hFetches', hSettled, hNew, hNeeded, hAre, hAnswers⟩ :=
    Download.tick_asks hFetches hAsks relevant now content
  have hCount : fs.pieces.length = plan.pieces.length := hFilling.sameCut.pieceCount_eq
  rw [hFilling.sameCut.pieceLength_eq, Download.answer_of_sameCut hFilling.sameCut] at hAnswers
  have hScheduler : (s.pass relevant now).engine.scheduler = s.engine.scheduler :=
    Engine.scheduler_carryOutAll _ fun _ hEffect _ => Download.tick_jobless hEffect
  have hDownload : (s.pass relevant now).engine.torrent.download =
      (s.download.tick relevant now).1 := Engine.download_carryOutAll _ _
  have hTree : (s.pass relevant now).engine.torrent.tree = s.engine.torrent.tree :=
    Engine.tree_carryOutAll _ fun effect hEffect =>
      .inl (Download.serveAll_sends _ now relevant s.download effect hEffect)
  have hMissing : fs'.missing.card ≤ missing.card - 1 := by
    have hFewer : fs'.missing.card ≤ fs.missing.card - 1 := by
      refine FileSet.card_missing_asked hAre ?_ fun x hx hNone => ?_
      · intro x hx
        obtain ⟨a, ha, rfl⟩ := Multiset.mem_map.mp hx
        exact hNeeded a ha
      · refine Download.tick_asks_some hFetches hAsks hx (hCount.symm ▸ hServes) hAll now ?_
        rw [hNew]
        exact Multiset.map_eq_zero.mp hNone
    have hWithin : fs.missing ⊆ missing := fun x hx => hFilling.needed x (FileSet.mem_missing.mp hx)
    have hCard := Finset.card_le_card hWithin
    omega
  refine ⟨asks, fs'.missing, hMissing, ⟨⟨⟨fs', stored, ?_, ?_, ?_⟩, ?_, ?_, ?_⟩, ?_⟩, hAnswers⟩
  · rw [hDownload]
    exact hFetches'
  · have hStorage : fs'.settled.storage = fs.settled.storage := congrArg FileSet.storage hSettled
    rw [hTree, show fs'.storage = fs.storage from hStorage]
    exact hHolds
  · rw [Engine.bag, hScheduler]
    exact hFilling.ask hSettled hAre
  · rw [hDownload]
    exact hNew
  · rw [hDownload]
    exact Download.serves_tick hServes relevant now
  · rw [hDownload, Engine.bag, hScheduler]
    have hCore := congrArg Download.pendingChecks (Download.core_tick s.download relevant now)
    exact Eq.trans hCore hChecks
  · rw [hScheduler]
    exact hAwake

/-! ### Rounds -/

/-- One round of a swarm that has the content: a pass over all peers, the answers to its requests in
any order, and the work of the disk. -/
inductive Round (content : Bytes) (pieceLength : Nat) (s : Session) : Session → Prop
  | round {relevant : List PeerId} {now span : Time} {input : List (Time × Command)}
      (hAll : ∀ id p, s.download.peers.find? id = some p → id ∈ relevant)
      (hInput : (input.map (·.2)).Perm ((s.download.tick relevant now).2.filterMap
        (Effect.answer? content pieceLength metadataBlockSize)))
      (hSpan : 0 < span) :
      Round content pieceLength s (((s.pass relevant now).commandAll input).drain span)

/-- A number of rounds, one after the other. -/
inductive Rounds (content : Bytes) (pieceLength : Nat) : Nat → Session → Session → Prop
  | none (s : Session) : Rounds content pieceLength 0 s s
  | more {n : Nat} {s s' s'' : Session} (h : Rounds content pieceLength n s s')
      (hRound : s'.Round content pieceLength s'') : Rounds content pieceLength (n + 1) s s''

theorem exists_round (content : Bytes) (pieceLength : Nat) (s : Session) :
    ∃ s', s.Round content pieceLength s' := by
  have hAll : ∀ id p, s.download.peers.find? id = some p → id ∈ s.download.peers.ids :=
    fun id p hFind => List.mem_map.mpr ⟨(id, p), Roster.find?_eq_some.mp hFind, rfl⟩
  generalize hAnswers : (s.download.tick s.download.peers.ids 0).2.filterMap
    (Effect.answer? content pieceLength metadataBlockSize) = answers
  have hInput : ((answers.map (Prod.mk (0 : Time))).map (·.2)).Perm answers := by
    rw [List.map_map]
    exact (List.map_id answers).symm ▸ .refl answers
  exact ⟨_, .round hAll (hAnswers ▸ hInput) Nat.one_pos⟩

/-- A swarm can always go another round. -/
theorem exists_rounds (content : Bytes) (pieceLength n : Nat) (s : Session) :
    ∃ s', Rounds content pieceLength n s s' := by
  induction n with
  | zero => exact ⟨s, .none s⟩
  | succ n ih =>
    obtain ⟨between, hRounds⟩ := ih
    obtain ⟨after, hRound⟩ := exists_round content pieceLength between
    exact ⟨after, .more hRounds hRound⟩

theorem loads_round (hReliable : Storage.Reliable holds) (hCuts : plan.Cuts content)
    (h : s.engine.Loads holds plan content missing 0)
    (hRound : s.Round content plan.pieceLength s') :
    ∃ missing' : Finset BlockPlace, missing'.card ≤ missing.card - 1 ∧
      s'.engine.Loads holds plan content missing' 0 ∧ s'.engine.bag = 0 := by
  cases hRound with
  | @round relevant now span input hAll hInput hSpan =>
    obtain ⟨asks, missing', hFewer, hPassed, hAnswers⟩ := loads_pass h hAll now
    rw [hAnswers] at hInput
    have hAnswered := loads_answers hCuts hPassed (Multiset.coe_eq_coe.mpr hInput.symm)
    obtain ⟨hDrained, hNone⟩ := hAnswered.drain hReliable hCuts hSpan
    exact ⟨missing', hFewer, hDrained, hNone⟩

theorem loads_rounds (hReliable : Storage.Reliable holds) (hCuts : plan.Cuts content)
    (h : s.engine.Loads holds plan content missing 0) (hNone : s.engine.bag = 0) {n : Nat}
    (hRounds : Rounds content plan.pieceLength n s s') :
    ∃ missing' : Finset BlockPlace, missing'.card ≤ missing.card - n ∧
      s'.engine.Loads holds plan content missing' 0 ∧ s'.engine.bag = 0 := by
  induction hRounds with
  | none s => exact ⟨missing, Nat.le_refl _, h, hNone⟩
  | more _ hRound ih =>
    obtain ⟨between, hBetween, hLoads, _⟩ := ih h hNone
    obtain ⟨after, hAfter, hLoads', hNone'⟩ := loads_round hReliable hCuts hLoads hRound
    exact ⟨after, by omega, hLoads', hNone'⟩

/-- A session about to download a content from peers that have all of it between them: nothing is
requested or stored yet, and the storage has the length of the content. -/
structure Swarm (holds : Storage → FileTree → Bytes → Prop) (fs : FileSet) (content : Bytes)
    (s : Session) : Prop where
  fileSet : s.download.fileSet = some fs
  cuts : fs.Cuts content
  needed : ∀ x status, fs.status? x = some status → status = .needed
  storage : ∃ stored, holds fs.storage s.engine.torrent.tree stored ∧
    stored.length = content.length
  selector_eq : s.download.selector = .rarest
  choking_eq : s.download.choking = .permissive
  checks_eq : s.download.pendingChecks = 0
  fresh : s.download.peers.All fun p => p.pending = []
  serves : s.download.peers.Serves fs.pieces.length
  awake : s.engine.scheduler.Awake
  bag_eq : s.engine.bag = 0

theorem Swarm.loads {fs : FileSet} (h : s.Swarm holds fs content) :
    s.engine.Loads holds fs content fs.missing 0 := by
  obtain ⟨stored, hHolds, hLength⟩ := h.storage
  have hFetches : s.download.Fetches fs :=
    ⟨h.fileSet, h.cuts.kind_eq, h.cuts.cut, h.selector_eq, h.choking_eq⟩
  have hFilling := Filling.start h.cuts hLength h.needed
  refine ⟨⟨⟨fs, stored, hFetches, hHolds, ?_⟩, Roster.asks_eq_zero h.fresh, h.serves, ?_⟩, h.awake⟩
  · rw [h.bag_eq]
    exact hFilling
  · rw [h.bag_eq]
    exact h.checks_eq

/-- An honest swarm completes the download: after as many rounds as there are blocks every piece is
verified, and the storage has the content. -/
theorem Swarm.completes {fs : FileSet} (hReliable : Storage.Reliable holds)
    (h : s.Swarm holds fs content) {n : Nat} (hEnough : fs.blockCount ≤ n) :
    (∃ s', Rounds content fs.pieceLength n s s') ∧
    ∀ s', Rounds content fs.pieceLength n s s' →
      ∃ fs', s'.download.fileSet = some fs' ∧ FileSet.SameCut fs fs' ∧
        (∀ p ∈ fs'.pieces, p.isDone = true) ∧
        holds fs'.storage s'.engine.torrent.tree content ∧ s'.download.pendingChecks = 0 ∧
        PhaseId.data.isDone s'.download = true := by
  refine ⟨exists_rounds content fs.pieceLength n s, fun s' hRounds => ?_⟩
  obtain ⟨missing, hFew, hLoads, hNone⟩ :=
    loads_rounds hReliable h.cuts h.loads h.bag_eq hRounds
  have hCount := fs.card_missing_le
  obtain rfl : missing = ∅ := Finset.card_eq_zero.mp (by omega)
  obtain ⟨⟨⟨fs', stored, hFetches, hHolds, hFilling⟩, _, _, hChecks⟩, _⟩ := hLoads
  rw [hNone] at hFilling hChecks
  obtain ⟨hDone, rfl⟩ := hFilling.complete (h.cuts.sameCut hFilling.sameCut)
  have hChecks' : s'.download.pendingChecks = 0 := hChecks
  refine ⟨fs', hFetches.fileSet, hFilling.sameCut, List.all_eq_true.mp hDone, hHolds, hChecks', ?_⟩
  have hfs' : s'.download.fileSet = some fs' := hFetches.fileSet
  simp [PhaseId.isDone, hChecks', hfs', hFetches.kind_eq, hDone]

/-! ### Two peers

Five bytes in three pieces, each byte a block. One peer has the first two pieces, the other one the
last two. -/

def fiveBytes : Bytes := [65, 66, 67, 68, 69]

def fiveSought : FileSet :=
  { kind := .data
    pieceLength := 2
    totalLength := 5
    pieces := FileSet.cut 2 5 1 [sha1 [65, 66], sha1 [67, 68], sha1 [69]]
    storage := .memory [0, 0, 0, 0, 0] }

/-- A peer that has two pieces and takes a number of requests at a time. -/
def halfPeer (limit i j : Nat) : Peer :=
  (((Peer.connected 0 limit).learnPiece i).learnPiece j).setChoked .download false

def fiveSwarm : Session :=
  { engine := { torrent :=
      { download :=
          { Download.named Digest.zero 1 with
            fileSet := some fiveSought
            selector := .rarest
            choking := .permissive
            peers := (Roster.empty.insert "p" (halfPeer 1 0 1)).insert "q" (halfPeer 2 1 2) }
        events := { capacity := 0 }
        tree := { home := [] } } }
    chain := .standard World.oneByteConfig
    phase := .data }

theorem create_fiveSought : FileSet.create .data 2 fiveBytes.length
    [sha1 [65, 66], sha1 [67, 68], sha1 [69]] 1 (.memory [0, 0, 0, 0, 0]) = .ok fiveSought := rfl

theorem cuts_fiveSought : fiveSought.Cuts fiveBytes := by
  refine FileSet.cuts_create create_fiveSought fun i digest hDigest => ?_
  have hi : i < 3 := (List.getElem?_eq_some_iff.mp hDigest).1
  rcases i with _ | _ | _ | i
  · exact (Option.some.inj hDigest).symm
  · exact (Option.some.inj hDigest).symm
  · exact (Option.some.inj hDigest).symm
  · omega

theorem peer_fiveSwarm {id : PeerId} {p : Peer}
    (hFind : fiveSwarm.download.peers.find? id = some p) :
    p = halfPeer 1 0 1 ∨ p = halfPeer 2 1 2 := by
  have hEntries : fiveSwarm.download.peers.entries =
      [("p", halfPeer 1 0 1), ("q", halfPeer 2 1 2)] := rfl
  have hMem := Roster.find?_eq_some.mp hFind
  rw [hEntries, List.mem_pair, Prod.mk.injEq, Prod.mk.injEq] at hMem
  exact hMem.imp And.right And.right

theorem serves_fiveSwarm : fiveSwarm.download.peers.Serves fiveSought.pieces.length := by
  refine ⟨fun id p hFind => ?_, fun i hi => ?_⟩
  · rcases peer_fiveSwarm hFind with rfl | rfl
    · exact ⟨rfl, by decide⟩
    · exact ⟨rfl, by decide⟩
  · match i, hi with
    | 0, _ => exact ⟨"p", _, rfl, rfl⟩
    | 1, _ => exact ⟨"p", _, rfl, rfl⟩
    | 2, _ => exact ⟨"q", _, rfl, rfl⟩

/-- Five rounds are enough, in whatever order the two answer. -/
theorem completes_fiveBytes :
    (∃ s', Rounds fiveBytes 2 5 fiveSwarm s') ∧
    ∀ s', Rounds fiveBytes 2 5 fiveSwarm s' →
      ∃ fs', s'.download.fileSet = some fs' ∧ FileSet.SameCut fiveSought fs' ∧
        (∀ p ∈ fs'.pieces, p.isDone = true) ∧ fs'.storage = .memory fiveBytes ∧
        s'.download.pendingChecks = 0 ∧ PhaseId.data.isDone s'.download = true := by
  have hSwarm : fiveSwarm.Swarm (fun s _ b => s = .memory b) fiveSought fiveBytes := by
    refine ⟨rfl, cuts_fiveSought, fun x status => FileSet.status?_create create_fiveSought,
      ⟨[0, 0, 0, 0, 0], rfl, rfl⟩, rfl, rfl, rfl, fun id p hFind => ?_, serves_fiveSwarm,
      ⟨rfl, rfl⟩, rfl⟩
    rcases peer_fiveSwarm hFind with rfl | rfl <;> rfl
  exact hSwarm.completes Storage.reliable_memory (by decide)

end Session

end TorrentEngine
