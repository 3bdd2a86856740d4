import TorrentEngine.Proofs.Flags
import TorrentEngine.Proofs.Passes

/-!
Flags that go stale. While the content is downloaded a scheduling pass comes only to the peers that
have a piece, or are interested in our data, or are not choked by us. A peer that it passes over is
choked and not interested, as it should be, but our interest in its data is what the last pass left
that came to it. So after a pass the flags of all connected peers are right but for the interest in
those that are passed over and were wanted before.
-/

namespace TorrentEngine

/-! ### Peers through phase changes -/

/-- The peers in `r'` are those of `r`, but for what they are asked for. -/
def Roster.Retains (r r' : Roster Peer) : Prop :=
  ∀ id p', r'.find? id = some p' → ∃ p pending, r.find? id = some p ∧ p' = { p with pending }

namespace Roster

theorem Retains.refl (r : Roster Peer) : r.Retains r := fun _ p hFind => ⟨p, p.pending, hFind, rfl⟩

theorem Retains.trans {r r' r'' : Roster Peer} (h : r.Retains r') (h' : r'.Retains r'') :
    r.Retains r'' := by
  intro id p'' hFind''
  obtain ⟨p', pending, hFind', rfl⟩ := h' id p'' hFind''
  obtain ⟨p, _, hFind, rfl⟩ := h id p' hFind'
  exact ⟨p, pending, hFind, rfl⟩

end Roster

namespace PhaseId

variable {c : PhaseConfig} {d d' : Download} {phase next : PhaseId}

theorem Moves.retains (h : Moves c d phase next d') (hNext : next ≠ .seed) :
    d.peers.Retains d'.peers := by
  cases h with
  | toMetadata => exact .refl _
  | toData =>
    intro id p' hFind'
    rw [Roster.find?_map] at hFind'
    obtain ⟨p, hFind, rfl⟩ := Option.map_eq_some_iff.mp hFind'
    exact ⟨p, [], hFind, rfl⟩
  | toSeed => exact absurd rfl hNext

/-- Seeding can always begin. -/
theorem advance_data (c : PhaseConfig) (d : Download) :
    (∃ effects, (PhaseChain.standard c).advance .data d = (d, effects, .stay)) ∨
      ∃ d' effects, (PhaseChain.standard c).advance .data d = (d', effects, .moved .seed) := by
  simp only [PhaseChain.advance, successor?_standard]
  split
  · next hNone => exact .inl ⟨_, rfl⟩
  · next id next hSome =>
    split at hSome
    · obtain ⟨rfl, rfl⟩ := Prod.mk.inj (Option.some.inj hSome)
      exact .inr ⟨_, _, rfl⟩
    · cases hSome

theorem mem_relevantPeers {id : PeerId} : id ∈ phase.relevantPeers d ↔
    ∃ p, d.peers.find? id = some p ∧ phase.schedules p = true := by
  simp only [relevantPeers, List.mem_map, List.mem_filter, Prod.exists, Roster.find?_eq_some]
  constructor
  · rintro ⟨_, p, hBoth, rfl⟩
    exact ⟨p, hBoth⟩
  · rintro ⟨p, hBoth⟩
    exact ⟨id, p, hBoth, rfl⟩

end PhaseId

namespace Session

variable {c : PhaseConfig} {s : Session}

theorem phase_advanceUpTo_seed (h : s.phase = .seed) (limit : Nat) :
    (s.advanceUpTo limit).1.phase = .seed := by
  cases limit with
  | zero => exact h
  | succ limit =>
    have hStays : s.chain.advance s.phase s.download = (s.download, [], .stay) := by
      rw [h]
      rfl
    simp only [advanceUpTo, hStays]
    exact h

/-- Going on along the chain ends before the seeding with the same peers, and, if that is while the
content is downloaded, without an error. -/
theorem advanceUpTo_retains (hChain : s.chain = .standard c) (limit : Nat)
    (hPhase : (s.advanceUpTo limit).1.phase ≠ .seed) :
    s.download.peers.Retains (s.advanceUpTo limit).1.download.peers ∧
      ((s.advanceUpTo limit).1.phase = .data → (s.advanceUpTo limit).2 = .ok ()) := by
  induction limit generalizing s with
  | zero => exact ⟨.refl _, fun _ => rfl⟩
  | succ limit ih =>
    have hAttempts := PhaseId.advance_attempts c s.phase s.download
    rw [← hChain] at hAttempts
    cases hAttempt : s.chain.advance s.phase s.download with
    | mk d rest =>
      obtain ⟨effects, result⟩ := rest
      rw [hAttempt] at hAttempts
      simp only [advanceUpTo, hAttempt] at hPhase ⊢
      cases hAttempts with
      | stayed => exact ⟨.refl _, fun _ => rfl⟩
      | failed e =>
        refine ⟨.refl _, fun hData => ?_⟩
        rw [hChain, show s.phase = .data from hData] at hAttempt
        rcases PhaseId.advance_data c s.download with ⟨_, hStay⟩ | ⟨_, _, hMoved⟩
        · cases hAttempt.symm.trans hStay
        · cases hAttempt.symm.trans hMoved
      | @moved phase _ _ hMoves =>
        have hNext : phase ≠ .seed := by
          rintro rfl
          exact hPhase (phase_advanceUpTo_seed rfl limit)
        let e := (s.engine.setDownload d).carryOutAll effects
        have hCarried : d.peers.Retains e.download.peers := by
          rw [Engine.download_carryOutAll]
          exact .refl _
        obtain ⟨hRest, hOk⟩ := ih (s := { s with engine := e, phase }) hChain hPhase
        exact ⟨((hMoves.retains hNext).trans hCarried).trans hRest, hOk⟩

end Session

/-! ### Interest through a run -/

namespace Dispatch

variable {c : PhaseConfig} {h : Digest} {k₀ k k' before after : Dispatch} {past : List Dispatch}
  {id : PeerId} {p' : Peer}

/-- A pass over peers among which is `id` leads from the one state to the other. -/
def Attends (id : PeerId) (before after : Dispatch) : Prop :=
  ∃ relevant now, before.outbox = [] ∧ id ∈ relevant ∧ after = before.passed relevant now

/-- A new connection of `id` leads from the one state to the other. -/
def Connects (id : PeerId) (before after : Dispatch) : Prop :=
  ∃ now line size, after = before.commanded now (.connect id line size)

/-- The strategy in use wants the data of a connected peer. -/
def Wants (k : Dispatch) (id : PeerId) : Prop :=
  ∃ p, k.download.peers.find? id = some p ∧ (k.download.flag p).download.interested = true

/-- The last pass of a run that came to a peer since it connected found its data wanted. -/
inductive Pursued (id : PeerId) : List Dispatch → Prop
  | attended {before after : Dispatch} {past : List Dispatch} (h : Attends id before after)
      (hWants : before.Wants id) : Pursued id (after :: before :: past)
  | since {before after : Dispatch} {past : List Dispatch} (h : Pursued id (before :: past))
      (hAlone : ¬ Attends id before after) (hSame : ¬ Connects id before after) :
      Pursued id (after :: before :: past)

theorem pursued_of_attends (h : Attends id before after) :
    Pursued id (after :: before :: past) ↔ before.Wants id := by
  refine ⟨fun hPursued => ?_, .attended h⟩
  cases hPursued with
  | attended _ hWants => exact hWants
  | since _ hAlone _ => exact absurd h hAlone

theorem pursued_of_not_attends (h : ¬ Attends id before after) :
    Pursued id (after :: before :: past) ↔
      Pursued id (before :: past) ∧ ¬ Connects id before after := by
  refine ⟨fun hPursued => ?_, fun hBoth => .since hBoth.1 h hBoth.2⟩
  cases hPursued with
  | attended hAttends _ => exact absurd hAttends h
  | since hPursued _ hSame => exact ⟨hPursued, hSame⟩

/-- A pass leaves the interest in the peers that it comes to as the strategy wants it. -/
theorem Attends.interested_iff (h : Attends id before after)
    (hFind : after.download.peers.find? id = some p') :
    p'.download.interested = true ↔ before.Wants id := by
  obtain ⟨relevant, now, -, hId, rfl⟩ := h
  obtain ⟨picks, hPass⟩ := Download.serveAll_pass before.download
    (.ofPeers (relevant.filterMap before.download.peers.find?)) now relevant
  have hFound := (hPass.peers_eq id).symm.trans hFind
  obtain ⟨p, hBefore, rfl⟩ := Option.map_eq_some_iff.mp hFound
  rw [if_pos hId]
  refine ⟨fun hInterested => ⟨p, hBefore, hInterested⟩, ?_⟩
  rintro ⟨q, hFindQ, hInterested⟩
  obtain rfl := Option.some.inj (hBefore.symm.trans hFindQ)
  exact hInterested

/-- There is no interest in a peer that has just connected. -/
theorem Connects.interested_eq (h : Connects id before after)
    (hFind : after.download.peers.find? id = some p') : p'.download.interested = false := by
  obtain ⟨now, line, size, rfl⟩ := h
  change (before.download.peers.insert id _).find? id = some p' at hFind
  rw [Roster.find?_insert, if_pos rfl] at hFind
  obtain rfl := Option.some.inj hFind
  rfl

/-- Every other step up to the seeding leaves the interest in a peer as it is. -/
theorem Step.interested_eq (hStep : Step k k') (hIn : k.InPhase c h)
    (hPhase : k'.session.phase ≠ .seed) (hAlone : ¬ Attends id k k') (hSame : ¬ Connects id k k')
    (hFind' : k'.download.peers.find? id = some p') : ∃ p, k.download.peers.find? id = some p ∧
      p'.download.interested = p.download.interested := by
  have hKeeps {r : Roster Peer} (hr : k'.download.peers = r) (h : k.download.peers.Keeps r) :
      ∃ p, k.download.peers.find? id = some p ∧
        p'.download.interested = p.download.interested := by
    obtain ⟨p, hFind, hFlags⟩ := h id p' (hr ▸ hFind')
    exact ⟨p, hFind, hFlags .interest⟩
  cases hStep with
  | command _ now cmd =>
    by_cases hConnects : cmd.connects = true
    · cases cmd with
      | connect other line size =>
        change (k.download.peers.insert other _).find? id = some p' at hFind'
        rw [Roster.find?_insert, if_neg] at hFind'
        · exact ⟨p', hFind', rfl⟩
        · rintro rfl
          exact hSame ⟨now, line, size, rfl⟩
      | _ => cases hConnects
    · exact hKeeps rfl (Download.keeps_handle k.download now (Bool.eq_false_iff.mpr hConnects))
  | pass hIdle relevant now =>
    obtain ⟨picks, hPass⟩ := Download.serveAll_pass k.download
      (.ofPeers (relevant.filterMap k.download.peers.find?)) now relevant
    have hNot : id ∉ relevant := fun hId => hAlone ⟨relevant, now, hIdle, hId, rfl⟩
    exact ⟨p', (hPass.find?_of_notMem hNot).symm.trans hFind', rfl⟩
  | advance =>
    rcases advanced_cases hIn.chain_eq with ⟨-, hDownload, -⟩ | ⟨hMoves, -⟩
    · exact hKeeps (congrArg _ hDownload) (.refl _)
    · obtain ⟨p, pending, hFind, rfl⟩ := hMoves.retains hPhase id p' hFind'
      exact ⟨p, hFind, rfl⟩
  | @beginVerify _ fs =>
    refine hKeeps (r := k.download.peers) ?_ (.refl _)
    change (k.session.beginVerify fs).download.peers = k.download.peers
    rw [Session.download_beginVerify]
    rfl
  | endVerify => exact hKeeps rfl (.refl _)
  | carry =>
    refine hKeeps (r := k.download.peers) ?_ (.refl _)
    exact congrArg Download.peers (Engine.download_carryOut k.session.engine _)
  | part hPart =>
    rcases hPart.peers with hSame | ⟨other, count, hSent⟩
    · exact hKeeps hSame (.refl _)
    · exact hKeeps hSent (Roster.keeps_update (fun p f => by cases f <;> rfl) _ other)
  | meanwhile => exact hKeeps rfl (.refl _)

/-- Up to the seeding there is interest in a peer exactly if it was pursued. -/
theorem Run.interested_iff {states : List Dispatch} (hRun : Run k₀ states) (hStart : k₀.InPhase c h)
    (hNone : k₀.download.peers.All fun p => p.download.interested = false) :
    ∀ k past, states = k :: past → k.InPhase c h ∧ (k.session.phase ≠ .seed →
      ∀ id p, k.download.peers.find? id = some p →
        (p.download.interested = true ↔ Pursued id (k :: past))) := by
  induction hRun with
  | start =>
    rintro k past ⟨⟩
    refine ⟨hStart, fun _ id p hFind => ?_⟩
    rw [hNone id p hFind]
    exact ⟨nofun, nofun⟩
  | @step before after past _ hStep ih =>
    rintro k past ⟨⟩
    obtain ⟨hIn, hBefore⟩ := ih _ _ rfl
    obtain ⟨hAfter, hOutcome⟩ := hStep.inPhase hIn
    refine ⟨hAfter, fun hPhase id p' hFind' => ?_⟩
    have hEarlier : before.session.phase ≠ .seed := by
      rcases hOutcome with ⟨hSame, -⟩ | ⟨-, hMoves, -⟩
      · exact hSame ▸ hPhase
      · intro hSeed
        rw [hSeed] at hMoves
        cases hMoves
    by_cases hAttends : Attends id before after
    · rw [pursued_of_attends hAttends]
      exact hAttends.interested_iff hFind'
    · rw [pursued_of_not_attends hAttends]
      by_cases hConnects : Connects id before after
      · rw [hConnects.interested_eq hFind']
        exact ⟨nofun, fun hBoth => absurd hConnects hBoth.2⟩
      · obtain ⟨p, hFind, hInterested⟩ :=
          hStep.interested_eq hIn hPhase hAttends hConnects hFind'
        rw [hInterested, hBefore hEarlier id p hFind, and_iff_left hConnects]

end Dispatch

/-- No pass comes to the peer while the content is downloaded: it has no piece, is not interested in
our data and is choked by us. -/
def Peer.PassedOver (p : Peer) : Prop :=
  p.pieces.isEmpty = true ∧ p.upload.interested = false ∧ p.upload.choked = true

theorem PhaseId.schedules_data (p : Peer) : PhaseId.data.schedules p = false ↔ p.PassedOver := by
  simp only [schedules, Peer.PassedOver, Bool.or_eq_false_iff, Bool.not_eq_false', and_assoc]

/-- The peer has a piece that is not verified. -/
def FileSet.Wants (fs : FileSet) (p : Peer) : Prop :=
  ∃ piece ∈ fs.pieces, piece.isDone = false ∧ p.hasPiece piece.index = true

theorem FileSet.wants_iff (fs : FileSet) (p : Peer) :
    fs.Wants p ↔ Choking.wantsFrom (some fs) p = true := by
  simp [Wants, Choking.wantsFrom, neededPieces]

theorem FileSet.not_wants {p : Peer} (h : p.pieces.isEmpty = true) (fs : FileSet) :
    ¬ fs.Wants p := by
  rintro ⟨piece, -, -, hHas⟩
  have hNone : p.pieces.members = [] := List.isEmpty_iff.mp h
  simp [Peer.hasPiece, PieceSet.contains, hNone] at hHas

namespace Download

variable {d d' : Download} {fs : FileSet} {ids : List PeerId} {now : Time} {effects : List Effect}
  {picks : List Pick} {id : PeerId} {p p' : Peer}

/-- While the content is downloaded a pass sets the flags of the peers that it comes to right. -/
theorem Pass.flags_right (h : d.Pass d' ids now effects picks) (hChoking : d.choking = .permissive)
    (hfs : d'.fileSet = some fs) (hId : id ∈ ids) (hFind : d'.peers.find? id = some p') :
    (p'.upload.choked = true ↔ p'.upload.interested = false) ∧
      (p'.download.interested = true ↔ fs.Wants p') := by
  rw [h.peers_eq] at hFind
  obtain ⟨p, -, rfl⟩ := Option.map_eq_some_iff.mp hFind
  have hWants : Choking.wantsFrom (some fs) = Choking.wantsFrom d.fileSet := by
    rw [← hfs, ← wantsFrom_settled, h.files.settled_eq, wantsFrom_settled]
  rw [if_pos hId, fs.wants_iff, hWants]
  simp only [flag, hChoking]
  exact ⟨Iff.of_eq (Bool.not_eq_true' p.upload.interested), Iff.rfl⟩

/-- What a scheduling pass does to the flags of a peer while the content is downloaded. -/
theorem tick_flags (hAgrees : PhaseId.data.Agrees d) (now : Time)
    (hFind' : (d.tick (PhaseId.data.relevantPeers d) now).1.peers.find? id = some p') :
    ∃ p fs, d.peers.find? id = some p ∧
      (d.tick (PhaseId.data.relevantPeers d) now).1.fileSet = some fs ∧
      (p'.upload.choked = true ↔ p'.upload.interested = false) ∧
      ((p'.download.interested = true ↔ fs.Wants p') ↔
        ¬ (p.PassedOver ∧ p.download.interested = true)) := by
  obtain ⟨hKind, -, -, hChoking⟩ := hAgrees
  obtain ⟨picks, hPass⟩ := serveAll_pass d
    (.ofPeers ((PhaseId.data.relevantPeers d).filterMap d.peers.find?)) now
    (PhaseId.data.relevantPeers d)
  obtain ⟨fs, hfs, -⟩ := Option.map_eq_some_iff.mp (hPass.kind?_eq.trans hKind)
  obtain ⟨p, hFind, -⟩ := Option.map_eq_some_iff.mp ((hPass.peers_eq id).symm.trans hFind')
  refine ⟨p, fs, hFind, hfs, ?_⟩
  by_cases hId : id ∈ PhaseId.data.relevantPeers d
  · obtain ⟨q, hFindQ, hScheduled⟩ := PhaseId.mem_relevantPeers.mp hId
    obtain rfl := Option.some.inj (hFind.symm.trans hFindQ)
    obtain ⟨hChoke, hInterest⟩ := hPass.flags_right hChoking hfs hId hFind'
    refine ⟨hChoke, iff_of_true hInterest ?_⟩
    rintro ⟨hPassedOver, -⟩
    rw [(PhaseId.schedules_data p).mpr hPassedOver] at hScheduled
    cases hScheduled
  · have hPassedOver : p.PassedOver := by
      rw [← PhaseId.schedules_data, Bool.eq_false_iff]
      exact fun hScheduled => hId (PhaseId.mem_relevantPeers.mpr ⟨p, hFind, hScheduled⟩)
    obtain rfl : p = p' :=
      Option.some.inj (hFind.symm.trans ((hPass.find?_of_notMem hId).symm.trans hFind'))
    refine ⟨iff_of_true hPassedOver.2.2 hPassedOver.2.1, ?_⟩
    rw [iff_false_right (FileSet.not_wants hPassedOver.1 fs), and_iff_right hPassedOver]

end Download

namespace Session

theorem tick_of_error {s s' : Session} {e : PhaseError} (h : s.advance = (s', .error e))
    (now : Time) : s.tick now = (s', .error e) := by
  rw [tick, h]

theorem tick_of_ok {s s' : Session} (h : s.advance = (s', .ok ())) (now : Time) :
    s.tick now = (s'.pass (s'.phase.relevantPeers s'.download) now, .ok ()) := by
  rw [tick, h]

/-- A scheduling pass at the end of which the content is downloaded came to the peers that are not
passed over, after going on along the chain without an error. -/
theorem tick_data {c : PhaseConfig} {s : Session} {now : Time} (hChain : s.chain = .standard c)
    (hPhase : (s.tick now).1.phase = .data) :
    s.download.peers.Retains s.advance.1.download.peers ∧ s.advance.1.phase = .data ∧
      (s.tick now).1.download = (s.advance.1.download.tick
        (PhaseId.data.relevantPeers s.advance.1.download) now).1 := by
  cases hAdvance : s.advance with
  | mk mid outcome =>
    have hUpTo : s.advanceUpTo changeLimit = (mid, outcome) := hAdvance
    have hBoth := advanceUpTo_retains hChain changeLimit
    rw [hUpTo] at hBoth
    cases outcome with
    | error e =>
      rw [tick_of_error hAdvance] at hPhase
      cases (hBoth (by rw [hPhase]; nofun)).2 hPhase
    | ok =>
      rw [tick_of_ok hAdvance] at hPhase ⊢
      have hData : mid.phase = .data := hPhase
      refine ⟨(hBoth (by rw [hData]; nofun)).1, hData, ?_⟩
      rw [hData]
      exact Engine.download_carryOutAll _ _

end Session

namespace Dispatch

/-- While the content is downloaded a scheduling pass leaves every connected peer choked exactly if
it is not interested in our data. There is interest in exactly the peers that have a piece that is
not verified, but for those whose data was wanted when a pass last came to them, and that are passed
over now. -/
theorem flags_right_iff (c : PhaseConfig) {t : Torrent} (hFresh : t.download.Fresh)
    {s : Session} {past : List Dispatch} (hRun : Run (fresh c t) ({ session := s } :: past))
    {now : Time} (hPhase : (s.tick now).1.phase = .data) {id : PeerId} {p' : Peer}
    (hFind' : (s.tick now).1.download.peers.find? id = some p') :
    ∃ p fs', s.download.peers.find? id = some p ∧ (s.tick now).1.download.fileSet = some fs' ∧
      (p'.upload.choked = true ↔ p'.upload.interested = false) ∧
      ((p'.download.interested = true ↔ fs'.Wants p') ↔
        ¬ (p.PassedOver ∧ Pursued id ({ session := s } :: past))) := by
  have hNone : (fresh c t).download.peers.All fun p => p.download.interested = false := by
    change t.download.peers.All fun p => p.download.interested = false
    generalize t.download = d at hFresh
    cases hFresh <;> exact nofun
  obtain ⟨hIn, hInterested⟩ := hRun.interested_iff (inPhase_fresh c hFresh) hNone _ past rfl
  obtain ⟨hRetains, hData, hDownload⟩ := Session.tick_data hIn.chain_eq hPhase
  -- The state after going on along the chain, in which the pass begins.
  obtain ⟨between, hBetween⟩ := Reaches.advanceUpTo ⟨past, hRun⟩ Session.changeLimit
  obtain ⟨hMid, -⟩ := hBetween.interested_iff (inPhase_fresh c hFresh) hNone _ between rfl
  have hAgrees : PhaseId.data.Agrees s.advance.1.download := hData ▸ hMid.agrees
  obtain ⟨q, fs', hFindQ, hfs', hChoke, hInterest⟩ :=
    Download.tick_flags hAgrees now (hDownload ▸ hFind')
  obtain ⟨p, pending, hFind, rfl⟩ := hRetains id q hFindQ
  have hNotSeed : s.phase ≠ .seed := by
    intro hSeed
    have := Session.phase_advanceUpTo_seed hSeed Session.changeLimit
    rw [show (s.advanceUpTo _).1.phase = .data from hData] at this
    cases this
  refine ⟨p, fs', hFind, hDownload ▸ hfs', hChoke, ?_⟩
  rw [hInterest, ← hInterested hNotSeed id p hFind]
  exact Iff.rfl

/-- A torrent of one byte at the beginning. -/
def oneByteFresh : Dispatch := fresh World.oneByteConfig World.oneByteStart.session.engine.torrent

/-- A peer says that it has the piece, and after a scheduling pass that it has none. -/
def takenBack : Session :=
  let connected := (oneByteFresh.session.advanceUpTo 2).1.command 0 (.connect "p" 0 none)
  ((connected.command 0 (.holds "p" 0)).tick 0).1.command 0 (.bitfield "p" [])

/-- The data of the peer was wanted as long as it had the piece. The next pass does not come to it,
and leaves the interest in its data. -/
theorem flags_right_iff_takenBack : ∃ past p', Run oneByteFresh ({ session := takenBack } :: past) ∧
    (takenBack.tick 0).1.phase = .data ∧
    (takenBack.tick 0).1.download.peers.find? "p" = some p' ∧ p'.pieces.isEmpty = true ∧
    p'.download.interested = true ∧ Pursued "p" ({ session := takenBack } :: past) := by
  have hConnected := ((Reaches.refl oneByteFresh).advanceUpTo 2).command 0 (.connect "p" 0 none)
  have hReaches : oneByteFresh.Reaches { session := takenBack } :=
    ((hConnected.command 0 (.holds "p" 0)).tick 0).command 0 (.bitfield "p" [])
  obtain ⟨past, hRun⟩ := hReaches
  have hPhase : (takenBack.tick 0).1.phase = .data := by decide +kernel
  have hPeer : ((takenBack.tick 0).1.download.peers.find? "p").any fun p =>
      p.pieces.isEmpty ∧ p.download.interested = true := by
    decide +kernel
  obtain ⟨p', hFind', hFlags⟩ := (Option.any_eq_true ..).mp hPeer
  obtain ⟨hEmpty, hInterested⟩ := of_decide_eq_true hFlags
  obtain ⟨p, fs', -, -, -, hRight⟩ :=
    flags_right_iff World.oneByteConfig (.known Digest.zero 1 _ World.oneByte) hRun hPhase hFind'
  have hWrong : ¬ (p'.download.interested = true ↔ fs'.Wants p') := fun hSame =>
    FileSet.not_wants hEmpty fs' (hSame.mp hInterested)
  exact ⟨past, p', hRun, hPhase, hFind', hEmpty, hInterested,
    (not_not.mp (mt hRight.mpr hWrong)).2⟩

end Dispatch

end TorrentEngine
