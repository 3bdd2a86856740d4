import TorrentEngine.Proofs.Commuting
import TorrentEngine.Proofs.Lifecycle

/-!
What peers know of our flags. Interest in a peer's data and the choking of ours are told to the peer
when they change, and a new connection begins with neither. So the messages that a peer was sent
since it connected, of which the last one about a flag counts, always give the flag as it is,
whatever input comes, whichever strategies are in use and whatever phases begin.
-/

namespace TorrentEngine

/-- The flags of a connection that are ours to set. -/
inductive Flag
  | interest
  | choke
  deriving DecidableEq, Repr

namespace Flag

/-- The flag as it is. -/
def of : Flag → Peer → Bool
  | .interest, p => p.download.interested
  | .choke, p => p.upload.choked

/-- The flag at a new connection. -/
def initial : Flag → Bool
  | .interest => false
  | .choke => true

/-- What a message says about a flag. -/
def said? : Flag → Message → Option Bool
  | .interest, .interested => some true
  | .interest, .notInterested => some false
  | .choke, .choke => some true
  | .choke, .unchoke => some false
  | _, _ => none

end Flag

/-- What an effect tells a peer about a flag. -/
def Effect.tells? (f : Flag) (id : PeerId) : Effect → Option Bool
  | .send other m => if other = id then f.said? m else none
  | _ => none

/-- What happens between a torrent and its peers: they send something, or something is done for
them. -/
inductive Occurrence
  | input (c : Command)
  | effect (e : Effect)

/-- What a peer was told last about a flag since it connected. The history has the latest first. -/
def Flag.last? (f : Flag) (id : PeerId) : List Occurrence → Option Bool
  | [] => none
  | .input c :: past => if c.connects ∧ c.peer = id then none else f.last? id past
  | .effect e :: past => (e.tells? f id).or (f.last? id past)

/-- A history with effects added in order. -/
def record (effects : List Effect) (past : List Occurrence) : List Occurrence :=
  effects.foldl (fun past e => .effect e :: past) past

/-- A torrent in a phase, and its history with the latest first. -/
structure Chronicle where
  download : Download
  phase : PhaseId
  past : List Occurrence := []

/-- What can happen to a torrent: input, a scheduling pass with any strategy over any peers, an
attempt to go on along the chain, and a job. -/
inductive Turn
  | handle (now : Time) (c : Command)
  | tick (choking : Choking) (relevant : List PeerId) (now : Time)
  | advance
  | work (job : Job) (network : Network) (events : Channel Event) (tree : FileTree)

namespace Chronicle

/-- The chronicle one turn further on. The effects of a phase change that failed are not carried
out. -/
def after (config : PhaseConfig) (k : Chronicle) : Turn → Chronicle
  | .handle now c =>
    let (d, result) := k.download.handle now c
    { k with download := d, past := record (result.toOption.getD []) (.input c :: k.past) }
  | .tick choking relevant now =>
    let (d, effects) := { k.download with choking }.tick relevant now
    { k with download := d, past := record effects k.past }
  | .advance =>
    let (d, effects, result) := (PhaseChain.standard config).advance k.phase k.download
    match result with
    | .failed _ => { k with download := d }
    | .stay => { k with download := d, past := record effects k.past }
    | .moved phase => { download := d, phase, past := record effects k.past }
  | .work job network events tree =>
    let o := job.run { download := k.download, network, events, tree }
    { k with download := o.after.download }

/-- The chronicle after turns in order. -/
def run (config : PhaseConfig) (k : Chronicle) (turns : List Turn) : Chronicle :=
  turns.foldl (after config) k

end Chronicle

/-! ### What is heard -/

namespace Flag

/-- What a peer was told last about a flag when effects come after an earlier word. -/
def hear (f : Flag) (id : PeerId) (word : Option Bool) (effects : List Effect) : Option Bool :=
  effects.foldl (fun word e => (e.tells? f id).or word) word

variable {f : Flag} {id k : PeerId} {word : Option Bool} {effects more : List Effect} {v : Bool}

theorem last?_record (f : Flag) (id : PeerId) (effects : List Effect) (past : List Occurrence) :
    f.last? id (record effects past) = f.hear id (f.last? id past) effects := by
  induction effects generalizing past with
  | nil => rfl
  | cons e rest ih => exact ih (.effect e :: past)

theorem hear_append : f.hear id word (effects ++ more) = f.hear id (f.hear id word effects) more :=
  List.foldl_append

theorem hear_of_silent (h : ∀ e ∈ effects, e.tells? f id = none) :
    f.hear id word effects = word := by
  induction effects generalizing word with
  | nil => rfl
  | cons e rest ih =>
    obtain ⟨hFirst, hRest⟩ := List.forall_mem_cons.mp h
    rw [hear, List.foldl_cons, hFirst, Option.none_or]
    exact ih hRest

/-- A word that stands at least once among others that are silent is heard. -/
theorem hear_of_tells (hAll : ∀ e ∈ effects, e.tells? f id = none ∨ e.tells? f id = some v)
    (hSome : ∃ e ∈ effects, e.tells? f id = some v) : f.hear id word effects = some v := by
  induction effects generalizing word with
  | nil => simp at hSome
  | cons e rest ih =>
    obtain ⟨hFirst, hRest⟩ := List.forall_mem_cons.mp hAll
    rw [hear, List.foldl_cons]
    by_cases hLater : ∃ e ∈ rest, e.tells? f id = some v
    · exact ih hRest hLater
    · have hSilent : ∀ e ∈ rest, e.tells? f id = none := fun e he =>
        (hRest e he).resolve_right fun hTells => hLater ⟨e, he, hTells⟩
      have hTells : e.tells? f id = some v := by
        obtain ⟨e', hMem, hTells⟩ := hSome
        rcases List.mem_cons.mp hMem with rfl | hMem
        · exact hTells
        · exact absurd ⟨e', hMem, hTells⟩ hLater
      rw [hTells]
      exact hear_of_silent hSilent

/-- Messages to others are not heard. -/
theorem hear_sends_other (h : k ≠ id) (messages : List Message) :
    f.hear id word (messages.map (.send k)) = word := by
  refine hear_of_silent fun e he => ?_
  obtain ⟨m, -, rfl⟩ := List.mem_map.mp he
  exact if_neg (c := k = id) h

end Flag

/-! ### Flags that stay -/

/-- The flags of the peers in `r'` are those of the same peers in `r`. -/
def Roster.Keeps (r r' : Roster Peer) : Prop :=
  ∀ id p', r'.find? id = some p' → ∃ p, r.find? id = some p ∧ ∀ f : Flag, f.of p' = f.of p

namespace Roster

variable {r r' r'' : Roster Peer} {id : PeerId}

theorem Keeps.refl (r : Roster Peer) : r.Keeps r := fun _ p hFind => ⟨p, hFind, fun _ => rfl⟩

theorem Keeps.trans (h : r.Keeps r') (h' : r'.Keeps r'') : r.Keeps r'' := by
  intro id p'' hFind
  obtain ⟨p', hFind', hSame'⟩ := h' id p'' hFind
  obtain ⟨p, hFind, hSame⟩ := h id p' hFind'
  exact ⟨p, hFind, fun f => (hSame' f).trans (hSame f)⟩

theorem keeps_erase (r : Roster Peer) (id : PeerId) : r.Keeps (r.erase id) := by
  intro k p hFind
  rw [find?_erase] at hFind
  split at hFind
  · cases hFind
  · exact ⟨p, hFind, fun _ => rfl⟩

theorem keeps_map {g : PeerId → Peer → Peer} (hg : ∀ id p, ∀ f : Flag, f.of (g id p) = f.of p)
    (r : Roster Peer) : r.Keeps (r.map g) := by
  intro k p' hFind'
  rw [find?_map] at hFind'
  obtain ⟨p, hFind, rfl⟩ := Option.map_eq_some_iff.mp hFind'
  exact ⟨p, hFind, hg k p⟩

theorem keeps_update {g : Peer → Peer} (hg : ∀ p, ∀ f : Flag, f.of (g p) = f.of p)
    (r : Roster Peer) (id : PeerId) : r.Keeps (r.update id g) := by
  refine keeps_map (fun k p f => ?_) r
  split
  · exact hg p f
  · rfl

end Roster

namespace Download

variable {d d' : Download}

theorem keeps_release (d : Download) (id : PeerId) (i b : Nat) :
    d.peers.Keeps (d.release id i b).peers := by
  simp only [release]
  split
  · exact .refl _
  · exact Roster.keeps_update (fun p f => by cases f <;> rfl) _ _

theorem keeps_takeBlock (d : Download) (fs : FileSet) (now : Time) (id : PeerId) (i b : Nat)
    (data : Bytes) : d.peers.Keeps (d.takeBlock fs now id i b data).1.peers := by
  have hReceived (p : Peer) (f : Flag) :
      f.of (received d.window now i b data.length p) = f.of p := by
    simp only [received]
    split
    · cases f <;> rfl
    · simp only [RequestBudget.receive]
      split <;> cases f <;> rfl
  simp only [takeBlock]
  split
  · exact .refl _
  · split
    · exact keeps_release d id i b
    · split <;> exact Roster.keeps_update hReceived _ _

/-- Input leaves our flags as they are, but at a new connection. -/
theorem keeps_handle (d : Download) (now : Time) {c : Command} (h : c.connects = false) :
    d.peers.Keeps (d.handle now c).1.peers := by
  have hChange {g : Peer → Peer} (hg : ∀ p, ∀ f : Flag, f.of (g p) = f.of p) (id : PeerId) :
      d.peers.Keeps (d.changePeer id g).peers :=
    Roster.keeps_update hg d.peers id
  cases c with
  | connect => cases h
  | disconnect id =>
    simp only [handle, disconnect]
    split
    · exact .refl _
    · exact Roster.keeps_erase d.peers id
  | choke id =>
    simp only [handle, choked]
    split
    · exact .refl _
    · exact hChange (fun p f => by cases f <;> rfl) id
  | unchoke id => exact hChange (fun p f => by cases f <;> rfl) id
  | interested id => exact hChange (fun p f => by cases f <;> rfl) id
  | notInterested id => exact hChange (fun p f => by cases f <;> rfl) id
  | holds id piece => exact hChange (fun p f => by cases f <;> rfl) id
  | bitfield id bits => exact hChange (fun p f => by cases f <;> rfl) id
  | block id i offset data =>
    simp only [handle]
    split
    · exact .refl _
    · split
      · exact .refl _
      · exact keeps_takeBlock d _ now id i _ data
  | metadataBlock id b data =>
    simp only [handle]
    split
    · exact .refl _
    · exact keeps_takeBlock d _ now id 0 b data
  | requestUpload id i offset length =>
    simp only [handle]
    split <;> exact .refl _
  | reject id i b => exact keeps_release d id i b

theorem keeps_run (job : Job) (t : Torrent) :
    t.download.peers.Keeps (job.run t).after.download.peers := by
  have hParts := Job.parts_run job t
  generalize (job.run t).after = t' at hParts
  induction hParts with
  | none => exact .refl _
  | part _ hPart ih =>
    refine ih.trans ?_
    rcases hPart.peers with hSame | ⟨id, count, hSent⟩
    · rw [hSame]
      exact .refl _
    · rw [hSent]
      exact Roster.keeps_update (fun p f => by cases f <;> rfl) _ id
  | files _ tree ih => exact ih

/-! ### Flags that peers know -/

/-- Every connected peer knows our flags, where it was told last what `words` gives. -/
def Known (d : Download) (words : Flag → PeerId → Option Bool) : Prop :=
  ∀ f id p, d.peers.find? id = some p → f.of p = (words f id).getD f.initial

variable {words words' : Flag → PeerId → Option Bool}

theorem Known.keeps (h : d.Known words) (hKeeps : d.peers.Keeps d'.peers)
    (hWords : ∀ f id, words' f id = words f id) : d'.Known words' := by
  intro f id p' hFind'
  obtain ⟨p, hFind, hSame⟩ := hKeeps id p' hFind'
  rw [hSame f, hWords]
  exact h f id p hFind

/-- Requests say nothing about flags. -/
theorem fill_silent (selector : Selector) (r : Rarity) (now : Time) (slots : Nat) (fs : FileSet)
    (peer : Peer) {m : Message} (hMem : m ∈ (fill selector r now slots fs peer).2.2) (f : Flag) :
    f.said? m = none := by
  induction slots generalizing fs peer with
  | zero => cases hMem
  | succ slots ih =>
    simp only [fill] at hMem
    split at hMem
    · cases hMem
    · split at hMem
      · cases hMem
      · rcases List.mem_cons.mp hMem with rfl | hMem
        · simp only [requestMessage]
          split <;> cases f <;> rfl
        · exact ih _ _ hMem

/-- The pass over a connected peer tells it how its flags have changed, and nothing else of them. -/
theorem serve_eq (r : Rarity) (now : Time) {id : PeerId} {old : Peer}
    (hFind : d.peers.find? id = some old) : ∃ new more,
    (d.serve r now id).1.peers = d.peers.insert id new ∧
      (d.serve r now id).2 = flagMessages old new ++ more ∧
      ∀ m ∈ more, ∀ f : Flag, f.said? m = none := by
  simp only [serve, hFind]
  split
  · refine ⟨_, [], rfl, ?_, fun m hMem => ?_⟩
    · rw [List.append_nil]
    · cases hMem
  · next fs _ =>
    let peer := d.choking.update d.fileSet old
    obtain ⟨pending, hFilled⟩ := fill_peer d.selector r now peer.freeSlots fs peer
    refine ⟨_, _, rfl, ?_,
      fun m hMem f => fill_silent d.selector r now peer.freeSlots fs peer hMem f⟩
    rw [hFilled]
    rfl

/-- A peer hears of a flag as it is now, if it has changed. -/
theorem hear_flagMessages (f : Flag) (id : PeerId) (word : Option Bool) (old new : Peer) :
    f.hear id word ((flagMessages old new).map (.send id)) =
      if f.of new = f.of old then word else some (f.of new) := by
  have hInterest (v : Bool) :
      f.said? (interestMessage v) = if f = .interest then some v else none := by
    cases v <;> cases f <;> rfl
  have hChoke (v : Bool) : f.said? (chokeMessage v) = if f = .choke then some v else none := by
    cases v <;> cases f <;> rfl
  rw [flagMessages]
  by_cases hI : new.download.interested = old.download.interested
  · by_cases hC : new.upload.choked = old.upload.choked
    · cases f <;> simp [hI, hC, Flag.hear, Flag.of]
    · cases f <;> simp [hI, hC, Flag.hear, Flag.of, Effect.tells?, hChoke]
  · by_cases hC : new.upload.choked = old.upload.choked
    · cases f <;> simp [hI, hC, Flag.hear, Flag.of, Effect.tells?, hInterest]
    · cases f <;> simp [hI, hC, Flag.hear, Flag.of, Effect.tells?, hInterest, hChoke]

theorem serve_known (h : d.Known words) (r : Rarity) (now : Time) (id : PeerId) :
    (d.serve r now id).1.Known fun f k =>
      f.hear k (words f k) ((d.serve r now id).2.map (.send id)) := by
  cases hFind : d.peers.find? id with
  | none =>
    simp only [serve, hFind]
    exact h
  | some old =>
    obtain ⟨new, more, hPeers, hMessages, hSilent⟩ := serve_eq r now hFind
    intro f k p' hFind'
    dsimp only
    rw [hPeers, Roster.find?_insert] at hFind'
    by_cases hk : k = id
    · subst hk
      rw [if_pos rfl] at hFind'
      obtain rfl := Option.some.inj hFind'
      have hMore : ∀ e ∈ more.map (Effect.send k), e.tells? f k = none := by
        intro e he
        obtain ⟨m, hMem, rfl⟩ := List.mem_map.mp he
        exact (if_pos rfl).trans (hSilent m hMem f)
      rw [hMessages, List.map_append, Flag.hear_append, Flag.hear_of_silent hMore,
        hear_flagMessages]
      split
      · next hSame =>
        rw [hSame]
        exact h f k old hFind
      · rfl
    · rw [if_neg hk] at hFind'
      rw [Flag.hear_sends_other (Ne.symm hk)]
      exact h f k p' hFind'

theorem serveAll_known (h : d.Known words) (r : Rarity) (now : Time) (ids : List PeerId) :
    (serveAll r now ids d).1.Known fun f k => f.hear k (words f k) (serveAll r now ids d).2 := by
  induction ids generalizing d words with
  | nil => exact h
  | cons id rest ih =>
    simp only [serveAll, Flag.hear_append]
    exact ih (serve_known h r now id)

/-- A scheduling pass with any strategy tells peers of all changes. -/
theorem tick_known (h : d.Known words) (relevant : List PeerId) (now : Time) :
    (d.tick relevant now).1.Known fun f k => f.hear k (words f k) (d.tick relevant now).2 :=
  serveAll_known h _ now relevant

end Download

namespace PhaseId

variable {c : PhaseConfig} {phase next : PhaseId} {d d' : Download} {effects : List Effect}
  {words : Flag → PeerId → Option Bool}

theorem leave_known (h : d.Known words) (hLeave : phase.leave c d = .ok (d', effects)) :
    d'.Known fun f k => f.hear k (words f k) effects := by
  have hPeers : d'.peers = d.peers := by
    rcases leave_cases hLeave with rfl | ⟨fs, -, rfl⟩ <;> rfl
  refine h.keeps (hPeers ▸ .refl _) fun f k => Flag.hear_of_silent fun e he => ?_
  rcases leave_effect hLeave he with ⟨path, bytes, rfl⟩ | ⟨event, rfl, -⟩ <;> rfl

theorem mem_enterSeed {e : Effect} : e ∈ (enterSeed d).2 ↔ ∃ id p, d.peers.find? id = some p ∧
    p.download.interested = true ∧ e = .send id .notInterested := by
  simp only [enterSeed, List.mem_map, List.mem_filter, Prod.exists, Roster.find?_eq_some, and_assoc]
  simp only [eq_comm (b := e)]

/-- Seeding tells every peer in whose data we were interested that we are not any more. -/
theorem enterSeed_known (h : d.Known words) :
    (enterSeed d).1.Known fun f k => f.hear k (words f k) (enterSeed d).2 := by
  intro f k p' hFind'
  dsimp only
  simp only [enterSeed, Roster.find?_map] at hFind'
  obtain ⟨p, hFind, rfl⟩ := Option.map_eq_some_iff.mp hFind'
  cases f with
  | choke =>
    rw [Flag.hear_of_silent]
    · exact h .choke k p hFind
    · intro e he
      obtain ⟨id, q, -, -, rfl⟩ := mem_enterSeed.mp he
      exact ite_self none
  | interest =>
    by_cases hWanted : p.download.interested = true
    · rw [Flag.hear_of_tells (v := false)]
      · rfl
      · intro e he
        obtain ⟨id, q, -, -, rfl⟩ := mem_enterSeed.mp he
        exact (ite_eq_or_eq (id = k) (some false) none).symm
      · exact ⟨_, mem_enterSeed.mpr ⟨k, p, hFind, hWanted, rfl⟩, if_pos rfl⟩
    · rw [Flag.hear_of_silent]
      · exact (Bool.eq_false_iff.mpr hWanted).symm.trans (h .interest k p hFind)
      · intro e he
        obtain ⟨id, q, hFindQ, hWantedQ, rfl⟩ := mem_enterSeed.mp he
        refine if_neg fun hId => hWanted ?_
        rw [hId, hFind] at hFindQ
        rwa [Option.some.inj hFindQ]

theorem enter_known (h : d.Known words) (hEnter : phase.enter c d = .ok (d', effects)) :
    d'.Known fun f k => f.hear k (words f k) effects := by
  cases phase with
  | preMetadata =>
    cases hEnter
    exact h
  | metadata =>
    simp only [enter] at hEnter
    split at hEnter
    · cases hEnter
      exact h
    · cases hEnter
  | data =>
    obtain ⟨m, fs, -, -, rfl, rfl⟩ := enterData_eq_ok hEnter
    refine h.keeps (Roster.keeps_map (fun _ p f => by cases f <;> rfl) _) fun f k => ?_
    refine Flag.hear_of_silent fun e he => ?_
    obtain ⟨layout, -, rfl⟩ := Option.map_eq_some_iff.mp (Option.mem_toList.mp he)
    rfl
  | seed =>
    cases hEnter
    exact enterSeed_known h

/-- Going on along a chain tells peers of all changes. -/
theorem advance_known (h : d.Known words) {chain : PhaseChain}
    (hAdvance : chain.advance phase d = (d', effects, .moved next)) :
    d'.Known fun f k => f.hear k (words f k) effects := by
  simp only [PhaseChain.advance] at hAdvance
  split at hAdvance
  · cases hAdvance
  · split at hAdvance
    · cases hAdvance
    · next left leaving hLeave =>
      split at hAdvance
      · cases hAdvance
      · next entered entering hEnter =>
        cases hAdvance
        have hKnown := enter_known (leave_known h hLeave) hEnter
        refine hKnown.keeps (.refl _) fun f k => ?_
        rw [Flag.hear_append, Flag.hear_append]
        rfl

end PhaseId

/-! ### Runs -/

namespace Chronicle

variable {config : PhaseConfig} {k : Chronicle}

/-- What peers were told last in a chronicle. -/
def words (k : Chronicle) (f : Flag) (id : PeerId) : Option Bool := f.last? id k.past

/-- Connected peers know our flags. -/
def Mirrors (k : Chronicle) : Prop := k.download.Known k.words

/-- Input does nothing that tells a peer of a flag. -/
theorem words_handle (k : Chronicle) (now : Time) (c : Command) (f : Flag) (id : PeerId) :
    (k.after config (.handle now c)).words f id =
      if c.connects ∧ c.peer = id then none else k.words f id := by
  have hSilent : ∀ e ∈ (k.download.handle now c).2.toOption.getD [], e.tells? f id = none := by
    intro e he
    cases hHandle : k.download.handle now c with
    | mk d result =>
      rw [hHandle] at he
      cases result with
      | error cause => cases he
      | ok effects =>
        rcases Download.handle_effect hHandle he with ⟨_, _, _, _, rfl⟩ | ⟨_, _, _, _, rfl⟩ <;> rfl
  exact (Flag.last?_record ..).trans (Flag.hear_of_silent hSilent)

theorem mirrors_handle (h : k.Mirrors) (now : Time) (c : Command) :
    (k.after config (.handle now c)).Mirrors := by
  by_cases hConnects : c.connects = true
  · cases c with
    | connect id line size =>
      intro f other p hFind
      change (k.download.peers.insert id _).find? other = some p at hFind
      rw [Roster.find?_insert] at hFind
      rw [words_handle]
      by_cases hOther : other = id
      · rw [if_pos hOther] at hFind
        obtain rfl := Option.some.inj hFind
        rw [if_pos ⟨rfl, hOther.symm⟩]
        cases f <;> rfl
      · rw [if_neg hOther] at hFind
        rw [if_neg fun hBoth => hOther hBoth.2.symm]
        exact h f other p hFind
    | _ => cases hConnects
  · have hKeeps := Download.keeps_handle k.download now (Bool.eq_false_iff.mpr hConnects)
    refine h.keeps hKeeps fun f id => ?_
    rw [words_handle, if_neg fun hBoth => hConnects hBoth.1]

theorem mirrors_advance (h : k.Mirrors) : (k.after config .advance).Mirrors := by
  have hAttempts := PhaseId.advance_attempts config k.phase k.download
  cases hAttempt : (PhaseChain.standard config).advance k.phase k.download with
  | mk d rest =>
    obtain ⟨effects, result⟩ := rest
    rw [hAttempt] at hAttempts
    simp only [after, hAttempt]
    cases hAttempts with
    | stayed => exact h
    | failed e => exact h
    | moved hMoves =>
      refine (PhaseId.advance_known h hAttempt).keeps (.refl _) fun f id => ?_
      exact Flag.last?_record ..

/-- Whatever happens, connected peers know our flags then. -/
theorem mirrors_after (config : PhaseConfig) (h : k.Mirrors) (turn : Turn) :
    (k.after config turn).Mirrors := by
  cases turn with
  | handle now c => exact mirrors_handle h now c
  | tick choking relevant now =>
    have hChosen : { k.download with choking }.Known k.words := h
    refine (Download.tick_known hChosen relevant now).keeps (.refl _) fun f id => ?_
    exact Flag.last?_record ..
  | advance => exact mirrors_advance h
  | work job network events tree =>
    exact h.keeps (Download.keeps_run job _) fun _ _ => rfl

theorem mirrors_run (config : PhaseConfig) (h : k.Mirrors) (turns : List Turn) :
    (k.run config turns).Mirrors := by
  induction turns generalizing k with
  | nil => exact h
  | cons turn rest ih => exact ih (mirrors_after config h turn)

/-- From a beginning at which every connected peer has its first flags, through any turns: a
connected peer was told last that we are interested exactly if we are, and that it is not choked
exactly if it is not. -/
theorem flags_told (config : PhaseConfig) (hPast : k.past = [])
    (hFlags : k.download.peers.All fun p =>
      p.download.interested = false ∧ p.upload.choked = true) (turns : List Turn)
    {id : PeerId} {p : Peer} (hFind : (k.run config turns).download.peers.find? id = some p) :
    (p.download.interested = true ↔
        Flag.interest.last? id (k.run config turns).past = some true) ∧
      (p.upload.choked = false ↔
        Flag.choke.last? id (k.run config turns).past = some false) := by
  have hStart : k.Mirrors := by
    intro f id p hFind
    obtain ⟨hInterest, hChoke⟩ := hFlags id p hFind
    rw [words, hPast]
    cases f with
    | interest => exact hInterest
    | choke => exact hChoke
  have hMirrors := mirrors_run config hStart turns
  have hInterest : p.download.interested =
      (Flag.interest.last? id (k.run config turns).past).getD false :=
    hMirrors .interest id p hFind
  have hChoke : p.upload.choked = (Flag.choke.last? id (k.run config turns).past).getD true :=
    hMirrors .choke id p hFind
  refine ⟨?_, ?_⟩
  · rw [hInterest]
    cases Flag.interest.last? id (k.run config turns).past <;> simp
  · rw [hChoke]
    cases Flag.choke.last? id (k.run config turns).past <;> simp

def emptyInfo : Bytes := Bytes.ofText "d4:name1:a12:piece lengthi1e6:pieces0:e"

/-- A torrent without content that is known from the start. -/
def emptyKnown : Download :=
  (Download.named (sha1 emptyInfo) 1).withMetainfo
    { infoBytes := emptyInfo, info := { pieceLength := 1, name := "a" } }

/-- A peer offers metadata that are known already and wants our data. There is no content to
download, so that we are interested in the peer at first, and not any more once we seed. -/
def seededSoon : Chronicle :=
  run World.oneByteConfig { download := emptyKnown, phase := .preMetadata }
    [.handle 0 (.connect "p" 0 (some 1)), .handle 0 (.interested "p"), .tick .metadata ["p"] 0,
      .advance, .advance, .advance, .tick .upload ["p"] 0]

theorem flags_told_seededSoon : seededSoon.phase = .seed ∧
    ∃ p, seededSoon.download.peers.find? "p" = some p ∧
      p.download.interested = false ∧ Flag.interest.last? "p" seededSoon.past ≠ some true ∧
      p.upload.choked = false ∧ Flag.choke.last? "p" seededSoon.past = some false := by
  have hFlags : (seededSoon.download.peers.find? "p").any fun p =>
      p.download.interested = false ∧ p.upload.choked = false := by
    decide +kernel
  obtain ⟨p, hFind, hFlags⟩ := (Option.any_eq_true ..).mp hFlags
  obtain ⟨hInterest, hChoke⟩ := of_decide_eq_true hFlags
  obtain ⟨hInterested, hUnchoked⟩ := flags_told World.oneByteConfig rfl
    (fun id p hNone => by cases hNone) _ hFind
  refine ⟨by decide +kernel, p, hFind, hInterest, fun hTold => ?_, hChoke, hUnchoked.mp hChoke⟩
  rw [hInterested.mpr hTold] at hInterest
  cases hInterest

end Chronicle

end TorrentEngine
