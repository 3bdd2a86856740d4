import Mathlib.Data.Multiset.AddSub
import Mathlib.Data.Multiset.Filter
import TorrentEngine.Engine

/-!
The jobs that are outstanding, as a bag: those that wait in the queue and those that sleep until
they are tried again. Each operation of the scheduler and each effect is described by what it does
to the bag; the order of the queue plays no part.
-/

namespace TorrentEngine

namespace JobQueue

variable {α : Type}

theorem place_perm (entry : QueuedJob α) (entries : List (QueuedJob α)) :
    (place entry entries).Perm (entry :: entries) := by
  induction entries with
  | nil => exact .refl _
  | cons e rest ih =>
    simp only [place]
    split
    · exact .refl _
    · exact (ih.cons e).trans (.swap entry e rest)

theorem entries_requeue_perm (q : JobQueue α) (entry : QueuedJob α) :
    (q.requeue entry).entries.Perm (entry :: q.entries) :=
  place_perm entry q.entries

theorem entries_requeueAll_perm (q : JobQueue α) (entries : List (Time × QueuedJob α)) :
    (entries.foldl (fun q e => q.requeue e.2) q).entries.Perm
      (entries.map (·.2) ++ q.entries) := by
  induction entries generalizing q with
  | nil => exact .refl _
  | cons e rest ih =>
    have hHead := (entries_requeue_perm q e.2).append_left (rest.map (·.2))
    exact (ih (q.requeue e.2)).trans (hHead.trans List.perm_middle)

end JobQueue

namespace Scheduler

variable {α : Type}

/-- The entries that have not finished: those waiting and those sleeping. -/
def held (s : Scheduler α) : List (QueuedJob α) := s.queue.entries ++ s.sleeping.map (·.2)

/-- The jobs that have not finished. -/
def bag (s : Scheduler α) : Multiset α := (s.held.map (·.job) : List α)

theorem bag_eq_of_held {s t : Scheduler α} (h : s.held.Perm t.held) : s.bag = t.bag :=
  Multiset.coe_eq_coe.mpr (h.map _)

theorem bag_eq_cons_of_held {s t : Scheduler α} {entry : QueuedJob α}
    (h : s.held.Perm (entry :: t.held)) : s.bag = entry.job ::ₘ t.bag :=
  Multiset.coe_eq_coe.mpr (h.map _)

theorem bag_submit (s : Scheduler α) (priority : Nat) (job : α) :
    (s.submit priority job).bag = job ::ₘ s.bag := by
  have hPerm : (s.submit priority job).held.Perm
      ({ priority, sequence := s.queue.nextSequence, attempts := 0, job } :: s.held) :=
    (JobQueue.place_perm _ _).append_right _
  have hBag := bag_eq_cons_of_held hPerm
  exact hBag

theorem bag_submitAll (s : Scheduler α) (jobs : List (Nat × α)) :
    (s.submitAll jobs).bag = (jobs.map (·.2) : List α) + s.bag := by
  induction jobs generalizing s with
  | nil => simp [submitAll]
  | cons job rest ih =>
    have := ih (s.submit job.1 job.2)
    simp only [submitAll, List.foldl_cons] at this ⊢
    rw [this, bag_submit, List.map_cons, ← Multiset.cons_coe, Multiset.cons_add,
      Multiset.add_cons]

theorem bag_settle (s : Scheduler α) (entry : QueuedJob α) (v : Verdict) :
    (s.settle entry v).bag = if v = .retry then entry.job ::ₘ s.bag else s.bag := by
  cases v with
  | done => rfl
  | dropped => rfl
  | retry =>
    rw [if_pos rfl]
    have hPerm : (s.settle entry .retry).held.Perm
        ({ entry with attempts := entry.attempts + 1 } :: s.held) := by
      simp only [held, settle, List.map_append, List.map_cons, List.map_nil, ← List.append_assoc]
      exact List.perm_append_singleton _ _
    have hBag := bag_eq_cons_of_held hPerm
    exact hBag

/-- Sleepers that come back are held as before. -/
theorem bag_wake (s : Scheduler α) : s.wake.bag = s.bag := by
  apply bag_eq_of_held
  simp only [held, wake]
  refine ((JobQueue.entries_requeueAll_perm _ _).append_right _).trans ?_
  have hLater : s.sleeping.filter (fun e => decide (s.now < e.1)) =
      s.sleeping.filter (fun e => !decide (e.1 ≤ s.now)) := by
    refine List.filter_congr fun e _ => ?_
    simp only [← Nat.not_le, decide_not]
  have hSplit := (List.filter_append_perm (fun e => decide (e.1 ≤ s.now)) s.sleeping).map (·.2)
  rw [hLater, List.append_assoc]
  refine List.perm_append_comm_assoc _ _ _ |>.trans (.append_left _ ?_)
  rwa [List.map_append] at hSplit

/-- After a run the job is left if it is to be tried again, with the jobs that it submitted. -/
theorem bag_settle_submitAll (s : Scheduler α) (entry : QueuedJob α) (v : Verdict)
    (jobs : List (Nat × α)) :
    ((s.submitAll jobs).settle entry v).bag =
      (if v = .retry then {entry.job} else 0) + ((jobs.map (·.2) : List α) + s.bag) := by
  rw [bag_settle, bag_submitAll]
  split
  · rw [Multiset.singleton_add]
  · rw [Multiset.zero_add]

/-- One held entry, and the scheduler without it. -/
inductive Takes (s : Scheduler α) : QueuedJob α → Scheduler α → Prop
  | waiting {before after : List (QueuedJob α)} {entry : QueuedJob α}
      (h : s.queue.entries = before ++ entry :: after) :
      Takes s entry { s with queue := { s.queue with entries := before ++ after } }
  | sleeping {before after : List (Time × QueuedJob α)} {due : Time} {entry : QueuedJob α}
      (h : s.sleeping = before ++ (due, entry) :: after) :
      Takes s entry { s with sleeping := before ++ after }

theorem Takes.held_perm {s rest : Scheduler α} {entry : QueuedJob α} (h : s.Takes entry rest) :
    s.held.Perm (entry :: rest.held) := by
  cases h with
  | waiting h =>
    simp only [held, h, List.append_assoc, List.cons_append]
    exact List.perm_middle
  | sleeping h =>
    simp only [held, h, List.map_append, List.map_cons, ← List.append_assoc]
    exact List.perm_middle

theorem Takes.bag {s rest : Scheduler α} {entry : QueuedJob α} (h : s.Takes entry rest) :
    s.bag = entry.job ::ₘ rest.bag :=
  bag_eq_cons_of_held h.held_perm

end Scheduler

namespace Effect

/-- The job that an effect calls for, where `lineOf?` tells the lines to peers. -/
def job? (lineOf? : PeerId → Option LineId) : Effect → Option Job
  | .store kind i block data => some (.store kind i block data)
  | .upload peer i offset length => (lineOf? peer).map fun line => .send peer line i offset length
  | _ => none

end Effect

namespace Engine

/-- The jobs that have not finished. -/
def bag (e : Engine) : Multiset Job := e.scheduler.bag

@[simp] theorem bag_setDownload (e : Engine) (d : Download) : (e.setDownload d).bag = e.bag := rfl

@[simp] theorem download_setDownload (e : Engine) (d : Download) :
    (e.setDownload d).download = d := rfl

theorem bag_submit (e : Engine) (job : Job) : (e.submit job).bag = job ::ₘ e.bag :=
  Scheduler.bag_submit ..

/-- The check of a piece of the content, as it is submitted. -/
def checkOf (i : Nat) : Nat × Job := (Job.priority (.check .data i), .check .data i)

theorem submitChecks_eq (e : Engine) (pieces : List Nat) :
    pieces.foldl (fun e i => e.submit (.check .data i)) e =
      { e with scheduler := e.scheduler.submitAll (pieces.map checkOf) } := by
  induction pieces generalizing e with
  | nil => rfl
  | cons i rest ih =>
    rw [List.foldl_cons, ih]
    rfl

theorem download_send (t : Torrent) (peer : PeerId) (m : Message) :
    (t.send peer m).download = t.download := by
  simp only [Torrent.send]
  split <;> rfl

theorem download_carryOut (e : Engine) (effect : Effect) :
    (e.carryOut effect).download = e.download := by
  cases effect with
  | send peer m => exact download_send ..
  | upload peer i offset length =>
    simp only [carryOut]
    split <;> rfl
  | _ => rfl

theorem bag_carryOut (e : Engine) (effect : Effect) :
    (e.carryOut effect).bag =
      ((effect.job? e.torrent.lineOf?).toList : List Job) + e.bag := by
  cases effect with
  | store kind i block data => exact bag_submit ..
  | upload peer i offset length =>
    simp only [carryOut, Effect.job?]
    split
    · next h => simp [h]
    · next h =>
      simp [h, bag_submit]
  | _ => simp [carryOut, Effect.job?, bag]

/-- Effects leave the state of the torrent alone. -/
theorem download_carryOutAll (e : Engine) (effects : List Effect) :
    (e.carryOutAll effects).download = e.download := by
  induction effects generalizing e with
  | nil => rfl
  | cons effect rest ih =>
    simp only [carryOutAll, List.foldl_cons] at ih ⊢
    rw [ih, download_carryOut]

/-- The jobs that effects call for become outstanding. -/
theorem bag_carryOutAll (e : Engine) (effects : List Effect) :
    (e.carryOutAll effects).bag =
      (effects.filterMap (Effect.job? e.torrent.lineOf?) : List Job) + e.bag := by
  induction effects generalizing e with
  | nil => simp [carryOutAll]
  | cons effect rest ih =>
    have hLines : (e.carryOut effect).torrent.lineOf? = e.torrent.lineOf? := by
      funext peer
      simp only [Torrent.lineOf?]
      rw [show (e.carryOut effect).torrent.download = e.torrent.download from
        download_carryOut e effect]
    have := ih (e.carryOut effect)
    rw [hLines, bag_carryOut] at this
    simp only [carryOutAll, List.foldl_cons] at this ⊢
    rw [this]
    cases hJob : effect.job? e.torrent.lineOf? with
    | none =>
      rw [List.filterMap_cons_none hJob]
      simp
    | some job =>
      rw [List.filterMap_cons_some hJob, ← Multiset.cons_coe, Multiset.cons_add]
      simp

/-- Effects that call for no job leave the scheduler alone. -/
theorem scheduler_carryOutAll (e : Engine) {effects : List Effect}
    (h : ∀ effect ∈ effects, ∀ lineOf?, effect.job? lineOf? = none) :
    (e.carryOutAll effects).scheduler = e.scheduler := by
  induction effects generalizing e with
  | nil => rfl
  | cons effect rest ih =>
    have hFirst : (e.carryOut effect).scheduler = e.scheduler := by
      have hNone := h effect List.mem_cons_self e.torrent.lineOf?
      cases effect with
      | store kind i block data => cases hNone
      | upload peer i offset length =>
        rw [Effect.job?, Option.map_eq_none_iff] at hNone
        simp only [carryOut, hNone]
      | _ => rfl
    have hRest := ih (e.carryOut effect) fun effect hEffect =>
      h effect (List.mem_cons_of_mem _ hEffect)
    simp only [carryOutAll, List.foldl_cons] at hRest ⊢
    rw [hRest, hFirst]

/-- Messages and events leave the file system alone. -/
theorem tree_carryOutAll (e : Engine) {effects : List Effect}
    (h : ∀ effect ∈ effects, (∃ id m, effect = .send id m) ∨ ∃ event, effect = .notify event) :
    (e.carryOutAll effects).torrent.tree = e.torrent.tree := by
  induction effects generalizing e with
  | nil => rfl
  | cons effect rest ih =>
    have hFirst : (e.carryOut effect).torrent.tree = e.torrent.tree := by
      rcases h effect List.mem_cons_self with ⟨id, m, rfl⟩ | ⟨event, rfl⟩
      · simp only [carryOut, Torrent.send]
        split <;> rfl
      · rfl
    have hRest := ih (e.carryOut effect) fun effect hEffect =>
      h effect (List.mem_cons_of_mem _ hEffect)
    simp only [carryOutAll, List.foldl_cons] at hRest ⊢
    rw [hRest, hFirst]

end Engine

end TorrentEngine
