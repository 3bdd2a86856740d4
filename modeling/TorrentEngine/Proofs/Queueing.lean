import Mathlib.Data.List.Nodup
import TorrentEngine.Proofs.Outstanding

/-!
The queue of jobs in use. Whatever is pushed, taken out and put back, with any number of attempts in
between, the entries that wait are those that were pushed and are not out, each under the number
that it was given at first; and the one that leaves stands before all others, by its priority and
then by its number. So jobs of one priority leave in the order in which they were submitted, however
often they come back.
-/

namespace TorrentEngine

namespace QueuedJob

variable {α : Type} {a b c : QueuedJob α}

/-- `a` stands before `b`: its priority value is lower, or the same and it was submitted earlier. -/
def Before (a b : QueuedJob α) : Prop :=
  a.priority < b.priority ∨ a.priority = b.priority ∧ a.sequence < b.sequence

/-- What an entry keeps while it is tried again: its priority, its number and its job. -/
def ticket (e : QueuedJob α) : Nat × Nat × α := (e.priority, e.sequence, e.job)

theorem Before.trans (h : a.Before b) (h' : b.Before c) : a.Before c := by
  rw [Before] at *
  omega

/-- Of two entries with different numbers one stands before the other. -/
theorem before_of_not (hNot : ¬ a.Before b) (hNumbers : a.sequence ≠ b.sequence) : b.Before a := by
  rw [Before] at *
  omega

/-- The greater of two entries is the one that stands before. -/
theorem order_eq_gt : a.order b = .gt ↔ a.Before b := by
  simp only [order, Before, Ordering.then_eq_gt, Nat.compare_eq_gt, Nat.compare_eq_eq,
    eq_comm (a := b.priority)]

theorem precedes_iff : a.precedes b = true ↔ a.Before b := by
  rw [precedes, beq_iff_eq, order_eq_gt]

/-- The order takes entries for equal just if they are. -/
theorem order_eq_eq : a.order b = .eq ↔ a.samePlace b = true := by
  simp only [order, samePlace, Ordering.then_eq_eq, Nat.compare_eq_eq, Bool.and_eq_true,
    beq_iff_eq, eq_comm (a := b.priority), eq_comm (a := b.sequence)]

theorem isLE_order : (a.order b).isLE = true ↔ ¬ a.Before b := by
  rw [← order_eq_gt]
  cases a.order b <;> simp

/-- The order of entries is total. -/
instance transCmp_order : Std.TransCmp (order (α := α)) where
  eq_swap {a b} := by
    simp only [order, Ordering.swap_then, Nat.compare_swap]
  isLE_trans {a b c} hab hbc := by
    rw [isLE_order, Before] at *
    omega

end QueuedJob

namespace JobQueue

open QueuedJob

variable {α : Type}

/-- A call of the queue. What comes back is one of the entries that are out, with the number of
attempts that it has by then. -/
inductive Call (α : Type)
  | push (priority : Nat) (job : α)
  | pop
  | requeue (n attempts : Nat)

/-- The job that a call brings, with its priority. -/
def Call.pushed? : Call α → Option (Nat × α)
  | .push priority job => some (priority, job)
  | _ => none

/-- A queue in use, and the entries that were taken out and have not come back. -/
structure Use (α : Type) where
  queue : JobQueue α := {}
  out : List (QueuedJob α) := []

/-- The use after a call. -/
def Use.after (u : Use α) : Call α → Use α
  | .push priority job => { u with queue := u.queue.push priority job }
  | .pop =>
    match u.queue.pop? with
    | none => u
    | some (entry, queue) => { queue, out := u.out ++ [entry] }
  | .requeue n attempts =>
    match u.out[n]? with
    | none => u
    | some entry => { queue := u.queue.requeue { entry with attempts }, out := u.out.eraseIdx n }

/-- The use of a new queue after calls in order. -/
def used (calls : List (Call α)) : Use α := calls.foldl Use.after {}

/-- The tickets of jobs in the order in which they come, numbered from zero. -/
def tickets (jobs : List (Nat × α)) : List (Nat × Nat × α) :=
  jobs.zipIdx.map fun e => (e.1.1, e.2, e.1.2)

theorem tickets_concat (jobs : List (Nat × α)) (priority : Nat) (job : α) :
    tickets (jobs ++ [(priority, job)]) = tickets jobs ++ [(priority, jobs.length, job)] := by
  simp [tickets, List.zipIdx_append]

theorem numbers_tickets (jobs : List (Nat × α)) :
    (tickets jobs).map (·.2.1) = List.range jobs.length := by
  rw [tickets, List.map_map, List.range_eq_range', ← List.zipIdx_map_snd 0 jobs]
  rfl

/-- An entry with a number of its own finds its place. -/
theorem place_pairwise {entry : QueuedJob α} {entries : List (QueuedJob α)}
    (h : entries.Pairwise Before) (hOwn : ∀ e ∈ entries, entry.sequence ≠ e.sequence) :
    (place entry entries).Pairwise Before := by
  induction entries with
  | nil => exact List.pairwise_singleton ..
  | cons first rest ih =>
    obtain ⟨hFirst, hRest⟩ := List.pairwise_cons.mp h
    obtain ⟨hNumber, hNumbers⟩ := List.forall_mem_cons.mp hOwn
    simp only [place]
    split
    · next hPrecedes =>
      have hBefore := precedes_iff.mp hPrecedes
      refine List.pairwise_cons.mpr ⟨fun e he => ?_, h⟩
      rcases List.mem_cons.mp he with rfl | he
      · exact hBefore
      · exact hBefore.trans (hFirst e he)
    · next hNot =>
      have hAfter := before_of_not (fun hBefore => hNot (precedes_iff.mpr hBefore)) hNumber
      refine List.pairwise_cons.mpr ⟨fun e he => ?_, ih hRest hNumbers⟩
      rcases List.mem_cons.mp ((place_perm entry rest).mem_iff.mp he) with rfl | he
      · exact hAfter
      · exact hFirst e he

/-! ### What calls keep -/

/-- The queue has taken `jobs`: each has its ticket, which waits or is out, and those that wait
stand in order. -/
structure Use.Orderly (u : Use α) (jobs : List (Nat × α)) : Prop where
  held : ((u.queue.entries ++ u.out).map ticket).Perm (tickets jobs)
  next_eq : u.queue.nextSequence = jobs.length
  sorted : u.queue.entries.Pairwise Before

namespace Use.Orderly

variable {u : Use α} {jobs : List (Nat × α)}

theorem start : ({} : Use α).Orderly [] := ⟨.refl _, rfl, .nil⟩

theorem numbers (h : u.Orderly jobs) :
    ((u.queue.entries ++ u.out).map (·.sequence)).Perm (List.range jobs.length) := by
  have hPerm := h.held.map (·.2.1)
  rwa [numbers_tickets, List.map_map] at hPerm

/-- No two entries have the same number. -/
theorem nodup (h : u.Orderly jobs) :
    ((u.queue.entries ++ u.out).map (·.sequence)).Nodup :=
  h.numbers.nodup_iff.mpr List.nodup_range

theorem sequence_lt (h : u.Orderly jobs) {e : QueuedJob α} (he : e ∈ u.queue.entries) :
    e.sequence < jobs.length := by
  have hMem : e.sequence ∈ (u.queue.entries ++ u.out).map (·.sequence) :=
    List.mem_map_of_mem (List.mem_append_left _ he)
  exact List.mem_range.mp (h.numbers.mem_iff.mp hMem)

theorem push (h : u.Orderly jobs) (priority : Nat) (job : α) :
    (u.after (.push priority job)).Orderly (jobs ++ [(priority, job)]) := by
  refine ⟨?_, ?_, ?_⟩
  · have hEntries := place_perm (α := α)
      { priority, sequence := u.queue.nextSequence, attempts := 0, job } u.queue.entries
    have hTickets := (hEntries.append_right u.out).map ticket
    rw [tickets_concat, ← h.next_eq]
    exact hTickets.trans ((h.held.cons _).trans (List.perm_append_singleton _ _).symm)
  · simp only [after, JobQueue.push, List.length_append, List.length_singleton, h.next_eq]
  · refine place_pairwise h.sorted fun e he => ?_
    have := h.sequence_lt he
    have := h.next_eq
    dsimp only
    omega

theorem pop (h : u.Orderly jobs) : (u.after .pop).Orderly jobs := by
  simp only [after, pop?]
  cases hEntries : u.queue.entries with
  | nil => exact h
  | cons first rest =>
    have hHeld := h.held
    have hSorted := h.sorted
    rw [hEntries] at hHeld hSorted
    refine ⟨?_, h.next_eq, hSorted.of_cons⟩
    have hTaken : (rest ++ (u.out ++ [first])).Perm (first :: rest ++ u.out) := by
      rw [← List.append_assoc]
      exact List.perm_append_singleton ..
    exact (hTaken.map ticket).trans hHeld

/-- An entry comes back to the place that it left. -/
theorem requeue (h : u.Orderly jobs) (n attempts : Nat) :
    (u.after (.requeue n attempts)).Orderly jobs := by
  simp only [after]
  cases hOut : u.out[n]? with
  | none => exact h
  | some entry =>
    obtain ⟨hn, hEntry⟩ := List.getElem?_eq_some_iff.mp hOut
    have hBack : u.out.Perm (entry :: u.out.eraseIdx n) := by
      rw [← hEntry]
      exact (List.getElem_cons_eraseIdx_perm hn).symm
    refine ⟨?_, h.next_eq, ?_⟩
    · have hPlaced := (place_perm { entry with attempts } u.queue.entries).append_right
        (u.out.eraseIdx n)
      have hFront : ((entry :: u.queue.entries) ++ u.out.eraseIdx n).Perm
          (u.queue.entries ++ u.out) :=
        List.perm_middle.symm.trans (hBack.symm.append_left _)
      exact (hPlaced.map ticket).trans ((hFront.map ticket).trans h.held)
    · refine place_pairwise h.sorted fun e he => ?_
      have hNodup := h.nodup
      rw [List.map_append] at hNodup
      have hApart := List.disjoint_of_nodup_append hNodup (List.mem_map_of_mem he)
      intro hSame
      have hMem : entry.sequence ∈ u.out.map (·.sequence) :=
        List.mem_map_of_mem (hEntry ▸ List.getElem_mem hn)
      exact hApart (hSame ▸ hMem)

theorem call (h : u.Orderly jobs) (c : Call α) :
    (u.after c).Orderly (jobs ++ c.pushed?.toList) := by
  cases c with
  | push priority job => exact h.push priority job
  | pop => exact (List.append_nil jobs).symm ▸ h.pop
  | requeue n attempts => exact (List.append_nil jobs).symm ▸ h.requeue n attempts

theorem calls (h : u.Orderly jobs) (calls : List (Call α)) :
    (calls.foldl after u).Orderly (jobs ++ calls.filterMap Call.pushed?) := by
  induction calls generalizing u jobs with
  | nil =>
    rw [List.filterMap_nil, List.append_nil]
    exact h
  | cons c rest ih =>
    have hRest := ih (h.call c)
    rw [List.append_assoc] at hRest
    cases hPushed : c.pushed? with
    | none =>
      rw [List.filterMap_cons_none hPushed]
      rwa [hPushed] at hRest
    | some job =>
      rw [List.filterMap_cons_some hPushed]
      rwa [hPushed] at hRest

end Use.Orderly

/-- After any calls of a new queue: the jobs pushed so far, numbered in the order in which they
came, are those of the entries that wait or are out, each once and under its own priority; if
nothing waits, nothing is taken out, and else it is the entry that stands before all others that
wait. The order in which the entries are kept is total, agrees with their equality, and has the
entry that stands before for the greater. -/
theorem used_orderly (calls : List (Call α)) :
    (((used calls).queue.entries ++ (used calls).out).map ticket).Perm
        (tickets (calls.filterMap Call.pushed?)) ∧
      (match (used calls).queue.pop? with
        | none => (used calls).queue.entries = []
        | some (entry, rest) => (used calls).queue.entries.Perm (entry :: rest.entries) ∧
            ∀ other ∈ rest.entries, entry.Before other) ∧
      Std.TransCmp (order (α := α)) ∧
      ∀ a b : QueuedJob α, (a.order b = .eq ↔ a.samePlace b = true) ∧
        (a.order b = .gt ↔ a.Before b) := by
  have hOrderly : (used calls).Orderly (calls.filterMap Call.pushed?) :=
    Use.Orderly.start.calls calls
  refine ⟨hOrderly.held, ?_, transCmp_order, fun a b => ⟨order_eq_eq, order_eq_gt⟩⟩
  rw [pop?]
  cases hEntries : (used calls).queue.entries with
  | nil => rfl
  | cons first rest =>
    have hSorted := hOrderly.sorted
    rw [hEntries] at hSorted
    exact ⟨.refl _, fun other hOther => List.rel_of_pairwise_cons hSorted hOther⟩

/-- Two jobs of one priority fail and come back in the wrong order. -/
def retriedPair : List (Call Char) :=
  [.push 3 'x', .push 0 'a', .push 0 'b', .pop, .pop, .requeue 1 1, .requeue 0 4]

/-- The one that was submitted first leaves first again. -/
theorem used_orderly_retriedPair : ∃ rest,
    (used retriedPair).queue.pop? =
        some ({ priority := 0, sequence := 1, attempts := 4, job := 'a' }, rest) ∧
      QueuedJob.Before { priority := 0, sequence := 1, attempts := 4, job := 'a' }
        { priority := 0, sequence := 2, attempts := 1, job := 'b' } := by
  obtain ⟨-, hPop, -, -⟩ := used_orderly retriedPair
  exact ⟨_, rfl, hPop.2 _ (List.mem_cons_self ..)⟩

end JobQueue

end TorrentEngine
