import Mathlib.Algebra.Ring.Nat
import Mathlib.Data.List.Induction
import TorrentEngine.RequestBudget

/-!
The sliding window of latency. Although samples are only ever taken off the front, a peer keeps
exactly the transfers of its whole history that the window at the newest of them reaches. The limit
on requests moves toward the number of blocks that suits their mean, in bounded steps and never past
it.
-/

namespace TorrentEngine

/-- The sample that a transfer leaves. -/
def Transfer.sample (t : Transfer) : LatencySample :=
  { recordedAt := t.receivedAt, duration := t.duration }

namespace RequestBudget

/-- `receive` with any rule for how many blocks suit a mean. -/
def receiveBy (suits : Time → Nat) (window : Time) (p : Peer) (t : Transfer) : Peer :=
  let samples := recent window t.receivedAt (p.samples ++ [t.sample])
  match mean? (samples.map (·.duration)) with
  | none => { p with samples }
  | some mean => { p with samples, requestLimit := adjust p.requestLimit (suits mean) }

/-- Transfers in the order in which they came. -/
def InOrder (history : List Transfer) : Prop :=
  history.Pairwise fun earlier later => earlier.receivedAt ≤ later.receivedAt

/-- The transfers that are no older at `now` than the window. -/
def within (window now : Time) (history : List Transfer) : List Transfer :=
  history.filter fun t => now ≤ t.receivedAt + window

/-- The mean time that some transfers took, in whole nanoseconds. -/
def meanOf (transfers : List Transfer) : Time :=
  (transfers.map (·.duration)).sum / transfers.length

/-- A limit goes from `old` to `new` on its way to `goal`. -/
structure Move (old goal new : Nat) : Prop where
  pos : 1 ≤ new
  low : min old goal ≤ new
  high : new ≤ max old goal
  rise : new ≤ old + 25
  fall : old ≤ new + 2
  arrives : goal ≤ old + 25 → old ≤ goal + 2 → new = goal

variable {suits : Time → Nat} {window now : Time} {p : Peer} {past history : List Transfer}
  {t : Transfer}

/-! ### The limit -/

theorem move_adjust (old target : Nat) : Move old (max 1 target) (adjust old target) := by
  unfold adjust maxIncrease maxDecrease
  split <;> constructor <;> omega

/-! ### The window -/

/-- Where everything before an unwanted element is unwanted too, taking unwanted elements off the
front takes off all of them. -/
theorem dropWhile_eq_filter {α : Type} {unwanted : α → Bool} {l : List α}
    (h : l.Pairwise fun a b => unwanted b = true → unwanted a = true) :
    l.dropWhile unwanted = l.filter fun a => !unwanted a := by
  induction l with
  | nil => rfl
  | cons a l ih =>
    obtain ⟨hFirst, hRest⟩ := List.pairwise_cons.mp h
    rw [List.dropWhile_cons, List.filter_cons]
    by_cases ha : unwanted a = true
    · simp only [ha, if_true, Bool.not_true, Bool.false_eq_true, if_false]
      exact ih hRest
    · have hWanted : ∀ b ∈ l, (!unwanted b) = true := by
        intro b hb
        rw [Bool.not_eq_true']
        exact Bool.eq_false_iff.mpr fun hUnwanted => ha (hFirst b hb hUnwanted)
      rw [List.filter_eq_self.mpr hWanted]
      simp [ha]

theorem recent_samples (h : InOrder history) :
    recent window now (history.map Transfer.sample) =
      (within window now history).map Transfer.sample := by
  rw [recent, List.dropWhile_map, dropWhile_eq_filter]
  · congr 1
    apply List.filter_congr
    intro t _
    rw [Bool.eq_iff_iff, Bool.not_eq_true', decide_eq_true_eq, Function.comp_apply,
      decide_eq_false_iff_not]
    exact Nat.not_lt.trans Nat.sub_le_iff_le_add'
  · refine h.imp fun {earlier later} hOrder => ?_
    rw [Function.comp_apply, Function.comp_apply, decide_eq_true_eq, decide_eq_true_eq]
    exact fun hStale => Nat.lt_of_lt_of_le hStale (Nat.sub_le_sub_left hOrder now)

/-- What an earlier window has left out a later one would leave out too. -/
theorem within_within {before : Time} (hNow : before ≤ now) :
    within window now (within window before past ++ [t]) = within window now (past ++ [t]) := by
  have hPast : within window now (within window before past) = within window now past := by
    rw [within, within, List.filter_filter]
    apply List.filter_congr
    intro s _
    rw [← Bool.decide_and, decide_eq_decide]
    exact and_iff_left_of_imp (Nat.le_trans hNow)
  have hSplit (l : List Transfer) :
      within window now (l ++ [t]) = within window now l ++ within window now [t] :=
    List.filter_append ..
  rw [hSplit, hSplit, hPast]

theorem InOrder.within (h : InOrder history) (window now : Time) :
    InOrder (within window now history) :=
  List.Pairwise.filter _ h

/-- The newest transfer is always in the window. -/
theorem within_ne_nil (window : Time) (past : List Transfer) (t : Transfer) :
    within window t.receivedAt (past ++ [t]) ≠ [] := by
  apply List.ne_nil_of_mem (a := t)
  simp [within]

theorem mean?_samples {transfers : List Transfer} (h : transfers ≠ []) :
    mean? ((transfers.map Transfer.sample).map (·.duration)) = some (meanOf transfers) := by
  have hDurations : (transfers.map Transfer.sample).map (·.duration) =
      transfers.map (·.duration) := by
    rw [List.map_map]
    rfl
  rw [hDurations, mean?, if_neg (by simpa using h), meanOf, List.length_map, List.sum_eq_foldr]

/-- A transfer slides the window on, if the peer held the window of an earlier moment. -/
theorem receiveBy_eq {before : Time} (hSamples : p.samples =
      (within window before past).map Transfer.sample) (hBefore : before ≤ t.receivedAt)
    (hOrder : InOrder (past ++ [t])) :
    receiveBy suits window p t =
      { p with
        samples := (within window t.receivedAt (past ++ [t])).map Transfer.sample
        requestLimit := adjust p.requestLimit
          (suits (meanOf (within window t.receivedAt (past ++ [t])))) } := by
  have hHeld : InOrder (within window before past ++ [t]) := by
    obtain ⟨hPast, hLast, hOlder⟩ := List.pairwise_append.mp hOrder
    refine List.pairwise_append.mpr ⟨InOrder.within hPast window before, hLast, ?_⟩
    exact fun s hs => hOlder s ((List.mem_filter.mp hs).1)
  have hRecent : recent window t.receivedAt (p.samples ++ [t.sample]) =
      (within window t.receivedAt (past ++ [t])).map Transfer.sample := by
    rw [hSamples, ← List.map_singleton, ← List.map_append, recent_samples hHeld,
      within_within hBefore]
  simp only [receiveBy, hRecent, mean?_samples (within_ne_nil window past t)]

/-! ### Histories -/

/-- After any transfers a peer that began without samples holds the window of its whole history. -/
theorem samples_foldl (hFresh : p.samples = []) (hOrder : InOrder (past ++ [t])) :
    ((past ++ [t]).foldl (receiveBy suits window) p).samples =
      (within window t.receivedAt (past ++ [t])).map Transfer.sample := by
  induction past using List.reverseRecOn generalizing t with
  | nil =>
    have hStart : p.samples = (within window 0 []).map Transfer.sample := hFresh
    show (receiveBy suits window p t).samples = _
    rw [receiveBy_eq hStart (Nat.zero_le _) hOrder]
  | append_singleton past s ih =>
    obtain ⟨hPast, -, hOlder⟩ := List.pairwise_append.mp hOrder
    have hBefore : s.receivedAt ≤ t.receivedAt :=
      hOlder s List.mem_concat_self t List.mem_cons_self
    rw [List.foldl_append, List.foldl_cons, List.foldl_nil,
      receiveBy_eq (ih hPast) hBefore hOrder]

/-- Each transfer of a history leaves the samples of the transfers that are at most a window older
than it, of which there is always one. The limit moves by their mean, and nothing else of the peer
changes. This holds of any rule for how many blocks suit a mean, so of the one in use. -/
theorem receive_slides (suits : Time → Nat) (window : Time) {p : Peer} (hFresh : p.samples = [])
    {past : List Transfer} {t : Transfer} (hOrder : InOrder (past ++ [t])) :
    let before := past.foldl (receiveBy suits window) p
    let after := (past ++ [t]).foldl (receiveBy suits window) p
    let kept := within window t.receivedAt (past ++ [t])
    receiveBy target = receive ∧
      after.samples = kept.map Transfer.sample ∧ kept ≠ [] ∧
      after.requestLimit = adjust before.requestLimit (suits (meanOf kept)) ∧
      Move before.requestLimit (max 1 (suits (meanOf kept))) after.requestLimit ∧
      after = { before with samples := after.samples, requestLimit := after.requestLimit } := by
  intro before after kept
  have hAfter : after = receiveBy suits window before t := List.foldl_append ..
  have hEarlier : ∃ moment ≤ t.receivedAt,
      before.samples = (within window moment past).map Transfer.sample := by
    rcases List.eq_nil_or_concat past with rfl | ⟨older, s, rfl⟩
    · exact ⟨0, Nat.zero_le _, hFresh⟩
    · rw [List.concat_eq_append] at hOrder ⊢
      obtain ⟨hPast, -, hOlder⟩ := List.pairwise_append.mp hOrder
      refine ⟨s.receivedAt, hOlder s List.mem_concat_self t List.mem_cons_self, ?_⟩
      simp only [before, List.concat_eq_append]
      exact samples_foldl hFresh hPast
  obtain ⟨moment, hMoment, hSamples⟩ := hEarlier
  have hSlid : after = _ := hAfter.trans (receiveBy_eq hSamples hMoment hOrder)
  have hLimit : after.requestLimit = adjust before.requestLimit (suits (meanOf kept)) := by
    rw [hSlid]
  refine ⟨rfl, by rw [hSlid], within_ne_nil window past t, hLimit, ?_, by rw [hSlid]⟩
  rw [hLimit]
  exact move_adjust _ _

/-- At the third transfer the second is exactly as old as the window, and still counts. -/
theorem receive_slides_threeTransfers :
    InOrder [⟨0, 3⟩, ⟨2, 4⟩, ⟨7, 9⟩] ∧
      ([⟨0, 3⟩, ⟨2, 4⟩, ⟨7, 9⟩].foldl (receiveBy (60 / ·) 5) (Peer.connected 0 4)).samples =
        [⟨2, 4⟩, ⟨7, 9⟩] ∧
      ([⟨0, 3⟩, ⟨2, 4⟩, ⟨7, 9⟩].foldl (receiveBy (60 / ·) 5) (Peer.connected 0 4)).requestLimit =
        18 := by
  have hOrder : InOrder ([⟨0, 3⟩, ⟨2, 4⟩] ++ [⟨7, 9⟩]) := by
    unfold InOrder
    decide
  obtain ⟨-, hSamples, -, hLimit, -⟩ :=
    receive_slides (60 / ·) 5 (p := Peer.connected 0 4) rfl hOrder
  exact ⟨hOrder, hSamples.trans (by decide), hLimit.trans (by decide)⟩

end RequestBudget

end TorrentEngine
