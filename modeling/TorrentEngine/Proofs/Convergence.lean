import Mathlib.Algebra.Order.Floor.Div
import Mathlib.Data.List.TakeWhile
import Mathlib.GroupTheory.GroupAction.Ring
import TorrentEngine.RequestBudget

/-!
Convergence of the limit on requests. A limit that is moved toward one and the same target rises by
at most twenty-five and falls by at most two at a time. It never turns back and never goes past the
target, so the number of moves that it takes is the distance divided by the longest move. A peer
whose blocks all take the same time has such a limit.
-/

namespace TorrentEngine.RequestBudget

variable {c t : Nat}

/-! ### Moves -/

theorem adjust_of_lt (h : c < t) : adjust c t = min t (c + 25) := by
  unfold adjust maxIncrease maxDecrease
  split <;> omega

theorem adjust_of_le (h : t ≤ c) : adjust c t = max (max 1 t) (c - 2) := by
  unfold adjust maxIncrease maxDecrease
  split <;> omega

/-- A higher target never makes for a lower limit. -/
theorem monotone_adjust (c : Nat) : Monotone (adjust c) := by
  intro t t' h
  unfold adjust maxIncrease maxDecrease
  split <;> split <;> omega

/-- A limit `c` after `n` moves toward one target. -/
def moved (t c n : Nat) : Nat := (adjust · t)^[n] c

theorem moved_succ (t c n : Nat) : moved t c (n + 1) = adjust (moved t c n) t :=
  Function.iterate_succ_apply' ..

theorem moved_eq (h : 1 ≤ c) (t n : Nat) :
    moved t c n = if c < t then min t (c + 25 * n) else max (max 1 t) (c - 2 * n) := by
  induction n with
  | zero =>
    show c = _
    split <;> omega
  | succ n ih =>
    rw [moved_succ, ih]
    -- A limit that rises does so up to the target, from where a move leads nowhere else.
    by_cases hRise : c < t
    · simp only [if_pos hRise]
      by_cases hBefore : min t (c + 25 * n) < t
      · rw [adjust_of_lt hBefore]
        omega
      · rw [adjust_of_le (by omega)]
        omega
    · simp only [if_neg hRise]
      rw [adjust_of_le (by omega)]
      omega

/-! ### Steady peers -/

theorem mean?_of_forall_eq {durations : List Time} {d : Time} (hSome : durations ≠ [])
    (h : ∀ x ∈ durations, x = d) : mean? durations = some d := by
  have hSum : durations.foldr (· + ·) 0 = durations.length * d := by
    rw [← List.sum_eq_foldr, List.eq_replicate_of_mem h]
    simp
  have hPos : 0 < durations.length := List.length_pos_iff.mpr hSome
  rw [mean?, if_neg (by simpa using hSome), hSum, Nat.mul_div_cancel_left d hPos]

/-- A sample is never too old at the time when it is taken. -/
theorem recent_concat_ne_nil (window : Time) (samples : List LatencySample) (s : LatencySample) :
    recent window s.recordedAt (samples ++ [s]) ≠ [] := by
  intro hNone
  have hOld := List.dropWhile_eq_nil_iff.mp hNone s List.mem_concat_self
  simp at hOld

/-- Each block that takes as long as the ones before it moves the limit toward one target. -/
theorem receive_steady {window d : Time} {p : Peer} {history : List Transfer}
    (hSamples : ∀ s ∈ p.samples, s.duration = d) (hHistory : ∀ x ∈ history, x.duration = d) :
    (history.foldl (receive window) p).requestLimit =
      moved (target d) p.requestLimit history.length := by
  induction history generalizing p with
  | nil => rfl
  | cons x history ih =>
    obtain ⟨hFirst, hRest⟩ := List.forall_mem_cons.mp hHistory
    let sample : LatencySample := { recordedAt := x.receivedAt, duration := x.duration }
    have hKept : ∀ s ∈ recent window x.receivedAt (p.samples ++ [sample]), s.duration = d := by
      intro s hs
      rcases List.mem_append.mp ((List.dropWhile_sublist _).mem hs) with hOld | hNew
      · exact hSamples s hOld
      · rw [List.mem_singleton.mp hNew]
        exact hFirst
    have hMean : mean? ((recent window x.receivedAt (p.samples ++ [sample])).map (·.duration)) =
        some d := by
      apply mean?_of_forall_eq
      · simpa using recent_concat_ne_nil window p.samples sample
      · simpa using hKept
    have hNext : receive window p x =
        { p with
          samples := recent window x.receivedAt (p.samples ++ [sample])
          requestLimit := adjust p.requestLimit (target d) } := by
      unfold receive
      simp only [sample] at hMean
      simp only [hMean]
      rfl
    rw [List.foldl_cons, hNext, ih hKept hRest, List.length_cons]
    rfl

/-- From any limit `c` toward a fixed target `t` the limit never turns back and stays between `c`
and its goal, which is the target but at least one. It is at the goal after just as many moves as
the distance holds longest moves, and from then on. So is the limit of a peer whose blocks all take
a time that the target suits. Of two targets the higher one gives the higher limit. -/
theorem adjust_converges (h : 1 ≤ c) (t : Nat) :
    (c ≤ max 1 t → Monotone (moved t c)) ∧ (max 1 t ≤ c → Antitone (moved t c)) ∧
      (∀ n, min c (max 1 t) ≤ moved t c n ∧ moved t c n ≤ max c (max 1 t)) ∧
      (∀ n, moved t c n = max 1 t ↔
        (if c < t then (t - c) ⌈/⌉ 25 else (c - max 1 t) ⌈/⌉ 2) ≤ n) ∧
      (∀ (window d : Time) (p : Peer) (history : List Transfer), p.requestLimit = c →
        target d = t → (∀ s ∈ p.samples, s.duration = d) →
        (∀ x ∈ history, x.duration = d) →
        (history.foldl (receive window) p).requestLimit = moved t c history.length) ∧
      ∀ t' ≥ t, adjust c t ≤ adjust c t' := by
  refine ⟨fun hUp m n hmn => ?_, fun hDown m n hmn => ?_, fun n => ?_, fun n => ?_, ?_,
    fun t' ht => monotone_adjust c ht⟩
  · rw [moved_eq h, moved_eq h]
    split <;> omega
  · rw [moved_eq h, moved_eq h]
    split <;> omega
  · rw [moved_eq h]
    split <;> omega
  · rw [moved_eq h]
    split
    · rw [ceilDiv_le_iff_le_mul (by decide)]
      omega
    · rw [ceilDiv_le_iff_le_mul (by decide)]
      omega
  · rintro window d p history rfl rfl hSamples hHistory
    exact receive_steady hSamples hHistory

/-- Down to the least limit there is, by two, by two and by one. -/
theorem adjust_converges_six : 1 ≤ 6 ∧ moved 0 6 3 = 1 ∧ moved 0 6 2 ≠ 1 := by
  have hPos : 1 ≤ 6 := by decide
  obtain ⟨-, -, -, hArrives, -⟩ := adjust_converges hPos 0
  refine ⟨hPos, (hArrives 3).mpr (by decide), fun hEarly => ?_⟩
  exact absurd ((hArrives 2).mp hEarly) (by decide)

end TorrentEngine.RequestBudget
