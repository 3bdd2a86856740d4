import Mathlib.Tactic.Ring
import TorrentEngine.Bencode.Token
import TorrentEngine.Bencode.Value
import TorrentEngine.Proofs.Results

/-!
How tokens are spelled. `Token.read` takes a front off its input that spells the token, whatever
follows it. Numbers have many spellings; the one that is written is never longer than the one that
was read.
-/

namespace TorrentEngine

namespace Decimal

theorem length_digits_pos (n : Nat) : 0 < (digits n).length := by
  rw [digits]
  split <;> simp

theorem length_digits_le {n k : Nat} (h : n < 10 ^ (k + 1)) : (digits n).length ≤ k + 1 := by
  induction k generalizing n with
  | zero =>
    rw [digits, if_pos (by omega)]
    rfl
  | succ k ih =>
    rw [digits]
    split
    · exact Nat.succ_le_succ (Nat.zero_le _)
    · have hTens : n / 10 < 10 ^ (k + 1) := by
        rw [Nat.pow_succ] at h
        omega
      rw [List.length_append, List.length_singleton]
      exact Nat.succ_le_succ (ih hTens)

theorem length_digits_le_succ (n : Nat) : (digits n).length ≤ n + 1 :=
  length_digits_le ((Nat.lt_succ_self n).trans (Nat.lt_pow_self (by decide)))

theorem foldl_lt {b : Bytes} (h : b.all isDigit = true) (n : Nat) :
    b.foldl (fun n x => 10 * n + (x.toNat - 48)) n < (n + 1) * 10 ^ b.length := by
  induction b generalizing n with
  | nil => simp
  | cons x rest ih =>
    rw [List.all_cons, Bool.and_eq_true, isDigit, Bool.and_eq_true, decide_eq_true_eq,
      decide_eq_true_eq] at h
    have hDigit : x.toNat ≤ 57 := UInt8.le_iff_toNat_le.mp h.1.2
    have hStep : 10 * n + (x.toNat - 48) + 1 ≤ (n + 1) * 10 := by omega
    calc rest.foldl (fun n x => 10 * n + (x.toNat - 48)) (10 * n + (x.toNat - 48))
        < (10 * n + (x.toNat - 48) + 1) * 10 ^ rest.length := ih h.2 _
      _ ≤ (n + 1) * 10 * 10 ^ rest.length := Nat.mul_le_mul_right _ hStep
      _ = (n + 1) * 10 ^ (x :: rest).length := by rw [List.length_cons]; ring

/-- A numeral is at least as long as the one that is written for its number. -/
theorem length_digits_of_nat? {b : Bytes} {n : Nat} (h : nat? b = some n) :
    (digits n).length ≤ b.length := by
  simp only [nat?] at h
  split at h
  · cases h
  · next hNonempty =>
    split at h
    · next hDigits =>
      obtain rfl := Option.some.inj h
      have hBound := foldl_lt hDigits 0
      rw [Nat.zero_add, Nat.one_mul] at hBound
      cases b with
      | nil => cases hNonempty rfl
      | cons x rest => exact length_digits_le hBound
    · cases h

theorem length_ofInt_natCast (k : Nat) : (ofInt k).length = (digits k).length := by
  rw [ofInt, if_neg (by omega), Int.natAbs_natCast]

theorem length_ofInt_neg_le (k : Nat) : (ofInt (-k)).length ≤ (digits k).length + 1 := by
  rw [ofInt, Int.natAbs_neg, Int.natAbs_natCast]
  split
  · exact Nat.le_refl _
  · exact Nat.le_succ _

theorem length_ofInt_of_int? {b : Bytes} {n : Int} (h : int? b = some n) :
    (ofInt n).length ≤ b.length := by
  simp only [int?] at h
  split at h <;> obtain ⟨k, hk, rfl⟩ := Option.map_eq_some_iff.mp h
  · exact (length_ofInt_natCast k).trans_le (Nat.le_succ_of_le (length_digits_of_nat? hk))
  · exact (length_ofInt_neg_le k).trans (Nat.succ_le_succ (length_digits_of_nat? hk))
  · exact (length_ofInt_natCast k).trans_le (length_digits_of_nat? hk)

end Decimal

namespace Bencode

/-! ### Marks -/

theorem untilMark_append {mark : UInt8} {numeral : Bytes} (h : ∀ x ∈ numeral, x ≠ mark)
    (t : Bytes) : untilMark mark (numeral ++ mark :: t) = .ok (numeral, t) := by
  have hNot : ∀ x ∈ numeral, (x != mark) = true := fun x hx => bne_iff_ne.mpr (h x hx)
  simp only [untilMark, List.dropWhile_append_of_pos hNot, List.takeWhile_append_of_pos hNot,
    List.dropWhile_cons, List.takeWhile_cons, bne_self_eq_false, Bool.false_eq_true, if_false,
    List.append_nil]

theorem untilMark_eq_ok {mark : UInt8} {b numeral rest : Bytes}
    (h : untilMark mark b = .ok (numeral, rest)) :
    b = numeral ++ mark :: rest ∧ ∀ x ∈ numeral, x ≠ mark := by
  simp only [untilMark] at h
  split at h
  · cases h
  · next x tail hDrop =>
    cases h
    have hMark : x = mark := by
      have hHead := List.head?_dropWhile_not (· != mark) b
      rw [hDrop] at hHead
      simpa using hHead
    refine ⟨?_, fun y hy => ?_⟩
    · rw [← hMark, ← hDrop, hMark, List.takeWhile_append_dropWhile]
    · exact bne_iff_ne.mp (List.all_eq_true.mp List.all_takeWhile y hy)

/-! ### Tokens -/

namespace Token

/-- The form in which a token is written. -/
def written : Token → Bytes
  | .integer n => (Value.integer n).print
  | .bytes b => Value.printBytes b
  | .list => [108]
  | .dict => [100]
  | .stop => [101]

/-- `front` spells a token: it is read as the token, whatever follows it. -/
structure Spelled (token : Token) (front : Bytes) : Prop where
  reads : ∀ t, Token.read (front ++ t) = .ok (token, t)
  written_le : token.written.length ≤ front.length

theorem Spelled.pos {token : Token} {front : Bytes} (h : token.Spelled front) :
    0 < front.length := by
  have hWritten : 0 < token.written.length := by
    cases token <;> simp [written, Value.print, Value.printBytes]
  exact hWritten.trans_le h.written_le

theorem Spelled.three_le {n : Int} {front : Bytes} (h : (integer n).Spelled front) :
    3 ≤ front.length := by
  have hDigits : 0 < (Decimal.ofInt n).length := by
    rw [Decimal.ofInt]
    split
    · exact Nat.succ_pos _
    · exact Decimal.length_digits_pos _
  have hWritten := h.written_le
  simp only [written, Value.print, List.length_append, List.length_cons, List.length_nil]
    at hWritten
  omega

theorem Spelled.of_list : list.Spelled [108] := ⟨fun _ => rfl, Nat.le_refl 1⟩

theorem Spelled.of_dict : dict.Spelled [100] := ⟨fun _ => rfl, Nat.le_refl 1⟩

theorem Spelled.of_stop : stop.Spelled [101] := ⟨fun _ => rfl, Nat.le_refl 1⟩

theorem readInteger_eq_ok {b rest : Bytes} {token : Token}
    (h : readInteger b = .ok (token, rest)) :
    ∃ front n, b = front ++ rest ∧ token = .integer n ∧ integerInRange n = true ∧
      token.Spelled (105 :: front) := by
  obtain ⟨⟨numeral, after⟩, hMark, hRead⟩ := bind_eq_ok.mp h
  obtain ⟨rfl, hFree⟩ := untilMark_eq_ok hMark
  dsimp only at hRead
  split at hRead
  · cases hRead
  · next text hText =>
    split at hRead
    · next n hNumber =>
      split at hRead
      · next hRange =>
        cases hRead
        refine ⟨numeral ++ [101], n, by simp, rfl, hRange, fun t => ?_, ?_⟩
        · simp only [Token.read, List.cons_append, List.append_assoc, List.nil_append, if_true,
            readInteger, untilMark_append hFree, bind, Except.bind, hText, hNumber, hRange]
        · have hShort := Decimal.length_ofInt_of_int? hNumber
          simpa [written, Value.print] using hShort
      · cases hRead
    · cases hRead

theorem read_of_isDigit {first : UInt8} (h : Decimal.isDigit first = true) (rest : Bytes) :
    Token.read (first :: rest) = readString first rest := by
  have hNot (mark : UInt8) (hMark : Decimal.isDigit mark = false) : first ≠ mark := by
    rintro rfl
    rw [h] at hMark
    cases hMark
  rw [Token.read, if_neg (hNot 105 rfl), if_neg (hNot 108 rfl), if_neg (hNot 100 rfl),
    if_neg (hNot 101 rfl), if_pos h]

theorem readString_eq_ok {first : UInt8} {b rest : Bytes} {token : Token}
    (hFirst : Decimal.isDigit first = true) (h : readString first b = .ok (token, rest)) :
    ∃ front s, b = front ++ rest ∧ token = .bytes s ∧ token.Spelled (first :: front) := by
  obtain ⟨⟨numeral, after⟩, hMark, hRead⟩ := bind_eq_ok.mp h
  obtain ⟨rfl, hFree⟩ := untilMark_eq_ok hMark
  dsimp only at hRead
  split at hRead
  · cases hRead
  · next text hText =>
    split at hRead
    · next n hNumber =>
      split at hRead
      · next hRange =>
        split at hRead
        · cases hRead
        · next hWhole =>
          cases hRead
          have hLength : (after.take n).length = n := by
            have := List.length_take_le n after
            omega
          refine ⟨numeral ++ 58 :: after.take n, after.take n, by simp, rfl, fun t => ?_, ?_⟩
          · have hTake : (after.take n ++ t).take n = after.take n := List.take_left' hLength
            have hDrop : (after.take n ++ t).drop n = t := List.drop_left' hLength
            rw [List.cons_append, read_of_isDigit hFirst, List.append_assoc, List.cons_append,
              readString, untilMark_append hFree]
            simp only [bind, Except.bind, hText, hNumber, if_pos hRange, hTake, hDrop,
              if_neg hWhole]
          · have hShort := Decimal.length_digits_of_nat? hNumber
            rw [written, Value.printBytes, hLength]
            simp only [List.length_append, List.length_cons] at hShort ⊢
            omega
      · cases hRead
    · cases hRead

/-- What is read as a token is a spelling of it. -/
theorem read_eq_ok {b rest : Bytes} {token : Token} (h : Token.read b = .ok (token, rest)) :
    ∃ front, b = front ++ rest ∧ token.Spelled front := by
  cases b with
  | nil => cases h
  | cons first tail =>
    have hMark {mark : Token} (hSpelled : ∀ t, Token.read (first :: t) = .ok (mark, t))
        (hWritten : mark.written.length = 1) :
        ∃ front, first :: tail = front ++ rest ∧ token.Spelled front := by
      cases h.symm.trans (hSpelled tail)
      exact ⟨[first], rfl, ⟨hSpelled, hWritten.le⟩⟩
    by_cases hInteger : first = 105
    · subst hInteger
      obtain ⟨front, _, rfl, _, _, hSpelled⟩ := readInteger_eq_ok h
      exact ⟨105 :: front, rfl, hSpelled⟩
    by_cases hList : first = 108
    · subst hList
      exact hMark (fun _ => rfl) rfl
    by_cases hDict : first = 100
    · subst hDict
      exact hMark (fun _ => rfl) rfl
    by_cases hStop : first = 101
    · subst hStop
      exact hMark (fun _ => rfl) rfl
    rw [Token.read, if_neg hInteger, if_neg hList, if_neg hDict, if_neg hStop] at h
    split at h
    · next hDigit =>
      obtain ⟨front, _, rfl, _, hSpelled⟩ := readString_eq_ok hDigit h
      exact ⟨first :: front, rfl, hSpelled⟩
    · cases h

theorem Spelled.inRange {n : Int} {front : Bytes} (h : (integer n).Spelled front) :
    integerInRange n = true := by
  have hRead := h.reads []
  rw [List.append_nil] at hRead
  cases front with
  | nil => cases hRead
  | cons first tail =>
    by_cases hInteger : first = 105
    · subst hInteger
      obtain ⟨_, k, _, hToken, hRange, _⟩ := readInteger_eq_ok hRead
      cases hToken
      exact hRange
    · rw [Token.read, if_neg hInteger] at hRead
      split at hRead
      · cases hRead
      split at hRead
      · cases hRead
      split at hRead
      · cases hRead
      split at hRead
      · next hDigit =>
        obtain ⟨_, _, _, hToken, _⟩ := readString_eq_ok hDigit hRead
        cases hToken
      · cases hRead

end Token

end Bencode

end TorrentEngine
