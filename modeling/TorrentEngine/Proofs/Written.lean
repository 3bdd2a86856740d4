import TorrentEngine.Proofs.Spelling

/-!
What is written can be read. The form in which a value is written spells the value, if its numbers
are in range and the keys of its dictionaries stand in their order. Every value that was read is of
this kind, so writing what was read and reading that gives the same value again.
-/

namespace TorrentEngine

/-! ### Numerals -/

namespace Decimal

theorem toNat_digit {n : Nat} (h : n < 10) : (digit n).toNat = 48 + n := by
  rw [digit, UInt8.toNat_ofNat', Nat.mod_eq_of_lt (by omega)]

theorem isDigit_digit {n : Nat} (h : n < 10) : isDigit (digit n) = true := by
  simp only [isDigit, Bool.and_eq_true, decide_eq_true_eq, UInt8.le_iff_toNat_le, toNat_digit h]
  constructor
  · exact Nat.le_add_right 48 n
  · show 48 + n ≤ 57
    omega

theorem all_isDigit_digits (n : Nat) : (digits n).all isDigit = true := by
  induction n using digits.induct with
  | case1 n h => simp [digits, h, isDigit_digit h]
  | case2 n h ih =>
    rw [digits, if_neg h, List.all_append, ih]
    simp [isDigit_digit (Nat.mod_lt n (by decide))]

theorem foldl_digits (n : Nat) :
    (digits n).foldl (fun n x => 10 * n + (x.toNat - 48)) 0 = n := by
  induction n using digits.induct with
  | case1 n h => simp [digits, h, toNat_digit h]
  | case2 n h ih =>
    rw [digits, if_neg h, List.foldl_append, ih]
    simp only [List.foldl_cons, List.foldl_nil, toNat_digit (Nat.mod_lt n (by decide))]
    omega

theorem nat?_digits (n : Nat) : nat? (digits n) = some n := by
  have hSome : (digits n).isEmpty = false := by
    simpa using List.length_pos_iff.mp (length_digits_pos n)
  simp only [nat?, hSome, all_isDigit_digits, foldl_digits, Bool.false_eq_true, if_false, if_true]

theorem not_sign {x : UInt8} (h : isDigit x = true) : x ≠ 43 ∧ x ≠ 45 := by
  constructor <;> rintro rfl <;> cases h

theorem int?_of_all_isDigit {b : Bytes} (h : b.all isDigit = true) :
    int? b = (nat? b).map Int.ofNat := by
  simp only [int?]
  split
  · rw [List.all_cons, Bool.and_eq_true] at h
    exact absurd rfl (not_sign h.1).1
  · rw [List.all_cons, Bool.and_eq_true] at h
    exact absurd rfl (not_sign h.1).2
  · rfl

theorem int?_ofInt (n : Int) : int? (ofInt n) = some n := by
  rw [ofInt]
  split
  · simp only [int?, nat?_digits, Option.map_some]
    congr 1
    exact (congrArg Neg.neg (Int.ofNat_natAbs_of_nonpos (by omega))).trans (Int.neg_neg n)
  · rw [int?_of_all_isDigit (all_isDigit_digits _), nat?_digits]
    exact congrArg some (Int.natAbs_of_nonneg (by omega))

/-- A byte that may stand in a numeral. -/
theorem numeral_of_mem_ofInt {n : Int} {x : UInt8} (h : x ∈ ofInt n) :
    x = 45 ∨ isDigit x = true := by
  have hDigits : x ∈ digits n.natAbs → isDigit x = true :=
    List.all_eq_true.mp (all_isDigit_digits _) x
  rw [ofInt] at h
  split at h
  · exact (List.mem_cons.mp h).imp_right hDigits
  · exact .inr (hDigits h)

end Decimal

/-- Bytes below 128 are text. -/
theorem Bytes.text?_ascii {b : Bytes} (h : ∀ x ∈ b, x.toNat < 128) :
    ∃ text, Bytes.text? b = some text := by
  have hEncode : b = (b.map Char.ofUInt8).flatMap String.utf8EncodeChar := by
    induction b with
    | nil => rfl
    | cons x b ih =>
      have hByte : String.utf8EncodeChar (Char.ofUInt8 x) = [x] := by
        have hSmall : (Char.ofUInt8 x).val.toNat = x.toNat := UInt8.toNat_toUInt32 x
        have hLow := h x List.mem_cons_self
        simp only [String.utf8EncodeChar, hSmall]
        rw [if_pos (by omega), UInt8.ofNat_toNat]
      rw [List.map_cons, List.flatMap_cons, hByte, ← ih fun y hy => h y (List.mem_cons_of_mem x hy)]
      rfl
  have hValid : ByteArray.IsValidUTF8 ⟨b.toArray⟩ := by
    refine .intro (b.map Char.ofUInt8) (ByteArray.ext ?_)
    rw [List.utf8Encode, ← hEncode, List.data_toByteArray]
  exact ⟨_, dif_pos hValid⟩

theorem Decimal.toNat_lt_of_isDigit {x : UInt8} (h : isDigit x = true) : x.toNat < 128 := by
  simp only [isDigit, Bool.and_eq_true, decide_eq_true_eq, UInt8.le_iff_toNat_le] at h
  exact h.2.trans_lt (by decide)

namespace Bencode

/-! ### Tokens -/

namespace Token

theorem Spelled.of_integer {n : Int} (h : integerInRange n = true) :
    (integer n).Spelled (integer n).written := by
  have hMark : ∀ x ∈ Decimal.ofInt n, x ≠ 101 := by
    rintro x hx rfl
    rcases Decimal.numeral_of_mem_ofInt hx with hMinus | hDigit
    · cases hMinus
    · cases hDigit
  obtain ⟨text, hText⟩ : ∃ text, Bytes.text? (Decimal.ofInt n) = some text := by
    refine Bytes.text?_ascii fun x hx => ?_
    rcases Decimal.numeral_of_mem_ofInt hx with rfl | hDigit
    · decide
    · exact Decimal.toNat_lt_of_isDigit hDigit
  refine ⟨fun t => ?_, Nat.le_refl _⟩
  simp only [written, Value.print, Token.read, List.cons_append, List.append_assoc,
    List.nil_append, if_true, readInteger, untilMark_append hMark, bind, Except.bind, hText,
    Decimal.int?_ofInt, h]

theorem Spelled.of_bytes {s : Bytes} (h : s.length < 0x10000000000000000) :
    (bytes s).Spelled (bytes s).written := by
  have hDigits := Decimal.all_isDigit_digits s.length
  have hNumber := Decimal.nat?_digits s.length
  obtain ⟨first, tail, hNumeral⟩ : ∃ first tail, Decimal.digits s.length = first :: tail :=
    List.exists_cons_of_length_pos (Decimal.length_digits_pos s.length)
  rw [hNumeral] at hDigits hNumber
  have hFirst : Decimal.isDigit first = true :=
    List.all_eq_true.mp hDigits first List.mem_cons_self
  have hMark : ∀ x ∈ tail, x ≠ 58 := by
    rintro x hx rfl
    cases List.all_eq_true.mp hDigits 58 (List.mem_cons_of_mem first hx)
  obtain ⟨text, hText⟩ : ∃ text, Bytes.text? (first :: tail) = some text :=
    Bytes.text?_ascii fun x hx =>
      Decimal.toNat_lt_of_isDigit (List.all_eq_true.mp hDigits x hx)
  refine ⟨fun t => ?_, Nat.le_refl _⟩
  simp only [written, Value.printBytes, hNumeral, List.cons_append, List.append_assoc]
  rw [read_of_isDigit hFirst, readString, untilMark_append hMark]
  simp only [bind, Except.bind, hText, hNumber, if_pos h, List.take_left', List.drop_left',
    Nat.lt_irrefl, if_false]

end Token

/-! ### Order of keys -/

variable {fuel : Nat} {b rest : Bytes} {key : Bytes} {v : Value}
  {entries more : List (Bytes × Value)}

/-- The keys of a dictionary stand in the order of their bytes, each of them once. -/
def Ascending (entries : List (Bytes × Value)) : Prop :=
  entries.Pairwise fun e e' => e.1 < e'.1

theorem mem_insert {e : Bytes × Value} (h : e ∈ Value.insert key v entries) :
    e = (key, v) ∨ e ∈ entries := by
  induction entries with
  | nil => exact .inl (List.mem_singleton.mp h)
  | cons e' entries ih =>
    obtain ⟨k, w⟩ := e'
    simp only [Value.insert] at h
    split at h
    · exact (List.mem_cons.mp h).imp_right (List.mem_cons_of_mem _)
    · split at h
      · exact List.mem_cons.mp h
      · rcases List.mem_cons.mp h with rfl | hMem
        · exact .inr List.mem_cons_self
        · exact (ih hMem).imp_right (List.mem_cons_of_mem _)

theorem Ascending.insert (h : Ascending entries) : Ascending (Value.insert key v entries) := by
  induction entries with
  | nil => exact List.pairwise_singleton _ _
  | cons e entries ih =>
    obtain ⟨k, w⟩ := e
    obtain ⟨hFirst, hRest⟩ := List.pairwise_cons.mp h
    simp only [Value.insert]
    split
    · next hSame =>
      subst hSame
      exact List.pairwise_cons.mpr ⟨hFirst, hRest⟩
    · next hOther =>
      split
      · next hBefore =>
        refine List.pairwise_cons.mpr ⟨fun e hMem => ?_, h⟩
        rcases List.mem_cons.mp hMem with rfl | hMem
        · exact hBefore
        · exact List.lt_trans hBefore (hFirst e hMem)
      · next hNotBefore =>
        have hAfter : k < key := by
          by_contra hNot
          exact hOther (List.le_antisymm hNot hNotBefore)
        refine List.pairwise_cons.mpr ⟨fun e hMem => ?_, ih hRest⟩
        rcases mem_insert hMem with rfl | hMem
        · exact hAfter
        · exact hFirst e hMem

/-- An entry with the highest key goes to the end. -/
theorem insert_of_lt (h : ∀ e ∈ entries, e.1 < key) :
    Value.insert key v entries = entries ++ [(key, v)] := by
  induction entries with
  | nil => rfl
  | cons e entries ih =>
    obtain ⟨k, w⟩ := e
    have hBefore : k < key := h (k, w) List.mem_cons_self
    have hOther : key ≠ k := by
      rintro rfl
      exact List.lt_irrefl key hBefore
    rw [Value.insert, if_neg hOther, if_neg (List.lt_asymm hBefore),
      ih fun e hMem => h e (List.mem_cons_of_mem _ hMem), List.cons_append]

theorem enter_of_ascending (h : Ascending (entries ++ more)) :
    enter more entries = entries ++ more := by
  induction more generalizing entries with
  | nil => exact (List.append_nil entries).symm
  | cons e more ih =>
    have hLast : ∀ e' ∈ entries, e'.1 < e.1 := fun e' hMem =>
      (List.pairwise_append.mp h).2.2 e' hMem e List.mem_cons_self
    rw [List.append_cons] at h ⊢
    rw [enter, List.foldl_cons, insert_of_lt hLast]
    exact ih h

/-! ### Values -/

/-- A value that its written form spells: its numbers are in range, its byte strings have lengths in
range, and the keys of its dictionaries ascend. -/
inductive Value.Wellformed : Value → Prop
  | integer {n : Int} (inRange : integerInRange n = true) : Wellformed (.integer n)
  | bytes {s : Bytes} (inRange : s.length < 0x10000000000000000) : Wellformed (.bytes s)
  | list {items : List Value} (values : ∀ v ∈ items, Wellformed v) : Wellformed (.list items)
  | dict {entries : List (Bytes × Value)} (ascending : Ascending entries)
      (keys : ∀ e ∈ entries, e.1.length < 0x10000000000000000)
      (values : ∀ e ∈ entries, Wellformed e.2) : Wellformed (.dict entries)

theorem spelledItems_written {items : List Value} (h : ∀ v ∈ items, v.Spelled v.print) :
    SpelledItems items (Value.printItems items ++ [101]) := by
  induction items with
  | nil => exact .stop .of_stop
  | cons v items ih =>
    rw [Value.printItems, List.append_assoc]
    exact .cons (h v List.mem_cons_self) (ih fun w hMem => h w (List.mem_cons_of_mem v hMem))

theorem spelledEntries_written
    (hKeys : ∀ e ∈ entries, e.1.length < 0x10000000000000000)
    (hValues : ∀ e ∈ entries, e.2.Spelled e.2.print) :
    SpelledEntries entries (Value.printEntries entries ++ [101]) := by
  induction entries with
  | nil => exact .stop .of_stop
  | cons e entries ih =>
    obtain ⟨k, w⟩ := e
    have hKey : (Token.bytes k).Spelled (Value.printBytes k) :=
      .of_bytes (hKeys (k, w) List.mem_cons_self)
    rw [Value.printEntries, List.append_assoc, List.append_assoc]
    exact .cons (.scalar hKey fun _ _ => rfl) (takes_readBytes hKey) (Nat.le_refl _)
      (hValues (k, w) List.mem_cons_self)
      (ih (fun e hMem => hKeys e (List.mem_cons_of_mem _ hMem))
        fun e hMem => hValues e (List.mem_cons_of_mem _ hMem))

/-- The written form of a value spells it. -/
theorem Value.Wellformed.spelled (h : v.Wellformed) : v.Spelled v.print := by
  induction h with
  | integer inRange => exact .integer (.of_integer inRange)
  | bytes inRange => exact .bytes (.of_bytes inRange)
  | list _ ih => exact .list .of_list (spelledItems_written ih)
  | @dict entries ascending keys _ ih =>
    have hSpelled := Value.Spelled.dict .of_dict (spelledEntries_written keys ih)
    rwa [enter_of_ascending (List.nil_append entries ▸ ascending)] at hSpelled

/-! ### Values that were read -/

theorem length_lt_of_printBytes {s front : Bytes} (h : (Value.printBytes s).length ≤ front.length) :
    s.length < front.length := by
  rw [Value.printBytes, List.length_append, List.length_cons] at h
  omega

theorem Value.Wellformed.insert (h : (Value.dict entries).Wellformed)
    (hKey : key.length < 0x10000000000000000) (hValue : v.Wellformed) :
    (Value.dict (Value.insert key v entries)).Wellformed := by
  cases h with
  | dict ascending keys values =>
    refine .dict ascending.insert (fun e hMem => ?_) fun e hMem => ?_
    · rcases mem_insert hMem with rfl | hMem
      · exact hKey
      · exact keys e hMem
    · rcases mem_insert hMem with rfl | hMem
      · exact hValue
      · exact values e hMem

/-- What was read from a text whose length a machine word holds is well formed. -/
theorem wellformed_all (fuel : Nat) :
    (∀ b v rest, valueAt fuel b = .ok (v, rest) → b.length < 0x10000000000000000 →
      v.Wellformed) ∧
    (∀ b items rest, readItems fuel b = .ok (items, rest) → b.length < 0x10000000000000000 →
      ∀ v ∈ items, v.Wellformed) ∧
    (∀ b entries d rest, readEntries fuel entries b = .ok (d, rest) →
      b.length < 0x10000000000000000 → (Value.dict entries).Wellformed →
        (Value.dict d).Wellformed) := by
  induction fuel with
  | zero =>
    refine ⟨fun b v rest h => ?_, fun b items rest h => (nomatch h),
      fun b entries d rest h => (nomatch h)⟩
    obtain ⟨_, _, hValue⟩ := bind_eq_ok.mp h
    cases hValue
  | succ fuel ih =>
    obtain ⟨ihValue, ihItems, ihEntries⟩ := ih
    refine ⟨fun b v rest h hSize => ?_, fun b items rest h hSize => ?_,
      fun b entries d rest h hSize hEntries => ?_⟩
    · obtain ⟨⟨token, after⟩, hRead, hValue⟩ := bind_eq_ok.mp h
      obtain ⟨front, rfl, hToken⟩ := Token.read_eq_ok hRead
      rw [List.length_append] at hSize
      have hBehind : after.length < 0x10000000000000000 := by omega
      cases token with
      | integer n =>
        cases hValue
        exact .integer hToken.inRange
      | bytes s =>
        cases hValue
        have hLength := length_lt_of_printBytes hToken.written_le
        exact .bytes (by omega)
      | list =>
        obtain ⟨⟨items, _⟩, hRest, hMore⟩ := bind_eq_ok.mp hValue
        cases hMore
        exact .list (ihItems _ _ _ hRest hBehind)
      | dict =>
        obtain ⟨⟨d, _⟩, hRest, hMore⟩ := bind_eq_ok.mp hValue
        cases hMore
        exact ihEntries _ _ _ _ hRest hBehind
          (.dict .nil (fun _ hMem => nomatch hMem) fun _ hMem => nomatch hMem)
      | stop => cases hValue
    · rcases readItems_eq_ok h with ⟨_, rfl⟩ | ⟨v, after, more, hValue, hMore, rfl⟩
      · exact fun _ hMem => nomatch hMem
      · obtain ⟨front, rfl, _⟩ := valueAt_eq_ok hValue
        refine List.forall_mem_cons.mpr ⟨ihValue _ _ _ hValue hSize, ?_⟩
        rw [List.length_append] at hSize
        exact ihItems _ _ _ hMore (by omega)
    · rcases readEntries_eq_ok h with ⟨_, rfl⟩ | ⟨key, between, v, after, hKey, hValue, hMore⟩
      · exact hEntries
      · obtain ⟨front, rfl, _, _, hWritten⟩ := readBytes_eq_ok hKey
        obtain ⟨value, rfl, _⟩ := valueAt_eq_ok hValue
        -- A key may be a list of numbers, so nothing but the length of the text bounds its length.
        have hLength := length_lt_of_printBytes hWritten
        simp only [List.length_append] at hSize
        have hBetween : (value ++ after).length < 0x10000000000000000 := by
          rw [List.length_append]
          omega
        exact ihEntries _ _ _ _ hMore (by omega)
          (hEntries.insert (by omega) (ihValue _ _ _ hValue hBetween))

theorem Value.Spelled.wellformed {front : Bytes} (h : v.Spelled front)
    (hSize : front.length < 0x10000000000000000) : v.Wellformed :=
  (wellformed_all _).1 _ _ _ h.takes.whole hSize

/-- What spells a value can be replaced by the written form of the value. -/
theorem Value.Spelled.written {front : Bytes} (h : v.Spelled front)
    (hSize : front.length < 0x10000000000000000) : v.Spelled v.print :=
  (h.wellformed hSize).spelled

end Bencode

end TorrentEngine
