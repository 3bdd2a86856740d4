import TorrentEngine.Proofs.Fronts

/-!
How values are spelled. What is read as a value is a front that is read as this value whatever
follows it; it is passed over where values are passed over, and is no shorter than the form in which
the value is written.
-/

namespace TorrentEngine.Bencode

variable {fuel : Nat} {b front after rest : Bytes}

/-- Reads any value, with a bound on the steps. -/
def valueAt (fuel : Nat) (b : Bytes) : Except Error (Value × Bytes) := do
  let (token, rest) ← Token.read b
  valueFrom fuel token rest

theorem readValue_eq (b : Bytes) : readValue b = valueAt (fuelFor b) b := rfl

/-- `front` spells a value: it is read as the value, and written no longer. -/
structure Value.Spelled (v : Value) (front : Bytes) : Prop where
  skips : Skips front
  takes : Takes valueAt v front
  print_le : v.print.length ≤ front.length

/-- `front` spells the rest of a list. -/
structure SpelledItems (items : List Value) (front : Bytes) : Prop where
  skips : SkipsItems front
  takes : Takes readItems items front
  print_le : (Value.printItems items).length + 1 ≤ front.length

/-- A dictionary after more entries were put into it, one after the other. -/
def enter (more entries : List (Bytes × Value)) : List (Bytes × Value) :=
  more.foldl (fun d e => Value.insert e.1 e.2 d) entries

/-- `front` spells the rest of a dictionary, of which `more` are the entries. -/
structure SpelledEntries (more : List (Bytes × Value)) (front : Bytes) : Prop where
  skips : SkipsEntries front
  takes : ∀ entries, Takes (fun fuel => readEntries fuel entries) (enter more entries) front
  print_le : (Value.printEntries more).length + 1 ≤ front.length

/-! ### Lengths of written dictionaries -/

theorem length_printEntries_cons (key : Bytes) (v : Value) (entries : List (Bytes × Value)) :
    (Value.printEntries ((key, v) :: entries)).length =
      (Value.printBytes key).length + v.print.length + (Value.printEntries entries).length := by
  rw [Value.printEntries, List.length_append, List.length_append]

/-- An entry adds at most its own written form. -/
theorem length_printEntries_insert_le (key : Bytes) (v : Value) (entries : List (Bytes × Value)) :
    (Value.printEntries (Value.insert key v entries)).length ≤
      (Value.printBytes key).length + v.print.length + (Value.printEntries entries).length := by
  induction entries with
  | nil => exact Nat.le_of_eq (length_printEntries_cons key v [])
  | cons e entries ih =>
    obtain ⟨k, w⟩ := e
    simp only [Value.insert]
    split
    · rw [length_printEntries_cons, length_printEntries_cons]
      omega
    · split
      · exact Nat.le_of_eq (length_printEntries_cons key v _)
      · rw [length_printEntries_cons, length_printEntries_cons]
        omega

theorem length_printEntries_enter_le (more entries : List (Bytes × Value)) :
    (Value.printEntries (enter more entries)).length ≤
      (Value.printEntries more).length + (Value.printEntries entries).length := by
  induction more generalizing entries with
  | nil => exact Nat.le_add_left _ _
  | cons e more ih =>
    obtain ⟨key, v⟩ := e
    have hMore := ih (Value.insert key v entries)
    have hFirst := length_printEntries_insert_le key v entries
    rw [length_printEntries_cons]
    simp only [enter, List.foldl_cons] at hMore ⊢
    omega

/-! ### Spellings -/

theorem Value.Spelled.integer {n : Int} (h : (Token.integer n).Spelled front) :
    (Value.integer n).Spelled front := by
  refine ⟨.scalar h fun _ _ => rfl, fun fuel t hFuel => ?_, h.written_le⟩
  obtain ⟨fuel, rfl⟩ := exists_step h.pos hFuel
  simp only [valueAt, h.reads, bind, Except.bind, valueFrom]

theorem Value.Spelled.bytes {s : Bytes} (h : (Token.bytes s).Spelled front) :
    (Value.bytes s).Spelled front := by
  refine ⟨.scalar h fun _ _ => rfl, fun fuel t hFuel => ?_, h.written_le⟩
  obtain ⟨fuel, rfl⟩ := exists_step h.pos hFuel
  simp only [valueAt, h.reads, bind, Except.bind, valueFrom]

theorem Value.Spelled.list {items : List Value} (h : Token.list.Spelled front) {inner : Bytes}
    (hItems : SpelledItems items inner) : (Value.list items).Spelled (front ++ inner) := by
  refine ⟨.list h hItems.skips, fun fuel t hFuel => ?_, ?_⟩
  · obtain ⟨fuel, rfl, hInner⟩ := exists_step_append h.pos hFuel
    simp only [valueAt, List.append_assoc, h.reads, bind, Except.bind, valueFrom,
      hItems.takes fuel t hInner]
  · have hPos := h.pos
    have hLength := hItems.print_le
    simp only [Value.print, List.length_append, List.length_cons, List.length_nil]
    omega

theorem Value.Spelled.dict {more : List (Bytes × Value)} (h : Token.dict.Spelled front)
    {inner : Bytes} (hEntries : SpelledEntries more inner) :
    (Value.dict (enter more [])).Spelled (front ++ inner) := by
  refine ⟨.dict h hEntries.skips, fun fuel t hFuel => ?_, ?_⟩
  · obtain ⟨fuel, rfl, hInner⟩ := exists_step_append h.pos hFuel
    simp only [valueAt, List.append_assoc, h.reads, bind, Except.bind, valueFrom,
      hEntries.takes [] fuel t hInner]
  · have hPos := h.pos
    have hLength := hEntries.print_le
    have hEnter := length_printEntries_enter_le more []
    simp only [Value.print, Value.printEntries, List.length_append, List.length_cons,
      List.length_nil] at hEnter ⊢
    omega

theorem SpelledItems.stop (h : Token.stop.Spelled front) : SpelledItems [] front := by
  refine ⟨.stop h, fun fuel t hFuel => ?_, h.pos⟩
  obtain ⟨fuel, rfl⟩ := exists_step h.pos hFuel
  simp only [readItems, h.reads, bind, Except.bind]

theorem readItems_of_valueAt {v : Value} (h : valueAt fuel b = .ok (v, after)) :
    readItems (fuel + 1) b = readItems fuel after >>= fun e => .ok (v :: e.1, e.2) := by
  obtain ⟨⟨token, between⟩, hRead, hValue⟩ := bind_eq_ok.mp h
  dsimp only at hValue
  simp only [readItems, hRead, bind, Except.bind]
  split
  · cases fuel <;> cases hValue
  · simp only [hValue]

theorem SpelledItems.cons {v : Value} {items : List Value} (h : v.Spelled front) {inner : Bytes}
    (hItems : SpelledItems items inner) : SpelledItems (v :: items) (front ++ inner) := by
  refine ⟨.cons h.skips hItems.skips, fun fuel t hFuel => ?_, ?_⟩
  · obtain ⟨fuel, rfl, hFirst, hMore⟩ := exists_step_both h.skips.pos hItems.skips.pos hFuel
    rw [List.append_assoc, readItems_of_valueAt (h.takes fuel _ hFirst),
      hItems.takes fuel t hMore]
    rfl
  · have hFirst := h.print_le
    have hLength := hItems.print_le
    simp only [Value.printItems, List.length_append]
    omega

theorem SpelledEntries.stop (h : Token.stop.Spelled front) : SpelledEntries [] front := by
  refine ⟨.stop h, fun entries fuel t hFuel => ?_, h.pos⟩
  obtain ⟨fuel, rfl⟩ := exists_step h.pos hFuel
  simp only [readEntries, h.reads, bind, Except.bind]
  rfl

theorem readEntries_of_valueAt {key between : Bytes} {v : Value}
    (hKey : readBytes fuel b = .ok (key, between)) (hValue : valueAt fuel between = .ok (v, after))
    (entries : List (Bytes × Value)) :
    readEntries (fuel + 1) entries b = readEntries fuel (Value.insert key v entries) after := by
  obtain ⟨⟨token, _⟩, hRead, hBytes⟩ := bind_eq_ok.mp hKey
  obtain ⟨⟨token', _⟩, hRead', hFrom⟩ := bind_eq_ok.mp hValue
  dsimp only at hBytes hFrom
  simp only [readEntries, hRead, bind, Except.bind]
  split
  · cases hBytes
  · simp only [hBytes, hRead', hFrom]

theorem readEntries_eq_ok {entries d : List (Bytes × Value)}
    (h : readEntries (fuel + 1) entries b = .ok (d, rest)) :
    (Token.read b = .ok (.stop, rest) ∧ d = entries) ∨
      ∃ key between v after, readBytes fuel b = .ok (key, between) ∧
        valueAt fuel between = .ok (v, after) ∧
        readEntries fuel (Value.insert key v entries) after = .ok (d, rest) := by
  obtain ⟨⟨token, _⟩, hRead, hMore⟩ := bind_eq_ok.mp h
  cases token with
  | stop =>
    cases hMore
    exact .inl ⟨hRead, rfl⟩
  | _ =>
    obtain ⟨⟨key, between⟩, hKey, hMore⟩ := bind_eq_ok.mp hMore
    obtain ⟨⟨token, _⟩, hRead', hMore⟩ := bind_eq_ok.mp hMore
    obtain ⟨⟨v, after⟩, hValue, hMore⟩ := bind_eq_ok.mp hMore
    exact .inr ⟨key, between, v, after, bind_eq_ok.mpr ⟨_, hRead, hKey⟩,
      bind_eq_ok.mpr ⟨_, hRead', hValue⟩, hMore⟩

theorem readItems_eq_ok {items : List Value} (h : readItems (fuel + 1) b = .ok (items, rest)) :
    (Token.read b = .ok (.stop, rest) ∧ items = []) ∨
      ∃ v after more, valueAt fuel b = .ok (v, after) ∧ readItems fuel after = .ok (more, rest) ∧
        items = v :: more := by
  obtain ⟨⟨token, _⟩, hRead, hMore⟩ := bind_eq_ok.mp h
  cases token with
  | stop =>
    cases hMore
    exact .inl ⟨hRead, rfl⟩
  | _ =>
    obtain ⟨⟨v, after⟩, hValue, hMore⟩ := bind_eq_ok.mp hMore
    obtain ⟨⟨more, _⟩, hItems, hMore⟩ := bind_eq_ok.mp hMore
    cases hMore
    exact .inr ⟨v, after, more, bind_eq_ok.mpr ⟨_, hRead, hValue⟩, hItems, rfl⟩

theorem SpelledEntries.cons {key : Bytes} {v : Value} {more : List (Bytes × Value)}
    (hKey : Skips front) (hTakes : Takes readBytes key front)
    (hWritten : (Value.printBytes key).length ≤ front.length) {value inner : Bytes}
    (hValue : v.Spelled value) (hEntries : SpelledEntries more inner) :
    SpelledEntries ((key, v) :: more) (front ++ (value ++ inner)) := by
  have hBehind : 0 < (value ++ inner).length :=
    List.length_append ▸ Nat.add_pos_left hValue.skips.pos _
  refine ⟨.cons hKey hValue.skips hEntries.skips, fun entries fuel t hFuel => ?_, ?_⟩
  · obtain ⟨fuel, rfl, hFirst, hRest⟩ := exists_step_both hKey.pos hBehind hFuel
    obtain ⟨hSecond, hMore⟩ := steps_append hRest
    dsimp only
    rw [List.append_assoc, List.append_assoc, readEntries_of_valueAt (hTakes fuel _ hFirst)
      (hValue.takes fuel _ hSecond)]
    exact hEntries.takes _ fuel t hMore
  · have hFirst := hValue.print_le
    have hLength := hEntries.print_le
    rw [length_printEntries_cons, List.length_append, List.length_append]
    omega

/-- What was read is a spelling of what was read from it. -/
theorem spelled_all (fuel : Nat) :
    (∀ b v rest, valueAt fuel b = .ok (v, rest) → ∃ front, b = front ++ rest ∧ v.Spelled front) ∧
    (∀ b items rest, readItems fuel b = .ok (items, rest) →
      ∃ front, b = front ++ rest ∧ SpelledItems items front) ∧
    (∀ b entries d rest, readEntries fuel entries b = .ok (d, rest) →
      ∃ front more, b = front ++ rest ∧ d = enter more entries ∧ SpelledEntries more front) := by
  induction fuel with
  | zero =>
    refine ⟨fun b v rest h => ?_, fun b items rest h => (nomatch h),
      fun b entries d rest h => (nomatch h)⟩
    obtain ⟨_, _, hValue⟩ := bind_eq_ok.mp h
    cases hValue
  | succ fuel ih =>
    obtain ⟨ihValue, ihItems, ihEntries⟩ := ih
    refine ⟨fun b v rest h => ?_, fun b items rest h => ?_, fun b entries d rest h => ?_⟩
    · obtain ⟨⟨token, after⟩, hRead, hValue⟩ := bind_eq_ok.mp h
      obtain ⟨front, rfl, hToken⟩ := Token.read_eq_ok hRead
      cases token with
      | integer n =>
        cases hValue
        exact ⟨front, rfl, .integer hToken⟩
      | bytes s =>
        cases hValue
        exact ⟨front, rfl, .bytes hToken⟩
      | list =>
        obtain ⟨⟨items, _⟩, hRest, hMore⟩ := bind_eq_ok.mp hValue
        cases hMore
        obtain ⟨inner, rfl, hItems⟩ := ihItems _ _ _ hRest
        exact ⟨front ++ inner, (List.append_assoc ..).symm, .list hToken hItems⟩
      | dict =>
        obtain ⟨⟨d, _⟩, hRest, hMore⟩ := bind_eq_ok.mp hValue
        cases hMore
        obtain ⟨inner, more, rfl, rfl, hEntries⟩ := ihEntries _ _ _ _ hRest
        exact ⟨front ++ inner, (List.append_assoc ..).symm, .dict hToken hEntries⟩
      | stop => cases hValue
    · rcases readItems_eq_ok h with ⟨hStop, rfl⟩ | ⟨v, after, more, hValue, hMore, rfl⟩
      · obtain ⟨front, rfl, hToken⟩ := Token.read_eq_ok hStop
        exact ⟨front, rfl, .stop hToken⟩
      · obtain ⟨front, rfl, hSpelled⟩ := ihValue _ _ _ hValue
        obtain ⟨inner, rfl, hItems⟩ := ihItems _ _ _ hMore
        exact ⟨front ++ inner, (List.append_assoc ..).symm, .cons hSpelled hItems⟩
    · rcases readEntries_eq_ok h with ⟨hStop, rfl⟩ | ⟨key, between, v, after, hKey, hValue, hMore⟩
      · obtain ⟨front, rfl, hToken⟩ := Token.read_eq_ok hStop
        exact ⟨front, [], rfl, rfl, .stop hToken⟩
      · obtain ⟨front, rfl, hSkips, hTakes, hWritten⟩ := readBytes_eq_ok hKey
        obtain ⟨value, rfl, hSpelled⟩ := ihValue _ _ _ hValue
        obtain ⟨inner, more, rfl, rfl, hEntries⟩ := ihEntries _ _ _ _ hMore
        exact ⟨front ++ (value ++ inner), (key, v) :: more, by simp, rfl,
          .cons hSkips hTakes hWritten hSpelled hEntries⟩

theorem valueAt_eq_ok {v : Value} (h : valueAt fuel b = .ok (v, rest)) :
    ∃ front, b = front ++ rest ∧ v.Spelled front :=
  (spelled_all fuel).1 b v rest h

end TorrentEngine.Bencode
