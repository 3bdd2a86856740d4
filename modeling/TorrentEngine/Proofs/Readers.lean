import TorrentEngine.Proofs.Written

/-!
Readers and the written form. A text can spell a value in several ways, and a reader that knows what
to expect may accept a value in several forms. Whatever such a reader makes of a spelling of a value
it makes of the written form of the value, too.
-/

namespace TorrentEngine.Bencode

variable {α β : Type} {fuel fuel' : Nat} {b front after rest rest' : Bytes} {v : Value}

/-- What `read` makes of a spelling of a value it makes of the written form of the value. -/
def ReadsWritten (read : Nat → Bytes → Except Error (α × Bytes)) : Prop :=
  ∀ x (v : Value) front, Takes read x front → v.Spelled front →
    front.length < 0x10000000000000000 → Takes read x v.print

theorem ReadsWritten.map {read : Nat → Bytes → Except Error (α × Bytes)} (h : ReadsWritten read)
    (hValue : ReadsValue read) (f : α → Except Error β) :
    ReadsWritten fun fuel b => do
      let (x, rest) ← read fuel b
      return (← f x, rest) := by
  intro y v front hTakes hSpelled hSize
  obtain ⟨x, hTakes, hy⟩ := hTakes.of_map hValue
  exact (h x v front hTakes hSpelled hSize).map hy

/-- The first token of a spelling decides the kind of the value. -/
theorem Value.Spelled.valueFrom_of_read {token : Token} (h : v.Spelled front)
    (hRead : Token.read front = .ok (token, after)) :
    ∃ fuel, valueFrom (fuel + 1) token after = .ok (v, []) := by
  obtain ⟨⟨token', after'⟩, hRead', hFrom⟩ := bind_eq_ok.mp h.takes.whole
  rw [hRead] at hRead'
  cases hRead'
  obtain ⟨fuel, hFuel⟩ := exists_step h.skips.pos (Nat.le_refl (2 * front.length))
  rw [hFuel] at hFrom
  exact ⟨fuel, hFrom⟩

/-! ### Single values -/

theorem takes_written_number {n : Int} (h : (Value.integer n).Wellformed) :
    Takes (fun _ => readNumber) n (Value.integer n).print := by
  cases h with
  | integer inRange => exact takes_readNumber (.of_integer inRange)

theorem takes_written_text {s : Bytes} {text : String} (h : (Value.bytes s).Wellformed)
    (hText : Bytes.text? s = some text) :
    Takes (fun _ => readText) text (Value.bytes s).print := by
  cases h with
  | bytes inRange => exact takes_readText (.of_bytes inRange) hText

theorem takes_written_bytes {s : Bytes} (h : (Value.bytes s).Wellformed) :
    Takes readBytes s (Value.bytes s).print := by
  cases h with
  | bytes inRange => exact takes_readBytes (.of_bytes inRange)

theorem readsWritten_number : ReadsWritten fun _ => readNumber := by
  intro n v front h hSpelled hSize
  obtain ⟨⟨token, after⟩, hRead, hNumber⟩ := bind_eq_ok.mp h.whole
  cases token with
  | integer k =>
    cases hNumber
    obtain ⟨_, hFrom⟩ := hSpelled.valueFrom_of_read hRead
    cases hFrom
    exact takes_written_number (hSpelled.wellformed hSize)
  | _ => cases hNumber

theorem readsWritten_text : ReadsWritten fun _ => readText := by
  intro text v front h hSpelled hSize
  obtain ⟨⟨token, after⟩, hRead, hMore⟩ := bind_eq_ok.mp h.whole
  obtain ⟨_, hText, hMore⟩ := bind_eq_ok.mp hMore
  cases hMore
  obtain ⟨s, rfl, hWord⟩ := Token.text_eq_ok hText
  obtain ⟨_, hFrom⟩ := hSpelled.valueFrom_of_read hRead
  cases hFrom
  exact takes_written_text (hSpelled.wellformed hSize) hWord

/-! ### Lists -/

variable {read : Nat → Bytes → Except Error (α × Bytes)} {x : α} {xs : List α}

/-- A list that is read item by item is read from the written forms of its items. -/
theorem takes_printItems {items : List Value} (hValue : ReadsValue read)
    (hWritten : ReadsWritten read) (h : readItemsWith read fuel b = .ok (xs, rest))
    (h' : readItems fuel' b = .ok (items, rest')) (hSize : b.length < 0x10000000000000000) :
    Takes (readItemsWith read) xs (Value.printItems items ++ [101]) := by
  induction fuel generalizing fuel' b xs items with
  | zero => cases h
  | succ fuel ih =>
    cases fuel' with
    | zero => cases h'
    | succ fuel' =>
      rcases readItemsWith_eq_ok h with ⟨hStop, rfl⟩ | ⟨x, after, more, hx, hMore, rfl⟩
      · rcases readItems_eq_ok h' with ⟨_, rfl⟩ | ⟨_, _, _, hItem, _, _⟩
        · exact .stop .of_stop
        · obtain ⟨front, rfl, hSpelled⟩ := valueAt_eq_ok hItem
          exact absurd hStop hSpelled.skips.not_stop
      · obtain ⟨front, rfl, hSkips, hTakes⟩ := hValue _ _ _ _ hx
        rcases readItems_eq_ok h' with ⟨hStop, _⟩ | ⟨v, after', items, hItem, hMore', rfl⟩
        · exact absurd hStop hSkips.not_stop
        · obtain ⟨front', hFront, hSpelled⟩ := valueAt_eq_ok hItem
          obtain ⟨rfl, rfl⟩ := hSkips.unique hSpelled.skips hFront
          rw [List.length_append] at hSize
          have hFirst : Takes read x v.print := hWritten _ _ _ hTakes hSpelled (by omega)
          rw [Value.printItems, List.append_assoc]
          exact .cons (hSpelled.written (by omega)).skips.opens hFirst (ih hMore hMore' (by omega))

theorem takes_printItems_of_list (hValue : ReadsValue read) (hWritten : ReadsWritten read)
    (hRead : Token.read front = .ok (.list, after))
    (hItems : readItemsWith read fuel after = .ok (xs, rest))
    (hSpelled : v.Spelled front) (hSize : front.length < 0x10000000000000000) :
    ∃ items, v.print = [108] ++ items ∧ Takes (readItemsWith read) xs items := by
  obtain ⟨_, hFrom⟩ := hSpelled.valueFrom_of_read hRead
  obtain ⟨⟨items, _⟩, hInner, hList⟩ := bind_eq_ok.mp hFrom
  cases hList
  obtain ⟨mark, rfl, _⟩ := Token.read_eq_ok hRead
  rw [List.length_append] at hSize
  exact ⟨_, rfl, takes_printItems hValue hWritten hItems hInner (by omega)⟩

theorem ReadsWritten.list (h : ReadsWritten read) (hValue : ReadsValue read) :
    ReadsWritten (readListWith read) := by
  intro xs v front hTakes hSpelled hSize
  obtain ⟨⟨token, after⟩, hRead, hMore⟩ := bind_eq_ok.mp hTakes.whole
  cases token with
  | list =>
    obtain ⟨items, hPrint, hItems⟩ :=
      takes_printItems_of_list hValue h hRead hMore hSpelled hSize
    rw [hPrint]
    exact .list .of_list hItems
  | _ => cases hMore

/-! ### Byte strings -/

theorem readsWritten_byte : ReadsWritten fun _ => readByte := by
  intro x v front h hSpelled hSize
  obtain ⟨n, hRead, hByte, rfl⟩ := readByte_eq_ok h.whole
  obtain ⟨_, hFrom⟩ := hSpelled.valueFrom_of_read hRead
  cases hFrom
  cases hSpelled.wellformed hSize with
  | integer inRange => exact takes_readByte (.of_integer inRange) hByte

theorem readsWritten_bytes : ReadsWritten readBytes := by
  intro s v front h hSpelled hSize
  obtain ⟨⟨token, after⟩, hRead, hMore⟩ := bind_eq_ok.mp h.whole
  cases token with
  | bytes k =>
    cases hMore
    obtain ⟨_, hFrom⟩ := hSpelled.valueFrom_of_read hRead
    cases hFrom
    exact takes_written_bytes (hSpelled.wellformed hSize)
  | list =>
    dsimp only [bytesFrom] at hMore
    rw [readByteItems_eq] at hMore
    obtain ⟨items, hPrint, hTakes⟩ :=
      takes_printItems_of_list readsValue_byte readsWritten_byte hRead hMore hSpelled hSize
    rw [hPrint]
    exact .byteList .of_list hTakes
  | _ => cases hMore

end TorrentEngine.Bencode
