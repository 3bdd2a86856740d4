import TorrentEngine.Bencode.Reader
import TorrentEngine.Proofs.Tokens

/-!
Readers take values off the front of their input. A front that is passed over as one value is passed
over whatever follows it, and two steps for each of its bytes are enough for it. Every reader that
succeeds has taken a front of its input, and would take it whatever followed. Unless a list stands
for a record such a front is one value. So readers of values that begin at one place and succeed
end at one place, however much they know of what they read.
-/

namespace TorrentEngine.Bencode

variable {α β δ : Type} {fuel : Nat} {b front after rest : Bytes}

/-! ### Steps -/

theorem exists_step (hPos : 0 < front.length) (hFuel : 2 * front.length ≤ fuel) :
    ∃ steps, fuel = steps + 1 :=
  Nat.exists_eq_add_one.mpr (by omega)

/-- Enough steps for two fronts are enough for each of them. -/
theorem steps_append {inner : Bytes} (h : 2 * (front ++ inner).length ≤ fuel) :
    2 * front.length ≤ fuel ∧ 2 * inner.length ≤ fuel := by
  rw [List.length_append] at h
  omega

/-- After the first step there are enough for what stands behind a front. -/
theorem exists_step_append {inner : Bytes} (hPos : 0 < front.length)
    (hFuel : 2 * (front ++ inner).length ≤ fuel) :
    ∃ steps, fuel = steps + 1 ∧ 2 * inner.length ≤ steps := by
  rw [List.length_append] at hFuel
  obtain ⟨steps, rfl⟩ := Nat.exists_eq_add_one.mpr (show 0 < fuel by omega)
  exact ⟨steps, rfl, by omega⟩

/-- If something stands behind it there are enough for the front, too. -/
theorem exists_step_both {inner : Bytes} (hPos : 0 < front.length) (hInner : 0 < inner.length)
    (hFuel : 2 * (front ++ inner).length ≤ fuel) :
    ∃ steps, fuel = steps + 1 ∧ 2 * front.length ≤ steps ∧ 2 * inner.length ≤ steps := by
  rw [List.length_append] at hFuel
  obtain ⟨steps, rfl⟩ := Nat.exists_eq_add_one.mpr (show 0 < fuel by omega)
  exact ⟨steps, rfl, by omega, by omega⟩

/-! ### Fronts that are passed over -/

/-- `front` is passed over as one value, whatever follows it. -/
def Skips (front : Bytes) : Prop :=
  ∀ fuel t, 2 * front.length ≤ fuel → skipValue fuel (front ++ t) = .ok t

/-- `front` is passed over as the rest of a list. -/
def SkipsItems (front : Bytes) : Prop :=
  ∀ fuel t, 2 * front.length ≤ fuel → skipItems fuel (front ++ t) = .ok t

/-- `front` is passed over as the rest of a dictionary. -/
def SkipsEntries (front : Bytes) : Prop :=
  ∀ fuel t, 2 * front.length ≤ fuel → skipEntries fuel (front ++ t) = .ok t

theorem Skips.pos (h : Skips front) : 0 < front.length := by
  refine List.length_pos_iff.mpr ?_
  rintro rfl
  cases h 0 [] (Nat.le_refl 0)

theorem SkipsItems.pos (h : SkipsItems front) : 0 < front.length := by
  refine List.length_pos_iff.mpr ?_
  rintro rfl
  cases h 0 [] (Nat.le_refl 0)

theorem SkipsEntries.pos (h : SkipsEntries front) : 0 < front.length := by
  refine List.length_pos_iff.mpr ?_
  rintro rfl
  cases h 0 [] (Nat.le_refl 0)

theorem skipItems_of_skipValue (h : skipValue fuel b = .ok rest) :
    skipItems (fuel + 1) b = skipItems fuel rest := by
  obtain ⟨⟨token, after⟩, hRead, hSkip⟩ := bind_eq_ok.mp h
  dsimp only at hSkip
  simp only [skipItems, hRead, bind, Except.bind]
  split
  · cases fuel <;> cases hSkip
  · rw [hSkip]

theorem skipEntries_of_skipValue (hKey : skipValue fuel b = .ok after)
    (hValue : skipValue fuel after = .ok rest) :
    skipEntries (fuel + 1) b = skipEntries fuel rest := by
  obtain ⟨⟨token, between⟩, hRead, hSkip⟩ := bind_eq_ok.mp hKey
  obtain ⟨⟨token', between'⟩, hRead', hSkip'⟩ := bind_eq_ok.mp hValue
  dsimp only at hSkip hSkip'
  simp only [skipEntries, hRead, bind, Except.bind]
  split
  · cases fuel <;> cases hSkip
  · simp only [hSkip, hRead', hSkip']

/-- An integer or a byte string is passed over. -/
theorem Skips.scalar {token : Token} (h : token.Spelled front)
    (hScalar : ∀ fuel t, skipFrom (fuel + 1) token t = .ok t) : Skips front := by
  intro fuel t hFuel
  obtain ⟨fuel, rfl⟩ := exists_step h.pos hFuel
  rw [skipValue, h.reads]
  exact hScalar fuel t

theorem Skips.list (h : Token.list.Spelled front) {items : Bytes} (hItems : SkipsItems items) :
    Skips (front ++ items) := by
  intro fuel t hFuel
  obtain ⟨fuel, rfl, hInner⟩ := exists_step_append h.pos hFuel
  rw [List.append_assoc, skipValue, h.reads]
  exact hItems fuel t hInner

theorem Skips.dict (h : Token.dict.Spelled front) {entries : Bytes}
    (hEntries : SkipsEntries entries) : Skips (front ++ entries) := by
  intro fuel t hFuel
  obtain ⟨fuel, rfl, hInner⟩ := exists_step_append h.pos hFuel
  rw [List.append_assoc, skipValue, h.reads]
  exact hEntries fuel t hInner

theorem SkipsItems.stop (h : Token.stop.Spelled front) : SkipsItems front := by
  intro fuel t hFuel
  obtain ⟨fuel, rfl⟩ := exists_step h.pos hFuel
  simp only [skipItems, h.reads, bind, Except.bind]

theorem SkipsItems.cons (h : Skips front) {items : Bytes} (hItems : SkipsItems items) :
    SkipsItems (front ++ items) := by
  intro fuel t hFuel
  obtain ⟨fuel, rfl, hFirst, hMore⟩ := exists_step_both h.pos hItems.pos hFuel
  rw [List.append_assoc, skipItems_of_skipValue (h fuel _ hFirst)]
  exact hItems fuel t hMore

theorem SkipsEntries.stop (h : Token.stop.Spelled front) : SkipsEntries front := by
  intro fuel t hFuel
  obtain ⟨fuel, rfl⟩ := exists_step h.pos hFuel
  simp only [skipEntries, h.reads, bind, Except.bind]

theorem SkipsEntries.cons (hKey : Skips front) {value entries : Bytes} (hValue : Skips value)
    (hEntries : SkipsEntries entries) : SkipsEntries (front ++ (value ++ entries)) := by
  intro fuel t hFuel
  have hBehind : 0 < (value ++ entries).length :=
    List.length_append ▸ Nat.add_pos_left hValue.pos _
  obtain ⟨fuel, rfl, hFirst, hRest⟩ := exists_step_both hKey.pos hBehind hFuel
  obtain ⟨hSecond, hMore⟩ := steps_append hRest
  rw [List.append_assoc, List.append_assoc,
    skipEntries_of_skipValue (hKey fuel _ hFirst) (hValue fuel _ hSecond)]
  exact hEntries fuel t hMore

theorem skipItems_eq_ok (h : skipItems (fuel + 1) b = .ok rest) :
    Token.read b = .ok (.stop, rest) ∨
      ∃ after, skipValue fuel b = .ok after ∧ skipItems fuel after = .ok rest := by
  obtain ⟨⟨token, between⟩, hRead, hSkip⟩ := bind_eq_ok.mp h
  cases token with
  | stop =>
    cases hSkip
    exact .inl hRead
  | _ =>
    obtain ⟨after, hFirst, hMore⟩ := bind_eq_ok.mp hSkip
    exact .inr ⟨after, bind_eq_ok.mpr ⟨_, hRead, hFirst⟩, hMore⟩

theorem skipEntries_eq_ok (h : skipEntries (fuel + 1) b = .ok rest) :
    Token.read b = .ok (.stop, rest) ∨
      ∃ between after, skipValue fuel b = .ok between ∧ skipValue fuel between = .ok after ∧
        skipEntries fuel after = .ok rest := by
  obtain ⟨⟨token, _⟩, hRead, hSkip⟩ := bind_eq_ok.mp h
  cases token with
  | stop =>
    cases hSkip
    exact .inl hRead
  | _ =>
    obtain ⟨between, hKey, hMore⟩ := bind_eq_ok.mp hSkip
    obtain ⟨⟨token, _⟩, hRead', hMore⟩ := bind_eq_ok.mp hMore
    obtain ⟨after, hValue, hMore⟩ := bind_eq_ok.mp hMore
    exact .inr ⟨between, after, bind_eq_ok.mpr ⟨_, hRead, hKey⟩,
      bind_eq_ok.mpr ⟨_, hRead', hValue⟩, hMore⟩

/-- What was passed over is a front that is passed over whatever follows it. -/
theorem skips_all (fuel : Nat) :
    (∀ b rest, skipValue fuel b = .ok rest → ∃ front, b = front ++ rest ∧ Skips front) ∧
    (∀ b rest, skipItems fuel b = .ok rest → ∃ front, b = front ++ rest ∧ SkipsItems front) ∧
    (∀ b rest, skipEntries fuel b = .ok rest →
      ∃ front, b = front ++ rest ∧ SkipsEntries front) := by
  induction fuel with
  | zero =>
    refine ⟨fun b rest h => ?_, fun b rest h => (nomatch h), fun b rest h => (nomatch h)⟩
    obtain ⟨_, _, hSkip⟩ := bind_eq_ok.mp h
    cases hSkip
  | succ fuel ih =>
    obtain ⟨ihValue, ihItems, ihEntries⟩ := ih
    refine ⟨fun b rest h => ?_, fun b rest h => ?_, fun b rest h => ?_⟩
    · obtain ⟨⟨token, after⟩, hRead, hSkip⟩ := bind_eq_ok.mp h
      obtain ⟨front, rfl, hToken⟩ := Token.read_eq_ok hRead
      cases token with
      | integer n =>
        cases hSkip
        exact ⟨front, rfl, .scalar hToken fun _ _ => rfl⟩
      | bytes s =>
        cases hSkip
        exact ⟨front, rfl, .scalar hToken fun _ _ => rfl⟩
      | list =>
        obtain ⟨items, rfl, hItems⟩ := ihItems after rest hSkip
        exact ⟨front ++ items, (List.append_assoc ..).symm, .list hToken hItems⟩
      | dict =>
        obtain ⟨entries, rfl, hEntries⟩ := ihEntries after rest hSkip
        exact ⟨front ++ entries, (List.append_assoc ..).symm, .dict hToken hEntries⟩
      | stop => cases hSkip
    · rcases skipItems_eq_ok h with hStop | ⟨after, hFirst, hMore⟩
      · obtain ⟨front, rfl, hToken⟩ := Token.read_eq_ok hStop
        exact ⟨front, rfl, .stop hToken⟩
      · obtain ⟨front, rfl, hSkips⟩ := ihValue b after hFirst
        obtain ⟨items, rfl, hItems⟩ := ihItems after rest hMore
        exact ⟨front ++ items, (List.append_assoc ..).symm, .cons hSkips hItems⟩
    · rcases skipEntries_eq_ok h with hStop | ⟨between, after, hKey, hValue, hMore⟩
      · obtain ⟨front, rfl, hToken⟩ := Token.read_eq_ok hStop
        exact ⟨front, rfl, .stop hToken⟩
      · obtain ⟨front, rfl, hFront⟩ := ihValue b between hKey
        obtain ⟨value, rfl, hValue'⟩ := ihValue between after hValue
        obtain ⟨entries, rfl, hEntries⟩ := ihEntries after rest hMore
        exact ⟨front ++ (value ++ entries), by simp, .cons hFront hValue' hEntries⟩

/-- Fronts that begin at one place end at one place. -/
theorem Skips.unique {front' rest' : Bytes} (h : Skips front) (h' : Skips front')
    (hSame : front ++ rest = front' ++ rest') : front = front' ∧ rest = rest' := by
  have hRead := h (2 * (front.length + front'.length)) rest (by omega)
  have hRead' := h' (2 * (front.length + front'.length)) rest' (by omega)
  rw [← hSame, hRead] at hRead'
  obtain rfl := Except.ok.inj hRead'
  exact ⟨List.append_cancel_right hSame, rfl⟩

/-- `front` begins with a token other than an end mark, whatever follows it. -/
def Opens (front : Bytes) : Prop :=
  ∀ t, ∃ token after, Token.read (front ++ t) = .ok (token, after) ∧ token ≠ .stop

theorem Opens.pos (h : Opens front) : 0 < front.length := by
  refine List.length_pos_iff.mpr ?_
  rintro rfl
  obtain ⟨token, after, hRead, hNotStop⟩ := h [101]
  cases hRead
  exact hNotStop rfl

theorem Opens.of_token {token : Token} (h : token.Spelled front) (hNotStop : token ≠ .stop)
    (more : Bytes) : Opens (front ++ more) := by
  intro t
  rw [List.append_assoc]
  exact ⟨token, more ++ t, h.reads _, hNotStop⟩

/-- A front does not begin with the end of a list. -/
theorem Skips.opens (h : Skips front) : Opens front := by
  intro t
  obtain ⟨⟨token, after⟩, hRead, hSkip⟩ := bind_eq_ok.mp (h (2 * front.length) t (Nat.le_refl _))
  refine ⟨token, after, hRead, ?_⟩
  rintro rfl
  dsimp only at hSkip
  generalize 2 * front.length = fuel at hSkip
  cases fuel <;> cases hSkip

theorem Skips.not_stop (h : Skips front) {t : Bytes} :
    Token.read (front ++ t) ≠ .ok (.stop, rest) := by
  intro hStop
  obtain ⟨token, after, hRead, hNotStop⟩ := h.opens t
  rw [hStop] at hRead
  cases hRead
  exact hNotStop rfl

/-! ### Readers -/

/-- `read` makes `x` of `front`, whatever follows it. -/
def Takes (read : Nat → Bytes → Except Error (α × Bytes)) (x : α) (front : Bytes) : Prop :=
  ∀ fuel t, 2 * front.length ≤ fuel → read fuel (front ++ t) = .ok (x, t)

/-- Where `read` succeeds it has taken a front of kind `K`, which it takes whatever follows it. -/
def Reads (K : Bytes → Prop) (read : Nat → Bytes → Except Error (α × Bytes)) : Prop :=
  ∀ fuel b x rest, read fuel b = .ok (x, rest) →
    ∃ front, b = front ++ rest ∧ K front ∧ Takes read x front

/-- Where `read` succeeds it has taken one value. -/
abbrev ReadsValue (read : Nat → Bytes → Except Error (α × Bytes)) : Prop := Reads Skips read

/-- Where `read` succeeds it has taken something, be it one value or not. -/
abbrev ReadsFront (read : Nat → Bytes → Except Error (α × Bytes)) : Prop := Reads Opens read

variable {K : Bytes → Prop}

theorem ReadsValue.readsFront {read : Nat → Bytes → Except Error (α × Bytes)}
    (h : ReadsValue read) : ReadsFront read := by
  intro fuel b x rest hRead
  obtain ⟨front, hFront, hSkips, hTakes⟩ := h fuel b x rest hRead
  exact ⟨front, hFront, hSkips.opens, hTakes⟩

theorem Takes.whole {read : Nat → Bytes → Except Error (α × Bytes)} {x : α}
    (h : Takes read x front) : read (2 * front.length) front = .ok (x, []) := by
  have hRead := h (2 * front.length) [] (Nat.le_refl _)
  rwa [List.append_nil] at hRead

theorem Takes.map {read : Nat → Bytes → Except Error (α × Bytes)} {x : α} {y : β}
    {f : α → Except Error β} (h : Takes read x front) (hy : f x = .ok y) :
    Takes (fun fuel b => do
      let (x, rest) ← read fuel b
      return (← f x, rest)) y front := by
  intro fuel t hFuel
  simp only [h fuel t hFuel, bind, Except.bind, hy]
  rfl

theorem Reads.map {read : Nat → Bytes → Except Error (α × Bytes)} (h : Reads K read)
    (f : α → Except Error β) :
    Reads K fun fuel b => do
      let (x, rest) ← read fuel b
      return (← f x, rest) := by
  intro fuel b y rest hRead
  obtain ⟨⟨x, after⟩, hx, hMore⟩ := bind_eq_ok.mp hRead
  obtain ⟨_, hy, hMore⟩ := bind_eq_ok.mp hMore
  cases hMore
  obtain ⟨front, rfl, hKind, hTakes⟩ := h fuel b x rest hx
  exact ⟨front, rfl, hKind, hTakes.map hy⟩

theorem Takes.of_map {read : Nat → Bytes → Except Error (α × Bytes)} {y : β}
    {f : α → Except Error β} (hReads : Reads K read)
    (h : Takes (fun fuel b => do
      let (x, rest) ← read fuel b
      return (← f x, rest)) y front) : ∃ x, Takes read x front ∧ f x = .ok y := by
  obtain ⟨⟨x, after⟩, hx, hMore⟩ := bind_eq_ok.mp h.whole
  obtain ⟨_, hy, hMore⟩ := bind_eq_ok.mp hMore
  cases hMore
  obtain ⟨front', hFront, _, hTakes⟩ := hReads _ _ _ _ hx
  obtain rfl : front = front' := by rw [hFront, List.append_nil]
  exact ⟨x, hTakes, hy⟩

theorem takes_readNumber {n : Int} (h : (Token.integer n).Spelled front) :
    Takes (fun _ => readNumber) n front := by
  intro fuel t _
  simp only [readNumber, h.reads, bind, Except.bind]

theorem takes_readText {s : Bytes} {text : String} (h : (Token.bytes s).Spelled front)
    (hText : Bytes.text? s = some text) : Takes (fun _ => readText) text front := by
  intro fuel t _
  simp only [readText, h.reads, bind, Except.bind, Token.text, hText]
  rfl

theorem takes_readBytes {s : Bytes} (h : (Token.bytes s).Spelled front) :
    Takes readBytes s front := by
  intro fuel t _
  simp only [readBytes, h.reads, bind, Except.bind, bytesFrom]

theorem readsValue_number : ReadsValue fun _ => readNumber := by
  intro fuel b n rest h
  obtain ⟨⟨token, after⟩, hRead, hNumber⟩ := bind_eq_ok.mp h
  obtain ⟨front, rfl, hToken⟩ := Token.read_eq_ok hRead
  cases token with
  | integer k =>
    cases hNumber
    exact ⟨front, rfl, .scalar hToken fun _ _ => rfl, takes_readNumber hToken⟩
  | _ => cases hNumber

theorem Token.text_eq_ok {token : Token} {text : String} (h : token.text = .ok text) :
    ∃ s, token = .bytes s ∧ Bytes.text? s = some text := by
  cases token with
  | bytes s =>
    simp only [Token.text] at h
    split at h
    · next hText => exact ⟨s, rfl, by rw [hText, Except.ok.inj h]⟩
    · cases h
  | _ => cases h

theorem readsValue_text : ReadsValue fun _ => readText := by
  intro fuel b text rest h
  obtain ⟨⟨token, after⟩, hRead, hMore⟩ := bind_eq_ok.mp h
  obtain ⟨_, hText, hMore⟩ := bind_eq_ok.mp hMore
  cases hMore
  obtain ⟨s, rfl, hWord⟩ := Token.text_eq_ok hText
  obtain ⟨front, rfl, hToken⟩ := Token.read_eq_ok hRead
  exact ⟨front, rfl, .scalar hToken fun _ _ => rfl, takes_readText hToken hWord⟩

/-! ### Lists -/

variable {item : Nat → Bytes → Except Error (α × Bytes)} {x : α} {xs : List α}

theorem Takes.items_pos (h : Takes (readItemsWith item) xs front) : 0 < front.length := by
  refine List.length_pos_iff.mpr ?_
  rintro rfl
  cases h 0 [] (Nat.le_refl 0)

theorem Takes.stop (h : Token.stop.Spelled front) : Takes (readItemsWith item) [] front := by
  intro fuel t hFuel
  obtain ⟨fuel, rfl⟩ := exists_step h.pos hFuel
  simp only [readItemsWith, h.reads, bind, Except.bind]

theorem Takes.cons (hOpens : Opens front) (h : Takes item x front) {items : Bytes}
    (hItems : Takes (readItemsWith item) xs items) :
    Takes (readItemsWith item) (x :: xs) (front ++ items) := by
  intro fuel t hFuel
  obtain ⟨fuel, rfl, hFirst, hRest⟩ := exists_step_both hOpens.pos hItems.items_pos hFuel
  obtain ⟨token, after, hRead, hNotStop⟩ := hOpens (items ++ t)
  simp only [readItemsWith, List.append_assoc, hRead, bind, Except.bind, h fuel _ hFirst,
    hItems fuel t hRest]

theorem Takes.list (h : Token.list.Spelled front) {items : Bytes}
    (hItems : Takes (readItemsWith item) xs items) :
    Takes (readListWith item) xs (front ++ items) := by
  intro fuel t hFuel
  simp only [readListWith, List.append_assoc, h.reads, bind, Except.bind]
  exact hItems fuel t (steps_append hFuel).2

/-- A list ends, or it goes on with an item. -/
theorem readItemsWith_eq_ok (h : readItemsWith item (fuel + 1) b = .ok (xs, rest)) :
    (Token.read b = .ok (.stop, rest) ∧ xs = []) ∨
      ∃ x after more, item fuel b = .ok (x, after) ∧
        readItemsWith item fuel after = .ok (more, rest) ∧ xs = x :: more := by
  obtain ⟨⟨token, after⟩, hRead, hMore⟩ := bind_eq_ok.mp h
  cases token with
  | stop =>
    cases hMore
    exact .inl ⟨hRead, rfl⟩
  | _ =>
    obtain ⟨⟨x, between⟩, hx, hMore⟩ := bind_eq_ok.mp hMore
    obtain ⟨⟨more, _⟩, hxs, hMore⟩ := bind_eq_ok.mp hMore
    cases hMore
    exact .inr ⟨x, between, more, hx, hxs, rfl⟩

/-- The rest of a list whose items are of kind `K`. -/
inductive ItemsOf (K : Bytes → Prop) : Bytes → Prop
  | stop {front : Bytes} (h : Token.stop.Spelled front) : ItemsOf K front
  | cons {front items : Bytes} (h : K front) (hItems : ItemsOf K items) :
      ItemsOf K (front ++ items)

theorem ItemsOf.skips {items : Bytes} (h : ItemsOf Skips items) : SkipsItems items := by
  induction h with
  | stop hToken => exact .stop hToken
  | cons hSkips _ ih => exact .cons hSkips ih

theorem readItemsWith_takes (hItem : Reads K item) (hOpens : ∀ front, K front → Opens front)
    (h : readItemsWith item fuel b = .ok (xs, rest)) :
    ∃ front, b = front ++ rest ∧ ItemsOf K front ∧ Takes (readItemsWith item) xs front := by
  induction fuel generalizing b xs with
  | zero => cases h
  | succ fuel ih =>
    rcases readItemsWith_eq_ok h with ⟨hStop, rfl⟩ | ⟨x, after, more, hx, hMore, rfl⟩
    · obtain ⟨front, rfl, hToken⟩ := Token.read_eq_ok hStop
      exact ⟨front, rfl, .stop hToken, .stop hToken⟩
    · obtain ⟨front, rfl, hKind, hTakes⟩ := hItem _ _ _ _ hx
      obtain ⟨items, rfl, hItems, hTakes'⟩ := ih hMore
      exact ⟨front ++ items, (List.append_assoc ..).symm, .cons hKind hItems,
        .cons (hOpens front hKind) hTakes hTakes'⟩

/-- The kind of a list is that of its items, if lists of such items are of this kind. -/
theorem Reads.list (h : Reads K item) (hOpens : ∀ front, K front → Opens front)
    (hList : ∀ front items, Token.list.Spelled front → ItemsOf K items → K (front ++ items)) :
    Reads K (readListWith item) := by
  intro fuel b xs rest hRead
  obtain ⟨⟨token, after⟩, hFirst, hMore⟩ := bind_eq_ok.mp hRead
  obtain ⟨front, rfl, hToken⟩ := Token.read_eq_ok hFirst
  cases token with
  | list =>
    obtain ⟨items, rfl, hItems, hTakes⟩ := readItemsWith_takes h hOpens hMore
    exact ⟨front ++ items, (List.append_assoc ..).symm, hList front items hToken hItems,
      .list hToken hTakes⟩
  | _ => cases hMore

theorem ReadsValue.list (h : ReadsValue item) : ReadsValue (readListWith item) :=
  Reads.list h (fun _ => Skips.opens) fun _ _ hToken hItems => .list hToken hItems.skips

theorem ReadsFront.list (h : ReadsFront item) : ReadsFront (readListWith item) :=
  Reads.list h (fun _ => id) fun _ items hToken _ => .of_token hToken nofun items

/-! ### Byte strings -/

/-- One byte of a byte string that is written as a list. -/
def readByte (b : Bytes) : Except Error (UInt8 × Bytes) := do
  let (token, rest) ← Token.read b
  match token with
  | .integer n =>
    if 0 ≤ n && n < 256 then .ok (UInt8.ofNat n.toNat, rest)
    else .error (.wrongValue (.integer n) .byte)
  | other => .error (other.mismatch .byte)

theorem readByteItems_eq : readByteItems = readItemsWith fun _ => readByte := by
  funext fuel b
  induction fuel generalizing b with
  | zero => rfl
  | succ fuel ih =>
    simp only [readByteItems, readItemsWith, readByte, ih]
    cases Token.read b with
    | error e => rfl
    | ok e =>
      obtain ⟨token, rest⟩ := e
      cases token with
      | integer n =>
        simp only [bind, Except.bind]
        split <;> rfl
      | _ => rfl

theorem Takes.byteList {s : Bytes} (h : Token.list.Spelled front) {items : Bytes}
    (hItems : Takes (readItemsWith fun _ => readByte) s items) :
    Takes readBytes s (front ++ items) := by
  intro fuel t hFuel
  simp only [readBytes, List.append_assoc, h.reads, bind, Except.bind, bytesFrom,
    readByteItems_eq]
  exact hItems fuel t (steps_append hFuel).2

theorem takes_readByte {n : Int} (h : (Token.integer n).Spelled front)
    (hByte : (0 ≤ n && n < 256) = true) :
    Takes (fun _ => readByte) (UInt8.ofNat n.toNat) front := by
  intro fuel t _
  simp only [readByte, h.reads, bind, Except.bind, hByte, if_true]

theorem readByte_eq_ok {x : UInt8} (h : readByte b = .ok (x, rest)) :
    ∃ n, Token.read b = .ok (.integer n, rest) ∧ (0 ≤ n && n < 256) = true ∧
      x = UInt8.ofNat n.toNat := by
  obtain ⟨⟨token, after⟩, hRead, hMore⟩ := bind_eq_ok.mp h
  cases token with
  | integer n =>
    dsimp only at hMore
    split at hMore
    · next hByte =>
      cases hMore
      exact ⟨n, hRead, hByte, rfl⟩
    · cases hMore
  | _ => cases hMore

theorem readsValue_byte : ReadsValue fun _ => readByte := by
  intro fuel b x rest h
  obtain ⟨n, hRead, hByte, rfl⟩ := readByte_eq_ok h
  obtain ⟨front, rfl, hToken⟩ := Token.read_eq_ok hRead
  exact ⟨front, rfl, .scalar hToken fun _ _ => rfl, takes_readByte hToken hByte⟩

/-- The rest of a list of bytes is much longer than the bytes. -/
theorem length_of_readByteItems {s : Bytes}
    (h : readItemsWith (fun _ => readByte) fuel b = .ok (s, rest)) :
    3 * s.length + 1 + rest.length ≤ b.length := by
  induction fuel generalizing b s with
  | zero => cases h
  | succ fuel ih =>
    rcases readItemsWith_eq_ok h with ⟨hStop, rfl⟩ | ⟨x, after, more, hByte, hMore, rfl⟩
    · obtain ⟨front, rfl, hToken⟩ := Token.read_eq_ok hStop
      have hPos := hToken.pos
      rw [List.length_append, List.length_nil]
      omega
    · obtain ⟨n, hRead, _⟩ := readByte_eq_ok hByte
      obtain ⟨front, rfl, hToken⟩ := Token.read_eq_ok hRead
      have hThree := hToken.three_le
      have hLength := ih hMore
      rw [List.length_append, List.length_cons]
      omega

/-- A byte string that was read is no shorter than it is written. -/
theorem readBytes_eq_ok {s : Bytes} (h : readBytes fuel b = .ok (s, rest)) :
    ∃ front, b = front ++ rest ∧ Skips front ∧ Takes readBytes s front ∧
      (Value.printBytes s).length ≤ front.length := by
  obtain ⟨⟨token, after⟩, hRead, hMore⟩ := bind_eq_ok.mp h
  obtain ⟨front, rfl, hToken⟩ := Token.read_eq_ok hRead
  cases token with
  | bytes k =>
    cases hMore
    exact ⟨front, rfl, .scalar hToken fun _ _ => rfl, takes_readBytes hToken, hToken.written_le⟩
  | list =>
    dsimp only [bytesFrom] at hMore
    rw [readByteItems_eq] at hMore
    have hLength := length_of_readByteItems hMore
    obtain ⟨items, rfl, hItems, hTakes⟩ :=
      readItemsWith_takes readsValue_byte (fun _ => Skips.opens) hMore
    have hPos := hToken.pos
    refine ⟨front ++ items, (List.append_assoc ..).symm, .list hToken hItems.skips,
      Takes.byteList hToken hTakes, ?_⟩
    have hDigits := Decimal.length_digits_le_succ s.length
    rw [Value.printBytes]
    simp only [List.length_append, List.length_cons] at hLength ⊢
    omega
  | _ => cases hMore

theorem readsValue_bytes : ReadsValue readBytes := by
  intro fuel b s rest h
  obtain ⟨front, hFront, hSkips, hTakes, _⟩ := readBytes_eq_ok h
  exact ⟨front, hFront, hSkips, hTakes⟩

/-! ### Records -/

variable {fields : List (KnownField δ)} {draft draft' : δ}

/-- Reads the value under one key of a record, or passes it over. -/
def readField (fields : List (KnownField δ)) (key : String) (draft : δ) (fuel : Nat) (b : Bytes) :
    Except Error (δ × Bytes) :=
  match fields.find? fun f => f.key == key with
  | some field =>
    if field.isGiven draft then .error (.duplicateField key) else field.read fuel draft b
  | none => do return (draft, ← skipValue fuel b)

theorem readFields_of_token {token : Token} (hRead : Token.read b = .ok (token, after))
    (hNotStop : token ≠ .stop) :
    readFields fields (fuel + 1) draft b = token.text >>= fun key =>
      readField fields key draft fuel after >>= fun e => readFields fields fuel e.1 e.2 := by
  have hKey : readFields fields (fuel + 1) draft b = token.text >>= fun key =>
      match fields.find? fun f => f.key == key with
      | some field =>
        if field.isGiven draft then .error (.duplicateField key)
        else field.read fuel draft after >>= fun e => readFields fields fuel e.1 e.2
      | none => skipValue fuel after >>= fun rest => readFields fields fuel draft rest := by
    cases token with
    | stop => exact absurd rfl hNotStop
    | _ =>
      simp only [readFields, hRead]
      rfl
  rw [hKey]
  congr 1
  funext key
  simp only [readField]
  cases fields.find? fun f => f.key == key with
  | none => cases skipValue fuel after <;> rfl
  | some field =>
    dsimp only
    split <;> rfl

theorem readFields_key {s : Bytes} {key : String} (hRead : Token.read b = .ok (.bytes s, after))
    (hKey : Bytes.text? s = some key) :
    readFields fields (fuel + 1) draft b =
      readField fields key draft fuel after >>= fun e => readFields fields fuel e.1 e.2 := by
  rw [readFields_of_token hRead nofun]
  simp only [Token.text, hKey, bind, Except.bind]

/-- A record ends, or it goes on with a key and its value. -/
theorem readFields_eq_ok (h : readFields fields (fuel + 1) draft b = .ok (draft', rest)) :
    (Token.read b = .ok (.stop, rest) ∧ draft' = draft) ∨
      ∃ s key after changed between, Token.read b = .ok (.bytes s, after) ∧
        Bytes.text? s = some key ∧
        readField fields key draft fuel after = .ok (changed, between) ∧
        readFields fields fuel changed between = .ok (draft', rest) := by
  obtain ⟨⟨token, after⟩, hRead, hMore⟩ := bind_eq_ok.mp h
  by_cases hStop : token = .stop
  · subst hStop
    cases hMore
    exact .inl ⟨hRead, rfl⟩
  · obtain ⟨key, hText⟩ : ∃ key, token.text = .ok key := by
      cases token <;> first | exact absurd rfl hStop | skip
      all_goals
        obtain ⟨key, hText, _⟩ := bind_eq_ok.mp hMore
        exact ⟨key, hText⟩
    obtain ⟨s, rfl, hKey⟩ := Token.text_eq_ok hText
    rw [readFields_key hRead hKey] at h
    obtain ⟨⟨changed, between⟩, hField, hMore⟩ := bind_eq_ok.mp h
    exact .inr ⟨s, key, after, changed, between, hRead, hKey, hField, hMore⟩

theorem reads_field (hFields : ∀ field ∈ fields, ∀ d, Reads K fun fuel => field.read fuel d)
    (hSkips : ∀ front, Skips front → K front) (key : String) (draft : δ) :
    Reads K (readField fields key draft) := by
  intro fuel b changed rest h
  simp only [readField] at h
  split at h
  · next field hFind =>
    split at h
    · cases h
    · next hOpen =>
      obtain ⟨front, rfl, hKind, hTakes⟩ :=
        hFields field (List.mem_of_find?_eq_some hFind) draft fuel b changed rest h
      refine ⟨front, rfl, hKind, fun fuel t hFuel => ?_⟩
      simp only [readField, hFind, if_neg hOpen]
      exact hTakes fuel t hFuel
  · next hFind =>
    obtain ⟨after, hSkip, hMore⟩ := bind_eq_ok.mp h
    cases hMore
    obtain ⟨front, rfl, hFront⟩ := (skips_all fuel).1 b rest hSkip
    refine ⟨front, rfl, hSkips front hFront, fun fuel t hFuel => ?_⟩
    simp only [readField, hFind, hFront fuel t hFuel, bind, Except.bind]
    rfl

theorem Takes.noField (h : Token.stop.Spelled front) :
    Takes (fun fuel => readFields fields fuel draft) draft front := by
  intro fuel t hFuel
  obtain ⟨fuel, rfl⟩ := exists_step h.pos hFuel
  simp only [readFields, h.reads, bind, Except.bind]

theorem Takes.field {s : Bytes} {key : String} {changed : δ} (h : (Token.bytes s).Spelled front)
    (hKey : Bytes.text? s = some key) {value entries : Bytes}
    (hValue : Takes (readField fields key draft) changed value)
    (hEntries : Takes (fun fuel => readFields fields fuel changed) draft' entries) :
    Takes (fun fuel => readFields fields fuel draft) draft' (front ++ (value ++ entries)) := by
  intro fuel t hFuel
  obtain ⟨fuel, rfl, hRest⟩ := exists_step_append h.pos hFuel
  obtain ⟨hFirst, hMore⟩ := steps_append hRest
  dsimp only
  rw [List.append_assoc, List.append_assoc, readFields_key (h.reads _) hKey,
    hValue fuel _ hFirst]
  exact hEntries fuel t hMore

theorem Takes.record (h : Token.dict.Spelled front) {name : String} {entries : Bytes}
    (hEntries : Takes (fun fuel => readFields fields fuel draft) draft' entries) :
    Takes (readRecord name fields draft) draft' (front ++ entries) := by
  intro fuel t hFuel
  simp only [readRecord, List.append_assoc, h.reads, bind, Except.bind]
  exact hEntries fuel t (steps_append hFuel).2

/-- The rest of a dictionary whose keys are byte strings and whose values are of kind `K`. -/
inductive EntriesOf (K : Bytes → Prop) : Bytes → Prop
  | stop {front : Bytes} (h : Token.stop.Spelled front) : EntriesOf K front
  | cons {s front value entries : Bytes} (hKey : (Token.bytes s).Spelled front) (hValue : K value)
      (hEntries : EntriesOf K entries) : EntriesOf K (front ++ (value ++ entries))

theorem EntriesOf.skips {entries : Bytes} (h : EntriesOf Skips entries) :
    SkipsEntries entries := by
  induction h with
  | stop hToken => exact .stop hToken
  | cons hKey hValue _ ih => exact .cons (.scalar hKey fun _ _ => rfl) hValue ih

theorem readFields_takes (hFields : ∀ field ∈ fields, ∀ d, Reads K fun fuel => field.read fuel d)
    (hSkips : ∀ front, Skips front → K front)
    (h : readFields fields fuel draft b = .ok (draft', rest)) :
    ∃ front, b = front ++ rest ∧ EntriesOf K front ∧
      Takes (fun fuel => readFields fields fuel draft) draft' front := by
  induction fuel generalizing b draft with
  | zero => cases h
  | succ fuel ih =>
    rcases readFields_eq_ok h with
      ⟨hStop, rfl⟩ | ⟨s, key, after, changed, between, hRead, hKey, hField, hMore⟩
    · obtain ⟨front, rfl, hToken⟩ := Token.read_eq_ok hStop
      exact ⟨front, rfl, .stop hToken, .noField hToken⟩
    · obtain ⟨front, rfl, hToken⟩ := Token.read_eq_ok hRead
      obtain ⟨value, rfl, hKind, hTakes⟩ := reads_field hFields hSkips key draft _ _ _ _ hField
      obtain ⟨entries, rfl, hEntries, hTakes'⟩ := ih hMore
      exact ⟨front ++ (value ++ entries), by simp, .cons hToken hKind hEntries,
        .field hToken hKey hTakes hTakes'⟩

/-! ### Lists of values -/

variable {name : String} {size place : Nat} {field : KnownField δ}

/-- A list ends where a field with a default should stand, or it goes on with the field. -/
theorem readPlaces_eq_ok
    (h : readPlaces name size fuel place (field :: fields) draft b = .ok (draft', rest)) :
    (∃ after, Token.read b = .ok (.stop, after) ∧ field.hasDefault = true ∧
      readPlaces name size fuel (place + 1) fields draft after = .ok (draft', rest)) ∨
    ∃ changed after, field.read fuel draft b = .ok (changed, after) ∧
      readPlaces name size fuel (place + 1) fields changed after = .ok (draft', rest) := by
  obtain ⟨⟨token, after⟩, hRead, hMore⟩ := bind_eq_ok.mp h
  cases token with
  | stop =>
    dsimp only at hMore
    split at hMore
    · next hDefault => exact .inl ⟨after, hRead, hDefault, hMore⟩
    · cases hMore
  | _ =>
    obtain ⟨⟨changed, between⟩, hField, hMore⟩ := bind_eq_ok.mp hMore
    exact .inr ⟨changed, between, hField, hMore⟩

theorem Takes.absent (h : Token.stop.Spelled front) (hDefault : field.hasDefault = true)
    {more : Bytes} (hMore : Takes
      (fun fuel => readPlaces name size fuel (place + 1) fields draft) draft' more) :
    Takes (fun fuel => readPlaces name size fuel place (field :: fields) draft) draft'
      (front ++ more) := by
  intro fuel t hFuel
  simp only [readPlaces, List.append_assoc, h.reads, bind, Except.bind, hDefault, if_true]
  exact hMore fuel t (steps_append hFuel).2

theorem Takes.given {changed : δ} (hOpens : Opens front)
    (h : Takes (fun fuel => field.read fuel draft) changed front) {more : Bytes}
    (hMore : Takes
      (fun fuel => readPlaces name size fuel (place + 1) fields changed) draft' more) :
    Takes (fun fuel => readPlaces name size fuel place (field :: fields) draft) draft'
      (front ++ more) := by
  intro fuel t hFuel
  obtain ⟨hFirst, hRest⟩ := steps_append hFuel
  obtain ⟨token, after, hRead, hNotStop⟩ := hOpens (more ++ t)
  have hField := h fuel (more ++ t) hFirst
  dsimp only at hField
  simp only [readPlaces, List.append_assoc, hRead, bind, Except.bind, hField]
  exact hMore fuel t hRest

theorem readPlaces_takes (hFields : ∀ field ∈ fields, ∀ d, ReadsFront fun fuel => field.read fuel d)
    (h : readPlaces name size fuel place fields draft b = .ok (draft', rest)) :
    ∃ front, b = front ++ rest ∧
      Takes (fun fuel => readPlaces name size fuel place fields draft) draft' front := by
  induction fields generalizing b draft place with
  | nil =>
    cases h
    exact ⟨[], rfl, fun _ _ _ => rfl⟩
  | cons field fields ih =>
    obtain ⟨hField, hFields⟩ := List.forall_mem_cons.mp hFields
    rcases readPlaces_eq_ok h with
      ⟨after, hStop, hDefault, hMore⟩ | ⟨changed, after, hRead, hMore⟩
    · obtain ⟨front, rfl, hToken⟩ := Token.read_eq_ok hStop
      obtain ⟨more, rfl, hTakes⟩ := ih hFields hMore
      exact ⟨front ++ more, (List.append_assoc ..).symm, .absent hToken hDefault hTakes⟩
    · obtain ⟨front, rfl, hOpens, hTakes⟩ := hField draft _ _ _ _ hRead
      obtain ⟨more, rfl, hTakes'⟩ := ih hFields hMore
      exact ⟨front ++ more, (List.append_assoc ..).symm, .given hOpens hTakes hTakes'⟩

theorem Takes.places (h : Token.list.Spelled front) {values : Bytes}
    (hValues : Takes
      (fun fuel => readPlaces name fields.length fuel 0 fields draft) draft' values) :
    Takes (readRecord name fields draft) draft' (front ++ values) := by
  intro fuel t hFuel
  simp only [readRecord, List.append_assoc, h.reads, bind, Except.bind]
  exact hValues fuel t (steps_append hFuel).2

theorem ReadsFront.record
    (hFields : ∀ field ∈ fields, ∀ d, ReadsFront fun fuel => field.read fuel d) (name : String)
    (blank : δ) : ReadsFront (readRecord name fields blank) := by
  intro fuel b draft rest h
  obtain ⟨⟨token, after⟩, hRead, hMore⟩ := bind_eq_ok.mp h
  obtain ⟨front, rfl, hToken⟩ := Token.read_eq_ok hRead
  cases token with
  | dict =>
    obtain ⟨entries, rfl, _, hTakes⟩ := readFields_takes hFields (fun _ => Skips.opens) hMore
    exact ⟨front ++ entries, (List.append_assoc ..).symm, .of_token hToken nofun entries,
      .record hToken hTakes⟩
  | list =>
    obtain ⟨values, rfl, hTakes⟩ := readPlaces_takes hFields hMore
    exact ⟨front ++ values, (List.append_assoc ..).symm, .of_token hToken nofun values,
      .places hToken hTakes⟩
  | _ => cases hMore

/-! ### Dictionaries only -/

/-- Reads a record as `readRecord` does, but refuses a list of its values. -/
def readDictionary (name : String) (fields : List (KnownField δ)) (blank : δ) (fuel : Nat)
    (b : Bytes) : Except Error (δ × Bytes) := do
  let (token, rest) ← Token.read b
  match token with
  | .dict => readFields fields fuel blank rest
  | other => .error (other.mismatch (.record name))

theorem Takes.dictionary (h : Token.dict.Spelled front) {name : String} {entries : Bytes}
    (hEntries : Takes (fun fuel => readFields fields fuel draft) draft' entries) :
    Takes (readDictionary name fields draft) draft' (front ++ entries) := by
  intro fuel t hFuel
  simp only [readDictionary, List.append_assoc, h.reads, bind, Except.bind]
  exact hEntries fuel t (steps_append hFuel).2

theorem ReadsValue.dictionary
    (hFields : ∀ field ∈ fields, ∀ d, ReadsValue fun fuel => field.read fuel d) (name : String)
    (blank : δ) : ReadsValue (readDictionary name fields blank) := by
  intro fuel b draft rest h
  obtain ⟨⟨token, after⟩, hRead, hMore⟩ := bind_eq_ok.mp h
  obtain ⟨front, rfl, hToken⟩ := Token.read_eq_ok hRead
  cases token with
  | dict =>
    obtain ⟨entries, rfl, hEntries, hTakes⟩ := readFields_takes hFields (fun _ => id) hMore
    exact ⟨front ++ entries, (List.append_assoc ..).symm, .dict hToken hEntries.skips,
      .dictionary hToken hTakes⟩
  | _ => cases hMore

end TorrentEngine.Bencode
