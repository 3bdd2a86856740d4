import Mathlib.Data.List.Pairwise
import TorrentEngine.Proofs.Readers

/-!
Records and the order of their fields. Each known field of a record is read into a place of its own,
so two fields may be read in either order, and a value that is passed over may be passed over at any
time. A record that is given as a dictionary is therefore read from the written form of the
dictionary as from any spelling of it, though there the keys stand in order, and of equal unknown
keys only the last is left.
-/

namespace TorrentEngine

theorem Bytes.text?_inj {a b : Bytes} {text : String} (ha : Bytes.text? a = some text)
    (hb : Bytes.text? b = some text) : a = b := by
  have hBytes {c : Bytes} (h : Bytes.text? c = some text) : c = Bytes.ofText text := by
    simp only [Bytes.text?, String.fromUTF8?] at h
    split at h
    · rw [← Option.some.inj h]
      rfl
    · cases h
  rw [hBytes ha, hBytes hb]

namespace Bencode

variable {δ : Type} {fuel fuel' : Nat} {b front rest rest' : Bytes} {v : Value}
  {entries more : List (Bytes × Value)}

/-! ### Slots -/

/-- A place of a draft that the value under one key is read into. -/
structure Slot (δ : Type) where
  key : String
  Content : Type
  get : δ → Option Content
  put : Content → δ → δ
  read : Nat → Bytes → Except Error (Content × Bytes)
  hasDefault : Bool := false
  get_put : ∀ x d, get (put x d) = some x

/-- The known field that is read into a slot. -/
def Slot.field (s : Slot δ) : KnownField δ where
  key := s.key
  isGiven d := (s.get d).isSome
  read fuel d b := do
    let (x, rest) ← s.read fuel b
    return (s.put x d, rest)
  hasDefault := s.hasDefault

/-- What is read into a slot is one value, in any spelling of it. -/
structure Slot.Plain (s : Slot δ) : Prop where
  readsValue : ReadsValue s.read
  readsWritten : ReadsWritten s.read

/-- Two slots are different places. -/
structure Slot.Apart (s t : Slot δ) : Prop where
  comm : ∀ x y d, s.put x (t.put y d) = t.put y (s.put x d)
  get_left : ∀ y d, s.get (t.put y d) = s.get d
  get_right : ∀ x d, t.get (s.put x d) = t.get d

instance : Std.Symm (@Slot.Apart δ) where
  symm _ _ h := ⟨fun x y d => (h.comm y x d).symm, h.get_right, h.get_left⟩

variable {slots : List (Slot δ)} {key key' : String} {d d' e : δ} {K : Bytes → Prop}

theorem reads_slots (hSlots : ∀ s ∈ slots, Reads K s.read) :
    ∀ field ∈ slots.map Slot.field, ∀ d, Reads K fun fuel => field.read fuel d := by
  intro field hField d
  obtain ⟨s, hSlot, rfl⟩ := List.mem_map.mp hField
  exact (hSlots s hSlot).map fun x => .ok (s.put x d)

/-! ### One field -/

/-- What reading `front` as the value under a key does to a draft. -/
inductive Edits (slots : List (Slot δ)) (key : String) (front : Bytes) : δ → δ → Prop
  | known {s : Slot δ} {x : s.Content} {d : δ}
      (found : slots.find? (fun s => s.key == key) = some s) (vacant : s.get d = none)
      (takes : Takes s.read x front) : Edits slots key front d (s.put x d)
  | unknown {d : δ} (absent : slots.find? (fun s => s.key == key) = none) (skips : Skips front) :
      Edits slots key front d d

theorem readField_slots (fuel : Nat) (b : Bytes) :
    readField (slots.map Slot.field) key d fuel b =
      match slots.find? fun s => s.key == key with
      | some s =>
        if (s.get d).isSome then .error (.duplicateField key) else s.field.read fuel d b
      | none => do return (d, ← skipValue fuel b) := by
  have hFind : (slots.map Slot.field).find? (fun f => f.key == key) =
      (slots.find? fun s => s.key == key).map Slot.field := List.find?_map ..
  simp only [readField, hFind]
  cases slots.find? fun s => s.key == key <;> rfl

theorem Edits.takes (h : Edits slots key front d d') :
    Takes (readField (slots.map Slot.field) key d) d' front := by
  intro fuel t hFuel
  rw [readField_slots]
  cases h with
  | known found vacant takes =>
    simp only [found, vacant, Option.isSome_none, Bool.false_eq_true, if_false, Slot.field,
      takes fuel t hFuel, bind, Except.bind]
    rfl
  | unknown absent skips =>
    simp only [absent, skips fuel t hFuel, bind, Except.bind]
    rfl

theorem edits_of_readField
    (hSlot : ∀ s, slots.find? (fun s => s.key == key) = some s → Reads K s.read)
    (hSkips : ∀ front, Skips front → K front)
    (h : readField (slots.map Slot.field) key d fuel b = .ok (d', rest)) :
    ∃ front, b = front ++ rest ∧ K front ∧ Edits slots key front d d' := by
  rw [readField_slots] at h
  split at h
  · next s found =>
    split at h
    · cases h
    · next hVacant =>
      obtain ⟨⟨x, after⟩, hRead, hPut⟩ := bind_eq_ok.mp h
      cases hPut
      obtain ⟨front, hFront, hKind, hTakes⟩ := hSlot s found _ _ _ _ hRead
      exact ⟨front, hFront, hKind, .known found (by simpa using hVacant) hTakes⟩
  · next absent =>
    obtain ⟨after, hSkip, hKept⟩ := bind_eq_ok.mp h
    cases hKept
    obtain ⟨front, hFront, hFrontSkips⟩ := (skips_all fuel).1 _ _ hSkip
    exact ⟨front, hFront, hSkips front hFrontSkips, .unknown absent hFrontSkips⟩

/-- The written form of a value does to the draft what its spelling did. -/
theorem Edits.written (hPlain : ∀ s ∈ slots, s.Plain) (h : Edits slots key front d d')
    (hSpelled : v.Spelled front) (hSize : front.length < 0x10000000000000000) :
    Edits slots key v.print d d' := by
  cases h with
  | @known s _ _ found vacant takes =>
    have hSlot := hPlain s (List.mem_of_find?_eq_some found)
    exact .known found vacant (hSlot.readsWritten _ _ _ takes hSpelled hSize)
  | unknown absent _ => exact .unknown absent (hSpelled.written hSize).skips

/-- A known key is read once only. -/
theorem Edits.vacant {s : Slot δ} (hFound : slots.find? (fun t => t.key == key) = some s)
    (h : Edits slots key front d d') : s.get d = none := by
  cases h with
  | known found vacant _ =>
    rw [hFound] at found
    cases found
    exact vacant
  | unknown absent _ =>
    rw [hFound] at absent
    cases absent

/-- What stands in a slot stays there. -/
theorem Edits.get_of_some (hApart : slots.Pairwise Slot.Apart) {s : Slot δ} (hSlot : s ∈ slots)
    {x : s.Content} (hGiven : s.get d = some x) (h : Edits slots key front d d') :
    s.get d' = some x := by
  cases h with
  | @known t y _ found vacant _ =>
    have hOther : s ≠ t := by
      rintro rfl
      rw [hGiven] at vacant
      cases vacant
    have hSlots : s.Apart t :=
      hApart.forall hSlot (List.mem_of_find?_eq_some found) hOther
    rw [hSlots.get_left, hGiven]
  | unknown => exact hGiven

/-- A key that may stand twice is one that is passed over. -/
theorem Edits.again {front' : Bytes} (h : Edits slots key front d e)
    (h' : Edits slots key front' e d') : e = d ∧ Edits slots key front' d d' := by
  cases h with
  | @known s x _ found _ _ =>
    have hVacant := h'.vacant found
    rw [s.get_put] at hVacant
    cases hVacant
  | unknown => exact ⟨rfl, h'⟩

/-- Values under two keys may be read in either order. -/
theorem Edits.swap (hApart : slots.Pairwise Slot.Apart) (hKeys : key ≠ key') {front' : Bytes}
    (h : Edits slots key front d e) (h' : Edits slots key' front' e d') :
    ∃ c, Edits slots key' front' d c ∧ Edits slots key front c d' := by
  cases h with
  | @known s x _ found vacant takes =>
    cases h' with
    | @known t y _ found' vacant' takes' =>
      have hOther : s ≠ t := by
        rintro rfl
        have hKey : s.key = key := by simpa using List.find?_some found
        have hKey' : s.key = key' := by simpa using List.find?_some found'
        exact hKeys (hKey.symm.trans hKey')
      have hSlots : s.Apart t := hApart.forall (List.mem_of_find?_eq_some found)
        (List.mem_of_find?_eq_some found') hOther
      rw [hSlots.get_right] at vacant'
      rw [← hSlots.comm x y d]
      exact ⟨t.put y d, .known found' vacant' takes',
        .known found ((hSlots.get_left y d).trans vacant) takes⟩
    | unknown absent' skips' => exact ⟨d, .unknown absent' skips', .known found vacant takes⟩
  | unknown absent skips => exact ⟨d', h', .unknown absent skips⟩

/-! ### All fields -/

/-- What reading the written forms of entries one after the other does to a draft. -/
inductive Fills (slots : List (Slot δ)) : δ → List (Bytes × Value) → δ → Prop
  | nil {d : δ} : Fills slots d [] d
  | cons {k : Bytes} {key : String} {v : Value} {d e d' : δ} {more : List (Bytes × Value)}
      (text : Bytes.text? k = some key) (edits : Edits slots key v.print d e)
      (fills : Fills slots e more d') : Fills slots d ((k, v) :: more) d'

theorem Fills.takes (h : Fills slots d entries d')
    (hKeys : ∀ e ∈ entries, e.1.length < 0x10000000000000000) :
    Takes (fun fuel => readFields (slots.map Slot.field) fuel d) d'
      (Value.printEntries entries ++ [101]) := by
  induction h with
  | nil => exact .noField .of_stop
  | cons text edits _ ih =>
    obtain ⟨hKey, hMore⟩ := List.forall_mem_cons.mp hKeys
    rw [Value.printEntries, List.append_assoc, List.append_assoc]
    exact .field (.of_bytes hKey) text edits.takes (ih hMore)

/-- An entry at the end may be read first if its key stands nowhere before it. -/
theorem Fills.move (hApart : slots.Pairwise Slot.Apart) (h : Fills slots d entries e)
    (hFresh : ∀ entry ∈ entries, Bytes.text? entry.1 ≠ some key)
    (hLast : Edits slots key front e d') :
    ∃ c, Edits slots key front d c ∧ Fills slots c entries d' := by
  induction h with
  | nil => exact ⟨d', hLast, .nil⟩
  | @cons k key' _ _ _ _ _ text edits _ ih =>
    obtain ⟨hFirst, hMore⟩ := List.forall_mem_cons.mp hFresh
    obtain ⟨c, hEdits, hFills⟩ := ih hMore hLast
    have hKeys : key' ≠ key := fun hSame => hFirst (text.trans (congrArg some hSame))
    obtain ⟨c', hEdits', hEdits''⟩ := edits.swap hApart hKeys hEdits
    exact ⟨c', hEdits', .cons text hEdits'' hFills⟩

/-- An entry at the end may be read at its place in the order of keys, instead of the entry with its
key. -/
theorem Fills.insert (hApart : slots.Pairwise Slot.Apart) {k : Bytes}
    (hText : Bytes.text? k = some key) (h : Fills slots d entries e) (hOrder : Ascending entries)
    (hLast : Edits slots key v.print e d') : Fills slots d (Value.insert k v entries) d' := by
  have hFresh {rest : List (Bytes × Value)} (hNot : ∀ entry ∈ rest, entry.1 ≠ k) :
      ∀ entry ∈ rest, Bytes.text? entry.1 ≠ some key :=
    fun entry hMem hSame => hNot entry hMem (Bytes.text?_inj hSame hText)
  have hAbove {k' : Bytes} (hLess : k < k') : k' ≠ k := by
    rintro rfl
    exact List.lt_irrefl _ hLess
  induction h with
  | nil => exact .cons hText hLast .nil
  | @cons k' key' _ _ _ _ _ text edits fills ih =>
    obtain ⟨hFirst, hRest⟩ := List.pairwise_cons.mp hOrder
    simp only [Value.insert]
    split
    · next hSame =>
      subst hSame
      obtain rfl := Option.some.inj (hText.symm.trans text)
      obtain ⟨c, hEdits, hFills⟩ :=
        fills.move hApart (hFresh fun entry hMem => hAbove (hFirst entry hMem)) hLast
      -- The key was read before, so it is one that is passed over, and once is enough.
      obtain ⟨rfl, hAgain⟩ := edits.again hEdits
      exact .cons text hAgain hFills
    · split
      · next hOther hBefore =>
        obtain ⟨c, hEdits, hFills⟩ := (Fills.cons text edits fills).move hApart
          (hFresh (List.forall_mem_cons.mpr ⟨hAbove hBefore,
            fun entry hMem => hAbove (List.lt_trans hBefore (hFirst entry hMem))⟩)) hLast
        exact .cons hText hEdits hFills
      · exact .cons text edits (ih hRest hLast)

theorem Fills.enter (hApart : slots.Pairwise Slot.Apart) {blank : δ}
    (h : Fills slots blank entries d) (hOrder : Ascending entries)
    (hMore : Fills slots d more d') : Fills slots blank (enter more entries) d' := by
  induction hMore generalizing entries with
  | nil => exact h
  | cons text edits _ ih => exact ih (h.insert hApart text hOrder edits) hOrder.insert

/-- Once all entries were read, what was read from the value under a known key stands in its slot.
-/
theorem Fills.get (hApart : slots.Pairwise Slot.Apart) (h : Fills slots d entries d')
    {s : Slot δ} (hFound : slots.find? (fun t => t.key == s.key) = some s) {k : Bytes}
    (hText : Bytes.text? k = some s.key) (hMem : (k, v) ∈ entries) :
    ∃ x, Takes s.read x v.print ∧ s.get d' = some x := by
  have hSlot := List.mem_of_find?_eq_some hFound
  have hKept {x : s.Content} {d d' : δ} {rest : List (Bytes × Value)}
      (hGiven : s.get d = some x) (h : Fills slots d rest d') : s.get d' = some x := by
    induction h with
    | nil => exact hGiven
    | cons _ edits _ ih => exact ih (edits.get_of_some hApart hSlot hGiven)
  induction h with
  | nil => cases hMem
  | cons text edits fills ih =>
    rcases List.mem_cons.mp hMem with hHere | hMem
    · cases hHere
      obtain rfl := Option.some.inj (hText.symm.trans text)
      cases edits with
      | known found _ takes =>
        rw [hFound] at found
        cases found
        exact ⟨_, takes, hKept (s.get_put _ _) fills⟩
      | unknown absent _ =>
        rw [hFound] at absent
        cases absent
    · exact ih hMem

/-! ### Reading a spelling and the written form -/

/-- A dictionary read as a record and as a value, entry by entry. -/
theorem fills_of_readFields (hPlain : ∀ s ∈ slots, s.Plain)
    (h : readFields (slots.map Slot.field) fuel d b = .ok (d', rest))
    {read : List (Bytes × Value)} (h' : readEntries fuel' entries b = .ok (read, rest'))
    (hSize : b.length < 0x10000000000000000) :
    ∃ more, read = enter more entries ∧ Fills slots d more d' := by
  induction fuel generalizing fuel' d b entries with
  | zero => cases h
  | succ fuel ih =>
    cases fuel' with
    | zero => cases h'
    | succ fuel' =>
      rcases readFields_eq_ok h with
        ⟨hStop, rfl⟩ | ⟨k, key, after, changed, between, hRead, hText, hField, hMore⟩
      · rcases readEntries_eq_ok h' with ⟨_, rfl⟩ | ⟨_, _, _, _, hBytes, _, _⟩
        · exact ⟨[], rfl, .nil⟩
        · simp only [readBytes, hStop, bind, Except.bind] at hBytes
          cases hBytes
      · rcases readEntries_eq_ok h' with ⟨hStop, _⟩ | ⟨_, _, v, after', hBytes, hValue, hMore'⟩
        · rw [hRead] at hStop
          cases hStop
        · simp only [readBytes, hRead, bind, Except.bind, bytesFrom] at hBytes
          cases hBytes
          have hSlot (s : Slot δ) (hFound : slots.find? (fun s => s.key == key) = some s) :
              ReadsValue s.read :=
            (hPlain s (List.mem_of_find?_eq_some hFound)).readsValue
          obtain ⟨value, rfl, hSkips, hEdits⟩ := edits_of_readField hSlot (fun _ => id) hField
          obtain ⟨value', hSame, hSpelled⟩ := valueAt_eq_ok hValue
          obtain ⟨rfl, rfl⟩ := hSkips.unique hSpelled.skips hSame
          obtain ⟨front, rfl, _⟩ := Token.read_eq_ok hRead
          simp only [List.length_append] at hSize
          obtain ⟨more, rfl, hFills⟩ := ih hMore hMore' (by omega)
          have hWritten := hEdits.written hPlain hSpelled (by omega)
          exact ⟨(k, v) :: more, rfl, .cons hText hWritten hFills⟩

/-- A record that was read from a spelling of a dictionary is filled from the entries of the
dictionary. -/
theorem fills_of_dictionary (hApart : slots.Pairwise Slot.Apart) (hPlain : ∀ s ∈ slots, s.Plain)
    {name : String} {blank : δ}
    (h : Takes (readDictionary name (slots.map Slot.field) blank) d front)
    (hSpelled : v.Spelled front) (hSize : front.length < 0x10000000000000000) :
    ∃ entries, v = .dict entries ∧ Fills slots blank entries d := by
  obtain ⟨⟨token, after⟩, hRead, hMore⟩ := bind_eq_ok.mp h.whole
  cases token with
  | dict =>
    obtain ⟨_, hFrom⟩ := hSpelled.valueFrom_of_read hRead
    obtain ⟨⟨entries, _⟩, hEntries, hDict⟩ := bind_eq_ok.mp hFrom
    cases hDict
    obtain ⟨mark, rfl, _⟩ := Token.read_eq_ok hRead
    rw [List.length_append] at hSize
    obtain ⟨more, rfl, hFills⟩ := fills_of_readFields hPlain hMore hEntries (by omega)
    exact ⟨_, rfl, Fills.nil.enter hApart .nil hFills⟩
  | _ => cases hMore

theorem ReadsWritten.dictionary (hApart : slots.Pairwise Slot.Apart)
    (hPlain : ∀ s ∈ slots, s.Plain) (name : String) (blank : δ) :
    ReadsWritten (readDictionary name (slots.map Slot.field) blank) := by
  intro d v front h hSpelled hSize
  obtain ⟨entries, rfl, hFills⟩ := fills_of_dictionary hApart hPlain h hSpelled hSize
  cases hSpelled.wellformed hSize with
  | dict _ keys _ => exact .dictionary .of_dict (hFills.takes keys)

end Bencode

end TorrentEngine
