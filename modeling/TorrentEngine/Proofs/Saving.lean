import TorrentEngine.Proofs.Dictionaries

/-!
Saving metadata and reading them back. An `info` dictionary that was received on its own is named by
its bytes as they are; read back from the file that it is saved in, it is named by the one form in
which its value is written. The two names are those of the same bytes just where the dictionary was
received in that form. A list of its values need not be read to its end, and then what is left is
taken for the other entries of the file.
-/

namespace TorrentEngine

open Bencode

/-! ### One file read in two ways -/

theorem lookup_insert {key k : Bytes} (hOther : key ≠ k) (v : Value)
    (entries : List (Bytes × Value)) :
    Value.lookup k (Value.insert key v entries) = Value.lookup k entries := by
  induction entries with
  | nil => simp [Value.insert, Value.lookup, hOther]
  | cons e rest ih =>
    obtain ⟨k', v'⟩ := e
    simp only [Value.lookup] at ih
    simp only [Value.insert]
    split
    · next hSame =>
      subst hSame
      simp [Value.lookup, hOther]
    · split
      · simp [Value.lookup, hOther]
      · by_cases hHere : k' = k
        · simp [Value.lookup, hHere]
        · simpa [Value.lookup, hHere] using ih

theorem lookup_insert_self (k : Bytes) (v : Value) (entries : List (Bytes × Value)) :
    Value.lookup k (Value.insert k v entries) = some v := by
  induction entries with
  | nil => simp [Value.insert, Value.lookup]
  | cons e entries ih =>
    obtain ⟨k', w⟩ := e
    simp only [Value.insert]
    split
    · simp [Value.lookup]
    · next hOther =>
      split
      · simp [Value.lookup]
      · simpa [Value.lookup, Ne.symm hOther] using ih

/-- What is found in a dictionary stood there before, or was read from less than all there was. -/
theorem lookup_of_readEntries {fuel : Nat} {entries d : List (Bytes × Value)} {b rest k : Bytes}
    {w : Value} (h : readEntries fuel entries b = .ok (d, rest)) (hw : Value.lookup k d = some w) :
    Value.lookup k entries = some w ∨ ∃ front, w.Spelled front ∧ front.length < b.length := by
  induction fuel generalizing entries b with
  | zero => cases h
  | succ fuel ih =>
    rcases readEntries_eq_ok h with ⟨_, rfl⟩ | ⟨key, between, v, after, hKey, hValue, hMore⟩
    · exact .inl hw
    · obtain ⟨front, rfl, hSkips, _⟩ := readsValue_bytes _ _ _ _ hKey
      obtain ⟨value, rfl, hSpelled⟩ := valueAt_eq_ok hValue
      have hPos := hSkips.pos
      rcases ih hMore with hBefore | ⟨later, hLater, hShort⟩
      · by_cases hHere : key = k
        · subst hHere
          rw [lookup_insert_self] at hBefore
          obtain rfl := Option.some.inj hBefore
          refine .inr ⟨value, hSpelled, ?_⟩
          simp only [List.length_append]
          omega
        · rw [lookup_insert hHere] at hBefore
          exact .inl hBefore
      · refine .inr ⟨later, hLater, ?_⟩
        simp only [List.length_append]
        omega

/-- Once the `info` dictionary was read there is no other, and the other fields leave it alone. -/
theorem readField_info {info : Info} {key : String} {draft changed : Metainfo.Draft} {fuel : Nat}
    {b rest : Bytes} (hInfo : draft.info = some info)
    (h : readField Metainfo.fields key draft fuel b = .ok (changed, rest)) :
    key ≠ "info" ∧ changed.info = some info := by
  rw [Metainfo.fields_eq] at h
  have hSlot (s : Slot Metainfo.Draft)
      (hFound : (Metainfo.slots readInfo).find? (fun s => s.key == key) = some s) :
      ReadsFront s.read :=
    Metainfo.readsFront_slots readsFront_info s (List.mem_of_find?_eq_some hFound)
  obtain ⟨_, _, _, hEdits⟩ := edits_of_readField hSlot (fun _ => Skips.opens) h
  refine ⟨?_, hEdits.get_of_some Metainfo.slots_apart List.mem_cons_self hInfo⟩
  rintro rfl
  have hVacant : draft.info = none :=
    hEdits.vacant (show _ = some (Metainfo.infoSlot readInfo) from rfl)
  rw [hInfo] at hVacant
  cases hVacant

theorem info_of_readFields {info : Info} {draft draft' : Metainfo.Draft} {fuel : Nat}
    {b rest : Bytes} (hInfo : draft.info = some info)
    (h : readFields Metainfo.fields fuel draft b = .ok (draft', rest)) :
    draft'.info = some info := by
  induction fuel generalizing draft b with
  | zero => cases h
  | succ fuel ih =>
    rcases readFields_eq_ok h with ⟨_, rfl⟩ | ⟨_, key, _, changed, _, _, _, hField, hMore⟩
    · exact hInfo
    · exact ih (readField_info hInfo hField).2 hMore

theorem text?_info : Bytes.text? (Bytes.ofText "info") = some "info" := rfl

/-- Fields after the `info` dictionary, read as such and as plain entries. -/
theorem lookup_of_readFields {info : Info} {draft draft' : Metainfo.Draft} {fuel fuel' : Nat}
    {b rest rest' : Bytes} {entries d : List (Bytes × Value)} (hInfo : draft.info = some info)
    (h : readFields Metainfo.fields fuel draft b = .ok (draft', rest))
    (h' : readEntries fuel' entries b = .ok (d, rest')) :
    Value.lookup (Bytes.ofText "info") d = Value.lookup (Bytes.ofText "info") entries := by
  induction fuel generalizing fuel' draft b entries with
  | zero => cases h
  | succ fuel ih =>
    cases fuel' with
    | zero => cases h'
    | succ fuel' =>
      rcases readFields_eq_ok h with
        ⟨hStop, rfl⟩ | ⟨s, key, after, changed, between, hRead, hKey, hField, hMore⟩
      · rcases readEntries_eq_ok h' with ⟨_, rfl⟩ | ⟨key, _, _, _, hBytes, _, _⟩
        · rfl
        · simp only [readBytes, hStop, bind, Except.bind] at hBytes
          cases hBytes
      · rcases readEntries_eq_ok h' with ⟨hStop, _⟩ | ⟨_, _, v, after', hBytes, hValue, hMore'⟩
        · rw [hRead] at hStop
          cases hStop
        · simp only [readBytes, hRead, bind, Except.bind, bytesFrom] at hBytes
          cases hBytes
          obtain ⟨hOther, hInfo'⟩ := readField_info hInfo hField
          -- The other fields are values, so both readings go on at the same place.
          have hSlot (s : Slot Metainfo.Draft)
              (hFound : (Metainfo.slots readInfo).find? (fun s => s.key == key) = some s) :
              ReadsValue s.read := by
            have hSame : s.key = key := by simpa using List.find?_some hFound
            exact Metainfo.readsValue_of_ne (List.mem_of_find?_eq_some hFound) (hSame ▸ hOther)
          have hSame : between = after' := by
            rw [Metainfo.fields_eq] at hField
            obtain ⟨front, hFront, hSkips, _⟩ := edits_of_readField hSlot (fun _ => id) hField
            obtain ⟨front', hFront', hSpelled⟩ := valueAt_eq_ok hValue
            exact (hSkips.unique hSpelled.skips (hFront.symm.trans hFront')).2
          subst hSame
          refine (ih hInfo' hMore hMore').trans (lookup_insert ?_ v entries)
          rintro rfl
          exact hOther (Option.some.inj (hKey.symm.trans text?_info))

/-! ### Saving -/

/-- The bytes before the `info` dictionary in a file that holds nothing else. -/
def infoKey : Bytes := [52, 58, 105, 110, 102, 111]

theorem wrapInfo_eq (x : Bytes) : wrapInfo x = [100] ++ (infoKey ++ (x ++ [101])) := by
  simp only [wrapInfo, show Bytes.ofText "d4:info" = [100] ++ infoKey from rfl, List.append_assoc]

theorem spelled_infoKey : (Token.bytes (Bytes.ofText "info")).Spelled infoKey := by
  have hRead : Token.read infoKey = .ok (.bytes (Bytes.ofText "info"), []) := by decide +kernel
  obtain ⟨front, hFront, hSpelled⟩ := Token.read_eq_ok hRead
  rwa [hFront, List.append_nil]

theorem readBytes_infoKey (fuel : Nat) (t : Bytes) :
    readBytes fuel (infoKey ++ t) = .ok (Bytes.ofText "info", t) := by
  simp only [readBytes, spelled_infoKey.reads, bind, Except.bind, bytesFrom]

variable {x b rest : Bytes} {m m' : Metainfo} {info : Info} {v : Value} {fuel : Nat}

/-- Read as a record, a saved file begins with the `info` dictionary. -/
theorem readRecord_wrapInfo
    (h : readInfo (2 * (wrapInfo x).length + 1) (x ++ [101]) = .ok (info, rest)) :
    readRecord "Torrent" Metainfo.fields {} (fuelFor (wrapInfo x)) (wrapInfo x) =
      readFields Metainfo.fields (2 * (wrapInfo x).length + 1) { info := some info } rest := by
  rw [fuelFor]
  generalize 2 * (wrapInfo x).length = steps at h ⊢
  have hField : readField Metainfo.fields "info" {} (steps + 1) (x ++ [101]) =
      .ok ({ info := some info }, rest) := by
    simp [readField, Metainfo.fields, h, bind, Except.bind, pure, Except.pure]
  rw [readRecord, wrapInfo_eq, Token.Spelled.of_dict.reads]
  simp only [bind, Except.bind]
  rw [readFields_key (spelled_infoKey.reads _) text?_info, hField]
  rfl

/-- Read as a value, it does so too. -/
theorem readValue_wrapInfo {entries : List (Bytes × Value)}
    (h : readValue (wrapInfo x) = .ok (.dict entries, rest)) :
    ∃ v after, valueAt (2 * (wrapInfo x).length) (x ++ [101]) = .ok (v, after) ∧
      readEntries (2 * (wrapInfo x).length) [(Bytes.ofText "info", v)] after =
        .ok (entries, rest) := by
  rw [readValue_eq, fuelFor] at h
  generalize 2 * (wrapInfo x).length = steps at h ⊢
  rw [wrapInfo_eq, valueAt, Token.Spelled.of_dict.reads] at h
  obtain ⟨_, hToken, hFrom⟩ := bind_eq_ok.mp h
  cases hToken
  obtain ⟨_, hInner, hDict⟩ := bind_eq_ok.mp hFrom
  cases hDict
  rcases readEntries_eq_ok hInner with ⟨hStop, _⟩ | ⟨key, _, v, after, hKey, hValue, hMore⟩
  · rw [spelled_infoKey.reads] at hStop
    cases hStop
  · rw [readBytes_infoKey] at hKey
    cases hKey
    exact ⟨v, after, hValue, hMore⟩

/-- What stands behind the `info` dictionary of a torrent file reads on as its other entries. -/
def Info.ReadsOn (info : Info) (b : Bytes) : Prop :=
  ∃ fuel draft rest, readFields Metainfo.fields fuel { info := some info } b = .ok (draft, rest)

theorem Info.ReadsOn.stop (info : Info) (b : Bytes) : info.ReadsOn (101 :: b) :=
  ⟨1, { info := some info }, b, rfl⟩

/-- It begins with a key or with the end of the file. -/
theorem Info.ReadsOn.token (h : info.ReadsOn b) :
    ∃ token after, Token.read b = .ok (token, after) ∧ (token = .stop ∨ ∃ s, token = .bytes s) := by
  obtain ⟨fuel, draft, rest, hRead⟩ := h
  cases fuel with
  | zero => cases hRead
  | succ fuel =>
    rcases readFields_eq_ok hRead with ⟨hStop, _⟩ | ⟨s, _, after, _, _, hKey, _⟩
    · exact ⟨.stop, rest, hStop, .inl rfl⟩
    · exact ⟨.bytes s, after, hKey, .inr ⟨s, rfl⟩⟩

/-- Whether it does so is no matter of steps. -/
theorem Info.ReadsOn.steps (h : info.ReadsOn b) (hFuel : 2 * b.length ≤ fuel) :
    ∃ draft rest, readFields Metainfo.fields fuel { info := some info } b = .ok (draft, rest) := by
  obtain ⟨_, draft, rest, hRead⟩ := h
  rw [Metainfo.fields_eq] at hRead ⊢
  obtain ⟨front, rfl, _, hTakes⟩ := readFields_takes
    (reads_slots (Metainfo.readsFront_slots readsFront_info)) (fun _ => Skips.opens) hRead
  rw [List.length_append] at hFuel
  exact ⟨draft, rest, hTakes fuel rest (by omega)⟩

/-- What a bare `info` dictionary is read from, with or without more behind it. -/
theorem ofInfo_eq_ok (h : Metainfo.ofInfo x = .ok m) :
    m.infoBytes = x ∧ m.hasWholePieces = true ∧
      ∃ left, readInfo (fuelFor x) x = .ok (m.info, left) := by
  obtain ⟨⟨info, left⟩, hRead, hCheck⟩ := bind_eq_ok.mp h
  simp only [Metainfo.checkPieces] at hCheck
  split at hCheck
  · next hWhole =>
    cases hCheck
    exact ⟨rfl, hWhole, left, mapError_eq_ok.mp hRead⟩
  · cases hCheck

theorem canonicalInfo_eq_ok {written : Bytes} :
    canonicalInfo b = .ok written ↔ ∃ entries rest v, readValue b = .ok (.dict entries, rest) ∧
      Value.lookup (Bytes.ofText "info") entries = some v ∧ v.print = written := by
  constructor
  · intro h
    obtain ⟨⟨value, rest⟩, hRead, hMore⟩ := bind_eq_ok.mp h
    cases value with
    | dict entries =>
      dsimp only at hMore
      split at hMore
      · next v hLookup =>
        exact ⟨entries, rest, v, mapError_eq_ok.mp hRead, hLookup, Except.ok.inj hMore⟩
      · cases hMore
    | _ => cases hMore
  · rintro ⟨entries, rest, v, hRead, hLookup, rfl⟩
    refine bind_eq_ok.mpr ⟨_, mapError_eq_ok.mpr hRead, ?_⟩
    simp only [hLookup]

theorem require_eq_ok {α : Type} {key : String} {o : Option α} {x : α}
    (h : require key o = .ok x) : o = some x := by
  cases o with
  | none => cases h
  | some y => exact congrArg some (Except.ok.inj h)

theorem parse_eq_ok : Metainfo.parse b = .ok m ↔ m.hasWholePieces = true ∧
    ∃ draft rest, canonicalInfo b = .ok m.infoBytes ∧
      readRecord "Torrent" Metainfo.fields {} (fuelFor b) b = .ok (draft, rest) ∧
      draft.info = some m.info ∧ draft.announce = m.announce ∧
      draft.announceList = m.announceList := by
  constructor
  · intro h
    obtain ⟨infoBytes, hCanonical, hMore⟩ := bind_eq_ok.mp h
    obtain ⟨⟨draft, rest⟩, hRecord, hMore⟩ := bind_eq_ok.mp hMore
    obtain ⟨info, hRequire, hCheck⟩ := bind_eq_ok.mp hMore
    have hInfo : draft.info = some info := require_eq_ok (mapError_eq_ok.mp hRequire)
    simp only [Metainfo.checkPieces] at hCheck
    split at hCheck
    · next hWhole =>
      cases hCheck
      exact ⟨hWhole, draft, rest, hCanonical, mapError_eq_ok.mp hRecord, hInfo, rfl, rfl⟩
    · cases hCheck
  · rintro ⟨hWhole, draft, rest, hCanonical, hRecord, hInfo, hAnnounce, hList⟩
    refine bind_eq_ok.mpr ⟨_, hCanonical, bind_eq_ok.mpr ⟨_, mapError_eq_ok.mpr hRecord,
      bind_eq_ok.mpr ⟨m.info, ?_, ?_⟩⟩⟩
    · rw [hInfo]
      rfl
    · rw [hAnnounce, hList, Metainfo.checkPieces, if_pos hWhole]

/-- A saved file, read as a record, goes on behind its `info` dictionary with what was left of it.
-/
theorem readRecord_saved {left : Bytes} (h : readInfo (fuelFor x) x = .ok (info, left)) :
    readRecord "Torrent" Metainfo.fields {} (fuelFor (wrapInfo x)) (wrapInfo x) =
      readFields Metainfo.fields (2 * (wrapInfo x).length + 1) { info := some info }
        (left ++ [101]) := by
  obtain ⟨front, rfl, _, hTakes⟩ := readsFront_info _ _ _ _ h
  apply readRecord_wrapInfo
  rw [List.append_assoc]
  refine hTakes _ _ ?_
  simp only [wrapInfo_eq, List.length_append]
  omega

theorem parse_saved {left : Bytes} (hRead : readInfo (fuelFor x) x = .ok (info, left))
    (h : Metainfo.parse (wrapInfo x) = .ok m') :
    m'.info = info ∧ canonicalInfo (wrapInfo x) = .ok m'.infoBytes ∧
      info.ReadsOn (left ++ [101]) := by
  obtain ⟨_, draft, rest, hCanonical, hRecord, hInfo, _, _⟩ := parse_eq_ok.mp h
  rw [readRecord_saved hRead] at hRecord
  have hGiven := info_of_readFields rfl hRecord
  exact ⟨Option.some.inj (hInfo.symm.trans hGiven), hCanonical, _, _, _, hRecord⟩

theorem exists_parse_saved {left written : Bytes}
    (hRead : readInfo (fuelFor x) x = .ok (m.info, left)) (hWhole : m.hasWholePieces = true)
    (hCanonical : canonicalInfo (wrapInfo x) = .ok written) (hOn : m.info.ReadsOn (left ++ [101])) :
    ∃ m', Metainfo.parse (wrapInfo x) = .ok m' ∧ m'.info = m.info ∧ m'.infoBytes = written := by
  obtain ⟨front, hFront, _⟩ := readsFront_info _ _ _ _ hRead
  have hFuel : 2 * (left ++ [101]).length ≤ 2 * (wrapInfo x).length + 1 := by
    simp only [wrapInfo_eq, hFront, List.length_append]
    omega
  obtain ⟨draft, rest, hFields⟩ := hOn.steps hFuel
  have hRecord := (readRecord_saved hRead).trans hFields
  have hInfo := info_of_readFields rfl hFields
  exact ⟨{ infoBytes := written, info := m.info, announce := draft.announce,
           announceList := draft.announceList },
    parse_eq_ok.mpr ⟨hWhole, draft, rest, hCanonical, hRecord, hInfo, rfl, rfl⟩, rfl, rfl⟩

/-- A file that was saved from one value is named by the written form of this value. -/
theorem canonicalInfo_of_spelled (hValue : v.Spelled x) :
    canonicalInfo (wrapInfo x) = .ok v.print := by
  have hEntry : SpelledEntries [(Bytes.ofText "info", v)] (infoKey ++ (x ++ [101])) :=
    .cons (.scalar spelled_infoKey fun _ _ => rfl) (fun fuel t _ => readBytes_infoKey fuel t)
      spelled_infoKey.written_le hValue (.stop .of_stop)
  have hRead : readValue (wrapInfo x) = .ok (.dict [(Bytes.ofText "info", v)], []) := by
    have hDict := (Value.Spelled.dict .of_dict hEntry).takes (fuelFor (wrapInfo x)) []
    rw [List.append_nil, ← wrapInfo_eq] at hDict
    exact hDict (by rw [fuelFor]; omega)
  refine canonicalInfo_eq_ok.mpr ⟨_, _, v, hRead, ?_, rfl⟩
  simp [Value.lookup]

/-- One value of which nothing was left is read back as what it was. -/
theorem parse_of_spelled (hRead : readInfo (fuelFor x) x = .ok (m.info, []))
    (hWhole : m.hasWholePieces = true) (hValue : v.Spelled x) :
    Metainfo.parse (wrapInfo x) = .ok { infoBytes := v.print, info := m.info } := by
  have hFields : readFields Metainfo.fields (2 * (wrapInfo x).length + 1) { info := some m.info }
      [101] = .ok ({ info := some m.info }, []) := rfl
  exact parse_eq_ok.mpr ⟨hWhole, _, _, canonicalInfo_of_spelled hValue,
    (readRecord_saved hRead).trans hFields, rfl, rfl, rfl⟩

theorem readValue_of_spelled {front : Bytes} (h : v.Spelled front) (rest : Bytes) :
    readValue (front ++ rest) = .ok (v, rest) := by
  refine h.takes _ rest ?_
  rw [fuelFor, List.length_append]
  omega

theorem spelled_of_readValue (h : readValue x = .ok (v, [])) : v.Spelled x := by
  obtain ⟨front, hFront, hSpelled⟩ := valueAt_eq_ok h
  rwa [hFront, List.append_nil]

/-- Only a file that was saved from a value in its written form is named by all of it: any other
value that its name may be taken from is written with fewer bytes. -/
theorem spelled_of_canonicalInfo (h : canonicalInfo (wrapInfo x) = .ok x) :
    ∃ v, readValue x = .ok (v, []) ∧ v.print = x := by
  obtain ⟨entries, rest, w, hRead, hLookup, hPrint⟩ := canonicalInfo_eq_ok.mp h
  obtain ⟨v, after, hValue, hEntries⟩ := readValue_wrapInfo hRead
  obtain ⟨front, hFront, hSpelled⟩ := valueAt_eq_ok hValue
  have hLengths := congrArg List.length hFront
  have hPos := hSpelled.skips.pos
  simp only [List.length_append, List.length_singleton] at hLengths
  rcases lookup_of_readEntries hEntries hLookup with hHere | ⟨later, hLater, hShort⟩
  · have hSame : w = v := by simpa [Value.lookup] using hHere.symm
    subst hSame
    have hAfter : after ≠ [] := by
      rintro rfl
      generalize 2 * (wrapInfo x).length = steps at hEntries
      cases steps <;> cases hEntries
    have hBehind := List.length_pos_iff.mpr hAfter
    have hWritten := hSpelled.print_le
    rw [hPrint] at hWritten
    obtain ⟨rfl, -⟩ := List.append_inj hFront (by omega)
    have hWhole := readValue_of_spelled hSpelled []
    rw [List.append_nil] at hWhole
    exact ⟨w, hWhole, hPrint⟩
  · have hWritten := hLater.print_le
    rw [hPrint] at hWritten
    omega

/-- How an `info` dictionary `x`, of which `left` was not read, comes back from the file that it is
saved in. The fields are the same whenever the file is read. If `x` is one value, in any spelling,
the file is read just if what was left reads on as the rest of it, and is named by the written form
of the value. It comes back with exactly the bytes `x` just if, besides, these are that form. Where
no list stands for a record nothing is left of a value, and the name is that of the value at the
front. -/
structure Metainfo.ComesBack (m : Metainfo) (x left : Bytes) : Prop where
  read : readInfo (fuelFor x) x = .ok (m.info, left)
  info_eq : ∀ m', Metainfo.parse (wrapInfo x) = .ok m' → m'.info = m.info
  accepted : ∀ v, readValue x = .ok (v, []) →
    ((∃ m', Metainfo.parse (wrapInfo x) = .ok m') ↔ m.info.ReadsOn (left ++ [101]))
  named : ∀ v, readValue x = .ok (v, []) → ∀ m', Metainfo.parse (wrapInfo x) = .ok m' →
    m'.infoHash = sha1 v.print
  same_iff :
    (∃ m', Metainfo.parse (wrapInfo x) = .ok m' ∧ m'.info = m.info ∧ m'.infoBytes = x) ↔
      (∃ v, readValue x = .ok (v, []) ∧ v.print = x) ∧ m.info.ReadsOn (left ++ [101])
  parse_eq : ¬ FindsList strictInfo x → ∀ v, readValue x = .ok (v, []) →
    Metainfo.parse (wrapInfo x) = .ok { infoBytes := v.print, info := m.info }
  named_front : ¬ FindsList strictInfo x → ∀ m', Metainfo.parse (wrapInfo x) = .ok m' →
    ∃ v, readValue x = .ok (v, left) ∧ m'.infoHash = sha1 v.print

/-- Whatever was received as an `info` dictionary is named by its bytes, and comes back from the
file that it is saved in as told. -/
theorem Metainfo.parse_wrapInfo (h : Metainfo.ofInfo x = .ok m) :
    m.infoHash = sha1 x ∧ ∃ left, m.ComesBack x left := by
  obtain ⟨hBytes, hWhole, left, hRead⟩ := ofInfo_eq_ok h
  have hStrict (hNo : ¬ FindsList strictInfo x) :
      ∃ front, x = front ++ left ∧ Skips front := by
    obtain ⟨front, hFront, hSkips, _⟩ :=
      readsValue_strictInfo _ _ _ _ (stricter_info.eq_ok hNo hRead)
    exact ⟨front, hFront, hSkips⟩
  refine ⟨congrArg sha1 hBytes, left, hRead, fun m' hParse => (parse_saved hRead hParse).1,
    fun v hv => ⟨?_, fun hOn => ?_⟩, fun v hv m' hParse => ?_, ⟨?_, ?_⟩, fun hNo v hv => ?_,
    fun hNo m' hParse => ?_⟩
  · rintro ⟨m', hParse⟩
    exact (parse_saved hRead hParse).2.2
  · obtain ⟨m', hParse, -⟩ := exists_parse_saved hRead hWhole
      (canonicalInfo_of_spelled (spelled_of_readValue hv)) hOn
    exact ⟨m', hParse⟩
  · have hCanonical := (parse_saved hRead hParse).2.1
    rw [canonicalInfo_of_spelled (spelled_of_readValue hv)] at hCanonical
    exact congrArg sha1 (Except.ok.inj hCanonical).symm
  · rintro ⟨m', hParse, _, hSame⟩
    obtain ⟨-, hCanonical, hOn⟩ := parse_saved hRead hParse
    rw [hSame] at hCanonical
    exact ⟨spelled_of_canonicalInfo hCanonical, hOn⟩
  · rintro ⟨⟨v, hv, hPrint⟩, hOn⟩
    have hCanonical := canonicalInfo_of_spelled (spelled_of_readValue hv)
    rw [hPrint] at hCanonical
    exact exists_parse_saved hRead hWhole hCanonical hOn
  · obtain ⟨front, hFront, hSkips⟩ := hStrict hNo
    have hSpelled := spelled_of_readValue hv
    obtain ⟨-, rfl⟩ := hSpelled.skips.unique hSkips ((List.append_nil x).trans hFront)
    exact parse_of_spelled hRead hWhole hSpelled
  · obtain ⟨front, hFront, hSkips⟩ := hStrict hNo
    obtain ⟨_, draft, _, hCanonical, hRecord, _⟩ := parse_eq_ok.mp hParse
    rw [readRecord_saved hRead] at hRecord
    obtain ⟨entries, _, w, hValues, hLookup, hPrint⟩ := canonicalInfo_eq_ok.mp hCanonical
    obtain ⟨v, after, hValue, hEntries⟩ := readValue_wrapInfo hValues
    obtain ⟨front', hFront', hSpelled⟩ := valueAt_eq_ok hValue
    rw [hFront, List.append_assoc] at hFront'
    obtain ⟨rfl, rfl⟩ := hSkips.unique hSpelled.skips hFront'
    rw [lookup_of_readFields rfl hRecord hEntries] at hLookup
    have hSame : v = w := by simpa [Value.lookup] using hLookup
    subst hSame
    refine ⟨v, ?_, congrArg sha1 hPrint.symm⟩
    rw [hFront]
    exact readValue_of_spelled hSpelled left

/-- Two dictionaries with the same fields, the first with its keys in the order of their bytes. -/
def sortedInfo : Bytes := Bytes.ofText "d4:name1:a12:piece lengthi2ee"

def unsortedInfo : Bytes := Bytes.ofText "d12:piece lengthi2e4:name1:ae"

/-- The values of such a dictionary as a list, with one value more. -/
def listedInfo : Bytes := Bytes.ofText "li2e0:i0ele1:ai0ei7ee"

theorem readValue_sortedInfo : readValue sortedInfo =
    .ok (.dict [(Bytes.ofText "name", textValue "a"),
      (Bytes.ofText "piece length", .integer 2)], []) := by
  rfl

theorem readValue_unsortedInfo : readValue unsortedInfo =
    .ok (.dict [(Bytes.ofText "name", textValue "a"),
      (Bytes.ofText "piece length", .integer 2)], []) := by
  rfl

theorem print_sortedInfo : (Value.dict [(Bytes.ofText "name", textValue "a"),
    (Bytes.ofText "piece length", .integer 2)]).print = sortedInfo := by
  decide +kernel

theorem readValue_listedInfo : readValue listedInfo =
    .ok (.list [.integer 2, .bytes [], .integer 0, .list [], textValue "a", .integer 0,
      .integer 7], []) := by
  rfl

/-- The first is named by its bytes when it is read back, and the second by those of the first. The
third is received, but its file is not read. -/
theorem parse_wrapInfo_threeForms :
    Metainfo.parse (wrapInfo sortedInfo) =
      .ok { infoBytes := sortedInfo, info := { pieceLength := 2, name := "a" } } ∧
    Metainfo.parse (wrapInfo unsortedInfo) =
      .ok { infoBytes := sortedInfo, info := { pieceLength := 2, name := "a" } } ∧
    (∃ m, Metainfo.ofInfo listedInfo = .ok m) ∧
      ∀ m', Metainfo.parse (wrapInfo listedInfo) ≠ .ok m' := by
  have hSorted : Metainfo.ofInfo sortedInfo =
      .ok { infoBytes := sortedInfo, info := { pieceLength := 2, name := "a" } } := by
    decide +kernel
  have hUnsorted : Metainfo.ofInfo unsortedInfo =
      .ok { infoBytes := unsortedInfo, info := { pieceLength := 2, name := "a" } } := by
    decide +kernel
  have hListed : Metainfo.ofInfo listedInfo = .ok
      { infoBytes := listedInfo
        info := { pieceLength := 2, isPrivate := some 0, name := "a" } } := by
    decide +kernel
  have hNo : ¬ FindsList strictInfo sortedInfo ∧ ¬ FindsList strictInfo unsortedInfo := by
    constructor
    · exact not_findsList_of_ok (r := ({ pieceLength := 2, name := "a" }, [])) (by decide +kernel)
    · exact not_findsList_of_ok (r := ({ pieceLength := 2, name := "a" }, [])) (by decide +kernel)
  obtain ⟨-, _, hFirst⟩ := Metainfo.parse_wrapInfo hSorted
  obtain ⟨-, _, hSecond⟩ := Metainfo.parse_wrapInfo hUnsorted
  obtain ⟨-, left, hThird⟩ := Metainfo.parse_wrapInfo hListed
  have hFirst' := hFirst.parse_eq hNo.1 _ readValue_sortedInfo
  have hSecond' := hSecond.parse_eq hNo.2 _ readValue_unsortedInfo
  rw [print_sortedInfo] at hFirst' hSecond'
  refine ⟨hFirst', hSecond', ⟨_, hListed⟩, fun m' hParse => ?_⟩
  -- Behind the sixth value there is a number, where the file should go on with a key.
  have hLeft : readInfo (fuelFor listedInfo) listedInfo =
      .ok ({ pieceLength := 2, isPrivate := some 0, name := "a" }, Bytes.ofText "i7ee") := by
    decide +kernel
  cases hThird.read.symm.trans hLeft
  obtain ⟨token, after, hToken, hKey⟩ :=
    ((hThird.accepted _ readValue_listedInfo).mp ⟨m', hParse⟩).token
  have hNumber : Token.read (Bytes.ofText "i7ee" ++ [101]) = .ok (.integer 7, [101, 101]) := by
    decide +kernel
  rw [hNumber] at hToken
  cases hToken
  rcases hKey with hStop | ⟨s, hBytes⟩
  · cases hStop
  · cases hBytes

end TorrentEngine
