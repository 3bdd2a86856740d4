import Mathlib.Data.List.Forall2
import TorrentEngine.Proofs.Fields

/-!
Torrents that give dictionaries. A record may be given as a list of its values, and then what was
read of it need not be one value. The strict readers are those that refuse such lists; otherwise
they agree with the readers that take them, and what they read is one value in any of its spellings.
-/

namespace TorrentEngine

namespace Bencode

variable {α β δ : Type}

/-! ### Refusals -/

/-- `x` is the result `y`, unless it is the failure to find a dictionary where a list stands. -/
def SameOrRefused (x y : Except Error α) : Prop :=
  x = y ∨ ∃ name, x = .error (.wrongType .sequence (.record name))

theorem SameOrRefused.refl (x : Except Error α) : SameOrRefused x x := .inl rfl

theorem SameOrRefused.bind {x y : Except Error α} {f g : α → Except Error β}
    (h : SameOrRefused x y) (hNext : ∀ a, SameOrRefused (f a) (g a)) :
    SameOrRefused (x >>= f) (y >>= g) := by
  rcases h with rfl | ⟨name, rfl⟩
  · cases x with
    | error e => exact .inl rfl
    | ok a => exact hNext a
  · exact .inr ⟨name, rfl⟩

/-- `strict` reads as `read` does, or finds a list where it wants a dictionary. -/
def Stricter (strict read : Nat → Bytes → Except Error (α × Bytes)) : Prop :=
  ∀ fuel b, SameOrRefused (strict fuel b) (read fuel b)

/-- Where `strict` wants a dictionary there is a list in `b`. -/
def FindsList (strict : Nat → Bytes → Except Error (α × Bytes)) (b : Bytes) : Prop :=
  ∃ name, strict (fuelFor b) b = .error (.wrongType .sequence (.record name))

variable {strict read : Nat → Bytes → Except Error (α × Bytes)} {b front rest : Bytes} {x : α}

theorem not_findsList_of_ok {r : α × Bytes} (h : strict (fuelFor b) b = .ok r) :
    ¬ FindsList strict b := by
  rintro ⟨name, hError⟩
  rw [h] at hError
  cases hError

theorem Stricter.eq_ok (h : Stricter strict read) (hNo : ¬ FindsList strict b) {r : α × Bytes}
    (hRead : read (fuelFor b) b = .ok r) : strict (fuelFor b) b = .ok r := by
  rcases h (fuelFor b) b with hSame | hList
  · exact hSame.trans hRead
  · exact absurd hList hNo

theorem Stricter.takes (h : Stricter strict read) (hTakes : Takes strict x front) :
    Takes read x front := by
  intro fuel t hFuel
  have hStrict := hTakes fuel t hFuel
  rcases h fuel (front ++ t) with hSame | ⟨name, hList⟩
  · rw [← hSame, hStrict]
  · rw [hList] at hStrict
    cases hStrict

theorem Stricter.map (h : Stricter strict read) (f : α → Except Error β) :
    Stricter (fun fuel b => do
      let (x, rest) ← strict fuel b
      return (← f x, rest)) fun fuel b => do
      let (x, rest) ← read fuel b
      return (← f x, rest) :=
  fun fuel b => (h fuel b).bind fun _ => .refl _

theorem Stricter.items (h : Stricter strict read) :
    Stricter (readItemsWith strict) (readItemsWith read) := by
  intro fuel
  induction fuel with
  | zero => exact fun b => .refl _
  | succ fuel ih =>
    intro b
    refine (SameOrRefused.refl (Token.read b)).bind fun e => ?_
    obtain ⟨token, after⟩ := e
    cases token with
    | stop => exact .refl _
    | _ => exact (h fuel b).bind fun e => (ih e.2).bind fun _ => .refl _

theorem Stricter.list (h : Stricter strict read) :
    Stricter (readListWith strict) (readListWith read) := by
  intro fuel b
  refine (SameOrRefused.refl (Token.read b)).bind fun e => ?_
  obtain ⟨token, after⟩ := e
  cases token with
  | list => exact h.items fuel after
  | _ => exact .refl _

/-! ### Records -/

/-- A field that is read more strictly into the same place. -/
structure KnownField.Stricter (f g : KnownField δ) : Prop where
  key_eq : f.key = g.key
  isGiven_eq : f.isGiven = g.isGiven
  reads : ∀ fuel d b, SameOrRefused (f.read fuel d b) (g.read fuel d b)

theorem KnownField.Stricter.refl (f : KnownField δ) : f.Stricter f :=
  ⟨rfl, rfl, fun _ _ _ => .refl _⟩

variable {fields fields' : List (KnownField δ)}

theorem find_stricter (h : List.Forall₂ KnownField.Stricter fields fields') (key : String) :
    (fields.find? (fun f => f.key == key) = none ∧ fields'.find? (fun f => f.key == key) = none) ∨
      ∃ f g, fields.find? (fun f => f.key == key) = some f ∧
        fields'.find? (fun f => f.key == key) = some g ∧ f.Stricter g := by
  induction h with
  | nil => exact .inl ⟨rfl, rfl⟩
  | @cons f g fields fields' hHead _ ih =>
    by_cases hKey : f.key = key
    · refine .inr ⟨f, g, ?_, ?_, hHead⟩
      · exact List.find?_cons_of_pos (by simpa using hKey)
      · exact List.find?_cons_of_pos (by simpa using hHead.key_eq ▸ hKey)
    · rw [List.find?_cons_of_neg (by simpa using hKey),
        List.find?_cons_of_neg (by simpa using hHead.key_eq ▸ hKey)]
      exact ih

theorem readField_stricter (h : List.Forall₂ KnownField.Stricter fields fields') (key : String)
    (d : δ) (fuel : Nat) (b : Bytes) :
    SameOrRefused (readField fields key d fuel b) (readField fields' key d fuel b) := by
  simp only [readField]
  rcases find_stricter h key with ⟨hNone, hNone'⟩ | ⟨f, g, hSome, hSome', hField⟩
  · simp only [hNone, hNone']
    exact .refl _
  · simp only [hSome, hSome', hField.isGiven_eq]
    split
    · exact .refl _
    · exact hField.reads fuel d b

theorem readFields_stricter (h : List.Forall₂ KnownField.Stricter fields fields') (fuel : Nat)
    (d : δ) (b : Bytes) :
    SameOrRefused (readFields fields fuel d b) (readFields fields' fuel d b) := by
  induction fuel generalizing d b with
  | zero => exact .refl _
  | succ fuel ih =>
    cases hRead : Token.read b with
    | error e =>
      simp only [readFields, hRead]
      exact .refl _
    | ok e =>
      obtain ⟨token, after⟩ := e
      by_cases hStop : token = .stop
      · subst hStop
        simp only [readFields, hRead]
        exact .refl _
      · rw [readFields_of_token hRead hStop, readFields_of_token hRead hStop]
        refine (SameOrRefused.refl token.text).bind fun key => ?_
        exact (readField_stricter h key d fuel after).bind fun e => ih e.1 e.2

theorem Stricter.record (h : List.Forall₂ KnownField.Stricter fields fields') (name : String)
    (blank : δ) : Stricter (readDictionary name fields blank) (readRecord name fields' blank) := by
  intro fuel b
  refine (SameOrRefused.refl (Token.read b)).bind fun e => ?_
  obtain ⟨token, after⟩ := e
  cases token with
  | dict => exact readFields_stricter h fuel blank after
  | list => exact .inr ⟨name, rfl⟩
  | _ => exact .refl _

end Bencode

open Bencode

/-! ### Torrents -/

def strictInfoFile (fuel : Nat) (b : Bytes) : Except Bencode.Error (InfoFile × Bytes) := do
  let (draft, rest) ← readDictionary "InfoFile" InfoFile.fields {} fuel b
  return (← draft.finish, rest)

def strictInfo (fuel : Nat) (b : Bytes) : Except Bencode.Error (Info × Bytes) := do
  let (draft, rest) ←
    readDictionary "Info" ((Info.slots strictInfoFile).map Slot.field) {} fuel b
  return (← draft.finish, rest)

/-- Reads a torrent file as `Metainfo.parse` does, but refuses a list where the torrent, its `info`
dictionary or one of its files is expected. -/
def strictTorrent : Nat → Bytes → Except Bencode.Error (Metainfo.Draft × Bytes) :=
  readDictionary "Torrent" ((Metainfo.slots strictInfo).map Slot.field) {}

theorem stricter_infoFile : Stricter strictInfoFile readInfoFile := by
  have hFields : List.Forall₂ KnownField.Stricter InfoFile.fields InfoFile.fields :=
    List.forall₂_same.mpr fun f _ => .refl f
  exact (Stricter.record hFields "InfoFile" {}).map InfoFile.Draft.finish

theorem stricter_info : Stricter strictInfo readInfo := by
  have hFields : List.Forall₂ KnownField.Stricter
      ((Info.slots strictInfoFile).map Slot.field) Info.fields :=
    .cons (.refl _) <| .cons (.refl _) <| .cons (.refl _) <|
      .cons ⟨rfl, rfl, fun fuel _ b => (stricter_infoFile.list fuel b).bind fun _ => .refl _⟩ <|
      .cons (.refl _) <| .cons (.refl _) .nil
  exact (Stricter.record hFields "Info" {}).map Info.Draft.finish

theorem stricter_torrent : Stricter strictTorrent (readRecord "Torrent" Metainfo.fields {}) := by
  have hFields : List.Forall₂ KnownField.Stricter
      ((Metainfo.slots strictInfo).map Slot.field) Metainfo.fields :=
    .cons ⟨rfl, rfl, fun fuel _ b => (stricter_info fuel b).bind fun _ => .refl _⟩ <|
      .cons (.refl _) <| .cons (.refl _) .nil
  exact Stricter.record hFields "Torrent" {}

theorem readsValue_strictInfoFile : ReadsValue strictInfoFile := by
  have hFields := reads_slots fun s hs => (InfoFile.plain_slots s hs).readsValue
  exact (ReadsValue.dictionary hFields "InfoFile" {}).map InfoFile.Draft.finish

theorem readsWritten_strictInfoFile : ReadsWritten strictInfoFile := by
  have hFields := reads_slots fun s hs => (InfoFile.plain_slots s hs).readsValue
  exact (ReadsWritten.dictionary InfoFile.slots_apart InfoFile.plain_slots "InfoFile" {}).map
    (ReadsValue.dictionary hFields "InfoFile" {}) InfoFile.Draft.finish

theorem Info.plain_strict : ∀ s ∈ Info.slots strictInfoFile, s.Plain :=
  Info.plain_slots readsValue_strictInfoFile readsWritten_strictInfoFile

theorem readsValue_strictInfo : ReadsValue strictInfo := by
  have hFields := reads_slots fun s hs => (Info.plain_strict s hs).readsValue
  exact (ReadsValue.dictionary hFields "Info" {}).map Info.Draft.finish

theorem readsWritten_strictInfo : ReadsWritten strictInfo := by
  have hFields := reads_slots fun s hs => (Info.plain_strict s hs).readsValue
  exact (ReadsWritten.dictionary Info.slots_apart Info.plain_strict "Info" {}).map
    (ReadsValue.dictionary hFields "Info" {}) Info.Draft.finish

theorem Metainfo.plain_strict : ∀ s ∈ Metainfo.slots strictInfo, s.Plain :=
  Metainfo.plain_slots readsValue_strictInfo readsWritten_strictInfo

theorem readsValue_strictTorrent : ReadsValue strictTorrent :=
  ReadsValue.dictionary (reads_slots fun s hs => (Metainfo.plain_strict s hs).readsValue)
    "Torrent" {}

end TorrentEngine
