import Mathlib.Data.List.Nodup
import TorrentEngine.Layout

/-!
What allocation does to a file system. A tree grows when nothing that stood in it is changed; the
files that are new after an allocation are files of the layout, made of zeros in their declared
length.
-/

namespace TorrentEngine

namespace FileTree

variable {t t' t'' : FileTree}

/-- Everything that stands in `t` stands in `t'` too. -/
structure Grows (t t' : FileTree) : Prop where
  home_eq : t'.home = t.home
  kept : ∀ place entry, t.lookup place = some entry → t'.lookup place = some entry

theorem Grows.refl (t : FileTree) : Grows t t := ⟨rfl, fun _ _ h => h⟩

theorem Grows.trans (h : Grows t t') (h' : Grows t' t'') : Grows t t'' :=
  ⟨h'.home_eq.trans h.home_eq, fun place entry hFound =>
    h'.kept place entry (h.kept place entry hFound)⟩

theorem lookup_add {place : Place} (h : t.lookup place = none) (entry : Entry) (q : Place) :
    (t.add place entry).lookup q = if q = place then some entry else t.lookup q := by
  simp only [lookup] at h ⊢
  have hHome : (t.add place entry).home = t.home := rfl
  rw [hHome]
  by_cases hq : q = place
  · subst hq
    rw [if_pos rfl]
    split at h
    · cases h
    · next hBelow =>
      have hNone := Option.map_eq_none_iff.mp h
      rw [if_neg hBelow, add, List.find?_append, hNone]
      simp
  · rw [if_neg hq]
    have hOther : [(place, entry)].find? (fun e => decide (e.1 = q)) = none := by
      simp [Ne.symm hq]
    rw [add, List.find?_append, hOther, Option.or_none]

theorem grows_add {place : Place} (h : t.lookup place = none) (entry : Entry) :
    Grows t (t.add place entry) := by
  refine ⟨rfl, fun q found hFound => ?_⟩
  rw [lookup_add h, if_neg]
  · exact hFound
  · rintro rfl
    rw [h] at hFound
    cases hFound

/-- Paths lead where they led. -/
theorem Grows.walk_eq (h : Grows t t') {place q : Place} {names : List String}
    (hWalk : t.walk place names = .ok q) : t'.walk place names = .ok q := by
  induction names generalizing place with
  | nil => exact hWalk
  | cons name rest ih =>
    simp only [walk] at hWalk ⊢
    split at hWalk
    · cases hWalk
    · cases hWalk
    · next hFolder =>
      rw [h.kept place .folder hFolder]
      dsimp only
      split at hWalk
      · next hDot =>
        rw [if_pos hDot]
        exact ih hWalk
      · next hDot =>
        rw [if_neg hDot]
        split at hWalk
        · next hUp =>
          rw [if_pos hUp]
          exact ih hWalk
        · next hUp =>
          rw [if_neg hUp]
          split at hWalk
          · cases hWalk
          · next hShort =>
            rw [if_neg hShort]
            exact ih hWalk

/-- A path names a place and what stands there. -/
theorem locate_eq_ok {p : Path} {place : Place} {found : Option Entry} :
    t.locate p = .ok (place, found) ↔
      p.text.isEmpty = false ∧ '\x00' ∉ p.text.toList ∧
      ¬ p.text.utf8ByteSize > maxPathLength ∧
      t.walk (if p.isAbsolute then [] else t.home) p.names = .ok place ∧
      t.lookup place = found ∧
      (p.namesFolder = true → ∀ content, found ≠ some (.file content)) := by
  simp only [locate, bind, Except.bind, pure, Except.pure, throw, throwThe, MonadExceptOf.throw]
  by_cases hEmpty : p.text.isEmpty = true
  · simp [hEmpty]
  by_cases hNul : '\x00' ∈ p.text.toList
  · simp [hEmpty, hNul]
  by_cases hLong : p.text.utf8ByteSize > maxPathLength
  · simp [hEmpty, hNul, hLong]
  simp only [hEmpty, hNul, hLong]
  cases hWalk : t.walk (if p.isAbsolute then [] else t.home) p.names with
  | error e => simp
  | ok q =>
    by_cases hq : q = place
    · subst hq
      cases hFound : t.lookup q with
      | none =>
        simp only [hFound]
        constructor
        · rintro ⟨⟩
          simp
        · rintro ⟨_, _, _, _, rfl, _⟩
          rfl
      | some entry =>
        cases entry with
        | folder =>
          simp only [hFound]
          constructor
          · rintro ⟨⟩
            simp
          · rintro ⟨_, _, _, _, rfl, _⟩
            rfl
        | file content =>
          by_cases hFolder : p.namesFolder = true
          · simp only [hFound, hFolder, if_true]
            constructor
            · rintro ⟨⟩
            · rintro ⟨_, _, _, _, rfl, hNot⟩
              exact absurd rfl (hNot trivial content)
          · simp [hFound, hFolder, eq_comm]
    · cases hFound : t.lookup q with
      | none => simp [hFound, hq]
      | some entry =>
        cases entry with
        | folder => simp [hFound, hq]
        | file content => by_cases hFolder : p.namesFolder = true <;> simp [hFound, hFolder, hq]

/-- What a path names stays what it names. -/
theorem Grows.locate_eq (h : Grows t t') {p : Path} {place : Place} {entry : Entry}
    (hLocate : t.locate p = .ok (place, some entry)) : t'.locate p = .ok (place, some entry) := by
  obtain ⟨hText, hNul, hShort, hWalk, hFound, hFolder⟩ := locate_eq_ok.mp hLocate
  refine locate_eq_ok.mpr ⟨hText, hNul, hShort, ?_, h.kept place entry hFound, hFolder⟩
  rw [h.home_eq]
  exact h.walk_eq hWalk

theorem exists?_eq_true {p : Path} (h : t.exists? p = .ok true) :
    ∃ place entry, t.locate p = .ok (place, some entry) := by
  simp only [exists?] at h
  split at h
  · next place found hLocate =>
    obtain ⟨entry, rfl⟩ := Option.isSome_iff_exists.mp (Except.ok.inj h)
    exact ⟨place, entry, hLocate⟩
  · cases h
  · cases h

/-- `t'` is `t` grown by folders, and by files as `files` allows. -/
structure Extends (files : Place → Bytes → Prop) (t t' : FileTree) : Prop where
  grows : Grows t t'
  new : ∀ place content, t'.lookup place = some (.file content) →
    t.lookup place = some (.file content) ∨ files place content

variable {files files' : Place → Bytes → Prop}

theorem Extends.refl (t : FileTree) : Extends files t t := ⟨.refl t, fun _ _ h => .inl h⟩

theorem Extends.trans (h : Extends files t t') (h' : Extends files t' t'') :
    Extends files t t'' := by
  refine ⟨h.grows.trans h'.grows, fun place content hFound => ?_⟩
  rcases h'.new place content hFound with hOld | hNew
  · exact h.new place content hOld
  · exact .inr hNew

theorem Extends.mono (h : Extends files t t')
    (hFiles : ∀ place content, files place content → files' place content) :
    Extends files' t t' :=
  ⟨h.grows, fun place content hFound => (h.new place content hFound).imp_right (hFiles _ _)⟩

theorem extends_add {place : Place} (h : t.lookup place = none) {entry : Entry}
    (hEntry : ∀ content, entry = .file content → files place content) :
    Extends files t (t.add place entry) := by
  refine ⟨grows_add h entry, fun q content hFound => ?_⟩
  rw [lookup_add h] at hFound
  split at hFound
  · next hq =>
    rw [hq]
    exact .inr (hEntry content (Option.some.inj hFound))
  · exact .inl hFound

/-- The place that a path leads to. -/
def placeOf? (t : FileTree) (p : Path) : Option Place := (t.locate p).toOption.map (·.1)

theorem readFile_of_locate {p : Path} {place : Place} {content : Bytes}
    (h : t.locate p = .ok (place, some (.file content))) : t.readFile p = .ok content := by
  simp only [readFile, h, bind, Except.bind, pure, Except.pure]

/-! ### Making folders -/

theorem extends_makeFolder {p : Path} (h : t.makeFolder p = .ok t') : Extends files t t' := by
  simp only [makeFolder, bind, Except.bind, pure, Except.pure, throw, throwThe,
    MonadExceptOf.throw] at h
  split at h
  · cases h
  · next found hLocate =>
    split at h
    · cases h
    · next place =>
      obtain rfl := Except.ok.inj h
      exact extends_add (locate_eq_ok.mp hLocate).2.2.2.2.1 nofun

theorem extends_makeLineage (lineage : List Path) (t : FileTree) :
    Extends files t (t.makeLineage lineage).1 := by
  induction lineage with
  | nil => exact .refl t
  | cons p above ih =>
    simp only [makeLineage]
    split
    · exact .refl t
    · split
      · next made hMade => exact extends_makeFolder hMade
      · split
        · next t₁ e hAbove =>
          rw [hAbove] at ih
          exact ih
        · next t₁ hAbove =>
          rw [hAbove] at ih
          split
          · next made hMade => exact ih.trans (extends_makeFolder hMade)
          · split <;> exact ih
      · split <;> exact .refl t

theorem extends_makeFolders (t : FileTree) (p : Path) : Extends files t (t.makeFolders p).1 := by
  simp only [makeFolders]
  split
  · exact .refl t
  · exact extends_makeLineage _ t

end FileTree

namespace Layout

open FileTree (Grows Extends)

variable {t t' : FileTree} {f : LaidFile} {files : List LaidFile}

theorem extends_allocateParent (allowed : Place → Bytes → Prop) (t : FileTree) (p : Path) :
    Extends allowed t (allocateParent t p).1 := by
  simp only [allocateParent]
  split
  · exact .refl t
  · split
    · exact .refl t
    · exact .refl t
    · exact FileTree.extends_makeFolders t _

/-- A file as allocation makes it: where its path leads, of its declared length. -/
def Blank (t : FileTree) (f : LaidFile) (place : Place) (content : Bytes) : Prop :=
  t.locate f.path = .ok (place, some (.file content)) ∧ content = List.replicate f.length 0

theorem createFile_extends {place : Place} (hLocate : t.locate f.path = .ok (place, none))
    (h : t.createFile f.path f.length = (t', .ok ())) :
    Extends (Blank t' f) t t' ∧ ∃ q entry, t'.locate f.path = .ok (q, some entry) := by
  simp only [FileTree.createFile, hLocate] at h
  split at h
  · cases h
  · next hFile =>
    split at h
    · obtain ⟨rfl, -⟩ := Prod.mk.inj h
      obtain ⟨hText, hNul, hShort, hWalk, hFound, _⟩ := FileTree.locate_eq_ok.mp hLocate
      have hGrows := FileTree.grows_add hFound (.file (List.replicate f.length 0))
      have hPlaced : (t.add place (.file (List.replicate f.length 0))).locate f.path =
          .ok (place, some (.file (List.replicate f.length 0))) := by
        refine FileTree.locate_eq_ok.mpr ⟨hText, hNul, hShort, hGrows.walk_eq hWalk, ?_, ?_⟩
        · rw [FileTree.lookup_add hFound, if_pos rfl]
        · intro hFolder
          exact absurd hFolder hFile
      refine ⟨FileTree.extends_add hFound fun content hEq => ?_, place, _, hPlaced⟩
      cases hEq
      exact ⟨hPlaced, rfl⟩
    · cases h

/-- A file that was allocated exists, and nothing but it and folders above it is new. -/
theorem allocateFile_extends (h : allocateFile t f = (t', .ok ())) :
    Extends (Blank t' f) t t' ∧ ∃ place entry, t'.locate f.path = .ok (place, some entry) := by
  simp only [allocateFile] at h
  have hParent := extends_allocateParent (Blank t' f) t f.path
  split at h
  · cases h
  · next t₁ hAbove =>
    rw [hAbove] at hParent
    split at h
    · cases h
    · next hExists =>
      obtain ⟨rfl, -⟩ := Prod.mk.inj h
      exact ⟨hParent, FileTree.exists?_eq_true hExists⟩
    · next hMissing =>
      cases hLocate : t₁.locate f.path with
      | error e =>
        simp only [FileTree.createFile, hLocate] at h
        cases h
      | ok found =>
        obtain ⟨place, entry⟩ := found
        have hNone : entry = none := by
          simpa [FileTree.exists?, hLocate] using hMissing
        rw [hNone] at hLocate
        obtain ⟨hCreated, hLocated⟩ := createFile_extends hLocate h
        exact ⟨hParent.trans hCreated, hLocated⟩

/-- After an allocation every file exists, and a file that is new is one of the layout's, blank. -/
theorem allocateFiles_extends (h : allocateFiles t files = (t', .ok ())) :
    Extends (fun place content => ∃ f ∈ files, Blank t' f place content) t t' ∧
      ∀ f ∈ files, ∃ place entry, t'.locate f.path = .ok (place, some entry) := by
  induction files generalizing t with
  | nil =>
    obtain ⟨rfl, -⟩ := Prod.mk.inj h
    exact ⟨.refl t, nofun⟩
  | cons f rest ih =>
    simp only [allocateFiles] at h
    split at h
    · next t₁ hFirst =>
      obtain ⟨hFirst, place, entry, hLocated⟩ := allocateFile_extends hFirst
      obtain ⟨hRest, hAll⟩ := ih h
      refine ⟨?_, ?_⟩
      · refine (hFirst.mono fun q content hBlank => ?_).trans (hRest.mono fun q content hNew => ?_)
        · exact ⟨f, List.mem_cons_self, hRest.grows.locate_eq hBlank.1, hBlank.2⟩
        · obtain ⟨g, hg, hBlank⟩ := hNew
          exact ⟨g, List.mem_cons_of_mem f hg, hBlank⟩
      · intro g hg
        rcases List.mem_cons.mp hg with rfl | hg
        · exact ⟨place, entry, hRest.grows.locate_eq hLocated⟩
        · exact hAll g hg
    · cases h

/-- The layout's paths lead to files, each to one of its own. -/
structure OwnPlaces (l : Layout) (t : FileTree) : Prop where
  noFolder : ∀ f ∈ l.files, t.isFolder f.path = false
  distinct : (l.files.map fun f => t.placeOf? f.path).Nodup

/-- After an allocation every file of the layout is there: as it was before, or blank where nothing
was. -/
theorem file_of_allocate {l : Layout} (h : l.allocate t = (t', .ok ())) (hOwn : l.OwnPlaces t')
    (hf : f ∈ l.files) : ∃ place content, t'.locate f.path = .ok (place, some (.file content)) ∧
      (t.lookup place = some (.file content) ∨
        t.lookup place = none ∧ content = List.replicate f.length 0) := by
  obtain ⟨⟨hGrows, hNew⟩, hAll⟩ := allocateFiles_extends h
  obtain ⟨place, entry, hLocate⟩ := hAll f hf
  have hNoFolder := hOwn.noFolder f hf
  cases entry with
  | folder => simp [FileTree.isFolder, hLocate] at hNoFolder
  | file content =>
    have hFound := (FileTree.locate_eq_ok.mp hLocate).2.2.2.2.1
    refine ⟨place, content, hLocate, ?_⟩
    cases hBefore : t.lookup place with
    | some before =>
      have hKept := hGrows.kept place before hBefore
      exact .inl (hKept.symm.trans hFound)
    | none =>
      rcases hNew place content hFound with hOld | ⟨g, hg, hBlank, hZeros⟩
      · rw [hBefore] at hOld
        cases hOld
      · have hSame : t'.placeOf? g.path = t'.placeOf? f.path := by
          rw [FileTree.placeOf?, FileTree.placeOf?, hBlank, hLocate]
        rw [List.inj_on_of_nodup_map hOwn.distinct hg hf hSame] at hZeros
        exact .inr ⟨rfl, hZeros⟩

end Layout

end TorrentEngine
