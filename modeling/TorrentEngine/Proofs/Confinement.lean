import TorrentEngine.Proofs.Changes

/-!
Where the files of a torrent come to lie. The names that a torrent gives are pushed onto the
download folder as they are, so that its files lie below that folder where the names, taken apart at
their slashes, are ordinary ones, and nowhere else.
-/

namespace TorrentEngine

namespace Path

/-- A name of one thing in a folder. -/
def Ordinary (name : String) : Prop :=
  name ≠ "" ∧ name ≠ "." ∧ name ≠ ".." ∧ '/' ∉ name.toList

/-- A name that, taken as a whole, neither starts at the root nor stands for a folder passed. -/
def Plain (name : String) : Prop :=
  startsAtRoot name = false ∧ name ≠ "" ∧ name ≠ "." ∧ name ≠ ".."

/-- The path is that of a folder with at least one ordinary name pushed onto it. -/
def Below (p folder : Path) : Prop :=
  ∃ names, names ≠ [] ∧ (∀ name ∈ names, Ordinary name) ∧ p = names.foldl push folder

/-- The path that names make when pushed onto the empty one. -/
def joined (names : List String) : Path := names.foldl push ⟨""⟩

/-! ### Pushing relative names -/

/-- Text with a slash at its end, unless it is empty or has one already. -/
def closed (text : List Char) : List Char :=
  if text.getLast?.all (· = '/') then text else text ++ ['/']

theorem closed_append (text more : List Char) :
    closed (closed text ++ more) = closed text ++ closed more := by
  cases hMore : more.getLast? with
  | none =>
    obtain rfl := List.getLast?_eq_none_iff.mp hMore
    by_cases hText : text.getLast?.all (· = '/') = true <;> simp [closed, hText]
  | some last => by_cases hLast : last = '/' <;> simp [closed, List.getLast?_append, hMore, hLast]

theorem startsAtRoot_iff {name : String} : startsAtRoot name = true ↔ ['/'] <+: name.toList := by
  rw [startsAtRoot, String.startsWith_string_iff]
  rfl

theorem Ordinary.relative {name : String} (h : Ordinary name) : startsAtRoot name = false := by
  rw [Bool.eq_false_iff, Ne, startsAtRoot_iff]
  exact fun hRoot => h.2.2.2 (hRoot.subset List.mem_cons_self)

theorem endsWith_iff {text : String} :
    text.endsWith "/" = true ↔ text.toList.getLast? = some '/' := by
  rw [String.endsWith_eq_endsWith_toSlice, String.Slice.endsWith_string_iff, String.copy_toSlice]
  exact List.singleton_suffix_iff_getLast?_eq_some

/-- A relative name is put behind the text of the path. -/
theorem text_push {name : String} (h : startsAtRoot name = false) (p : Path) :
    (p.push name).text.toList = closed p.text.toList ++ name.toList := by
  have hClosed : (p.text.isEmpty || p.text.endsWith "/") = true ↔
      p.text.toList.getLast?.all (· = '/') = true := by
    rw [Bool.or_eq_true, endsWith_iff, String.isEmpty_iff]
    cases hLast : p.text.toList.getLast? with
    | none =>
      have hEmpty : p.text = "" := String.toList_inj.mp (List.getLast?_eq_none_iff.mp hLast)
      simp [hEmpty]
    | some last =>
      have hText : p.text ≠ "" := by
        rintro hEmpty
        rw [hEmpty] at hLast
        cases hLast
      simp [hText]
  rw [push, h, closed]
  by_cases hHere : (p.text.isEmpty || p.text.endsWith "/") = true
  · rw [if_pos (hClosed.mp hHere)]
    simp [hHere]
  · rw [if_neg (hClosed.not.mp hHere)]
    simp [hHere]

theorem text_foldl_push {names : List String}
    (hRelative : ∀ name ∈ names, startsAtRoot name = false) (hNames : names ≠ []) (p : Path) :
    (names.foldl push p).text.toList = closed p.text.toList ++ (joined names).text.toList := by
  have hFrom (rest : List String) (hRest : ∀ name ∈ rest, startsAtRoot name = false) (q r : Path)
      (hText : q.text.toList = closed p.text.toList ++ r.text.toList) :
      (rest.foldl push q).text.toList =
        closed p.text.toList ++ (rest.foldl push r).text.toList := by
    induction rest generalizing q r with
    | nil => exact hText
    | cons name rest ih =>
      have hName := hRest name List.mem_cons_self
      refine ih (fun n hn => hRest n (List.mem_cons_of_mem name hn)) (q.push name) (r.push name) ?_
      rw [text_push hName, text_push hName, hText, closed_append, List.append_assoc]
  cases names with
  | nil => exact absurd rfl hNames
  | cons name rest =>
    have hName := hRelative name List.mem_cons_self
    refine hFrom rest (fun n hn => hRelative n (List.mem_cons_of_mem name hn)) _ _ ?_
    rw [text_push hName, text_push hName]
    rfl

/-! ### Ordinary names -/

theorem closed_of_ordinary {name : String} (h : Ordinary name) :
    closed name.toList = name.toList ++ ['/'] := by
  rw [closed, if_neg]
  cases hLast : name.toList.getLast? with
  | none =>
    rw [List.getLast?_eq_none_iff] at hLast
    exact absurd (String.toList_inj.mp hLast) h.1
  | some last =>
    have hNot : last ≠ '/' := fun hSlash =>
      h.2.2.2 (hSlash ▸ List.mem_of_getLast? hLast)
    simpa using hNot

theorem joined_singleton {name : String} (h : startsAtRoot name = false) :
    (joined [name]).text.toList = name.toList := text_push h ⟨""⟩

/-- Ordinary names are joined by single slashes. -/
theorem text_joined {names : List String} (hOrdinary : ∀ name ∈ names, Ordinary name)
    (hNames : names ≠ []) :
    (joined names).text.toList = ['/'].intercalate (names.map String.toList) := by
  induction names with
  | nil => exact absurd rfl hNames
  | cons name rest ih =>
    have hName := hOrdinary name List.mem_cons_self
    have hRest := fun n hn => hOrdinary n (List.mem_cons_of_mem name hn)
    cases rest with
    | nil => rw [joined_singleton hName.relative, List.map_singleton, List.intercalate_singleton]
    | cons other more =>
      have hText := text_foldl_push (fun n hn => (hRest n hn).relative) (List.cons_ne_nil _ _)
        (push ⟨""⟩ name)
      have hFirst : (push ⟨""⟩ name).text.toList = name.toList := text_push hName.relative ⟨""⟩
      rw [hFirst, closed_of_ordinary hName, ih hRest (List.cons_ne_nil _ _)] at hText
      rw [List.map_cons, List.map_cons, List.intercalate_cons_cons]
      exact hText

theorem parts_joined {names : List String} (hOrdinary : ∀ name ∈ names, Ordinary name)
    (hNames : names ≠ []) : (joined names).parts = names := by
  rw [parts, text_joined hOrdinary hNames, List.splitOn_intercalate]
  · simp
  · intro text hText
    obtain ⟨name, hName, rfl⟩ := List.mem_map.mp hText
    exact (hOrdinary name hName).2.2.2
  · simpa using hNames

theorem parts_ne_nil (p : Path) : p.parts ≠ [] := by
  simp [parts, List.splitOn_ne_nil]

theorem text_parts (p : Path) : ['/'].intercalate (p.parts.map String.toList) = p.text.toList := by
  have hParts : p.parts.map String.toList = p.text.toList.splitOn '/' := by
    rw [parts, List.map_map]
    simp
  rw [hParts, List.intercalate_splitOn]

/-- Relative names lead below a folder where their parts are ordinary. -/
theorem below_iff {names : List String} (hRelative : ∀ name ∈ names, startsAtRoot name = false)
    (hNames : names ≠ []) (folder : Path) :
    (names.foldl push folder).Below folder ↔ ∀ part ∈ (joined names).parts, Ordinary part := by
  constructor
  · rintro ⟨ordinary, hSome, hOrdinary, hSame⟩
    have hText := congrArg (fun p => p.text.toList) hSame
    rw [text_foldl_push hRelative hNames,
      text_foldl_push (fun name hName => (hOrdinary name hName).relative) hSome] at hText
    have hParts : (joined names).parts = ordinary := by
      rw [parts, List.append_cancel_left hText]
      exact parts_joined hOrdinary hSome
    rw [hParts]
    exact hOrdinary
  · intro hOrdinary
    have hSome := (joined names).parts_ne_nil
    refine ⟨(joined names).parts, hSome, hOrdinary, ?_⟩
    have hText : (joined (joined names).parts).text.toList = (joined names).text.toList := by
      rw [text_joined hOrdinary hSome, text_parts]
    have hSame : (names.foldl push folder).text =
        ((joined names).parts.foldl push folder).text := by
      rw [← String.toList_inj, text_foldl_push hRelative hNames,
        text_foldl_push (fun part hPart => (hOrdinary part hPart).relative) hSome, hText]
    exact congrArg Path.mk hSame

end Path

/-- The names that a torrent gives each of its files, from the download folder on. -/
def Metainfo.namings (m : Metainfo) : List (List String) :=
  if m.info.files.isEmpty then [[m.info.name]]
  else m.info.files.map fun f => m.info.name :: f.path

theorem Metainfo.ne_nil_of_mem_namings {m : Metainfo} {names : List String}
    (h : names ∈ m.namings) : names ≠ [] := by
  rw [Metainfo.namings] at h
  split at h
  · rw [List.mem_singleton.mp h]
    exact List.cons_ne_nil _ _
  · obtain ⟨f, -, rfl⟩ := List.mem_map.mp h
    exact List.cons_ne_nil _ _

namespace PhaseId

open TorrentEngine.Path

theorem path_lay (root : Path) (start : Nat) (list : List (List String × Nat)) :
    (Layout.lay root start list).map (·.path) = list.map fun e => e.1.foldl push root := by
  induction list generalizing start with
  | nil => rfl
  | cons e rest ih => simp only [Layout.lay, List.map_cons, ih]

/-- Every file lies where its names lead from the download folder. -/
theorem path_ofMetainfo (c : PhaseConfig) (m : Metainfo) :
    (Layout.ofMetainfo (rootFolder c m) m).files.map (·.path) =
      m.namings.map fun names => names.foldl push c.downloadFolder := by
  simp only [Layout.ofMetainfo, path_lay, rootFolder, Metainfo.fileList, Metainfo.namings]
  split
  · rfl
  · rw [List.map_map, List.map_map]
    rfl

theorem below_ofMetainfo (c : PhaseConfig) (m : Metainfo) :
    (∀ f ∈ (Layout.ofMetainfo (rootFolder c m) m).files, f.path.Below c.downloadFolder) ↔
      ∀ names ∈ m.namings, (names.foldl push c.downloadFolder).Below c.downloadFolder := by
  have hAll := congrArg (fun paths => ∀ p ∈ paths, Below p c.downloadFolder) (path_ofMetainfo c m)
  simp only [List.forall_mem_map] at hAll
  exact iff_of_eq hAll

/-- The files of a torrent whose download begins lie below the download folder, and its names are
plain, exactly if its names are plain and have only ordinary parts between their slashes. -/
theorem files_below_iff {c : PhaseConfig} {d d' : Download} {effects : List Effect}
    (hEnter : enterData c d = .ok (d', effects)) :
    ∃ m fs layout, torrentOf d = .ok m ∧ d'.fileSet = some fs ∧ fs.storage = .disk layout ∧
      effects = [.allocate layout] ∧
      (((∀ f ∈ layout.files, f.path.Below c.downloadFolder) ∧
          ∀ names ∈ m.namings, ∀ name ∈ names, Plain name) ↔
        ∀ names ∈ m.namings, (∀ name ∈ names, Plain name) ∧
          ∀ part ∈ (joined names).parts, Ordinary part) := by
  obtain ⟨m, fs, hm, hfs, rfl, rfl⟩ := enterData_eq_ok hEnter
  obtain ⟨_, _, rfl⟩ := FileSet.create_eq_ok (forTorrent_ok hfs)
  refine ⟨m, _, _, hm, rfl, rfl, rfl, ?_⟩
  rw [below_ofMetainfo]
  constructor
  · rintro ⟨hBelow, hPlain⟩ names hNames
    have hRelative := fun name hName => (hPlain names hNames name hName).1
    exact ⟨hPlain names hNames,
      (below_iff hRelative (Metainfo.ne_nil_of_mem_namings hNames) _).mp (hBelow names hNames)⟩
  · intro hOrdinary
    refine ⟨fun names hNames => ?_, fun names hNames => (hOrdinary names hNames).1⟩
    obtain ⟨hPlain, hParts⟩ := hOrdinary names hNames
    have hRelative := fun name hName => (hPlain name hName).1
    exact (below_iff hRelative (Metainfo.ne_nil_of_mem_namings hNames) _).mpr hParts

/-- The `info` dictionary of a torrent whose only file is named for a place outside. -/
def strayInfo : Bytes := Bytes.ofText "d6:lengthi0e4:name4:../x12:piece lengthi1e6:pieces0:e"

def stray : Metainfo :=
  { infoBytes := strayInfo, info := { pieceLength := 1, name := "../x" } }

/-- Its download, with the metadata just verified. -/
def strayFetched : Download :=
  { Download.named (sha1 strayInfo) 1 with metadataBytes := some strayInfo }

/-- The same as its content begins to be downloaded. -/
def strayBegun : Download :=
  { strayFetched with
    fileSet := some
      { kind := .data
        pieceLength := 1
        totalLength := 0
        pieces := []
        storage := .disk (.ofMetainfo ⟨"dl"⟩ stray) }
    metainfo := some stray
    selector := .rarest
    choking := .permissive }

/-- A torrent can name a file outside of the download folder. -/
theorem not_below_stray :
    Metainfo.ofInfo strayInfo = .ok stray ∧
      enterData World.oneByteConfig strayFetched =
        .ok (strayBegun, [.allocate (.ofMetainfo ⟨"dl"⟩ stray)]) ∧
      ¬ ∀ f ∈ (Layout.ofMetainfo ⟨"dl"⟩ stray).files, f.path.Below ⟨"dl"⟩ := by
  have hParse : Metainfo.ofInfo strayInfo = .ok stray := by decide +kernel
  have hTorrent : torrentOf strayFetched = .ok stray := by
    simp only [torrentOf, strayFetched, Download.named, hParse]
    rfl
  have hEnter : enterData World.oneByteConfig strayFetched =
      .ok (strayBegun, [.allocate (.ofMetainfo ⟨"dl"⟩ stray)]) := by
    rw [enterData, hTorrent]
    rfl
  refine ⟨hParse, hEnter, fun hBelow => ?_⟩
  obtain ⟨m, fs, layout, hm, -, -, hEffects, hIff⟩ := files_below_iff hEnter
  obtain rfl : stray = m := Except.ok.inj (hTorrent.symm.trans hm)
  obtain rfl : Layout.ofMetainfo ⟨"dl"⟩ stray = layout := by simpa using hEffects
  have hPlain : ∀ names ∈ stray.namings, ∀ name ∈ names, Plain name := by
    have hNamings : stray.namings = [["../x"]] := rfl
    have hName : Plain "../x" := by
      refine ⟨?_, ?_, ?_, ?_⟩ <;> decide +kernel
    simpa [hNamings] using hName
  have hParts : (joined ["../x"]).parts = ["..", "x"] := by decide +kernel
  have hOrdinary := (hIff.mp ⟨hBelow, hPlain⟩ ["../x"] (List.mem_singleton_self _)).2 ".."
  rw [hParts] at hOrdinary
  exact (hOrdinary List.mem_cons_self).2.2.1 rfl

end PhaseId

end TorrentEngine
