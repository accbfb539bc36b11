/-
Two ways to the project of a directory. One is to ask for the directory's project file, the other is
to search the directory. Both prefer the default project, and both else take the first name that a
project file may have; but the search takes only regular files, and does not know the project file of
earlier releases.
-/
import PlaceMap.Proofs.Path.Relocation
import PlaceMap.Proofs.Walk.Endless
import PlaceMap.Proofs.Walk.Log

namespace PlaceMap

open FileName (IsOrdinary IsPart defaultProject legacyProject)

namespace Project

variable {fs : FileSystem} {dir : Path} {found : Option Path} {ws : List Warning}

/-! ## Asking for the project file -/

/-- The candidates are the default project alone, or all that is listed and may be one. -/
theorem candidates_cases {files : List Path} (h : candidates fs dir = .ok files) :
    (fs.has (dir.child defaultProject) = .ok true ∧ files = [dir.child defaultProject]) ∨
    (fs.has (dir.child defaultProject) = .ok false ∧ ∃ names, fs.list dir = .ok names ∧
      files = (names.filter isCandidate).map dir.child) := by
  unfold candidates at h
  dsimp only at h
  rcases hhas : fs.has (dir.child defaultProject) with e | standard
  · rw [hhas] at h
    cases h
  rw [hhas] at h
  cases standard with
  | true =>
    cases h
    exact .inl ⟨rfl, rfl⟩
  | false =>
    rcases hl : fs.list dir with e | names
    · rw [hl] at h
      cases h
    · rw [hl] at h
      cases h
      exact .inr ⟨rfl, names, rfl, rfl⟩

/-- The project file of a directory is the first candidate. -/
theorem find_eq_ok (h : find fs dir = .ok (found, ws)) :
    ∃ files, candidates fs dir = .ok files ∧ found = files.head? := by
  unfold find at h
  rcases hc : candidates fs dir with e | files
  · rw [hc] at h
    cases h
  · rw [hc] at h
    refine ⟨files, rfl, ?_⟩
    rcases files with _ | ⟨file, _ | ⟨other, others⟩⟩ <;> cases h <;> rfl

theorem find_cases (h : find fs dir = .ok (found, ws)) :
    (fs.has (dir.child defaultProject) = .ok true ∧ found = some (dir.child defaultProject)) ∨
    (fs.has (dir.child defaultProject) = .ok false ∧ ∃ names, fs.list dir = .ok names ∧
      found = (names.find? isCandidate).map dir.child) := by
  obtain ⟨files, hfiles, rfl⟩ := find_eq_ok h
  rcases candidates_cases hfiles with ⟨hhas, rfl⟩ | ⟨hhas, names, hl, rfl⟩
  · exact .inl ⟨hhas, rfl⟩
  · exact .inr ⟨hhas, names, hl, by rw [List.head?_map, List.head?_filter]⟩

theorem isCandidate_of_isProject {name : String} (h : FileName.isProject name = true)
    (hdefault : name ≠ defaultProject) : isCandidate name = true := by
  simp [isCandidate, hdefault, h]

theorem isProject_of_isCandidate {name : String} (h : isCandidate name = true)
    (hlegacy : name ≠ legacyProject) : FileName.isProject name = true := by
  simp only [isCandidate, Bool.and_eq_true, Bool.or_eq_true, beq_iff_eq] at h
  exact h.2.resolve_left hlegacy

end Project

namespace Action

variable {fs : FileSystem} {dir : Path} {names : List String}

/-! ## Searching the directory -/

theorem ofDirectory_of_default (hl : fs.list dir = .ok names) (hdefault : defaultProject ∈ names)
    (place : TreePath) (name : Option String) (ignored : List IgnoreRule) :
    ofDirectory fs dir place name ignored =
      [.visit (.project (dir.child defaultProject) place false)] := by
  unfold ofDirectory listed
  rw [hl]
  exact if_pos hdefault

theorem ofDirectory_of_not_default (hl : fs.list dir = .ok names) (hdefault : defaultProject ∉ names)
    (place : TreePath) (name : Option String) :
    ofDirectory fs dir place name [] = ofEntries fs dir (place ++ name.toList) [] names := by
  unfold ofDirectory listed
  rw [hl]
  exact if_neg hdefault

/-- The search of a directory begins with the first candidate, if it is a regular file and not the
project file of earlier releases. -/
theorem exists_ofDirectory_eq_cons (hl : fs.list dir = .ok names) (hdefault : defaultProject ∉ names)
    {n : String} (hfind : names.find? Project.isCandidate = some n) (hlegacy : n ≠ legacyProject)
    (hfile : fs.isFile (dir.child n) = .ok true) (place : TreePath) :
    ∃ rest, ofDirectory fs dir place none [] =
      .visit (.project (dir.child n) place false) :: rest := by
  obtain ⟨hn, before, after, rfl, hbefore⟩ := List.find?_eq_some_iff_append.1 hfind
  have hskip : before.flatMap (ofProjectEntry fs dir place) = [] := by
    refine List.flatMap_eq_nil_iff.2 fun m hm => ?_
    have hne : m ≠ defaultProject := fun he => hdefault (he ▸ List.mem_append_left _ hm)
    have hother : ¬ Project.isCandidate m = true := by simpa using hbefore m hm
    exact if_neg fun h => hother (Project.isCandidate_of_isProject h hne)
  have hfirst : ofProjectEntry fs dir place n = [.visit (.project (dir.child n) place false)] := by
    rw [ofProjectEntry, if_pos (Project.isProject_of_isCandidate hn hlegacy), hfile]
    rfl
  rw [ofDirectory_of_not_default hl hdefault, Option.toList_none, List.append_nil, ofEntries,
    List.flatMap_append, hskip, List.flatMap_cons, hfirst]
  exact ⟨_, rfl⟩

end Action

/-- A visit of a path that can be spelled, which is named like a project file if it is one. -/
structure Visit.Named (v : Visit) : Prop where
  proper : v.path.Proper
  named : ∀ file, v.file? = some file → FileName.isProject file.name = true

theorem Visit.Named.ask {fs : FileSystem} (hfs : fs.ListsExactly) {v v' : Visit} (h : v.Named)
    (ha : Walk.Asks fs v v') : v'.Named where
  proper := ha.proper h.proper
  named _ hfile := ha.isProject h.proper
    (fun dir names n hdir hl hn => ((hfs dir names hdir hl n).1 hn).1.1) hfile

namespace Project

variable {fs : FileSystem} {dir : Path} {found : Option Path} {ws : List Warning}

/-! ## Both find the same -/

/-- No project is loaded from a file in a directory that has no project file. -/
theorem load_ne_ok_of_find (hfs : fs.ListsExactly) (h : find fs dir = .ok (none, ws)) {file : Path}
    (hfile : file.Proper) (hproject : FileName.isProject file.name = true)
    (hparent : file.parent = dir) (p : Project) : load fs file ≠ .ok p := by
  intro hload
  subst hparent
  have hparts : file.parts ≠ [] := by
    intro he
    rw [Path.name, he] at hproject
    exact absurd hproject (by decide)
  obtain ⟨hname, hchild⟩ := Path.eq_child hfile hparts
  rcases find_cases h with ⟨-, hnone⟩ | ⟨hdefault, names, hl, hnone⟩
  · cases hnone
  have hordinary : IsOrdinary file.name := ⟨hname, fun hup => absurd (hup ▸ hproject) (by decide)⟩
  have hmem : file.name ∈ names :=
    (hfs _ names (Path.parent_proper hfile) hl _).2 ⟨hordinary, hchild ▸ has_of_load hload⟩
  have hne : file.name ≠ defaultProject := by
    intro he
    rw [← he, ← hchild, has_of_load hload] at hdefault
    cases hdefault
  exact List.find?_eq_none.1 (Option.map_eq_none_iff.1 hnone.symm) _ hmem
    (isCandidate_of_isProject hproject hne)

/-- In a directory whose listing shows what exists there, the project file that is asked for and the
search of the directory agree. The search begins with that project file, if it is the default project
or a regular file and not the one of earlier releases. If there is none, no project file in the
directory itself is loaded, however far the search leads. -/
theorem find_agrees (hfs : fs.ListsExactly) (hdir : dir.Proper) {names : List String}
    (hl : fs.list dir = .ok names) (h : find fs dir = .ok (found, ws)) (place : TreePath) :
    (∀ file, found = some file → file.name ≠ legacyProject →
      file.name = defaultProject ∨ fs.isFile file = .ok true →
      ∃ rest : List Action, ∀ visit, Walk.directory fs visit dir place none [] = (do
        visit (.project file place false)
        Action.performAll visit rest)) ∧
    (found = none → ∀ depth, ∀ v ∈ (Visit.directory dir place none []).visits fs depth,
      ∀ file, v.file? = some file → file.parent = dir → ∀ p, load fs file ≠ .ok p) := by
  have hlisted := hfs dir names hdir hl
  constructor
  · intro file hfile hlegacy hkind
    obtain ⟨rest, hrest⟩ : ∃ rest, Action.ofDirectory fs dir place none [] =
        .visit (.project file place false) :: rest := by
      rcases find_cases h with ⟨hhas, hfound⟩ | ⟨hhas, names', hl', hfound⟩
      · cases hfile.symm.trans hfound
        exact ⟨[], Action.ofDirectory_of_default hl ((hlisted _).2 ⟨by decide, hhas⟩) _ _ _⟩
      · cases hl.symm.trans hl'
        have hdefault : defaultProject ∉ names := fun hm => by
          rw [((hlisted _).1 hm).2] at hhas
          cases hhas
        obtain ⟨n, hfind, rfl⟩ := Option.map_eq_some_iff.1 (hfound.symm.trans hfile)
        have hn : n ∈ names := List.mem_of_find?_eq_some hfind
        rw [Path.name_child ((hlisted n).1 hn).1.1] at hlegacy hkind
        have hregular := hkind.resolve_left fun he => hdefault (he ▸ hn)
        exact Action.exists_ofDirectory_eq_cons hl hdefault hfind hlegacy hregular place
    refine ⟨rest, fun visit => ?_⟩
    rw [Action.directory_eq, hrest, Action.performAll_cons, Action.perform]
  · rintro rfl depth v hv file hfile hparent p
    have hstart : (Visit.directory dir place none []).Named := ⟨hdir, fun _ hfile => by cases hfile⟩
    have hnamed : v.Named :=
      Visit.forall_visits hstart (fun _ _ hw _ hw' => hw.ask hfs (Action.asks_of_mem hw')) v hv
    exact load_ne_ok_of_find hfs h (hnamed.proper.file hfile) (hnamed.named file hfile) hparent p

/-- A directory with a project file, and one with a project file in a directory below it. -/
def discovered : Stored :=
  [("/a/x.project.json", .text ""),
    ("/b/c/y.project.json", .text "\x7b\"name\":\"y\",\"tree\":\x7b\x7d\x7d")]

/-- The search of the first directory begins with its project file. The search of the second one loads
the project file below it, but none in the directory itself. -/
theorem find_agrees_discovered :
    let fs := discovered.fileSystem
    fs.ListsExactly ∧
    (∃ rest : List Action, ∀ visit, Walk.directory fs visit ⟨.root, ["a"]⟩ ["game"] none [] = (do
      visit (.project ⟨.root, ["a", "x.project.json"]⟩ ["game"] false)
      Action.performAll visit rest)) ∧
    (Visit.project ⟨.root, ["b", "c", "y.project.json"]⟩ ["game", "c"] false ∈
      (Visit.directory ⟨.root, ["b"]⟩ ["game"] none []).visits fs 3) ∧
    (load fs ⟨.root, ["b", "c", "y.project.json"]⟩).toOption.isSome = true ∧
    ∀ depth, ∀ v ∈ (Visit.directory ⟨.root, ["b"]⟩ ["game"] none []).visits fs depth,
      ∀ file, v.file? = some file → file.parent = ⟨.root, ["b"]⟩ → ∀ p, load fs file ≠ .ok p := by
  intro fs
  have hfs : fs.ListsExactly :=
    Stored.listsExactly (by simp [discovered]) (by decide +kernel) (by decide +kernel)
  have hproper : ∀ name, IsPart name → Path.Proper ⟨.root, [name]⟩ := fun name hname part hpart =>
    List.mem_singleton.1 hpart ▸ hname
  have hfind : (find fs ⟨.root, ["a"]⟩).toOption.map (·.1) =
      some (some ⟨.root, ["a", "x.project.json"]⟩) := by
    decide +kernel
  have hfind' : (find fs ⟨.root, ["b"]⟩).toOption.map (·.1) = some none := by
    decide +kernel
  have hlist : fs.list ⟨.root, ["a"]⟩ = .ok ["x.project.json"] := toOption_eq_some.1 (by decide +kernel)
  have hlist' : fs.list ⟨.root, ["b"]⟩ = .ok ["c"] := toOption_eq_some.1 (by decide +kernel)
  obtain ⟨⟨found, ws⟩, hok, rfl⟩ := exists_eq_ok hfind
  obtain ⟨⟨found', ws'⟩, hok', rfl⟩ := exists_eq_ok hfind'
  refine ⟨hfs, ?_, by decide +kernel, by decide +kernel, ?_⟩
  · exact (find_agrees hfs (hproper "a" (by decide)) hlist hok ["game"]).1 _ rfl (by decide)
      (.inr (congrArg Except.ok (by decide +kernel)))
  · exact (find_agrees hfs (hproper "b" (by decide)) hlist' hok' ["game"]).2 rfl

/-- A directory that is named like a project file. -/
def projectDirectory : Stored := [("/a/x.project.json", .directory)]

/-- The project file that is asked for may be a directory, which the search does not take for one. -/
theorem not_find_agrees :
    ¬ ∀ (fs : FileSystem) (dir file : Path) (names : List String) (ws : List Warning)
        (place : TreePath),
      fs.ListsExactly → dir.Proper → fs.list dir = .ok names → find fs dir = .ok (some file, ws) →
      file.name ≠ legacyProject →
      ∃ rest : List Action, ∀ visit, Walk.directory fs visit dir place none [] = (do
        visit (.project file place false)
        Action.performAll visit rest) := by
  intro h
  have hfind : (find projectDirectory.fileSystem ⟨.root, ["a"]⟩).toOption.map (·.1) =
      some (some ⟨.root, ["a", "x.project.json"]⟩) := by
    decide +kernel
  obtain ⟨⟨found, ws⟩, hok, rfl⟩ := exists_eq_ok hfind
  obtain ⟨rest, hrest⟩ := h projectDirectory.fileSystem ⟨.root, ["a"]⟩ _ ["x.project.json"] ws []
    (Stored.listsExactly (by simp [projectDirectory]) (by decide +kernel) (by decide +kernel))
    (fun part hpart => List.mem_singleton.1 hpart ▸ by decide)
    (toOption_eq_some.1 (by decide +kernel)) hok (by decide)
  -- A walk that stops at every project file goes through.
  let visit : Visit → Walk Unit := fun v => if v.file?.isSome then throw .tooDeep else pure ()
  have hruns : ((Walk.directory projectDirectory.fileSystem visit ⟨.root, ["a"]⟩ [] none []).runOn
      .empty).1.toOption = some () := by
    decide +kernel
  rw [hrest visit] at hruns
  cases hruns

end Project

end PlaceMap
