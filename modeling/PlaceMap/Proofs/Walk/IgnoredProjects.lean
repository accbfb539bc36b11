/-
Which project files the rules of a search keep from being loaded. The rules are tried on the
directories that are searched and on no project file in them, so a project file that is found lies in
a directory that is not covered, or is a default project, but may be covered itself. The target of a
binding is tried as it is, and so is left alone if it is a project file that the rules cover.

The findings of a search are the visits in its list of actions, and a walk that is deep enough does
what stands in that list.
-/
import PlaceMap.Proofs.Walk.Findings

namespace PlaceMap

open FileName (IsOrdinary)

namespace Walk

variable {fs : FileSystem} {ignored ignored' : List IgnoreRule} {dir file : Path} {place : TreePath}
  {name : Option String} {v : Visit}

/-! ## Directories that are searched -/

/-- The directory of a project file that is found is not covered, unless it is a default project. -/
theorem Found.not_covered_parent (h : Found fs ignored dir place name v) (hfile : v.file? = some file)
    (hname : file.name ≠ FileName.defaultProject) : ¬ IgnoreRule.Covered ignored file.parent := by
  cases h with
  | standard =>
    cases hfile
    refine absurd ?_ hname
    simp [Path.name, Path.descend]
  | entry _ _ _ hcovered =>
    cases hfile
    rwa [Path.parent_descend]

/-- Names that lead down to a directory lead through none that is covered. -/
theorem LeadsDown.not_covered {chain : List String} {n : String}
    (h : LeadsDown fs ignored dir (chain ++ [n])) : ¬ IgnoreRule.Covered ignored (dir.descend chain) := by
  obtain ⟨-, -, -, -, hcovered, -⟩ := h chain n [] rfl
  exact hcovered

/-- The directory above that of a project file that is found is not covered, if it is searched. -/
theorem Found.not_covered_grandparent (h : Found fs ignored dir place name v)
    (hfile : v.file? = some file) (hdir : file.parent ≠ dir) :
    ¬ IgnoreRule.Covered ignored file.parent.parent := by
  have hchain : ∀ {chain n}, LeadsDown fs ignored dir chain → (dir.descend (chain ++ [n])).parent ≠ dir →
      ¬ IgnoreRule.Covered ignored (dir.descend (chain ++ [n])).parent.parent := by
    intro chain n hdown hne
    rw [Path.parent_descend] at hne ⊢
    rcases List.eq_nil_or_concat' chain with rfl | ⟨front, last, rfl⟩
    · exact absurd dir.descend_nil hne
    · rw [Path.parent_descend]
      exact hdown.not_covered
  cases h with
  | standard hdown =>
    cases hfile
    exact hchain hdown hdir
  | entry hdown =>
    cases hfile
    exact hchain hdown hdir

/-! ## What the rules are tried on -/

/-- Rules cover the same of the paths of directories. -/
def AgreeOnDirectories (fs : FileSystem) (ignored ignored' : List IgnoreRule) : Prop :=
  ∀ p : Path, p.Proper → fs.isDirectory p = .ok true →
    (IgnoreRule.Covered ignored p ↔ IgnoreRule.Covered ignored' p)

theorem findings_congr (hrules : ∀ rule ∈ ignored, rule.Compiles)
    (hrules' : ∀ rule ∈ ignored', rule.Compiles) (hagree : AgreeOnDirectories fs ignored ignored') :
    ∀ (depth : Nat) {dir : Path} (place : TreePath) (name : Option String), dir.Proper →
      (IgnoreRule.Covered ignored dir ↔ IgnoreRule.Covered ignored' dir) →
      (Visit.directory dir place name ignored).findings fs depth =
        (Visit.directory dir place name ignored').findings fs depth
  | 0, _, _, _, _, _ => rfl
  | depth + 1, dir, place, name, hproper, hdir => by
    have hcovers : IgnoreRule.anyCovers ignored dir = IgnoreRule.anyCovers ignored' dir := by
      rw [IgnoreRule.anyCovers_of_compiles hrules, IgnoreRule.anyCovers_of_compiles hrules']
      simp only [hdir]
    have hentry : ∀ n (place : TreePath),
        (Action.ofDirectoryEntry fs dir place ignored n).flatMap
            (Action.visitsBy (Visit.findings fs depth)) =
          (Action.ofDirectoryEntry fs dir place ignored' n).flatMap
            (Action.visitsBy (Visit.findings fs depth)) := by
      intro n place
      unfold Action.ofDirectoryEntry Action.asked
      rcases hkind : fs.isDirectory (dir.child n) with e | _ | _
      · rfl
      · rfl
      · have hchild := Path.child_proper hproper n
        have hsame := findings_congr hrules hrules' hagree depth place (some n) hchild
          (hagree _ hchild hkind)
        simpa [Action.visitsBy] using hsame
    rw [Visit.findings_directory, Visit.findings_directory]
    unfold Visit.actions Action.ofDirectory Action.listed Action.compared
    dsimp only
    cases fs.list dir with
    | error e => rfl
    | ok names =>
      dsimp only
      rw [hcovers]
      split
      · rfl
      rcases IgnoreRule.anyCovers ignored' dir with fault | _ | _
      · rfl
      · dsimp only
        rw [if_neg Bool.false_ne_true, if_neg Bool.false_ne_true, Action.ofEntries, Action.ofEntries,
          List.flatMap_append, List.flatMap_append, List.flatMap_assoc, List.flatMap_assoc,
          List.flatMap_assoc]
        simp only [hentry]
      · rfl

/-- The visit of a target that is covered does nothing. -/
theorem visit_covered_target (hrules : ∀ rule ∈ ignored, rule.Compiles) {path : Path}
    (h : IgnoreRule.Covered ignored path.toLuau) (depth : Nat) (place : TreePath) (optional : Bool) :
    visit fs (depth + 1) (.target path place ignored optional) = pure () := by
  have hcovers : IgnoreRule.anyCovers ignored path.toLuau = .ok true := by
    rw [IgnoreRule.anyCovers_of_compiles hrules, decide_eq_true h]
  rw [visit, enter, target, isIgnored_of_ok hcovers]
  rfl

/-- The walk of a directory does what its search says, so that the findings are what it visits. The
rules of the search keep it out of directories: a project file that is found lies in one that is not
covered, unless it is a default project, and even then the directory above is not covered, up to the
one where the search begins. They do nothing else, since rules that cover the same directories leave
the same to be found. A target that the rules cover is left alone, whatever it is. -/
theorem search_tests_directories {fs : FileSystem}
    (hfs : ∀ dir names n, fs.list dir = .ok names → n ∈ names → IsOrdinary n)
    {ignored : List IgnoreRule} (hrules : ∀ rule ∈ ignored, rule.Compiles) :
    (∀ depth dir place name c, let v := Visit.directory dir place name ignored
      ((visit fs depth v).follow c).1 ≠ .error .tooDeep →
        (Action.performAll (visit fs depth) (v.search fs depth)).follow c =
          (visit fs depth v).follow c) ∧
    (∀ depth dir place name, ∀ v ∈ (Visit.directory dir place name ignored).findings fs depth,
      ∀ file, v.file? = some file →
        (file.name ≠ FileName.defaultProject → ¬ IgnoreRule.Covered ignored file.parent) ∧
        (file.parent ≠ dir → ¬ IgnoreRule.Covered ignored file.parent.parent)) ∧
    (∀ (depth : Nat) (dir : Path) (place : TreePath) (name : Option String) (ignored' : List IgnoreRule),
      dir.Proper → (∀ rule ∈ ignored', rule.Compiles) → AgreeOnDirectories fs ignored ignored' →
      (IgnoreRule.Covered ignored dir ↔ IgnoreRule.Covered ignored' dir) →
      (Visit.directory dir place name ignored).findings fs depth =
        (Visit.directory dir place name ignored').findings fs depth) ∧
    ∀ (depth : Nat) (path : Path) (place : TreePath) (optional : Bool),
      IgnoreRule.Covered ignored path.toLuau →
      visit fs (depth + 1) (.target path place ignored optional) = pure () := by
  refine ⟨fun depth dir place name c => ?_, fun depth dir place name v hv file hfile => ?_, ?_, ?_⟩
  · exact visit_extends_search _ le_rfl c
  · have hfound := found_of_mem_findings hfs hrules hv
    exact ⟨hfound.not_covered_parent hfile, hfound.not_covered_grandparent hfile⟩
  · exact fun depth dir place name ignored' hproper hrules' hagree hdir =>
      findings_congr hrules hrules' hagree depth place name hproper hdir
  · exact fun depth path place optional h => visit_covered_target hrules h depth place optional

/-- A directory with a project file, and a rule that covers the file but not the directory. -/
def library : Stored := [("/p/src/lib.project.json", .text "")]

/-- The project file of the library. -/
def libraryFile : Path := ⟨.root, ["p", "src", "lib.project.json"]⟩

/-- A rule that covers the project file of the library by its own name. -/
def libraryRule : IgnoreRule := ⟨⟨.root, ["p"]⟩, "src/lib.project.json"⟩

/-- The search of the library comes to an end in two levels. -/
theorem exists_library_run :
    ∃ d, (visit library.fileSystem 2 (.directory libraryFile.parent [] none [libraryRule])).follow
      ⟨.empty, []⟩ = (.ok (), d) :=
  exists_follow_eq_ok (by decide +kernel)

theorem search_tests_directories_library :
    let fs := library.fileSystem
    (∀ dir names n, fs.list dir = .ok names → n ∈ names → IsOrdinary n) ∧ libraryRule.Compiles ∧
      (let v := Visit.directory libraryFile.parent [] none [libraryRule]
        ∃ d, (Action.performAll (visit fs 2) (v.search fs 2)).follow ⟨.empty, []⟩ = (.ok (), d)) ∧
      ¬ IgnoreRule.Covered [libraryRule] libraryFile.parent ∧
      (∀ depth, (Visit.directory libraryFile.parent [] none [libraryRule]).findings fs depth =
        (Visit.directory libraryFile.parent [] none []).findings fs depth) ∧
      ∀ depth optional,
        visit fs (depth + 1) (.target libraryFile [] [libraryRule] optional) = pure () := by
  intro fs
  have hfs : ∀ dir names n, fs.list dir = .ok names → n ∈ names → IsOrdinary n :=
    (Stored.healthy (s := library) (by decide) (by decide +kernel) fun _ => True).bounded.listed
  have hrule : libraryRule.Compiles := by decide +kernel
  have hrules : ∀ rule ∈ [libraryRule], rule.Compiles := fun rule hr => List.mem_singleton.1 hr ▸ hrule
  obtain ⟨hwalk, hparent, hsame, htarget⟩ := search_tests_directories hfs hrules
  have hnot : ¬ IgnoreRule.Covered [libraryRule] libraryFile.parent :=
    (hparent 2 libraryFile.parent [] none (.project libraryFile [] false) (by decide +kernel) libraryFile
      rfl).1 (by decide +kernel)
  obtain ⟨d, hrun⟩ := exists_library_run
  have hsearch := hwalk 2 libraryFile.parent [] none ⟨.empty, []⟩ (by rw [hrun]; exact nofun)
  have hkeys : ∀ key ∈ library.keys, library.hasDirectory key = true →
      ¬ IgnoreRule.Covered [libraryRule] (.ofString key) := by decide +kernel
  have hproper : libraryFile.parent.Proper :=
    (by decide : ∀ part ∈ ["p", "src"], FileName.IsPart part)
  have hnil : ∀ p, ¬ IgnoreRule.Covered [] p := fun p ⟨_, hr, _⟩ => List.not_mem_nil hr
  refine ⟨hfs, hrule, ⟨d, hsearch.trans hrun⟩, hnot, fun depth => ?_, fun depth optional => ?_⟩
  · refine hsame depth _ [] none [] hproper nofun (fun p hp hdir => ?_) (iff_of_false hnot (hnil _))
    have hdirectory : library.hasDirectory p.toText = true := Except.ok.inj hdir
    have hcovered := hkeys _ (Stored.mem_keys_of_hasDirectory hdirectory) hdirectory
    rw [Path.ofString_toText hp] at hcovered
    exact iff_of_false hcovered (hnil p)
  · exact htarget depth libraryFile [] optional (by decide +kernel)

/-- A search finds a project file that its own rules cover, although the walk does what the search
says and comes to an end. -/
theorem not_findings_uncovered :
    ¬ ∀ (fs : FileSystem) (dir : Path) (place : TreePath) (ignored : List IgnoreRule) (depth : Nat)
      (c d : Course), (∀ rule ∈ ignored, rule.Compiles) →
        (visit fs depth (.directory dir place none ignored)).follow c = (.ok (), d) →
        (Action.performAll (visit fs depth)
          ((Visit.directory dir place none ignored).search fs depth)).follow c = (.ok (), d) →
        ∀ v ∈ (Visit.directory dir place none ignored).findings fs depth, ∀ file, v.file? = some file →
          file.name ≠ FileName.defaultProject → ¬ IgnoreRule.Covered ignored file := by
  intro h
  obtain ⟨d, hrun⟩ := exists_library_run
  have hsearch := visit_extends_search _ (le_refl 2) ⟨.empty, []⟩ (by rw [hrun]; exact nofun)
  exact h library.fileSystem libraryFile.parent [] [libraryRule] 2 ⟨.empty, []⟩ d (by decide +kernel) hrun
    (hsearch.trans hrun) (.project libraryFile [] false) (by decide +kernel) libraryFile rfl
    (by decide +kernel) (by decide +kernel)

end Walk

end PlaceMap
