/-
What a build looks at. Of the entries of a directory only project files and directories count, and
contents are read of project files only. So source files can be added, deleted and edited, and a
build has the same outcome as before: it does the same at every visit, one thing after another.

A project file is read where its path leads, and that may be a file with any name.
-/
import PlaceMap.Proofs.Walk.Depth

namespace PlaceMap

open Walk (Reached Starts Asks Settles)

theorem FileName.isProject_defaultProject : FileName.isProject FileName.defaultProject = true := by
  decide

/-- The names that count among those that a directory lists: of project files, and of whatever may
be a directory. -/
def FileSystem.kept (fs : FileSystem) (dir : Path) (names : List String) : List String :=
  names.filter fun n => FileName.isProject n || (fs.isDirectory (dir.child n)).toOption != some false

/-- A path is named like a project file, or a directory lists it under such a name. -/
def FileSystem.NamesProject (fs : FileSystem) (p : Path) : Prop :=
  FileName.isProject p.name = true ∨
  ∃ dir names n, fs.list dir = .ok names ∧ n ∈ names ∧ FileName.isProject n = true ∧ p = dir.child n

namespace Resolver

/-- A path that a build may take for a project file: the file that it is given, or one with such a
name. -/
def Source.MayLoad (fs : FileSystem) (s : Source) (p : Path) : Prop :=
  fs.NamesProject p ∨ ∃ file, s = .project file ∧ p = fs.normalize (.ofString file)

/-- Two file systems that differ in source files only, so far as a build is concerned, and perhaps
in what can be read. Where project files lead matters only if they exist. -/
structure Source.Alike (fs fs' : FileSystem) (s : Source) : Prop where
  workingDirectory : fs'.workingDirectory = fs.workingDirectory
  isDirectory : ∀ p, fs'.isDirectory p = fs.isDirectory p
  list : ∀ dir, fs.isDirectory dir = .ok true →
    (fs'.list dir).map (fs.kept dir) = (fs.list dir).map (fs.kept dir)
  has : ∀ p, s.MayLoad fs p → fs'.has p = fs.has p
  isFile : ∀ p, s.MayLoad fs p → fs'.isFile p = fs.isFile p
  realPath : ∀ p, s.MayLoad fs p → fs.has p = .ok true → fs'.realPath p = fs.realPath p
  target : ∀ path place ignored optional, Reached fs s (.target path place ignored optional) →
    fs'.has path.toLuau = fs.has path.toLuau

/-- Project files that exist can be read alike, where their paths lead. -/
def Source.ReadsAlike (fs fs' : FileSystem) (s : Source) : Prop :=
  ∀ p, s.MayLoad fs p → fs.has p = .ok true →
    ∀ target, fs.realPath p = .ok target → fs'.read target = fs.read target

end Resolver

namespace Walk

variable {fs fs' : FileSystem} {s : Resolver.Source}

theorem Reached.mayLoad {file : Path} {place : TreePath} {root : Bool}
    (h : Reached fs s (.project file place root)) : s.MayLoad fs file := by
  cases h with
  | start hv =>
    cases s with
    | project text => cases hv; exact .inr ⟨text, rfl, rfl⟩
    | tree base n => obtain ⟨e, -, he⟩ := hv; cases he
    | directory base => obtain ⟨e, -, he⟩ := hv; cases he
  | ask _ ha =>
    have hdefault := FileName.isProject_defaultProject
    cases ha with
    | included _ hp => exact .inl (.inl hp)
    | standard _ _ _ hl hn => exact .inl (.inr ⟨_, _, _, hl, hn, hdefault, rfl⟩)
    | standardBelow hl hn => exact .inl (.inr ⟨_, _, _, hl, hn, hdefault, rfl⟩)
    | entry hl _ _ hn hp _ => exact .inl (.inr ⟨_, _, _, hl, hn, hp, rfl⟩)

end Walk

namespace Action

variable {fs fs' : FileSystem}

/-- What is done by what a directory lists is the same if it depends on the names that count, and
these are the same. -/
theorem listed_congr {dir : Path} {next next' : List String → List Action}
    (hlist : (fs'.list dir).map (fs.kept dir) = (fs.list dir).map (fs.kept dir))
    (h : ∀ names names', fs.list dir = .ok names → fs.kept dir names' = fs.kept dir names →
      next' names' = next names) :
    listed fs' dir next' = listed fs dir next := by
  unfold listed
  rcases hl : fs.list dir with e | names
  · rcases hl' : fs'.list dir with e' | names'
    · rw [hl, hl'] at hlist
      cases hlist
      rfl
    · rw [hl, hl'] at hlist
      cases hlist
  · rcases hl' : fs'.list dir with e' | names'
    · rw [hl, hl'] at hlist
      cases hlist
    · rw [hl, hl'] at hlist
      exact h names names' hl (Except.ok.inj hlist)

theorem ofTree_congr (h : fs'.workingDirectory = fs.workingDirectory) (base : Path)
    (ignored : List IgnoreRule) (n : TreeNode) (place : TreePath) :
    ofTree fs' base ignored n place = ofTree fs base ignored n place := by
  unfold ofTree ofNode Visit.ofBinding Binding.target FileSystem.normalize
  rw [h]

/-- Names that do not count can be left out. -/
theorem flatMap_kept {f : String → List Action} {dir : Path} (names : List String)
    (h : ∀ n, FileName.isProject n = false → fs.isDirectory (dir.child n) = .ok false → f n = []) :
    names.flatMap f = (fs.kept dir names).flatMap f := by
  induction names with
  | nil => rfl
  | cons n names ih =>
    unfold FileSystem.kept at ih ⊢
    rw [List.filter_cons]
    split
    · rw [List.flatMap_cons, List.flatMap_cons, ih]
    · rename_i hn
      simp only [Bool.not_eq_true, Bool.or_eq_false_iff, bne_eq_false_iff_eq] at hn
      rw [List.flatMap_cons, h n hn.1 ?_, List.nil_append, ih]
      rcases hdir : fs.isDirectory (dir.child n) with e | b
      · rw [hdir] at hn
        cases hn.2
      · rw [hdir] at hn
        exact congrArg Except.ok (Option.some.inj hn.2)

theorem ofEntries_kept (fs : FileSystem) (dir : Path) (place : TreePath) (ignored : List IgnoreRule)
    (names : List String) :
    ofEntries fs dir place ignored names = ofEntries fs dir place ignored (fs.kept dir names) := by
  have hfile : ∀ n, FileName.isProject n = false → fs.isDirectory (dir.child n) = .ok false →
      ofProjectEntry fs dir place n = [] := by
    intro n hn _
    unfold ofProjectEntry
    rw [hn, if_neg Bool.false_ne_true]
  have hdirectory : ∀ n, FileName.isProject n = false → fs.isDirectory (dir.child n) = .ok false →
      ofDirectoryEntry fs dir place ignored n = [] := by
    intro n _ hn
    unfold ofDirectoryEntry
    rw [hn]
    rfl
  unfold ofEntries
  rw [flatMap_kept names hfile, flatMap_kept names hdirectory]

theorem ofEntries_congr {s : Resolver.Source} (h : s.Alike fs fs') {dir : Path}
    {names names' : List String} (hl : fs.list dir = .ok names)
    (hkept : fs.kept dir names' = fs.kept dir names) (place : TreePath)
    (ignored : List IgnoreRule) :
    ofEntries fs' dir place ignored names' = ofEntries fs dir place ignored names := by
  have hkept' : fs'.kept dir names' = fs.kept dir names := by
    rw [← hkept]
    unfold FileSystem.kept
    simp only [h.isDirectory]
  rw [ofEntries_kept fs', hkept', ofEntries_kept fs dir place ignored names]
  unfold ofEntries
  congr 1
  · refine List.flatMap_congr fun n hn => ?_
    unfold ofProjectEntry
    split
    · rename_i hp
      rw [h.isFile _ (.inl (.inr ⟨dir, names, n, hl, List.mem_of_mem_filter hn, hp, rfl⟩))]
    · rfl
  · unfold ofDirectoryEntry
    simp only [h.isDirectory]

theorem mem_of_kept_eq {dir : Path} {names names' : List String}
    (hkept : fs.kept dir names' = fs.kept dir names) {n : String} (hn : FileName.isProject n = true) :
    n ∈ names' ↔ n ∈ names := by
  have hmem : ∀ l, n ∈ l ↔ n ∈ fs.kept dir l := by
    intro l
    unfold FileSystem.kept
    rw [List.mem_filter, hn]
    exact ⟨fun hl => ⟨hl, rfl⟩, And.left⟩
  rw [hmem names', hmem names, hkept]

theorem ofTargetDirectory_congr {s : Resolver.Source} (h : s.Alike fs fs') {path : Path}
    (hdir : fs.isDirectory path = .ok true) (place : TreePath) (ignored : List IgnoreRule) :
    ofTargetDirectory fs' path place ignored = ofTargetDirectory fs path place ignored := by
  refine listed_congr (h.list path hdir) fun names names' _ hkept => ?_
  simp only [mem_of_kept_eq hkept FileName.isProject_defaultProject]

theorem ofSettled_congr {s : Resolver.Source} (h : s.Alike fs fs') (path : Path) (place : TreePath)
    (ignored : List IgnoreRule) (found : Bool) :
    ofSettled fs' path place ignored found = ofSettled fs path place ignored found := by
  unfold ofSettled
  rw [h.isDirectory path]
  split
  · rfl
  cases found with
  | false => rfl
  | true =>
    rcases hdir : fs.isDirectory path with e | isDirectory
    · rfl
    · cases isDirectory with
      | false => rfl
      | true => exact ofTargetDirectory_congr h hdir place ignored

theorem ofDirectory_congr {s : Resolver.Source} (h : s.Alike fs fs') {dir : Path}
    (hdir : fs.isDirectory dir = .ok true) (place : TreePath) (name : Option String)
    (ignored : List IgnoreRule) :
    ofDirectory fs' dir place name ignored = ofDirectory fs dir place name ignored := by
  refine listed_congr (h.list dir hdir) fun names names' hl hkept => ?_
  simp only [mem_of_kept_eq hkept FileName.isProject_defaultProject, ofEntries_congr h hl hkept]

end Action

namespace Resolver.Source.Alike

variable {fs fs' : FileSystem} {s : Source} (h : s.Alike fs fs')
include h

theorem load_eq (hread : s.ReadsAlike fs fs') {file : Path} (hfile : s.MayLoad fs file) :
    Project.load fs' file = Project.load fs file := by
  unfold Project.load
  rw [h.has file hfile]
  -- Where the file leads is asked only if it exists.
  rcases hhas : fs.has file with e | _ | _
  · rfl
  · rfl
  dsimp only
  rw [if_pos rfl, if_pos rfl]
  unfold Project.ofFile
  rw [h.realPath file hfile hhas]
  rcases htarget : fs.realPath file with e | target
  · rfl
  · dsimp only
    rw [hread file hfile hhas target htarget]

/-- One level of a visit does the same on both file systems. -/
theorem actions_eq (hread : s.ReadsAlike fs fs') {v : Visit} (hv : Reached fs s v) :
    v.actions fs' = v.actions fs := by
  cases v with
  | project file place root =>
    unfold Visit.actions Action.ofProject
    dsimp only
    rw [h.load_eq hread hv.mayLoad]
    simp only [Action.ofTree_congr h.workingDirectory]
  | target path place ignored optional =>
    unfold Visit.actions Action.ofTarget
    dsimp only
    rw [h.target path place ignored optional hv]
    simp only [Action.ofSettled_congr h]
  | directory dir place name ignored =>
    exact Action.ofDirectory_congr h hv.isDirectory place name ignored

theorem start_eq : s.actions fs' = s.actions fs := by
  unfold actions FileSystem.normalize
  rw [h.workingDirectory]
  simp only [Action.ofTree_congr h.workingDirectory]

end Resolver.Source.Alike

namespace Resolver

/-- Adding, deleting and editing source files changes nothing about a build. -/
theorem build_alike {fs fs' : FileSystem} {s : Source} (h : s.Alike fs fs')
    (hread : s.ReadsAlike fs fs') (depth : Nat) (config : Config) :
    build fs' depth config s = build fs depth config s :=
  build_congr h.start_eq (fun _ hv => h.actions_eq hread hv) depth config

/-- A project whose directory holds the given source files. -/
def scripts (names : List String) : FileSystem where
  workingDirectory := []
  workingDirectory_isPart := List.forall_mem_nil FileName.IsPart
  has p := .ok (p.parent ≠ ⟨.root, ["p", "src"]⟩ || p.name ∈ names)
  isDirectory p := .ok (p = ⟨.root, ["p", "src"]⟩)
  isFile p := .ok (p.parent ≠ ⟨.root, ["p", "src"]⟩ && p.name ≠ "src" || p.name ∈ names)
  list dir := .ok (if dir = ⟨.root, ["p", "src"]⟩ then names else [])
  realPath p := .ok p
  read p := .ok (if FileName.isProject p.name then
      "\x7b\"name\":\"app\",\"tree\":\x7b\"$path\":\"src\"\x7d\x7d"
    else String.join names)

theorem scripts_mayLoad {p : Path}
    (h : Source.MayLoad (scripts ["a.luau"]) (.project "/p/app.project.json") p) :
    FileName.isProject p.name = true := by
  rcases h with (hp | ⟨dir, names, n, hl, hn, hp, rfl⟩) | ⟨file, hfile, rfl⟩
  · exact hp
  · cases hl
    split at hn
    · cases List.mem_singleton.1 hn
      exact absurd hp (by decide)
    · cases hn
  · cases hfile
    decide

/-- One source file makes room for two others. -/
theorem build_alike_scripts :
    Source.Alike (scripts ["a.luau"]) (scripts ["b.luau", "c.luau"]) (.project "/p/app.project.json") ∧
      Source.ReadsAlike (scripts ["a.luau"]) (scripts ["b.luau", "c.luau"])
        (.project "/p/app.project.json") ∧
      build (scripts ["b.luau", "c.luau"]) 4 .standard (.project "/p/app.project.json") =
        build (scripts ["a.luau"]) 4 .standard (.project "/p/app.project.json") := by
  have hnames : ∀ p : Path, FileName.isProject p.name = true →
      p.name ∉ ["b.luau", "c.luau"] ∧ p.name ∉ ["a.luau"] := by
    intro p hp
    constructor
    all_goals
      intro hn
      simp only [List.mem_cons, List.not_mem_nil, or_false] at hn
    · rcases hn with hn | hn <;> rw [hn] at hp <;> exact absurd hp (by decide)
    · rw [hn] at hp
      exact absurd hp (by decide)
  have hnil : (Source.project "/p/app.project.json").generation (scripts ["a.luau"]) 3 = [] := by
    decide +kernel
  have htargets : ∀ m < 3, ∀ v ∈ (Source.project "/p/app.project.json").generation (scripts ["a.luau"]) m,
      (match v with
        | .target path _ _ _ => decide (path.toLuau.parent ≠ ⟨.root, ["p", "src"]⟩)
        | _ => true) = true := by
    decide +kernel
  have halike : Source.Alike (scripts ["a.luau"]) (scripts ["b.luau", "c.luau"])
      (.project "/p/app.project.json") := by
    refine ⟨rfl, fun _ => rfl, fun dir hdir => ?_, fun p hp => ?_, fun p hp => ?_,
      fun _ _ _ => rfl, fun path place ignored optional hv => ?_⟩
    · cases of_decide_eq_true (Except.ok.inj hdir)
      rfl
    · obtain ⟨hb, ha⟩ := hnames p (scripts_mayLoad hp)
      simp only [scripts, hb, ha]
    · obtain ⟨hb, ha⟩ := hnames p (scripts_mayLoad hp)
      simp only [scripts, hb, ha]
    · have hpath := of_decide_eq_true (reached_of_generations hnil htargets hv)
      simp only [scripts, decide_eq_true hpath, Bool.true_or]
  have hread : Source.ReadsAlike (scripts ["a.luau"]) (scripts ["b.luau", "c.luau"])
      (.project "/p/app.project.json") := by
    rintro p hp - target hreal
    cases hreal
    simp only [scripts, scripts_mayLoad hp, if_true]
  exact ⟨halike, hread, build_alike halike hread 4 .standard⟩

/-- Everything is a regular file, and those named like a project lead to a shared one. -/
def linked (text : String) : FileSystem where
  workingDirectory := []
  workingDirectory_isPart := List.forall_mem_nil FileName.IsPart
  has _ := .ok true
  isDirectory _ := .ok false
  isFile _ := .ok true
  list _ := .ok []
  realPath p := .ok (if FileName.isProject p.name then ⟨.root, ["shared", "app.json"]⟩ else p)
  read p := .ok (if p = ⟨.root, ["shared", "app.json"]⟩ then text else "")

/-- It is not enough that paths named like a project lead to the same and hold the same: another file
may hold what is read of them. -/
theorem not_build_alike :
    ¬ ∀ (fs fs' : FileSystem) (s : Source) (depth : Nat) (config : Config), s.Alike fs fs' →
      (∀ p, s.MayLoad fs p → fs'.realPath p = fs.realPath p) →
      (∀ p, s.MayLoad fs p → fs'.read p = fs.read p) →
        build fs' depth config s = build fs depth config s := by
  intro h
  let before := "\x7b\"name\":\"app\",\"tree\":\x7b\"$path\":\"src\"\x7d\x7d"
  let after := "\x7b\"name\":\"app\",\"tree\":\x7b\"$path\":\"lib\"\x7d\x7d"
  have halike : Source.Alike (linked before) (linked after) (.project "/p/app.project.json") :=
    ⟨rfl, fun _ => rfl, fun _ _ => rfl, fun _ _ => rfl, fun _ _ => rfl, fun _ _ _ => rfl,
      fun _ _ _ _ _ => rfl⟩
  have hread : ∀ p, Source.MayLoad (linked before) (.project "/p/app.project.json") p →
      (linked after).read p = (linked before).read p := by
    have hshared : ∀ p, Source.MayLoad (linked before) (.project "/p/app.project.json") p →
        p ≠ ⟨.root, ["shared", "app.json"]⟩ := by
      rintro p ((hp | ⟨dir, names, n, hl, hn, -⟩) | ⟨file, hfile, rfl⟩)
      · rintro rfl
        exact absurd hp (by decide)
      · cases hl
        cases hn
      · cases hfile
        decide
    intro p hp
    unfold linked
    dsimp only
    rw [if_neg (hshared p hp), if_neg (hshared p hp)]
  have hbuild := h _ _ _ 4 .standard halike (fun _ _ => rfl) hread
  have htargets := congrArg (fun x => x.toOption.map fun r => r.table.partitions.map (·.target)) hbuild
  revert htargets
  decide +kernel

end Resolver

end PlaceMap
