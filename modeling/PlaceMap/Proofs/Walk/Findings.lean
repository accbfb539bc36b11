/-
What the search of a directory finds. With the search of each directory below in the place of the
request for it, a search is one flat list of what is done, and the visits in it are those of the
project files that it finds (`Visit.search`, `Visit.findings`). A search that returns finds exactly
what there is to be found, each once; each project file stands in the list of findings under the name
of the entry that leads there first.
-/
import PlaceMap.Proofs.Resolver.Query
import PlaceMap.Proofs.Walk.Found
import PlaceMap.Proofs.Walk.Log

namespace PlaceMap

open FileName (IsOrdinary)

/-! ## Searches as lists -/

/-- The visit that an action asks for. -/
def Action.visit? : Action → Option Visit
  | .visit v => some v
  | _ => none

/-- What the search of a directory does at all its levels; the visits that are no searches are left
as they are. -/
def Visit.search (fs : FileSystem) : Nat → Visit → List Action
  | 0, _ => [.stop .tooDeep]
  | depth + 1, .directory dir place name ignored =>
    (actions fs (.directory dir place name ignored)).flatMap (Action.expand (search fs depth))
  | _ + 1, v => [.visit v]

/-- The visits that the search of a directory asks for. -/
def Visit.findings (fs : FileSystem) (depth : Nat) (v : Visit) : List Visit :=
  (v.search fs depth).filterMap Action.visit?

theorem Visit.findings_directory (fs : FileSystem) (depth : Nat) (dir : Path) (place : TreePath)
    (name : Option String) (ignored : List IgnoreRule) :
    (Visit.directory dir place name ignored).findings fs (depth + 1) =
      ((Visit.directory dir place name ignored).actions fs).flatMap
        (Action.visitsBy (findings fs depth)) := by
  rw [findings, search, List.filterMap_flatMap]
  refine List.flatMap_congr fun a _ => ?_
  cases a <;> rfl

namespace Walk

variable {fs : FileSystem}

/-- A visit does what its search says. -/
theorem visit_extends_search {more : Nat} : ∀ {depth : Nat} (v : Visit), depth ≤ more →
    Extends (visit fs depth v) (Action.performAll (visit fs more) (v.search fs depth))
  | 0, _, _ => fun _ h => absurd rfl h
  | depth + 1, v, hmore => by
    have hvisit : ∀ v, Extends (visit fs (depth + 1) v)
        (Action.performAll (visit fs more) [.visit v]) := by
      intro v
      rw [Action.performAll_singleton]
      exact visit_deeper fs hmore v
    cases v with
    | project file place root => exact hvisit _
    | target path place ignored optional => exact hvisit _
    | directory dir place name ignored =>
      rw [visit, Action.enter_eq, Visit.search, ← Action.performAll_expand fun _ => rfl]
      exact .performAll (fun w => visit_extends_search w (Nat.le_of_succ_le hmore)) _

theorem stop_notMem_of_follow {visit : Visit → Walk Unit} {e : Stop} {d : Course} :
    ∀ {l : List Action} {c : Course}, (Action.performAll visit l).follow c = (.ok (), d) →
      .stop e ∉ l
  | [], _, _, he => absurd he List.not_mem_nil
  | a :: l, c, h, he => by
    rw [Action.performAll_cons, follow_bind] at h
    rcases ha : (a.perform visit).follow c with ⟨_ | _, c'⟩
    · rw [ha] at h
      cases h
    · rw [ha] at h
      rcases List.mem_cons.1 he with rfl | he
      · cases ha
      · exact stop_notMem_of_follow h he

section

variable {ignored : List IgnoreRule} {dir : Path} {place : TreePath} {name : Option String} {v w : Visit}
  {depth : Nat} {n : String}

/-! ## One level of a search -/

/-- The search of a directory asks for all that it may ask for. -/
theorem visit_mem_actions_iff :
    .visit v ∈ (Visit.directory dir place name ignored).actions fs ↔
      Asks fs (.directory dir place name ignored) v := by
  refine ⟨Action.asks_of_mem, fun h => ?_⟩
  unfold Visit.actions Action.ofDirectory Action.listed
  cases h with
  | standard hs => exact absurd rfl hs.ne_directory
  | search hs => exact absurd rfl hs.ne_directory
  | standardBelow hl hn => simp [hl, hn]
  | entry hl hn hcovered hm hproject hfile =>
    simp only [hl, hn, if_false, Action.compared, hcovered, Bool.false_eq_true]
    refine List.mem_append_left _ (List.mem_flatMap.2 ⟨_, hm, ?_⟩)
    simp [Action.ofProjectEntry, Action.asked, hproject, hfile]
  | subdirectory hl hn hcovered hm hdir =>
    simp only [hl, hn, if_false, Action.compared, hcovered, Bool.false_eq_true]
    refine List.mem_append_right _ (List.mem_flatMap.2 ⟨_, hm, ?_⟩)
    simp [Action.ofDirectoryEntry, Action.asked, hdir]

theorem mem_findings_succ : v ∈ (Visit.directory dir place name ignored).findings fs (depth + 1) ↔
    ∃ w, Asks fs (.directory dir place name ignored) w ∧ v ∈ w.findings fs depth := by
  rw [Visit.findings_directory, List.mem_flatMap]
  constructor
  · rintro ⟨a, ha, hv⟩
    cases a with
    | visit w => exact ⟨w, visit_mem_actions_iff.1 ha, hv⟩
    | _ => cases hv
  · rintro ⟨w, hw, hv⟩
    exact ⟨.visit w, visit_mem_actions_iff.2 hw, hv⟩

/-- A visit that is no search finds itself, if anything. -/
theorem findings_of_directory?_eq_none (depth : Nat) (hw : w.directory? = none) :
    w.findings fs depth = [] ∧ .stop .tooDeep ∈ w.search fs depth ∨ w.findings fs depth = [w] := by
  cases depth with
  | zero => exact .inl ⟨rfl, List.mem_singleton_self _⟩
  | succ depth =>
    cases w with
    | directory => cases hw
    | _ => exact .inr rfl

theorem eq_of_mem_findings (hw : w.directory? = none) (h : v ∈ w.findings fs depth) : v = w := by
  rcases findings_of_directory?_eq_none depth hw with ⟨hnil, -⟩ | hself
  · rw [hnil] at h
    cases h
  · rw [hself] at h
    exact List.mem_singleton.1 h

theorem mem_findings_entry
    (h : v ∈ (Action.ofProjectEntry fs dir place n).flatMap (Action.visitsBy (Visit.findings fs depth))) :
    v = .project (dir.child n) place false := by
  obtain ⟨a, ha, hv⟩ := List.mem_flatMap.1 h
  unfold Action.ofProjectEntry at ha
  split at ha
  · rcases Action.mem_asked ha with ⟨isFile, -, ha⟩ | ⟨e, -, rfl⟩
    · split at ha
      · cases List.mem_singleton.1 ha
        exact eq_of_mem_findings rfl hv
      · cases ha
    · cases hv
  · cases ha

theorem mem_findings_subdirectory
    (h : v ∈ (Action.ofDirectoryEntry fs dir place ignored n).flatMap
      (Action.visitsBy (Visit.findings fs depth))) :
    v ∈ (Visit.directory (dir.child n) place (some n) ignored).findings fs depth := by
  obtain ⟨a, ha, hv⟩ := List.mem_flatMap.1 h
  rcases Action.mem_asked ha with ⟨isDirectory, -, ha⟩ | ⟨e, -, rfl⟩
  · split at ha
    · cases List.mem_singleton.1 ha
      exact hv
    · cases ha
  · cases hv

theorem nodup_findings_asked {answer : Except FsError Bool} (h : (w.findings fs depth).Nodup) :
    ((Action.asked answer fun b => if b then [.visit w] else []).flatMap
      (Action.visitsBy (Visit.findings fs depth))).Nodup := by
  rcases answer with e | _ | _
  · exact List.nodup_nil
  · exact List.nodup_nil
  · simpa [Action.asked, Action.visitsBy] using h

theorem nodup_findings_of_directory?_eq_none (hw : w.directory? = none) :
    (w.findings fs depth).Nodup := by
  rcases findings_of_directory?_eq_none depth hw with ⟨hnil, -⟩ | hself
  · rw [hnil]
    exact List.nodup_nil
  · rw [hself]
    exact List.nodup_singleton w

end

section

variable {ignored : List IgnoreRule} {dir : Path} {place : TreePath} {v : Visit}
  (hfs : ∀ dir names n, fs.list dir = .ok names → n ∈ names → IsOrdinary n)
  (hrules : ∀ rule ∈ ignored, rule.Compiles)
include hfs hrules

/-! ## A search finds what is found -/

/-- Whatever a search finds is found. -/
theorem found_of_mem_findings : ∀ {depth : Nat} {dir : Path} {place : TreePath} {name : Option String},
    v ∈ (Visit.directory dir place name ignored).findings fs depth → Found fs ignored dir place name v
  | 0, _, _, _, h => nomatch h
  | depth + 1, dir, place, name, h => by
    obtain ⟨w, hw, hv⟩ := mem_findings_succ.1 h
    cases w with
    | target => exact absurd hw nofun
    | project file place' root =>
      rw [eq_of_mem_findings rfl hv]
      exact .of_asks hfs hrules hw
    | directory sub place' name' ignored' =>
      have hsame : ignored' = ignored := by
        cases hw with
        | search hs => exact absurd rfl hs.ne_directory
        | subdirectory => rfl
      rw [hsame] at hw hv
      exact .of_below hfs hrules hw (found_of_mem_findings hv)

/-- A search that is not too deep finds whatever is found. -/
theorem mem_findings_of_found : ∀ {depth : Nat} {dir : Path} {place : TreePath} {name : Option String},
    .stop .tooDeep ∉ (Visit.directory dir place name ignored).search fs depth →
      Found fs ignored dir place name v → v ∈ (Visit.directory dir place name ignored).findings fs depth
  | 0, _, _, _, hdeep, _ => absurd (List.mem_singleton_self _) hdeep
  | depth + 1, dir, place, name, hdeep, h => by
    have hbelow : ∀ {w}, Asks fs (.directory dir place name ignored) w →
        .stop .tooDeep ∉ w.search fs depth :=
      fun hw he => hdeep (List.mem_flatMap.2 ⟨_, visit_mem_actions_iff.2 hw, he⟩)
    refine mem_findings_succ.2 ?_
    rcases h.cases hfs hrules with hasks | ⟨sub, place', name', hasks, h⟩
    · refine ⟨v, hasks, ?_⟩
      rcases findings_of_directory?_eq_none depth h.directory?_eq_none with ⟨-, he⟩ | hself
      · exact absurd he (hbelow hasks)
      · rw [hself]
        exact List.mem_singleton_self v
    · exact ⟨_, hasks, mem_findings_of_found (hbelow hasks) h⟩

/-! ## Each once -/

/-- What is found below two entries of a directory differs in the name that leads there first. -/
theorem path_of_mem_findings_subdirectory {depth : Nat} {n : String} (hn : IsOrdinary n)
    (h : v ∈ (Action.ofDirectoryEntry fs dir place ignored n).flatMap
      (Action.visitsBy (Visit.findings fs depth))) :
    ∃ parts, parts ≠ [] ∧ v.path = dir.descend (n :: parts) := by
  have hfound := found_of_mem_findings hfs hrules (mem_findings_subdirectory h)
  obtain ⟨parts, hne, hpath⟩ := hfound.exists_path
  rw [Path.child_eq_descend hn.1, Path.descend_descend] at hpath
  exact ⟨parts, hne, hpath⟩

/-- The entries of a directory find different project files: those in it by their names, those below
it by the names of the directories that they are found in. -/
theorem nodup_findings_entries {depth : Nat} {names : List String} (hnames : names.Nodup)
    (hordinary : ∀ n ∈ names, IsOrdinary n)
    (hbelow : ∀ n, ((Visit.directory (dir.child n) place (some n) ignored).findings fs depth).Nodup) :
    ((Action.ofEntries fs dir place ignored names).flatMap
      (Action.visitsBy (Visit.findings fs depth))).Nodup := by
  have hchild : ∀ n ∈ names, dir.child n = dir.descend [n] := fun n hn =>
    Path.child_eq_descend (hordinary n hn).1 dir
  rw [Action.ofEntries, List.flatMap_append, List.flatMap_assoc, List.flatMap_assoc]
  refine List.nodup_append'.2 ⟨List.nodup_flatMap.2 ⟨?_, ?_⟩, List.nodup_flatMap.2 ⟨?_, ?_⟩, ?_⟩
  · intro n _
    unfold Action.ofProjectEntry
    split
    · exact nodup_findings_asked (nodup_findings_of_directory?_eq_none rfl)
    · exact List.nodup_nil
  · refine hnames.imp_of_mem fun {n n'} hn hn' hne v hv hv' => hne ?_
    have hpath : dir.child n = dir.child n' :=
      congrArg Visit.path ((mem_findings_entry hv).symm.trans (mem_findings_entry hv'))
    rw [hchild n hn, hchild n' hn', Path.descend_inj] at hpath
    exact List.head_eq_of_cons_eq hpath
  · exact fun n _ => nodup_findings_asked (hbelow n)
  · refine hnames.imp_of_mem fun {n n'} hn hn' hne v hv hv' => hne ?_
    obtain ⟨parts, -, hpath⟩ := path_of_mem_findings_subdirectory hfs hrules (hordinary n hn) hv
    obtain ⟨parts', -, hpath'⟩ := path_of_mem_findings_subdirectory hfs hrules (hordinary n' hn') hv'
    exact List.head_eq_of_cons_eq (Path.descend_inj.1 (hpath.symm.trans hpath'))
  · -- A project file in the directory is one name below it, one that is found further down is more.
    intro v hv hv'
    obtain ⟨n, hn, hv⟩ := List.mem_flatMap.1 hv
    obtain ⟨n', hn', hv'⟩ := List.mem_flatMap.1 hv'
    obtain ⟨parts, hne, hpath⟩ := path_of_mem_findings_subdirectory hfs hrules (hordinary n' hn') hv'
    have hpath : dir.child n = dir.descend (n' :: parts) := by rwa [mem_findings_entry hv] at hpath
    rw [hchild n hn, Path.descend_inj] at hpath
    exact hne (List.tail_eq_of_cons_eq hpath).symm

/-- If directories list each name once, a search finds each project file once. -/
theorem nodup_findings (hnodup : ∀ dir names, fs.list dir = .ok names → names.Nodup) :
    ∀ (depth : Nat) (dir : Path) (place : TreePath) (name : Option String),
      ((Visit.directory dir place name ignored).findings fs depth).Nodup
  | 0, _, _, _ => List.nodup_nil
  | depth + 1, dir, place, name => by
    rw [Visit.findings_directory, Visit.actions, Action.ofDirectory, Action.listed]
    cases hl : fs.list dir with
    | error e =>
      dsimp only
      split <;> exact List.nodup_nil
    | ok names =>
      dsimp only
      split
      · simpa [Action.visitsBy] using nodup_findings_of_directory?_eq_none rfl
      · rcases hcovered : IgnoreRule.anyCovers ignored dir with fault | _ | _
        · rw [Action.compared, hcovered]
          exact List.nodup_nil
        · rw [Action.compared, hcovered]
          exact nodup_findings_entries hfs hrules (hnodup dir names hl) (hfs dir names · hl ·)
            fun n => nodup_findings hnodup depth (dir.child n) _ (some n)
        · rw [Action.compared, hcovered]
          exact List.nodup_nil

end

/-- A file below a partition stands under the names that lead there from the partition on. -/
theorem treePath_of_newest {r : Resolver} {cwd : List String} {query dir : Path} {place : TreePath}
    {ignored : List IgnoreRule} {chain : List String} {n : String}
    (hcompiles : ∀ p ∈ r.table.partitions, p.Compiles)
    (hfile : (query.normalize cwd).toLuau = dir.descend (chain ++ [n]))
    (hmapped : r.table.fileMap.find? (dir.descend (chain ++ [n])) = none)
    (hnewest : Partition.Newest (dir.descend (chain ++ [n])) r.table.partitions ⟨dir, place, ignored⟩) :
    r.treePath cwd query = .ok (some (place ++ chain ++
      Resolver.remainder (dir.descend (chain ++ [n])).isScript [n])) := by
  obtain ⟨parts, hparts, hserved⟩ := Resolver.inPartitions_of_newest hcompiles hnewest
  cases (Path.below?_descend dir (chain ++ [n])).symm.trans hparts
  unfold Resolver.treePath
  rw [hfile]
  dsimp only
  rw [hmapped]
  dsimp only
  rw [hserved, Resolver.remainder_concat, List.append_assoc]

/-- A search that returns does, at all its levels, what its list says, and the visits that it asks
for are those of the project files that are found, each once. A project file beside others in a
directory is found at the tree path of the directory, under which a resolver finds the files in it. -/
theorem search_finds {fs : FileSystem}
    (hfs : ∀ dir names n, fs.list dir = .ok names → n ∈ names → IsOrdinary n)
    (hnodup : ∀ dir names, fs.list dir = .ok names → names.Nodup) {dir : Path} {place : TreePath}
    {ignored : List IgnoreRule} (hrules : ∀ rule ∈ ignored, rule.Compiles) {depth : Nat} {c d : Course}
    (hrun : (visit fs depth (.directory dir place none ignored)).follow c = (.ok (), d)) :
    let v := Visit.directory dir place none ignored
    (Action.performAll (visit fs depth) (v.search fs depth)).follow c = (.ok (), d) ∧
      (v.findings fs depth).Nodup ∧
      (∀ found, found ∈ v.findings fs depth ↔ Found fs ignored dir place none found) ∧
      ∀ (r : Resolver) (cwd : List String) (query : Path) (chain : List String) (n : String),
        (∀ p ∈ r.table.partitions, p.Compiles) →
        (query.normalize cwd).toLuau = dir.descend (chain ++ [n]) →
        r.table.fileMap.find? (dir.descend (chain ++ [n])) = none →
        Partition.Newest (dir.descend (chain ++ [n])) r.table.partitions ⟨dir, place, ignored⟩ →
        r.treePath cwd query = .ok (some (place ++ chain ++
          Resolver.remainder (dir.descend (chain ++ [n])).isScript [n])) := by
  intro v
  have hsearch : (Action.performAll (visit fs depth) (v.search fs depth)).follow c = (.ok (), d) := by
    rw [visit_extends_search v le_rfl c (by rw [hrun]; exact nofun), hrun]
  have hdeep : .stop .tooDeep ∉ v.search fs depth := stop_notMem_of_follow hsearch
  refine ⟨hsearch, nodup_findings hfs hrules hnodup depth dir place none, fun found => ?_, ?_⟩
  · exact ⟨found_of_mem_findings hfs hrules, mem_findings_of_found hfs hrules hdeep⟩
  · exact fun r cwd query chain n hcompiles hfile hmapped hnewest =>
      treePath_of_newest hcompiles hfile hmapped hnewest

/-- A directory with a project file in it and three directories below, the second and third of which
are ignored: the second one holds a default project. -/
def packages : Stored :=
  [("/p/src", .listing ["a.project.json", "main.luau", "sub", "pkg", "skip"]),
   ("/p/src/a.project.json", .text ""),
   ("/p/src/main.luau", .text ""),
   ("/p/src/sub", .listing ["lib.project.json"]),
   ("/p/src/sub/lib.project.json", .text ""),
   ("/p/src/pkg", .listing ["b.project.json", "default.project.json"]),
   ("/p/src/pkg/b.project.json", .text ""),
   ("/p/src/pkg/default.project.json", .text ""),
   ("/p/src/skip", .listing ["c.project.json"]),
   ("/p/src/skip/c.project.json", .text "")]

theorem search_finds_packages :
    let fs := packages.fileSystem
    let rules : List IgnoreRule := [⟨⟨.root, ["p"]⟩, "src/pkg"⟩, ⟨⟨.root, ["p"]⟩, "skip"⟩]
    let src : Path := ⟨.root, ["p", "src"]⟩
    let v := Visit.directory src ["S"] none rules
    let c : Course := ⟨.empty, []⟩
    (∀ dir names n, fs.list dir = .ok names → n ∈ names → IsOrdinary n) ∧
      (∀ dir names, fs.list dir = .ok names → names.Nodup) ∧ (∀ rule ∈ rules, rule.Compiles) ∧
      (∃ d, (visit fs 4 v).follow c = (.ok (), d)) ∧
      (∀ found, Found fs rules src ["S"] none found ↔
        found = .project (src.descend ["a.project.json"]) ["S"] false ∨
        found = .project (src.descend ["sub", "lib.project.json"]) ["S", "sub"] false ∨
        found = .project (src.descend ["pkg", "default.project.json"]) ["S"] false) ∧
      (Resolver.mk (.register ⟨src, ["S"], rules⟩ .empty) .standard).treePath []
        (src.descend ["sub", "x.luau"]) = .ok (some ["S", "sub", "x"]) := by
  intro fs rules src v c
  have hplain : ∀ e ∈ packages, e.2.isPlain = true := by decide
  have hfs : ∀ dir names n, fs.list dir = .ok names → n ∈ names → IsOrdinary n :=
    (Stored.healthy hplain (by decide +kernel) fun _ => True).bounded.listed
  have hnodup : ∀ dir names, fs.list dir = .ok names → names.Nodup :=
    fun _ _ => Stored.nodup_of_listed (s := packages) (by decide)
  have hrules : ∀ rule ∈ rules, rule.Compiles := by decide +kernel
  obtain ⟨d, hrun⟩ : ∃ d, (visit fs 4 v).follow c = (.ok (), d) :=
    exists_follow_eq_ok (by decide +kernel)
  obtain ⟨-, -, hfound, hplace⟩ := search_finds hfs hnodup hrules hrun
  refine ⟨hfs, hnodup, hrules, ⟨d, hrun⟩, fun found => ?_, ?_⟩
  · have hfindings : v.findings fs 4 =
        [.project (src.descend ["a.project.json"]) ["S"] false,
          .project (src.descend ["sub", "lib.project.json"]) ["S", "sub"] false,
          .project (src.descend ["pkg", "default.project.json"]) ["S"] false] := by decide +kernel
    rw [← hfound found, hfindings]
    simp
  · have hname : Resolver.remainder (src.descend (["sub"] ++ ["x.luau"])).isScript ["x.luau"] = ["x"] := by
      decide +kernel
    have hserves : Partition.Serves ⟨src, ["S"], rules⟩ (src.descend ["sub", "x.luau"]) :=
      ⟨⟨_, Path.below?_descend src _⟩,
        IgnoreRule.anyCovers_eq_false.1 (toOption_eq_some.1 (by decide +kernel))⟩
    refine (hplace _ [] _ ["sub"] "x.luau" (fun p hp => ?_) (by decide +kernel) rfl
      ⟨[], [], rfl, hserves, nofun⟩).trans ?_
    · exact List.mem_singleton.1 hp ▸ hrules
    · rw [hname]
      rfl

end Walk

end PlaceMap
