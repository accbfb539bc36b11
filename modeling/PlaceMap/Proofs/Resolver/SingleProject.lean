/-
What a single project means, from its file to the answers of its resolver: of a path that a rule
covers nothing is known; a data file stands where the last node that is bound to it says; and every
other path stands below the last node whose target holds it.

The walk drops the targets that a rule covers, and a query asks the rules once more. This cannot be
told from asking them of the path alone: a rule that covers a target covers all that lies in it.
-/
import PlaceMap.Proofs.FileSystem.Stored
import PlaceMap.Proofs.Resolver.Query
import PlaceMap.Proofs.Table.FileMap
import PlaceMap.Proofs.Walk.Mapping
import PlaceMap.Proofs.Walk.Searching
import PlaceMap.Proofs.Walk.Stopping

namespace PlaceMap

open IgnoreRule (Covered)
open Resolver (remainder inPartitions inPartitions_cons)
open Walk (Reached Asks AsksIn Stops Settles Lists Maps)

/-! ## The meaning of a project -/

/-- The targets of a project in the order of the document, each with the tree path of its node. -/
def Project.targets (p : Project) (fs : FileSystem) (file : Path) : List (TreePath × Path) :=
  (p.tree.bindings []).map fun e => (e.1, (e.2.target fs file.parent).toLuau)

/-- The tree path of a node that is bound to the data file `path`. -/
def Project.placeAt (path : Path) (b : TreePath × Path) : Option TreePath :=
  if b.2.isData = true ∧ b.2 = path then some b.1 else none

/-- The tree path of `path` below a node whose target holds it. -/
def Project.placeBelow (path : Path) (b : TreePath × Path) : Option TreePath :=
  if b.2.isData = true then none
  else (path.below? b.2).map fun parts => b.1 ++ remainder path.isScript parts

/-- Where a path stands by the rules and the targets of a project. -/
def Project.answer (rules : List IgnoreRule) (targets : List (TreePath × Path)) (path : Path) :
    Option TreePath :=
  if Covered rules path then none
  else (targets.reverse.findSome? (placeAt path)).or (targets.reverse.findSome? (placeBelow path))

/-- Takes up a target unless a rule covers it. -/
def Project.record (rules : List IgnoreRule) (m : Mapping) (b : TreePath × Path) : Mapping :=
  if Covered rules b.2 then m else m.settle rules b.1 b.2

/-- A project file that loads and stands for itself: its globs compile, no target is a project file,
and the directories that its build lists can be listed and hold no project files. -/
structure Project.Standalone (fs : FileSystem) (file : String) (p : Project) : Prop where
  load : Project.load fs (fs.normalize (.ofString file)) = .ok p
  compiles : ∀ rule ∈ p.rules (fs.normalize (.ofString file)), rule.Compiles
  targets : ∀ b ∈ p.targets fs (fs.normalize (.ofString file)), FileName.isProject b.2.name = false
  lists : ∀ dir, Lists fs (.project file) dir →
    ∃ names, fs.list dir = .ok names ∧ ∀ n ∈ names, FileName.isProject n = false

/-- The visits of a project that stands for itself: its file, its targets, and directories. -/
def Project.Visits (p : Project) (fs : FileSystem) (file : Path) : Visit → Prop
  | .project f place root => f = file ∧ place = [] ∧ root = true
  | .target path place ignored _ => ignored = p.rules file ∧ (place, path.toLuau) ∈ p.targets fs file
  | .directory _ _ _ ignored => ignored = p.rules file

namespace Project.Standalone

variable {fs : FileSystem} {file : String} {p : Project}

/-! ## The visits of its build -/

theorem noProjects (h : p.Standalone fs file) : Walk.NoProjects fs (.project file) := by
  intro dir names n hdir hl hn
  obtain ⟨found, hfound, hnone⟩ := h.lists dir hdir
  rw [hl] at hfound
  cases hfound
  exact hnone n hn

theorem not_project (h : p.Standalone fs file) {dir : Path} {names : List String}
    (hdir : Lists fs (.project file) dir) (hl : fs.list dir = .ok names) {n : String}
    (hn : n ∈ names) : ¬ FileName.isProject n = true := by
  rw [h.noProjects dir names n hdir hl hn]
  exact Bool.false_ne_true

theorem no_default (h : p.Standalone fs file) {dir : Path} {names : List String}
    (hdir : Lists fs (.project file) dir) (hl : fs.list dir = .ok names) :
    FileName.defaultProject ∉ names := h.noProjects.no_default hdir hl

theorem visits (h : p.Standalone fs file) {v : Visit} (hv : Reached fs (.project file) v) :
    p.Visits fs (fs.normalize (.ofString file)) v := by
  -- Every way to another project leads over a listed name or a target that the hypotheses exclude.
  induction hv with
  | start hs =>
    cases hs
    exact ⟨rfl, rfl, rfl⟩
  | ask hv ha ih =>
    cases ha with
    | binding hload he =>
      obtain ⟨rfl, rfl, rfl⟩ := ih
      cases h.load.symm.trans hload
      exact ⟨rfl, List.mem_map.2 ⟨_, he, rfl⟩⟩
    | included _ hproject =>
      rw [h.targets _ ih.2] at hproject
      cases hproject
    | standard hs hdata hdir hl hn => exact absurd hn (h.no_default (.target hv hs hdata hdir) hl)
    | search hs =>
      obtain ⟨raw, optional, rfl, -⟩ := hs
      exact ih.1
    | standardBelow hl hn => exact absurd hn (h.no_default (.directory hv) hl)
    | entry hl _ _ hn hproject => exact absurd hproject (h.not_project (.directory hv) hl hn)
    | subdirectory => exact ih

/-- What stops the build of a project that stands for itself is a test of the file system. -/
theorem stops (h : p.Standalone fs file) {v : Visit} {e : Stop} (hv : Reached fs (.project file) v)
    (he : Stops fs v e) :
    ∃ cause, e = .failed cause ∧ ∃ path, fs.has path = .error cause ∨
      fs.isDirectory path = .error cause := by
  have hvisits := h.visits hv
  have hanswer : ∀ {rules path fault}, rules = p.rules (fs.normalize (.ofString file)) →
      IgnoreRule.anyCovers rules path ≠ .error fault := by
    rintro rules path fault rfl hfault
    rw [IgnoreRule.anyCovers_of_compiles h.compiles] at hfault
    cases hfault
  have hlisted : ∀ {dir cause}, Lists fs (.project file) dir → fs.list dir ≠ .error cause := by
    intro dir cause hdir hl
    obtain ⟨names, hnames, -⟩ := h.lists dir hdir
    rw [hl] at hnames
    cases hnames
  cases he with
  | load hload =>
    obtain ⟨rfl, -⟩ := hvisits
    rw [h.load] at hload
    cases hload
  | oversized hload =>
    obtain ⟨rfl, -⟩ := hvisits
    rw [h.load] at hload
    cases hload
  | glob hc => exact absurd hc (hanswer hvisits.1)
  | existence hhas => exact ⟨_, rfl, _, .inl hhas⟩
  | kind _ hdir => exact ⟨_, rfl, _, .inr hdir⟩
  | target hs hdata hdir hl => exact absurd hl (hlisted (.target hv hs hdata hdir))
  | directory hl => exact absurd hl (hlisted (.directory hv))
  | globBelow hc => exact absurd hc (hanswer hvisits)
  | entry hl hn hproject => exact absurd hproject (h.not_project (.directory hv) hl hn)
  | subdirectory _ _ hdir => exact ⟨_, rfl, _, .inr hdir⟩

/-! ## What its build maps -/

/-- A search without project files maps nothing. -/
theorem directory_maps (h : p.Standalone fs file) (depth : Nat) {dir : Path} {place : TreePath}
    {name : Option String} {ignored : List IgnoreRule}
    (hv : Reached fs (.project file) (.directory dir place name ignored)) :
    Maps id (Walk.visit fs depth (.directory dir place name ignored)) := by
  intro c _
  obtain ⟨ws, -, hnow⟩ := h.noProjects.search_onlyWarns depth hv c
  rw [hnow]
  rfl

theorem settle_maps (h : p.Standalone fs file) (depth : Nat) {v : Visit} {path : Path}
    {place : TreePath} {ignored : List IgnoreRule} (hv : Reached fs (.project file) v)
    (hs : Settles v path place ignored) (found : Bool) :
    Maps (fun m => m.settle ignored place path)
      (Walk.settle fs (Walk.visit fs depth) path place ignored found) := by
  unfold Walk.settle
  cases hdata : path.isData with
  | true =>
    rw [if_pos rfl]
    exact .mapFile hdata place ignored
  | false =>
    rw [if_neg Bool.false_ne_true]
    have hregister := Maps.register hdata place ignored
    cases found with
    | false => exact hregister
    | true =>
      refine Walk.ask_cases (fun e _ => .throw _) fun isDirectory hdir => ?_
      cases isDirectory with
      | false => exact hregister
      | true =>
        -- The directory is registered, and the search of it maps nothing more.
        have hlists : Lists fs (.project file) path := .target hv hs hdata hdir
        obtain ⟨names, hl, -⟩ := h.lists path hlists
        have hdefault := h.no_default hlists hl
        have hcontains : ¬ names.contains FileName.defaultProject = true := fun hc =>
          hdefault (List.contains_iff_mem.1 hc)
        unfold Walk.targetDirectory
        rw [Walk.list_of_ok hl, if_pos rfl, pure_bind]
        dsimp only
        rw [if_neg hcontains]
        have hsearch := h.directory_maps depth (.ask hv (.search hs hdata hdir hl hdefault))
        exact hregister.bind_id hsearch

theorem target_maps (h : p.Standalone fs file) (depth : Nat) {path : Path} {place : TreePath}
    {ignored : List IgnoreRule} {optional : Bool}
    (hv : Reached fs (.project file) (.target path place ignored optional)) :
    Maps (fun m => record ignored m (place, path.toLuau))
      (Walk.visit fs depth (.target path place ignored optional)) := by
  cases depth with
  | zero => exact .throw _
  | succ depth =>
    obtain ⟨hrules, htarget⟩ := h.visits hv
    have hproject := h.targets (place, path.toLuau) htarget
    dsimp only at hproject
    have hanswer : IgnoreRule.anyCovers ignored path.toLuau =
        .ok (decide (Covered ignored path.toLuau)) :=
      IgnoreRule.anyCovers_of_compiles (hrules ▸ h.compiles)
    rw [Walk.visit, Walk.enter]
    unfold Walk.target record
    refine Walk.isIgnored_cases (fun _ _ => .throw _) fun covered hcovered => ?_
    rw [hanswer] at hcovered
    cases hcovered
    by_cases hc : Covered ignored path.toLuau
    · simp only [hc, decide_true, if_true]
      exact .pure
    · rw [decide_eq_false hc] at hanswer
      have hs : Settles (.target path place ignored optional) path.toLuau place ignored :=
        ⟨path, optional, rfl, rfl, hanswer, hproject⟩
      simp only [hc, decide_false, if_false, Bool.false_eq_true]
      refine Walk.ask_cases (fun e _ => .throw _) fun found _ => ?_
      -- Whether the target exists makes no difference but for a warning.
      rw [hproject, if_neg Bool.false_ne_true]
      have hsettle := h.settle_maps depth hv hs found
      unfold Walk.plainTarget
      split
      · exact hsettle
      · exact (Maps.warn _).id_bind hsettle

theorem project_maps (h : p.Standalone fs file) (depth : Nat) :
    Maps (fun m => (p.targets fs (fs.normalize (.ofString file))).foldl
        (record (p.rules (fs.normalize (.ofString file)))) m)
      (Walk.visit fs depth (.project (fs.normalize (.ofString file)) [] true)) := by
  cases depth with
  | zero => exact .throw _
  | succ depth =>
    rw [Walk.visit, Walk.enter]
    unfold Walk.project Project.targets TreeNode.bindings
    rw [h.load]
    simp only [List.foldl_map, List.foldl_filterMap]
    unfold Walk.tree
    rw [Walk.nodes_eq_forM]
    refine Maps.forM _ fun e he => Maps.bind_id ?_ ?_
    · unfold Walk.bound
      rcases hb : e.2.binding with _ | b
      · exact .pure
      · have hbinding : (e.1, b) ∈ p.tree.bindings [] := TreeNode.mem_bindings.2 ⟨e.2, he, hb⟩
        exact h.target_maps depth (.ask (.start rfl) (.binding h.load hbinding))
    · unfold Walk.noteClass
      split
      · exact .change fun _ => rfl
      · exact .pure

/-- The mapping of the resolver: the targets that no rule covers, taken up one after another. -/
theorem mapping_eq (h : p.Standalone fs file) {depth : Nat} {config : Config} {r : Resolver}
    (hbuild : Resolver.build fs depth config (.project file) = .ok r) :
    r.table.mapping = (p.targets fs (fs.normalize (.ofString file))).foldl
      (record (p.rules (fs.normalize (.ofString file)))) .empty := by
  obtain ⟨hrun, rfl⟩ := Resolver.build_eq_ok hbuild
  have hmaps := h.project_maps depth ⟨.empty, []⟩
  rw [show Walk.visit fs depth (.project (fs.normalize (.ofString file)) [] true) =
    Resolver.Source.walk fs depth (.project file) from rfl, hrun] at hmaps
  exact hmaps rfl

end Project.Standalone

/-! ## Queries to a recorded mapping -/

namespace Project

variable {rules : List IgnoreRule} {path : Path}

theorem placeAt_of_covered {b : TreePath × Path} (hb : Covered rules b.2)
    (h : ¬ Covered rules path) : placeAt path b = none :=
  if_neg fun hpath : _ ∧ b.2 = path => h (hpath.2 ▸ hb)

theorem placeBelow_of_covered {b : TreePath × Path} (hb : Covered rules b.2)
    (h : ¬ Covered rules path) : placeBelow path b = none := by
  unfold placeBelow
  split
  · rfl
  · rcases hbelow : path.below? b.2 with _ | parts
    · rfl
    · exact absurd (hb.below hbelow) h

theorem find?_recorded (bs : List (TreePath × Path)) :
    (bs.foldr (fun b m => record rules m b) .empty).files.find? path =
      if Covered rules path then none else bs.findSome? (placeAt path) := by
  -- A target that a rule covers is missing on the left; on the right it cannot be the path's own.
  induction bs with
  | nil => exact (ite_self _).symm
  | cons b bs ih =>
    rw [List.foldr_cons, List.findSome?_cons, record]
    by_cases hb : Covered rules b.2
    · rw [if_pos hb, ih]
      split
      · rfl
      · rename_i h
        rw [placeAt_of_covered hb h]
    · rw [if_neg hb, Mapping.settle]
      cases hdata : b.2.isData with
      | false => simp only [placeAt, hdata, Bool.false_eq_true, false_and, if_false, ih]
      | true =>
        simp only [if_true, FileMap.find?_insert, placeAt, hdata, true_and, ih]
        by_cases hpath : b.2 = path
        · have hc : ¬ Covered rules path := hpath ▸ hb
          simp only [hpath, if_true, hc, if_false]
        · simp only [hpath, if_false]

theorem inPartitions_recorded (hrules : ∀ rule ∈ rules, rule.Compiles) (bs : List (TreePath × Path)) :
    inPartitions path (bs.foldr (fun b m => record rules m b) .empty).partitions =
      .ok (if Covered rules path then none else bs.findSome? (placeBelow path)) := by
  -- Here a covered target is missing as well, and what it holds is covered with it.
  induction bs with
  | nil => rw [List.findSome?_nil, ite_self]; rfl
  | cons b bs ih =>
    rw [List.foldr_cons, List.findSome?_cons, record]
    by_cases hb : Covered rules b.2
    · rw [if_pos hb, ih]
      split
      · rfl
      · rename_i h
        rw [placeBelow_of_covered hb h]
    · rw [if_neg hb, Mapping.settle, placeBelow]
      cases hdata : b.2.isData with
      | true => simp only [if_true, ih]
      | false =>
        simp only [Bool.false_eq_true, if_false]
        rw [inPartitions_cons, IgnoreRule.anyCovers_of_compiles hrules]
        dsimp only
        rcases path.below? b.2 with _ | parts
        · exact ih
        · by_cases h : Covered rules path
          · simp only [h, decide_true, if_true, ih]
          · simp only [h, decide_false, if_false, Option.map_some]

/-- A resolver of targets that were taken up one after another answers by their rules alone. -/
theorem treePath_recorded {r : Resolver} {targets : List (TreePath × Path)}
    (hrules : ∀ rule ∈ rules, rule.Compiles)
    (hmapping : r.table.mapping = targets.foldl (record rules) .empty) (cwd : List String)
    (query : Path) :
    r.treePath cwd query = .ok (answer rules targets (query.normalize cwd).toLuau) := by
  rw [List.foldl_eq_foldr_reverse] at hmapping
  have hfiles := congrArg Mapping.files hmapping
  have hpartitions := congrArg Mapping.partitions hmapping
  unfold Table.mapping at hfiles hpartitions
  unfold Resolver.treePath answer
  dsimp only at hfiles hpartitions ⊢
  rw [hfiles, hpartitions, find?_recorded, inPartitions_recorded hrules]
  by_cases hc : Covered rules (query.normalize cwd).toLuau
  · simp only [hc, if_true]
  · simp only [hc, if_false]
    cases targets.reverse.findSome? (placeAt (query.normalize cwd).toLuau) <;> rfl

end Project

/-- A project that stands for itself has a resolver, which answers every query as the rules and the
targets of the project say, unless a test of the file system fails during the build, or directories
are nested as deep as the limit allows. -/
theorem Resolver.ofProject_answers {fs : FileSystem} {file : String} {p : Project}
    (h : p.Standalone fs file) (depth : Nat) (config : Config) :
    (∃ r, ofProject fs depth config (.ofString file) = .ok r ∧
      ∀ cwd query, r.treePath cwd (.ofString query) =
        .ok (Project.answer (p.rules (fs.normalize (.ofString file)))
          (p.targets fs (fs.normalize (.ofString file)))
          ((Path.ofString query).normalize cwd).toLuau)) ∨
    (∃ e path, ofProject fs depth config (.ofString file) = .error (.failed e) ∧
      (fs.has path = .error e ∨ fs.isDirectory path = .error e)) ∨
    (ofProject fs depth config (.ofString file) = .error .tooDeep ∧
      ∃ v, AsksIn fs depth (.project (fs.normalize (.ofString file)) [] true) v) := by
  rcases hbuild : build fs depth config (.project file) with e | r
  · right
    rcases build_eq_error hbuild with ⟨rfl, v, v', hv, hchain⟩ | ⟨v, hv, he⟩
    · cases hv
      exact .inr ⟨hbuild, v', hchain⟩
    · obtain ⟨cause, rfl, path, hpath⟩ := h.stops hv he
      exact .inl ⟨cause, path, hbuild, hpath⟩
  · left
    exact ⟨r, hbuild, fun cwd query =>
      Project.treePath_recorded h.compiles (h.mapping_eq hbuild) cwd _⟩

/-- A project that binds a directory and, twice, a data file, and that ignores `out`. -/
def aliasedData : Stored :=
  [("/p.json", .text ("\x7b\"name\":\"p\",\"globIgnorePaths\":[\"out\"],\"tree\":" ++
      "\x7b\"$path\":\"src\",\"b\":\x7b\"$path\":\"c.toml\"\x7d,\"c\":\x7b\"$path\":\"c.toml\"\x7d\x7d\x7d")),
   ("/src/a.luau", .text "")]

/-- Of the two nodes that are bound to the data file the last one counts. -/
theorem Resolver.ofProject_answers_aliased :
    let fs := aliasedData.fileSystem
    ∃ (p : Project) (r : Resolver), p.Standalone fs "/p.json" ∧
      ofProject fs 3 ⟨[], [], []⟩ (.ofString "/p.json") = .ok r ∧
      r.treePath [] (.ofString "/c.toml") = .ok (some ["c"]) ∧
      r.treePath [] (.ofString "src/x/init.lua") = .ok (some ["x"]) ∧
      r.treePath [] (.ofString "out/a.luau") = .ok none := by
  intro fs
  have hread : (Project.load fs (fs.normalize (.ofString "/p.json"))).toOption.map (fun p =>
      (p.rules (fs.normalize (.ofString "/p.json")), p.targets fs (fs.normalize (.ofString "/p.json")))) =
        some ([⟨⟨.root, []⟩, "out"⟩],
          [([], ⟨.root, ["src"]⟩), (["b"], ⟨.root, ["c.toml"]⟩), (["c"], ⟨.root, ["c.toml"]⟩)]) := by
    decide +kernel
  have hends : (ofProject fs 3 ⟨[], [], []⟩ (.ofString "/p.json")).isOk = true := by
    decide +kernel
  have hnames : ∀ e ∈ aliasedData, ∀ n ∈ (Path.ofString e.1).parts, FileName.isProject n = false := by
    decide +kernel
  rcases hload : Project.load fs (fs.normalize (.ofString "/p.json")) with e | p
  · rw [hload] at hread
    cases hread
  rw [hload] at hread
  obtain ⟨hrules, htargets⟩ := Prod.mk.inj (Option.some.inj hread)
  have hp : p.Standalone fs "/p.json" := by
    refine ⟨hload, ?_, ?_, fun dir hdir => ?_⟩
    · rw [hrules]
      decide +kernel
    · rw [htargets]
      decide +kernel
    · have hlist : aliasedData.list dir = .ok (aliasedData.names dir) :=
        Stored.list_of_hasDirectory (by simp [aliasedData]) (Except.ok.inj hdir.isDirectory)
      refine ⟨_, hlist, fun n hn => ?_⟩
      obtain ⟨e, he, hpart⟩ := Stored.mem_names hn
      exact hnames e he n hpart
  rcases ofProject_answers hp 3 ⟨[], [], []⟩ with
    ⟨r, hbuild, hanswers⟩ | ⟨e, path, hbuild, -⟩ | ⟨hbuild, -⟩
  · rw [hrules, htargets] at hanswers
    refine ⟨p, r, hp, hbuild, ?_, ?_, ?_⟩
    all_goals
      rw [hanswers, Except.ok.injEq]
      decide +kernel
  · rw [hbuild] at hends
    cases hends
  · rw [hbuild] at hends
    cases hends

end PlaceMap
