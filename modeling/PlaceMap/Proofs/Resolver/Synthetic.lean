/-
The resolver of a directory without project files. Every file in the directory, whether it exists
or not, is found at the tree path that its parts below the directory spell, and the build has no
complaint but for directories that cannot be listed.

The directory is bound by its path as any target is, and is taken for a script or a data file if it
is named like one. So its own name does matter: a directory whose name ends in `.lua`, `.json` or
`.toml` is not searched, and what it holds is not found.
-/
import PlaceMap.Proofs.Path.Relocation
import PlaceMap.Proofs.Resolver.Query
import PlaceMap.Proofs.Walk.Searching
import PlaceMap.Proofs.Walk.Stopping

namespace PlaceMap

open Walk (Asks AsksIn Lists NoProjects Reached Starts Stops)

/-- A directory that exists and can be listed, and at and below which nothing is named like a
project file. -/
structure FileSystem.IsBare (fs : FileSystem) (base : String) : Prop where
  has : fs.has (fs.normalize (.ofString base)) = .ok true
  isDirectory : fs.isDirectory (fs.normalize (.ofString base)) = .ok true
  list : ∃ names, fs.list (fs.normalize (.ofString base)) = .ok names
  name : FileName.isProject (fs.normalize (.ofString base)).name = false
  noProjects : NoProjects fs (.directory base)

namespace FileSystem.IsBare

variable {fs : FileSystem} {base : String}

theorem isNormal (fs : FileSystem) (base : String) : (fs.normalize (.ofString base)).IsNormal :=
  fs.isNormal_normalize (Path.ofString_proper base)

/-- The text of a normal path leads back to it. -/
theorem target_eq (fs : FileSystem) (base : String) :
    (Binding.required (fs.normalize (.ofString base)).toText).target fs
      (fs.normalize (fs.normalize (.ofString base))) = fs.normalize (.ofString base) := by
  have hnormal := isNormal fs base
  unfold Binding.target Binding.path Path.join
  dsimp only
  rw [Path.ofString_toText hnormal.proper, if_neg hnormal.1]
  exact hnormal.normalize_eq _

theorem starts (fs : FileSystem) (base : String) {v : Visit} (h : Starts fs (.directory base) v) :
    v = .target (fs.normalize (.ofString base)) [] [] false := by
  obtain ⟨e, he, rfl⟩ := h
  cases List.mem_singleton.1 he
  exact congrArg (Visit.target · [] [] false) (target_eq fs base)

theorem walk_eq (fs : FileSystem) (base : String) (depth : Nat) :
    Resolver.Source.walk fs depth (.directory base) =
      Walk.visit fs depth (.target (fs.normalize (.ofString base)) [] [] false) := by
  rw [Action.walk_eq]
  show Action.performAll _ [.visit (.target _ [] [] false)] = _
  rw [Action.performAll_singleton, Action.perform]
  exact congrArg (fun path => Walk.visit fs depth (.target path [] [] false)) (target_eq fs base)

theorem toLuau_eq (hsuffix : (fs.normalize (.ofString base)).suffix ∉ [".lua", ".json", ".toml"]) :
    (fs.normalize (.ofString base)).toLuau = fs.normalize (.ofString base) :=
  Path.toLuau_of_suffix_ne fun hlua => hsuffix (by rw [hlua]; decide)

theorem isData_eq (hsuffix : (fs.normalize (.ofString base)).suffix ∉ [".lua", ".json", ".toml"]) :
    (fs.normalize (.ofString base)).isData = false := by
  refine Bool.eq_false_iff.2 fun hdata => hsuffix ?_
  rcases Path.isData_iff.1 hdata with he | he <;> rw [he] <;> decide

section

variable (h : fs.IsBare base)
  (hsuffix : (fs.normalize (.ofString base)).suffix ∉ [".lua", ".json", ".toml"])
include h hsuffix

theorem reached_search : Reached fs (.directory base)
    (.directory (fs.normalize (.ofString base)) [] none []) := by
  obtain ⟨names, hl⟩ := h.list
  have hs : Walk.Settles (.target (fs.normalize (.ofString base)) [] [] false)
      (fs.normalize (.ofString base)) [] [] :=
    ⟨_, false, rfl, (toLuau_eq hsuffix).symm, rfl, h.name⟩
  have hstart : Starts fs (.directory base) (.target (fs.normalize (.ofString base)) [] [] false) :=
    ⟨([], .required (fs.normalize (.ofString base)).toText), List.mem_singleton_self _,
      congrArg (Visit.target · [] [] false) (target_eq fs base).symm⟩
  have hdata := isData_eq hsuffix
  have hdefault := h.noProjects.no_default (.target (.start hstart) hs hdata h.isDirectory) hl
  exact .ask (.start hstart) (.search hs hdata h.isDirectory hl hdefault)

/-- The directory is registered and searched. -/
theorem actions_eq : (Visit.target (fs.normalize (.ofString base)) [] [] false).actions fs =
    [.register ⟨fs.normalize (.ofString base), [], []⟩,
      .visit (.directory (fs.normalize (.ofString base)) [] none [])] := by
  obtain ⟨names, hl⟩ := h.list
  have hdefault := h.noProjects.no_default (.directory (reached_search h hsuffix)) hl
  unfold Visit.actions Action.ofTarget Action.compared
  simp only [toLuau_eq hsuffix, IgnoreRule.anyCovers, Bool.false_eq_true, if_false, h.has,
    Action.asked, h.name, Bool.true_or, if_true, List.nil_append, Action.ofSettled,
    isData_eq hsuffix, h.isDirectory, Action.ofTargetDirectory, Action.listed, hl, hdefault]

/-- The visits of the build: the directory as a target, and searches. -/
theorem visits {v : Visit} (hv : Reached fs (.directory base) v) :
    v = .target (fs.normalize (.ofString base)) [] [] false ∨
      ∃ dir place name, v = .directory dir place name [] := by
  induction hv with
  | start hs => exact .inl (starts fs base hs)
  | ask hv ha ih =>
    rcases ih with rfl | ⟨dir, place, name, rfl⟩
    · cases ha with
      | included _ hproject =>
        rw [toLuau_eq hsuffix, h.name] at hproject
        cases hproject
      | standard hs hdata hdir hl hn =>
        exact absurd hn (h.noProjects.no_default (.target hv hs hdata hdir) hl)
      | search hs =>
        obtain ⟨raw, optional, he, -⟩ := hs
        cases he
        exact .inr ⟨_, _, _, rfl⟩
    · cases ha with
      | standard hs | search hs => exact absurd rfl hs.ne_directory
      | standardBelow hl hn => exact absurd hn (h.noProjects.no_default (.directory hv) hl)
      | entry hl _ _ hn hproject =>
        rw [h.noProjects _ _ _ (.directory hv) hl hn] at hproject
        cases hproject
      | subdirectory => exact .inr ⟨_, _, _, rfl⟩

/-- What stops the build is the file system, at a question about something below the directory. -/
theorem stops {v : Visit} {e : Stop} (hv : Reached fs (.directory base) v) (he : Stops fs v e) :
    ∃ cause path, e = .failed cause ∧
      (fs.isDirectory path = .error cause ∨ fs.list path = .error cause ∧ cause.isSystem = false) := by
  rcases visits h hsuffix hv with rfl | ⟨dir, place, name, rfl⟩
  · cases he with
    | glob hc => cases hc
    | existence hhas =>
      rw [toLuau_eq hsuffix, h.has] at hhas
      cases hhas
    | kind _ hdir => exact ⟨_, _, rfl, .inl hdir⟩
    | target _ _ _ hl hsystem => exact ⟨_, _, rfl, .inr ⟨hl, hsystem⟩⟩
  · cases he with
    | kind _ hdir => exact ⟨_, _, rfl, .inl hdir⟩
    | target _ _ _ hl hsystem => exact ⟨_, _, rfl, .inr ⟨hl, hsystem⟩⟩
    | directory hl hsystem => exact ⟨_, _, rfl, .inr ⟨hl, hsystem⟩⟩
    | globBelow hc => cases hc
    | entry hl hn hproject =>
      rw [h.noProjects _ _ _ (.directory hv) hl hn] at hproject
      cases hproject
    | subdirectory _ _ hdir => exact ⟨_, _, rfl, .inl hdir⟩

/-- The directory is the one partition of its resolver, and no file is mapped. -/
theorem table_eq {depth : Nat} {config : Config} {r : Resolver}
    (hbuild : Resolver.build fs depth config (.directory base) = .ok r) :
    ∃ ws, (∀ w ∈ ws, ∃ dir cause, w = .unreadable dir cause) ∧
      r.table = ⟨[], [⟨fs.normalize (.ofString base), [], []⟩], false, ws⟩ := by
  obtain ⟨hrun, rfl⟩ := Resolver.build_eq_ok hbuild
  rw [walk_eq] at hrun ⊢
  cases depth with
  | zero => cases hrun
  | succ depth =>
    unfold Walk.course
    rw [Walk.visit, Action.enter_eq, actions_eq h hsuffix, Action.performAll_cons,
      Action.performAll_singleton, Action.perform, Action.perform,
      Walk.follow_bind_ok (Walk.follow_change _ _)]
    obtain ⟨ws, hws, hnow⟩ := h.noProjects.search_onlyWarns depth (reached_search h hsuffix)
      (Course.change (Table.register ⟨fs.normalize (.ofString base), [], []⟩) ⟨.empty, []⟩)
    exact ⟨ws, hws, hnow⟩

end

end FileSystem.IsBare

namespace Resolver

/-- A query for a path below the one partition of a resolver, which has no rules. -/
theorem treePath_below {r : Resolver} {dir : Path} {ws : List Warning}
    (h : r.table = ⟨[], [⟨dir, [], []⟩], false, ws⟩) {parts : List String} (hne : parts ≠ [])
    {cwd : List String} {query : Path} (hquery : query.normalize cwd = dir.descend parts) :
    r.treePath cwd query =
      .ok (some (remainder (Path.toLuau ⟨.relative, parts⟩).isScript
        (Path.toLuau ⟨.relative, parts⟩).parts)) := by
  unfold treePath
  rw [h, hquery, Path.toLuau_descend dir hne]
  dsimp only [FileMap.find?, List.find?_nil, Option.map_none]
  rw [inPartitions_cons, Path.below?_descend, Path.isScript_descend dir (Path.parts_toLuau_ne_nil hne)]
  rfl

/-- The resolver of a directory without project files, whose name does not end like that of a script
or a data file, finds every file in it by its parts below the directory, however the query spells
it; and its build complains of nothing but directories that cannot be listed. The build returns
unless the file system stops it or directories are nested as deep as the limit allows. -/
theorem synthetic_answers {fs : FileSystem} {base : String} (h : fs.IsBare base)
    (hsuffix : (fs.normalize (.ofString base)).suffix ∉ [".lua", ".json", ".toml"]) (depth : Nat)
    (config : Config) :
    (∃ r, synthetic fs depth config (.ofString base) = .ok r ∧
      (∀ w ∈ r.table.warnings, ∃ dir cause, w = .unreadable dir cause) ∧
      ∀ parts, parts ≠ [] → (∀ part ∈ parts, FileName.IsOrdinary part) → ∀ cwd query,
        Path.normalize cwd query = fs.normalize ((Path.ofString base).join ⟨.relative, parts⟩) →
        r.treePath cwd query =
          .ok (some (remainder (Path.toLuau ⟨.relative, parts⟩).isScript
            (Path.toLuau ⟨.relative, parts⟩).parts))) ∨
    (∃ e path, synthetic fs depth config (.ofString base) = .error (.failed e) ∧
      (fs.isDirectory path = .error e ∨ fs.list path = .error e ∧ e.isSystem = false)) ∨
    (synthetic fs depth config (.ofString base) = .error .tooDeep ∧
      ∃ v, AsksIn fs depth (.target (fs.normalize (.ofString base)) [] [] false) v) := by
  rcases hbuild : build fs depth config (.directory base) with e | r
  · right
    rcases build_eq_error hbuild with ⟨rfl, v, v', hv, hchain⟩ | ⟨v, hv, he⟩
    · rw [FileSystem.IsBare.starts fs base hv] at hchain
      exact .inr ⟨hbuild, v', hchain⟩
    · obtain ⟨cause, path, rfl, hcause⟩ := h.stops hsuffix hv he
      exact .inl ⟨cause, path, hbuild, hcause⟩
  · left
    obtain ⟨ws, hws, htable⟩ := h.table_eq hsuffix hbuild
    refine ⟨r, hbuild, by rw [htable]; exact hws, fun parts hne hparts cwd query hquery => ?_⟩
    have hup : ".." ∉ parts := fun hm => (hparts _ hm).2 rfl
    exact treePath_below htable hne (hquery.trans (Path.normalize_join hup _ _))

/-- One file in a directory that stands in the directory `base`, which is named from the root. -/
def nested (base : String) : Stored := [("/" ++ base ++ "/lib/init.luau", .text "")]

theorem isBare_nested {base : String} (hname : base = "pkg" ∨ base = "pkg.lua") :
    (nested base).fileSystem.IsBare base := by
  have hentries : ∀ e ∈ nested base, (∀ found, e.2 ≠ .listing found) ∧
      ∀ cause, e.2 ≠ .unlistable cause := by
    simp [nested]
  have hdir : (nested base).hasDirectory
      ((nested base).fileSystem.normalize (.ofString base)).toText = true := by
    rcases hname with rfl | rfl <;> decide +kernel
  refine ⟨congrArg Except.ok ?_, congrArg Except.ok hdir,
    ⟨_, Stored.list_of_hasDirectory hentries hdir⟩, ?_,
    Stored.noProjects (fun e he => (hentries e he).1) ?_ _⟩
  · exact Bool.or_eq_true_iff.2 (.inr hdir)
  all_goals rcases hname with rfl | rfl <;> decide +kernel

theorem synthetic_answers_nested :
    (nested "pkg").fileSystem.IsBare "pkg" ∧
      ∃ r, synthetic (nested "pkg").fileSystem 3 .standard (.ofString "pkg") = .ok r ∧
        r.treePath [] (.ofString "pkg/lib/init.lua") = .ok (some ["lib"]) ∧
        r.treePath [] (.ofString "/pkg/new/../a.server.luau") = .ok (some ["a"]) := by
  have hbare := isBare_nested (.inl rfl)
  have hends : (synthetic (nested "pkg").fileSystem 3 .standard (.ofString "pkg")).isOk = true := by
    decide +kernel
  refine ⟨hbare, ?_⟩
  rcases synthetic_answers hbare (by decide +kernel) 3 .standard with
    ⟨r, hbuild, -, hanswers⟩ | ⟨e, path, hbuild, -⟩ | ⟨hbuild, -⟩
  · refine ⟨r, hbuild, ?_, ?_⟩
    · exact hanswers ["lib", "init.lua"] nofun (by decide) [] _ (by decide +kernel)
    · exact hanswers ["a.server.luau"] nofun (by decide) [] _ (by decide +kernel)
  · rw [hbuild] at hends
    cases hends
  · rw [hbuild] at hends
    cases hends

/-- The name of the directory matters: one that is named like a script of earlier times is not
searched, and the file in it is not found. -/
theorem not_synthetic_answers :
    ¬ ∀ (fs : FileSystem) (base : String), fs.IsBare base → ∀ (depth : Nat) (config : Config)
      (r : Resolver), synthetic fs depth config (.ofString base) = .ok r →
        ∀ parts, parts ≠ [] → (∀ part ∈ parts, FileName.IsOrdinary part) →
          r.treePath fs.workingDirectory ((Path.ofString base).join ⟨.relative, parts⟩) =
            .ok (some (remainder (Path.toLuau ⟨.relative, parts⟩).isScript
              (Path.toLuau ⟨.relative, parts⟩).parts)) := by
  intro h
  have hrun : (synthetic (nested "pkg.lua").fileSystem 3 .standard (.ofString "pkg.lua")).toOption.map
      (fun r => (r.treePath []
        ((Path.ofString "pkg.lua").join ⟨.relative, ["lib", "init.luau"]⟩)).toOption) =
          some (some none) := by
    decide +kernel
  obtain ⟨r, hbuild, hlost⟩ := exists_eq_ok hrun
  have hfound := h _ _ (isBare_nested (.inr rfl)) _ _ r hbuild ["lib", "init.luau"] nofun (by decide)
  rw [show (nested "pkg.lua").fileSystem.workingDirectory = [] from rfl,
    toOption_eq_some.1 hlost] at hfound
  cases hfound

end Resolver

end PlaceMap
