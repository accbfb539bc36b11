/-
What a project ignores is not found. The rules are asked twice: of a target before it is registered,
so that no mapped file and no partition is covered, and of the path of a query in every partition
that holds it. Where one project alone is loaded, both times the rules are the same.

Both times the rules see a path with the present extension of scripts. A glob that asks for the
former extension covers nothing, however a file is spelled.
-/
import PlaceMap.Proofs.Resolver.Registered
import PlaceMap.Proofs.Resolver.Returning
import PlaceMap.Proofs.Resolver.SingleProject

namespace PlaceMap

open IgnoreRule (Covered)
open Walk (Reached Stops)

/-! ## Mapped files and the rules of their projects -/

/-- Every mapped file is declared by a binding, and the rules that come with it do not cover it. -/
def Table.Spared (fs : FileSystem) (s : Resolver.Source) (t : Table) : Prop :=
  ∀ e ∈ t.fileMap, ∃ ignored, Partition.Declared fs s ⟨e.1, e.2, ignored⟩ ∧
    ∀ rule ∈ ignored, rule.covers e.1 = .ok false

theorem Resolver.Source.walk_spared (fs : FileSystem) (depth : Nat) (s : Resolver.Source) :
    ((s.walk fs depth).course .empty).Always (Table.Spared fs s) := by
  refine walk_always (fun _ he => absurd he List.not_mem_nil) (fun _ _ h => h) (fun _ h => h) ?_
    (fun _ _ _ _ _ _ _ _ h => h) depth
  intro v path place ignored hv hs _ t h e he
  obtain ⟨-, -, -, hdeclared⟩ := hs.sound hv.sound
  obtain ⟨raw, optional, -, -, hcovers, -⟩ := hs
  rcases FileMap.mem_insert he with rfl | he
  · exact ⟨ignored, hdeclared, IgnoreRule.covers_of_anyCovers_false hcovers⟩
  · exact h e he

/-! ## The only project of a build -/

/-- A project file that loads, whose globs compile, and beside which its build loads no other. -/
structure Project.Sole (fs : FileSystem) (file : String) (p : Project) : Prop where
  load : Project.load fs (fs.normalize (.ofString file)) = .ok p
  compiles : ∀ rule ∈ p.rules (fs.normalize (.ofString file)), rule.Compiles
  only : ∀ other place root q, Reached fs (.project file) (.project other place root) →
    Project.load fs other = .ok q → other = fs.normalize (.ofString file)

/-- A table registers nothing that some rules cover. -/
structure Table.Uncovered (rules : List IgnoreRule) (t : Table) : Prop where
  files : ∀ e ∈ t.fileMap, ¬ Covered rules e.1
  partitions : ∀ q ∈ t.partitions, ¬ Covered rules q.target

theorem IgnoreRule.not_covered {rules : List IgnoreRule} {p : Path}
    (h : ∀ rule ∈ rules, rule.covers p = .ok false) : ¬ Covered rules p := by
  rintro ⟨rule, hr, hc⟩
  rw [h rule hr] at hc
  cases hc

namespace Project.Sole

variable {fs : FileSystem} {file : String} {p : Project}

/-- The rules of the one project are those of every project that the build loads. -/
theorem rules_eq (h : p.Sole fs file) {other : Path} {place : TreePath} {root : Bool} {q : Project}
    (hv : Reached fs (.project file) (.project other place root))
    (hload : Project.load fs other = .ok q) :
    q.rules other = p.rules (fs.normalize (.ofString file)) := by
  cases h.only other place root q hv hload
  cases h.load.symm.trans hload
  rfl

theorem ignored_eq (h : p.Sole fs file) {q : Partition} (hq : q.Declared fs (.project file)) :
    q.ignored = p.rules (fs.normalize (.ofString file)) := by
  cases hq with
  | project hv hload => exact h.rules_eq hv hload
  | given hstart => cases hstart

theorem uncovered (h : p.Sole fs file) {t : Table} (hsound : t.Sound fs (.project file))
    (hspared : t.Spared fs (.project file)) :
    t.Uncovered (p.rules (fs.normalize (.ofString file))) := by
  refine ⟨fun e he => ?_, fun q hq => ?_⟩
  · obtain ⟨ignored, hdeclared, hcovers⟩ := hspared e he
    rw [← h.ignored_eq hdeclared]
    exact IgnoreRule.not_covered hcovers
  · rw [← h.ignored_eq (hsound.partitions q hq).declared]
    exact IgnoreRule.not_covered (hsound.partitions q hq).uncovered

/-- No glob stops the build: the rules of a visit are those of the project, or none. -/
theorem stops (h : p.Sole fs file) {v : Visit} {e : Stop} (hv : Reached fs (.project file) v)
    (he : Stops fs v e) : ∀ fault, e ≠ .glob fault := by
  have hcompiles : ∀ rule ∈ v.rules, rule.Compiles := by
    rcases hv.rules_eq with hnil | ⟨other, place, root, q, hproject, hload, hrules⟩
    · rw [hnil]
      exact fun _ hr => absurd hr List.not_mem_nil
    · rw [hrules, h.rules_eq hproject hload]
      exact h.compiles
  rintro fault rfl
  cases he with
  | glob hc => exact Walk.anyCovers_ne_error hcompiles hc
  | globBelow hc => exact Walk.anyCovers_ne_error hcompiles hc

end Project.Sole

/-- A project that stands for itself is the only one that its build loads. -/
theorem Project.Standalone.sole {fs : FileSystem} {file : String} {p : Project}
    (h : p.Standalone fs file) : p.Sole fs file :=
  ⟨h.load, h.compiles, fun _ _ _ _ hv _ => (h.visits hv).1⟩

namespace Resolver

/-! ## Ignored paths -/

/-- A path that the rules of all partitions cover is found in none of them. -/
theorem inPartitions_of_covered {rules : List IgnoreRule} {path : Path} (hcovered : Covered rules path)
    (hcompiles : ∀ rule ∈ rules, rule.Compiles) {ps : List Partition}
    (hps : ∀ q ∈ ps, q.ignored = rules) : inPartitions path ps = .ok none := by
  have hall : ∀ q ∈ ps, q.Compiles := by
    intro q hq
    unfold Partition.Compiles
    rw [hps q hq]
    exact hcompiles
  have hnone : ∀ q ∈ ps, ¬ q.Serves path := by
    intro q hq hserves
    have hcovers := hserves.2
    rw [hps q hq] at hcovers
    exact IgnoreRule.not_covered hcovers hcovered
  have hpassed := inPartitions_append [] hall hnone
  rw [List.append_nil] at hpassed
  exact hpassed

/-- Where one project file is the only one that its build loads, and all its globs compile, no path
that its rules cover is known: no such file is mapped and no such target is registered, at no point
of the build, and a query for one is answered by none. The paths are those with the present
extension. The build may still stop, but for no glob. -/
theorem ignored_unresolved {fs : FileSystem} {file : String} {p : Project} (h : p.Sole fs file)
    (depth : Nat) (config : Config) :
    (∀ t ∈ ((Source.project file).walk fs depth |>.course .empty).tables,
      t.Uncovered (p.rules (fs.normalize (.ofString file)))) ∧
    ((∃ r, ofProject fs depth config (.ofString file) = .ok r ∧
      ∀ cwd query, Covered (p.rules (fs.normalize (.ofString file))) (Path.normalize cwd query).toLuau →
        r.treePath cwd query = .ok none) ∨
    ∃ e, ofProject fs depth config (.ofString file) = .error e ∧ (∀ fault, e ≠ .glob fault) ∧
      (e = .tooDeep ∨ ∃ v, Reached fs (.project file) v ∧ Stops fs v e)) := by
  have htables : ∀ t ∈ ((Source.project file).walk fs depth |>.course .empty).tables,
      t.Uncovered (p.rules (fs.normalize (.ofString file))) := fun t ht =>
    h.uncovered (Source.walk_sound fs depth _ t ht) (Source.walk_spared fs depth _ t ht)
  refine ⟨htables, ?_⟩
  rcases hbuild : build fs depth config (.project file) with e | r
  · refine .inr ⟨e, hbuild, ?_⟩
    rcases build_eq_error hbuild with ⟨rfl, -⟩ | ⟨v, hv, he⟩
    · exact ⟨nofun, .inl rfl⟩
    · exact ⟨h.stops hv he, .inr ⟨v, hv, he⟩⟩
  · refine .inl ⟨r, hbuild, fun cwd query hcovered => ?_⟩
    have huncovered : r.table.Uncovered (p.rules (fs.normalize (.ofString file))) := by
      rw [(build_eq_ok hbuild).2]
      exact htables _ List.mem_cons_self
    have hfree : r.table.fileMap.find? (Path.normalize cwd query).toLuau = none := by
      refine FileMap.find?_eq_none.2 fun hm => ?_
      obtain ⟨e, he, heq⟩ := List.mem_map.1 hm
      exact huncovered.files e he (heq ▸ hcovered)
    have hps : ∀ q ∈ r.table.partitions, q.ignored = p.rules (fs.normalize (.ofString file)) :=
      fun q hq => h.ignored_eq ((build_sound hbuild).partitions q hq).declared
    unfold treePath
    dsimp only
    rw [hfree]
    exact inPartitions_of_covered hcovered h.compiles hps

/-- A project that binds a directory and, by its former extension, a script in it, and that ignores
`out` and all scripts with the former extension. -/
def ignoring : Stored :=
  [("/p.json", .text ("\x7b\"name\":\"p\",\"globIgnorePaths\":[\"*.lua\",\"out\"],\"tree\":" ++
      "\x7b\"$path\":\"src\",\"b\":\x7b\"$path\":\"src/b.lua\"\x7d\x7d\x7d")),
   ("/src/b.lua", .text "")]

theorem sole_ignoring : ∃ p : Project, p.Sole ignoring.fileSystem "/p.json" ∧
    p.rules (ignoring.fileSystem.normalize (.ofString "/p.json")) =
      [⟨⟨.root, []⟩, "*.lua"⟩, ⟨⟨.root, []⟩, "out"⟩] ∧
    p.tree.bindings [] = [([], .required "src"), (["b"], .required "src/b.lua")] := by
  have hread : (Project.load ignoring.fileSystem
      (ignoring.fileSystem.normalize (.ofString "/p.json"))).toOption.map (fun p =>
        (p.rules (ignoring.fileSystem.normalize (.ofString "/p.json")), p.tree.bindings [])) =
        some ([⟨⟨.root, []⟩, "*.lua"⟩, ⟨⟨.root, []⟩, "out"⟩],
          [([], .required "src"), (["b"], .required "src/b.lua")]) := by
    decide +kernel
  have hnames : ∀ e ∈ ignoring, ∀ n ∈ (Path.ofString e.1).parts, FileName.isProject n = false := by
    decide +kernel
  obtain ⟨p, hload, hp⟩ := exists_eq_ok hread
  obtain ⟨hrules, hbindings⟩ := Prod.mk.inj hp
  have hstandalone : p.Standalone ignoring.fileSystem "/p.json" := by
    refine ⟨hload, ?_, ?_, fun dir hdir => ?_⟩
    · rw [hrules]
      decide +kernel
    · unfold Project.targets
      rw [hbindings]
      decide +kernel
    · have hlist : ignoring.list dir = .ok (ignoring.names dir) :=
        Stored.list_of_hasDirectory (by simp [ignoring]) (Except.ok.inj hdir.isDirectory)
      refine ⟨_, hlist, fun n hn => ?_⟩
      obtain ⟨e, he, hpart⟩ := Stored.mem_names hn
      exact hnames e he n hpart
  exact ⟨p, hstandalone.sole, hrules, hbindings⟩

theorem build_ignoring : ∃ r, ofProject ignoring.fileSystem 3 .standard (.ofString "/p.json") = .ok r ∧
    r.table.partitions.map (·.target) = [⟨.root, ["src", "b.luau"]⟩, ⟨.root, ["src"]⟩] ∧
    r.treePath [] (.ofString "/src/b.lua") = .ok (some ["b"]) := by
  have hrun : (ofProject ignoring.fileSystem 3 .standard (.ofString "/p.json")).toOption.map (fun r =>
      (r.table.partitions.map (·.target), (r.treePath [] (.ofString "/src/b.lua")).toOption)) =
        some ([⟨.root, ["src", "b.luau"]⟩, ⟨.root, ["src"]⟩], some (some ["b"])) := by
    decide +kernel
  obtain ⟨r, hbuild, hr⟩ := exists_eq_ok hrun
  obtain ⟨htargets, hquery⟩ := Prod.mk.inj hr
  exact ⟨r, hbuild, htargets, toOption_eq_some.1 hquery⟩

theorem ignored_unresolved_out : ∃ (p : Project) (r : Resolver),
    p.Sole ignoring.fileSystem "/p.json" ∧
      ofProject ignoring.fileSystem 3 .standard (.ofString "/p.json") = .ok r ∧
      r.treePath [] (.ofString "/src/out/b.lua") = .ok none := by
  obtain ⟨p, hp, hrules, -⟩ := sole_ignoring
  obtain ⟨r, hbuild, -⟩ := build_ignoring
  refine ⟨p, r, hp, hbuild, ?_⟩
  rcases (ignored_unresolved hp 3 .standard).2 with ⟨r', hbuild', hunresolved⟩ | ⟨e, hbuild', -⟩
  · cases hbuild.symm.trans hbuild'
    refine hunresolved [] _ ?_
    rw [hrules]
    decide +kernel
  · cases hbuild.symm.trans hbuild'

/-- The rules do not see a path with the former extension of scripts. So a file that is covered as it
is spelled may be found, and a target that is covered as it is spelled may be registered. -/
theorem not_ignored_unresolved :
    (¬ ∀ (fs : FileSystem) (file : String) (p : Project), p.Sole fs file →
      ∀ (depth : Nat) (config : Config) (r : Resolver),
        ofProject fs depth config (.ofString file) = .ok r → ∀ query,
          Covered (p.rules (fs.normalize (.ofString file))) (Path.normalize fs.workingDirectory query) →
            r.treePath fs.workingDirectory query = .ok none) ∧
    ¬ ∀ (fs : FileSystem) (file : String) (p : Project), p.Sole fs file →
      ∀ (depth : Nat) (config : Config) (r : Resolver),
        ofProject fs depth config (.ofString file) = .ok r → ∀ e ∈ p.tree.bindings [],
          Covered (p.rules (fs.normalize (.ofString file)))
            (e.2.target fs (fs.normalize (.ofString file)).parent) →
              (e.2.target fs (fs.normalize (.ofString file)).parent).toLuau ∉
                r.table.partitions.map (·.target) := by
  obtain ⟨p, hp, hrules, hbindings⟩ := sole_ignoring
  obtain ⟨r, hbuild, htargets, hfound⟩ := build_ignoring
  have hcovered : Covered (p.rules (ignoring.fileSystem.normalize (.ofString "/p.json")))
      ⟨.root, ["src", "b.lua"]⟩ := by
    rw [hrules]
    decide +kernel
  constructor
  · intro h
    have hnone := h _ _ p hp 3 .standard r hbuild (.ofString "/src/b.lua") hcovered
    rw [show ignoring.fileSystem.workingDirectory = [] from rfl, hfound] at hnone
    cases hnone
  · intro h
    have hbound : ((["b"], .required "src/b.lua") : TreePath × Binding) ∈ p.tree.bindings [] := by
      rw [hbindings]
      decide
    refine h _ _ p hp 3 .standard r hbuild _ hbound hcovered ?_
    rw [htargets]
    decide +kernel

end Resolver

end PlaceMap
