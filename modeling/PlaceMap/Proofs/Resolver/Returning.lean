/-
When a build is sure to return. On a file system that does not fail, whatever the project files and
directories hold ends as a warning, with these exceptions: a glob without a pattern, an integer of
too many digits, a project that includes itself, and something other than a regular file under the
name of a project file. A target and a default project are taken for regular files because of their
names alone; of the other entries of a directory it is asked whether they are files.

Failures count only at the paths about which a visit of the build asks the file system. So disks are
among the file systems for which this holds, although they fail at paths that are too long.
-/
import PlaceMap.Proofs.FileSystem.Disk
import PlaceMap.Proofs.Glob.Rules
import PlaceMap.Proofs.Walk.Endless

namespace PlaceMap

open Walk (IncludesItself Reached Stops)

/-! ## What is consulted -/

/-- The paths about which a visit consults a file system: its own, and those of the entries of a
directory. -/
def Visit.consulted (fs : FileSystem) : Visit → List Path
  | .project file _ _ => [file]
  | .target path _ _ _ => [path.toLuau]
  | .directory dir _ _ _ =>
    match fs.list dir with
    | .ok names => dir :: names.map dir.child
    | .error _ => [dir]

/-- Some visits consult a file system about a path. -/
def Walk.Consults (fs : FileSystem) (visits : Visit → Prop) (p : Path) : Prop :=
  ∃ v, visits v ∧ p ∈ v.consulted fs

/-- A build consults a file system about a path. -/
def Resolver.Source.Consults (fs : FileSystem) (s : Resolver.Source) : Path → Prop :=
  Walk.Consults fs (Reached fs s)

theorem Visit.mem_consulted_directory (fs : FileSystem) (dir : Path) (place : TreePath)
    (name : Option String) (ignored : List IgnoreRule) :
    dir ∈ (Visit.directory dir place name ignored).consulted fs := by
  unfold consulted
  dsimp only
  split <;> exact List.mem_cons_self

theorem Visit.mem_consulted_entry {fs : FileSystem} {dir : Path} {names : List String}
    (hl : fs.list dir = .ok names) {n : String} (hn : n ∈ names) (place : TreePath)
    (name : Option String) (ignored : List IgnoreRule) :
    dir.child n ∈ (Visit.directory dir place name ignored).consulted fs := by
  unfold consulted
  dsimp only
  rw [hl]
  exact List.mem_cons_of_mem _ (List.mem_map_of_mem hn)

theorem Walk.Settles.mem_consulted {fs : FileSystem} {v : Visit} {path : Path} {place : TreePath}
    {ignored : List IgnoreRule} (h : Walk.Settles v path place ignored) : path ∈ v.consulted fs := by
  obtain ⟨raw, optional, rfl, rfl, -⟩ := h
  exact List.mem_singleton_self _

/-! ## Usable projects -/

/-- What a build needs of a project file: it is regular if it exists, holds no integer of too many
digits, and ignores globs that compile. -/
structure Project.Usable (fs : FileSystem) (file : Path) : Prop where
  isFile : fs.has file = .ok true → fs.isFile file = .ok true
  digits : ∀ digits, Project.load fs file ≠ .error (.oversized digits)
  compiles : ∀ p, Project.load fs file = .ok p → ∀ rule ∈ p.rules file, rule.Compiles

/-- Whether a project that was loaded, or was not, is usable. -/
def Project.isUsable (file : Path) : Except LoadError Project → Bool
  | .ok p => decide (∀ rule ∈ p.rules file, rule.Compiles)
  | .error (.oversized _) => false
  | .error _ => true

theorem Project.isUsable_iff {file : Path} {loaded : Except LoadError Project} :
    Project.isUsable file loaded = true ↔
      (∀ digits, loaded ≠ .error (.oversized digits)) ∧
        ∀ p, loaded = .ok p → ∀ rule ∈ p.rules file, rule.Compiles := by
  rcases loaded with (_ | _ | _ | _) | p <;> simp [isUsable]

/-- Whether the globs of a project compile does not depend on where its file stands. -/
theorem Project.rules_compile_congr {file : Path} {p : Project}
    (h : ∀ rule ∈ p.rules file, rule.Compiles) (file' : Path) :
    ∀ rule ∈ p.rules file', rule.Compiles := by
  intro rule hrule
  obtain ⟨glob, hglob, rfl⟩ := List.mem_map.1 hrule
  exact h ⟨file.parent, glob⟩ (List.mem_map.2 ⟨glob, hglob, rfl⟩)

instance (fs : FileSystem) (file : Path) : Decidable (Project.Usable fs file) :=
  decidable_of_iff
    (((fs.has file).toOption = some true → (fs.isFile file).toOption = some true) ∧
      Project.isUsable file (Project.load fs file) = true) <| by
    rw [toOption_eq_some, toOption_eq_some, Project.isUsable_iff]
    exact ⟨fun ⟨hfile, hdigits, hrules⟩ => ⟨hfile, hdigits, hrules⟩,
      fun ⟨hfile, hdigits, hrules⟩ => ⟨hfile, hdigits, hrules⟩⟩

/-- The rules that a visit comes with. -/
def Visit.rules : Visit → List IgnoreRule
  | .project _ _ _ => []
  | .target _ _ ignored _ => ignored
  | .directory _ _ _ ignored => ignored

/-- If a visit is that of a project file, the file is usable. -/
def Visit.Usable (fs : FileSystem) : Visit → Prop
  | .project file _ _ => Project.Usable fs file
  | _ => True

instance (fs : FileSystem) : (v : Visit) → Decidable (v.Usable fs)
  | .project file _ _ => inferInstanceAs (Decidable (Project.Usable fs file))
  | .target _ _ _ _ => .isTrue trivial
  | .directory _ _ _ _ => .isTrue trivial

namespace Walk

variable {fs : FileSystem} {s : Resolver.Source}

/-- A visit comes with the rules of the project that it is due to, if it is due to one. -/
theorem Reached.rules_eq {v : Visit} (h : Reached fs s v) :
    v.rules = [] ∨ ∃ file place root p, Reached fs s (.project file place root) ∧
      Project.load fs file = .ok p ∧ v.rules = p.rules file := by
  induction h with
  | start hv =>
    left
    cases s with
    | project file => cases hv; rfl
    | tree base n => obtain ⟨e, -, rfl⟩ := hv; rfl
    | directory base => obtain ⟨e, -, rfl⟩ := hv; rfl
  | ask hv ha ih =>
    cases ha with
    | binding hload he => exact .inr ⟨_, _, _, _, hv, hload, rfl⟩
    | included => exact .inl rfl
    | standard => exact .inl rfl
    | search hs =>
      obtain ⟨raw, optional, rfl, -⟩ := hs
      exact ih
    | standardBelow => exact .inl rfl
    | entry => exact .inl rfl
    | subdirectory => exact ih

/-- The project files that a build comes to are usable, and none includes itself. -/
structure Usable (fs : FileSystem) (s : Resolver.Source) : Prop where
  visits : ∀ v, Reached fs s v → v.Usable fs
  acyclic : ¬ IncludesItself fs s

theorem Usable.rules_compile (h : Usable fs s) {v : Visit} (hv : Reached fs s v) :
    ∀ rule ∈ v.rules, rule.Compiles := by
  rcases hv.rules_eq with hnil | ⟨file, place, root, p, hproject, hload, hrules⟩
  · rw [hnil]
    exact fun _ hr => absurd hr List.not_mem_nil
  · rw [hrules]
    exact (h.visits _ hproject).compiles p hload

theorem anyCovers_ne_error {rules : List IgnoreRule} (h : ∀ rule ∈ rules, rule.Compiles) {p : Path}
    {fault : Glob.Fault} : IgnoreRule.anyCovers rules p ≠ .error fault :=
  ne_error_of_exists ⟨_, IgnoreRule.anyCovers_of_compiles h⟩

/-- A project file that is missing or regular can be looked at. -/
theorem load_ne_failed {file : Path} (hfs : fs.HealthyAt file)
    (hfile : fs.has file = .ok true → fs.isFile file = .ok true) {e : FsError} :
    Project.load fs file ≠ .error (.failed e) := by
  intro hload
  rcases Project.load_eq_failed hload with hhas | ⟨hhas, hfails⟩
  · exact ne_error_of_exists hfs.has hhas
  · obtain ⟨target, htarget, hread⟩ := hfs.read (hfile hhas)
    rcases hfails with hreal | ⟨target', htarget', hfails⟩
    · exact ne_error_of_exists ⟨target, htarget⟩ hreal
    · cases htarget.symm.trans htarget'
      exact hread e hfails

/-- No visit of a build stops by itself if the file system does not fail where the visit consults it
and the projects are usable. -/
theorem Usable.not_stops (h : Usable fs s) {v : Visit} (hv : Reached fs s v)
    (hfs : ∀ p ∈ v.consulted fs, fs.HealthyAt p) {e : Stop} : ¬ Stops fs v e := by
  intro hstop
  cases hstop with
  | load hload =>
    exact load_ne_failed (hfs _ (List.mem_singleton_self _)) (h.visits _ hv).isFile hload
  | oversized hload => exact (h.visits _ hv).digits _ hload
  | glob hc => exact anyCovers_ne_error (h.rules_compile hv) hc
  | globBelow hc => exact anyCovers_ne_error (h.rules_compile hv) hc
  | existence he => exact ne_error_of_exists (hfs _ (List.mem_singleton_self _)).has he
  | kind hs he => exact ne_error_of_exists (hfs _ hs.mem_consulted).isDirectory he
  | target hs _ hdir hl => exact ne_error_of_exists ((hfs _ hs.mem_consulted).list hdir) hl
  | directory hl =>
    have hdir := hfs _ (Visit.mem_consulted_directory ..)
    exact ne_error_of_exists (hdir.list hv.isDirectory) hl
  | entry hl hn _ he =>
    exact ne_error_of_exists (hfs _ (Visit.mem_consulted_entry hl hn ..)).isFile he
  | subdirectory hl hn he =>
    exact ne_error_of_exists (hfs _ (Visit.mem_consulted_entry hl hn ..)).isDirectory he

end Walk

namespace Resolver

open Walk (Usable)

/-- On a file system that does not fail where a build consults it, a build of usable projects returns
a resolver. -/
theorem build_returns {fs : FileSystem} {s : Source} (hfs : fs.Healthy (s.Consults fs))
    (hs : Usable fs s) :
    ∃ depth, ∀ more, depth ≤ more → ∀ config, ∃ r, build fs more config s = .ok r := by
  obtain ⟨depth, hdepth⟩ := exists_depth (Walk.not_endless hfs.bounded hs.acyclic)
  refine ⟨depth, fun more hmore config => ?_⟩
  rcases hbuild : build fs more config s with e | r
  · rcases build_eq_error hbuild with ⟨rfl, -⟩ | ⟨v, hv, hstop⟩
    · exact absurd hbuild (hdepth more hmore config)
    · exact absurd hstop (hs.not_stops hv fun p hp => hfs.healthyAt p ⟨v, hv, hp⟩)
  · exact ⟨r, rfl⟩

/-- What a build comes to is usable if the generations of its visits are, up to one without any
visits. -/
theorem usable_of_generations {fs : FileSystem} {s : Source} {n : Nat}
    (hnil : s.generation fs n = []) (hvisits : ∀ m < n, ∀ v ∈ s.generation fs m, v.Usable fs)
    (hfiles : ∀ m < n, ∀ v ∈ s.generation fs m, ∀ k < n, m < k → ∀ v' ∈ s.generation fs k,
      v.file? = none ∨ v.file? ≠ v'.file?) : Usable fs s where
  visits _ hv := reached_of_generations hnil hvisits hv
  acyclic := Walk.not_includesItself_of_generations hnil hfiles

/-- A disk does not fail where a build consults it if it does not for the generations of its visits, up
to one without any visits. -/
theorem isHealthyAt_of_generations {d : Disk} {s : Source} {n : Nat}
    (hnil : s.generation d.fileSystem n = [])
    (h : ∀ m < n, ∀ v ∈ s.generation d.fileSystem m, ∀ p ∈ v.consulted d.fileSystem,
      d.isHealthyAt p = true) {p : Path} (hp : s.Consults d.fileSystem p) : d.isHealthyAt p = true := by
  obtain ⟨v, hv, hp⟩ := hp
  exact reached_of_generations hnil h hv p hp

/-- A project with a target that is missing, and in whose directory there are a project file that
cannot be decoded and a default project that is cut off. -/
def untidy : Stored :=
  [("/p/app.project.json", .text ("\x7b\"name\":\"app\",\"tree\":\x7b\"$path\":\"src\"," ++
      "\"a\":\x7b\"$path\":\"gone\"\x7d\x7d\x7d")),
   ("/p/src", .listing ["b.project.json", "pkg"]),
   ("/p/src/b.project.json", .octets [255]),
   ("/p/src/pkg", .listing ["default.project.json"]),
   ("/p/src/pkg/default.project.json", .text "\x7b")]

/-- A disk with a project that maps a package through a link to its directory. The target of the
package is missing. -/
def packaged : Disk where
  workingDirectory := ["p"]
  nodes :=
    [(["p"], .directory),
     (["p", "app.project.json"],
        .file ("\x7b\"name\":\"app\",\"tree\":\x7b\"$path\":\"src\"\x7d\x7d".toList.map Char.toNat)),
     (["p", "src"], .directory),
     (["p", "src", "pkg"], .link "../../lib"),
     (["lib"], .directory),
     (["lib", "default.project.json"],
        .file ("\x7b\"name\":\"pkg\",\"tree\":\x7b\"$path\":\"main.luau\"\x7d\x7d".toList.map
          Char.toNat))]

theorem build_returns_untidy :
    (untidy.fileSystem.Healthy (Source.Consults untidy.fileSystem (.project "/p/app.project.json")) ∧
      Usable untidy.fileSystem (.project "/p/app.project.json") ∧
      ∃ depth, ∀ more, depth ≤ more → ∀ config,
        ∃ r, build untidy.fileSystem more config (.project "/p/app.project.json") = .ok r) ∧
    (packaged.fileSystem.Healthy (Source.Consults packaged.fileSystem (.project "app.project.json")) ∧
      Usable packaged.fileSystem (.project "app.project.json") ∧
      ∃ depth, ∀ more, depth ≤ more → ∀ config,
        ∃ r, build packaged.fileSystem more config (.project "app.project.json") = .ok r) := by
  constructor
  · have hnil : (Source.project "/p/app.project.json").generation untidy.fileSystem 5 = [] := by
      decide +kernel
    have hfs := Stored.healthy (s := untidy) (by decide) (by decide +kernel)
      (Source.Consults untidy.fileSystem (.project "/p/app.project.json"))
    have hs := usable_of_generations hnil (by decide +kernel) (by decide +kernel)
    exact ⟨hfs, hs, build_returns hfs hs⟩
  · have hnil : (Source.project "app.project.json").generation packaged.fileSystem 6 = [] := by
      decide +kernel
    have hfs : packaged.fileSystem.Healthy
        (Source.Consults packaged.fileSystem (.project "app.project.json")) :=
      ⟨fun _ hp => Disk.healthyAt (isHealthyAt_of_generations hnil (by decide +kernel) hp),
        Disk.bounded (by decide +kernel)⟩
    have hs := usable_of_generations hnil (by decide +kernel) (by decide +kernel)
    exact ⟨hfs, hs, build_returns hfs hs⟩

/-- A project in whose directory something is named like a default project and is a directory. -/
def probed : Stored :=
  [("/p/app.project.json", .text "\x7b\"name\":\"app\",\"tree\":\x7b\"$path\":\"src\"\x7d\x7d"),
   ("/p/src", .listing ["a.luau", "pkg"]),
   ("/p/src/a.luau", .text ""),
   ("/p/src/pkg", .listing ["default.project.json"]),
   ("/p/src/pkg/default.project.json", .directory)]

/-- The default project that is a directory is read like a file, and that stops the build. -/
theorem build_probed : build probed.fileSystem 5 .standard (.project "/p/app.project.json") =
    .error (.failed ⟨.isDirectory, "Is a directory: /p/src/pkg/default.project.json"⟩) := by
  refine failure?_eq_some.1 ?_
  decide +kernel

/-- It is not enough that the file system does not fail, the project file is regular, all globs
compile, and no project includes itself. -/
theorem not_build_returns :
    ¬ ∀ (fs : FileSystem) (s : Source) (config : Config), fs.Healthy (fun _ => True) →
      (∀ file, s = .project file → fs.has (fs.normalize (.ofString file)) = .ok true →
        fs.isFile (fs.normalize (.ofString file)) = .ok true) →
      (∀ file place root p, Reached fs s (.project file place root) →
        Project.load fs file = .ok p → ∀ rule ∈ p.rules file, rule.Compiles) →
      ¬ IncludesItself fs s → ∃ depth r, build fs depth config s = .ok r := by
  intro h
  have hnil : (Source.project "/p/app.project.json").generation probed.fileSystem 5 = [] := by
    decide +kernel
  have hloads : ∀ m < 5, ∀ v ∈ (Source.project "/p/app.project.json").generation probed.fileSystem m,
      (match v with
        | .project file _ _ => Project.isUsable file (Project.load probed.fileSystem file)
        | _ => true) = true := by
    decide +kernel
  obtain ⟨depth, r, hbuild⟩ := h probed.fileSystem (.project "/p/app.project.json") .standard
    (Stored.healthy (by decide) (by decide +kernel) _)
    (fun file hfile _ => by
      cases hfile
      refine toOption_eq_some.1 ?_
      decide +kernel)
    (fun file place root p hreached hload => by
      have husable := reached_of_generations hnil hloads hreached
      exact (Project.isUsable_iff.1 husable).2 p hload)
    (Walk.not_includesItself_of_generations hnil (by decide +kernel))
  have hstop := build_deeper build_probed nofun (Nat.le_max_left 5 depth)
  rw [build_deeper hbuild nofun (Nat.le_max_right 5 depth)] at hstop
  cases hstop

end Resolver

end PlaceMap
