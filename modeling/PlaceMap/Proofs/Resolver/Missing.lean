/-
When nothing is reported missing. A path is reported for one of two reasons: a project is visited
whose file does not exist, or a target that is required does not. Which files and targets are asked
for is read off the visits; a project comes from a target or from a listing, and so exists if these
do.

A target is looked for under its present extension only. A script that a project binds under its
former extension is reported missing although a file of that name is there.
-/
import PlaceMap.Proofs.FileSystem.Healthy
import PlaceMap.Proofs.Walk.Doing
import PlaceMap.Proofs.Walk.Log

namespace PlaceMap

/-- The file of the source, the required targets of a build and the names that directories list all
exist. Targets are meant with their present extensions. -/
structure Resolver.Source.Complete (fs : FileSystem) (depth : Nat) (s : Resolver.Source) : Prop where
  file : ∀ file, s = .project file → fs.has (fs.normalize (.ofString file)) = .ok true
  targets : ∀ path place ignored, .target path place ignored false ∈ s.visits fs depth →
    fs.has path.toLuau = .ok true
  names : ∀ dir names n, fs.list dir = .ok names → n ∈ names → fs.has (dir.child n) = .ok true

/-- If a visit is that of a project, its file exists. -/
def Visit.FileExists (fs : FileSystem) : Visit → Prop
  | .project file _ _ => fs.has file = .ok true
  | _ => True

/-! ## Why a path is reported missing -/

namespace Action

variable {fs : FileSystem} {p : Path}

/-- A visit reports a path missing if it is that of a project without a file, or of a required
target that does not exist. -/
theorem missing_mem_actions {v : Visit} (h : .warn (.missing p) ∈ v.actions fs) :
    (∃ place root, v = .project p place root ∧ fs.has p = .ok false) ∨
      ∃ path place ignored, v = .target path place ignored false ∧ p = path.toLuau ∧
        fs.has p = .ok false := by
  cases does_of_mem h with
  | broken hbroken =>
    rcases hbroken.missing_or_invalid with ⟨hhas, hw⟩ | ⟨-, cause, hw⟩
    · cases hw
      exact .inl ⟨_, _, rfl, hhas⟩
    · cases hw
  | missing hhas => exact .inr ⟨_, _, _, rfl, rfl, hhas⟩

/-! ## The files of the projects that are visited -/

/-- A target that is a project is included if it is required or exists. -/
theorem has_of_project_mem_ofTarget {path file : Path} {place place' : TreePath} {root : Bool}
    {ignored : List IgnoreRule} {optional : Bool} (hp : FileName.isProject path.name = true)
    (h : .visit (.project file place' root) ∈ ofTarget fs path place ignored optional) :
    file = path ∧ (optional = true → fs.has path = .ok true) := by
  obtain ⟨covered, -, h⟩ := visit_mem_compared h
  split at h
  · cases h
  obtain ⟨found, hfound, h⟩ := visit_mem_asked h
  split at h
  · rename_i hvisited
    cases List.mem_singleton.1 h
    refine ⟨rfl, ?_⟩
    rintro rfl
    rw [hfound, show found = true by simpa using hvisited]
  · cases h

end Action

namespace Resolver

variable {fs : FileSystem} {depth : Nat} {s : Source}

/-- What a visit asks for exists if it is a project. -/
theorem Source.Complete.step (h : s.Complete fs depth) {v v' : Visit} (hv : v ∈ s.visits fs depth)
    (hask : .visit v' ∈ v.actions fs) : v'.FileExists fs := by
  -- A project is included for a target, or its file was found in a listing.
  have hasks := Action.asks_of_mem hask
  cases hasks with
  | binding => trivial
  | @included path place ignored optional hc hp =>
    obtain ⟨-, hfound⟩ := Action.has_of_project_mem_ofTarget hp hask
    cases optional with
    | false => exact h.targets _ _ _ hv
    | true => exact hfound rfl
  | standard _ _ _ hl hn => exact h.names _ _ _ hl hn
  | search => trivial
  | standardBelow hl hn => exact h.names _ _ _ hl hn
  | entry hl _ _ hn => exact h.names _ _ _ hl hn
  | subdirectory => trivial

theorem Source.Complete.start (h : s.Complete fs depth) {v : Visit} (hv : .visit v ∈ s.actions fs) :
    v.FileExists fs := by
  have hstart := Action.starts_of_mem hv
  cases s with
  | project file =>
    cases hstart
    exact h.file file rfl
  | tree base n =>
    obtain ⟨e, -, rfl⟩ := hstart
    trivial
  | directory base =>
    obtain ⟨e, -, rfl⟩ := hstart
    trivial

/-- Every project that a build visits has a file. -/
theorem Source.Complete.fileExists (h : s.Complete fs depth) {v : Visit}
    (hv : v ∈ s.visits fs depth) : v.FileExists fs := by
  obtain ⟨w, hw, hv⟩ := Source.mem_visits.1 hv
  refine Visit.forall_visits (h.start hw) (fun v hv _ v' => ?_) v hv
  exact h.step (Source.mem_visits.2 ⟨w, hw, hv⟩)

theorem warn_not_mem_sourceActions {w : Warning} : .warn w ∉ s.actions fs := by
  cases s with
  | project file => exact fun h => nomatch List.mem_singleton.1 h
  | tree base n => exact fun h => (Action.mem_ofTree h).elim nofun nofun
  | directory base => exact fun h => (Action.mem_ofTree h).elim nofun nofun

/-- A build that returns reports no path missing if the file of the source, the required targets of
the visits that it comes to, with their present extensions, and the names that directories list all
exist. -/
theorem build_reports_no_missing {config : Config} {r : Resolver}
    (hbuild : build fs depth config s = .ok r) (h : s.Complete fs depth) :
    ∀ p, .missing p ∉ r.table.warnings := by
  intro p hp
  rw [table_eq_of_log hbuild] at hp
  obtain ⟨a, ha, hw⟩ := List.mem_filterMap.1 hp
  cases a <;> cases hw
  rcases Source.mem_log ha with ha | ha | ⟨v, hv, ha⟩
  · exact warn_not_mem_sourceActions ha
  · cases ha
  rcases Action.missing_mem_actions ha with ⟨place, root, rfl, hhas⟩ | ⟨path, place, ignored, rfl, rfl, hhas⟩
  · have hexists : fs.has p = .ok true := h.fileExists hv
    rw [hhas] at hexists
    cases hexists
  · rw [h.targets path place ignored hv] at hhas
    cases hhas

/-- A project with a required directory, in which there is a default project, and with an optional
target that is missing. The default project binds a script under its former extension. -/
def bound : Stored :=
  [("/p/app.project.json", .text ("\x7b\"name\":\"app\",\"tree\":\x7b\"$path\":\"src\"," ++
      "\"gone\":\x7b\"$path\":\x7b\"optional\":\"gone\"\x7d\x7d\x7d\x7d")),
   ("/p/src/default.project.json", .text ("\x7b\"name\":\"src\"," ++
      "\"tree\":\x7b\"$path\":\"../main.lua\"\x7d\x7d")),
   ("/p/main.luau", .text "")]

theorem build_reports_no_missing_bound :
    ∃ r, build bound.fileSystem 5 .standard (.project "/p/app.project.json") = .ok r ∧
      Source.Complete bound.fileSystem 5 (.project "/p/app.project.json") ∧
      ∀ p, .missing p ∉ r.table.warnings := by
  have hrun : (build bound.fileSystem 5 .standard (.project "/p/app.project.json")).toOption.map
      (fun r => r.table.partitions.length) = some 2 := by
    decide +kernel
  obtain ⟨r, hbuild, -⟩ := exists_eq_ok hrun
  have htargets : ∀ v ∈ Source.visits bound.fileSystem 5 (.project "/p/app.project.json"),
      (match v with
        | .target path _ _ optional => optional || bound.has path.toLuau.toText
        | _ => true) = true := by
    decide +kernel
  have hcomplete : Source.Complete bound.fileSystem 5 (.project "/p/app.project.json") := by
    refine ⟨?_, ?_, ?_⟩
    · rintro _ ⟨⟩
      exact congrArg Except.ok (by decide +kernel)
    · exact fun path place ignored hv => congrArg Except.ok (htargets _ hv)
    · exact fun dir names n => Stored.has_of_listed (by simp [bound]) (by decide +kernel)
  exact ⟨r, hbuild, hcomplete, build_reports_no_missing hbuild hcomplete⟩

/-- A project that binds a script under its former extension, and the script. -/
def legacyBound : Stored :=
  [("/p/app.project.json",
      .text "\x7b\"name\":\"app\",\"tree\":\x7b\"$path\":\"main.lua\"\x7d\x7d"),
   ("/p/main.lua", .text "")]

/-- It is not enough that the targets exist as they are written. -/
theorem not_build_reports_no_missing :
    ¬ ∀ (fs : FileSystem) (depth : Nat) (config : Config) (s : Source) (r : Resolver),
      build fs depth config s = .ok r →
      (∀ file place root, .project file place root ∈ s.visits fs depth →
        ∃ p, Project.load fs file = .ok p) →
      (∀ path place ignored, .target path place ignored false ∈ s.visits fs depth →
        fs.has path = .ok true) →
      (∀ dir names n, fs.list dir = .ok names → n ∈ names → fs.has (dir.child n) = .ok true) →
      ∀ p, .missing p ∉ r.table.warnings := by
  intro h
  have hrun : (build legacyBound.fileSystem 5 .standard (.project "/p/app.project.json")).toOption.map
      (fun r => r.table.warnings.filterMap fun w =>
        match w with
        | .missing p => some p
        | _ => none) = some [⟨.root, ["p", "main.luau"]⟩] := by
    decide +kernel
  obtain ⟨r, hbuild, hwarnings⟩ := exists_eq_ok hrun
  have hvisits : ∀ v ∈ Source.visits legacyBound.fileSystem 5 (.project "/p/app.project.json"),
      (match v with
        | .project file _ _ => (Project.load legacyBound.fileSystem file).toOption.isSome
        | .target path _ _ optional => optional || legacyBound.has path.toText
        | _ => true) = true := by
    decide +kernel
  have hnone := h legacyBound.fileSystem 5 .standard (.project "/p/app.project.json") r hbuild
    (fun file place root hv => by
      obtain ⟨p, hp⟩ := Option.isSome_iff_exists.1 (hvisits _ hv)
      exact ⟨p, toOption_eq_some.1 hp⟩)
    (fun path place ignored hv => congrArg Except.ok (hvisits _ hv))
    (fun dir names n => Stored.has_of_listed (by simp [legacyBound]) (by decide +kernel))
  obtain ⟨w, hw, hmissing⟩ := List.mem_filterMap.1 (hwarnings ▸ List.mem_singleton_self _)
  cases w <;> cases hmissing
  exact hnone _ hw

end Resolver

end PlaceMap
