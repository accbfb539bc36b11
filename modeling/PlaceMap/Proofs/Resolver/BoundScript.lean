/-
A script that a binding names by itself is registered as a partition, where a data file is mapped.
For the script's own path the two come to the same as long as no newer partition serves it, however
many older ones do; for paths that do not lie at or below it they always do.

A newer partition for a directory above the script hides it: the script is then found below that
directory, although a mapped file would be found where its own binding says.
-/
import PlaceMap.Proofs.Resolver.Registered

namespace PlaceMap

namespace Resolver

/-- The resolver in which a file is mapped, where it was the target of partitions. -/
def asFile (r : Resolver) (file : Path) (place : TreePath) : Resolver :=
  { r with table :=
    { r.table with
      fileMap := r.table.fileMap.insert file place
      partitions := r.table.partitions.filter (·.target ≠ file) } }

/-- Partitions for a target that does not hold a path have no say in where it is found. -/
theorem inPartitions_filter_ne {path file : Path} (h : path.below? file = none) :
    ∀ ps : List Partition, inPartitions path (ps.filter (·.target ≠ file)) = inPartitions path ps
  | [] => rfl
  | p :: ps => by
    have ih := inPartitions_filter_ne h ps
    by_cases hp : p.target = file
    · rw [List.filter_cons_of_neg (by simp [hp]), ih, inPartitions_cons, hp, h]
    · rw [List.filter_cons_of_pos (by simp [hp]), inPartitions_cons, inPartitions_cons, ih]

theorem treePath_asFile_self (r : Resolver) {file : Path} (place : TreePath) {cwd : List String}
    {query : Path} (h : (query.normalize cwd).toLuau = file) :
    (r.asFile file place).treePath cwd query = .ok (some place) := by
  unfold treePath asFile
  dsimp only
  rw [h, FileMap.find?_insert, if_pos rfl]

theorem treePath_asFile_of_below?_eq_none (r : Resolver) {file : Path} (place : TreePath)
    {cwd : List String} {query : Path} (h : (query.normalize cwd).toLuau.below? file = none) :
    (r.asFile file place).treePath cwd query = r.treePath cwd query := by
  have hne : ¬ file = (query.normalize cwd).toLuau := by
    intro heq
    rw [← heq, Path.below?_self] at h
    cases h
  unfold treePath asFile
  dsimp only
  rw [FileMap.find?_insert, if_neg hne, inPartitions_filter_ne h]

/-- The target of a partition is found there unless a newer partition serves it. -/
theorem inPartitions_target {fs : FileSystem} {s : Source} {p : Partition} (hp : p.Sound fs s)
    {newer older : List Partition} (hcompiles : ∀ q ∈ newer ++ p :: older, q.Compiles)
    (hnewer : ∀ q ∈ newer, ¬ q.Serves p.target) :
    inPartitions p.target (newer ++ p :: older) = .ok (some p.place) := by
  obtain ⟨parts, hparts, hfound⟩ :=
    inPartitions_of_newest hcompiles ⟨newer, older, rfl, serves_target hp, hnewer⟩
  rw [p.target.below?_self] at hparts
  cases hparts
  rw [hfound, remainder, List.append_nil]

/-- The newest of the newer partitions that serves a target hides it. -/
theorem inPartitions_hidden {target : Path} {newer rest : List Partition} {q : Partition}
    (hcompiles : ∀ p ∈ newer ++ rest, p.Compiles) (hq : Partition.Newest target newer q)
    (hne : ∀ p ∈ newer, p.target ≠ target) :
    ∃ part parts, target.below? q.target = some (part :: parts) ∧
      inPartitions target (newer ++ rest) =
        .ok (some (q.place ++ remainder target.isScript (part :: parts))) := by
  obtain ⟨before, after, rfl, hserves, hbefore⟩ := hq
  have hnewest : Partition.Newest target ((before ++ q :: after) ++ rest) q :=
    ⟨before, after ++ rest, by rw [List.append_assoc, List.cons_append], hserves, hbefore⟩
  obtain ⟨parts, hparts, hfound⟩ := inPartitions_of_newest hcompiles hnewest
  cases parts with
  | nil =>
    -- Nothing is left below the target, so it is the target of the newer partition itself.
    obtain ⟨hanchor, heq⟩ := Path.below?_eq_some.1 hparts
    rw [List.append_nil] at heq
    have htarget : q.target = target := by
      cases target
      cases hqt : q.target
      rw [hqt] at hanchor heq
      cases hanchor
      cases heq
      rfl
    exact absurd htarget (hne q (List.mem_append_right _ List.mem_cons_self))
  | cons part parts => exact ⟨part, parts, hparts, hfound⟩

/-- Whether a script that a binding names is a partition or a mapped file makes no difference to a
path that does not lie at or below it. Its own path, which its text leads to, is found at the tree
path of its last registration if it is a mapped file, and if it is a partition as well, unless a
newer partition serves it: then it is found below the newest of these. -/
theorem boundScript_found {fs : FileSystem} {depth : Nat} {config : Config} {s : Source}
    {r : Resolver} (hbuild : build fs depth config s = .ok r)
    (hcompiles : ∀ p ∈ r.table.partitions, p.Compiles) {newer older : List Partition}
    {p : Partition} (hps : r.table.partitions = newer ++ p :: older)
    (hlast : ∀ q ∈ newer, q.target ≠ p.target) (hscript : p.target.isScript = true)
    (cwd : List String) :
    (Path.normalize cwd (.ofString p.target.toText)).toLuau = p.target ∧
    ∀ query,
      ((Path.normalize cwd query).toLuau.below? p.target = none →
        (r.asFile p.target p.place).treePath cwd query = r.treePath cwd query) ∧
      ((Path.normalize cwd query).toLuau = p.target →
        (r.asFile p.target p.place).treePath cwd query = .ok (some p.place) ∧
        ((∀ q ∈ newer, ¬ q.Serves p.target) → r.treePath cwd query = .ok (some p.place)) ∧
        ∀ q, Partition.Newest p.target newer q → ∃ part parts,
          p.target.below? q.target = some (part :: parts) ∧
          r.treePath cwd query = .ok (some (q.place ++ remainder true (part :: parts)))) := by
  have hsound := build_sound hbuild
  have hp : p ∈ r.table.partitions := by
    rw [hps]
    exact List.mem_append_right _ List.mem_cons_self
  refine ⟨?_, fun query => ⟨treePath_asFile_of_below?_eq_none r p.place, fun hquery => ?_⟩⟩
  · have hlua : p.target.suffix ≠ ".lua" := fun he =>
      (hsound.partitions p hp).suffix (by rw [he]; decide)
    have hnormal := (hsound.partitions p hp).isNormal
    rw [Path.ofString_toText hnormal.proper, hnormal.normalize_eq, Path.toLuau_of_suffix_ne hlua]
  have hlookup : r.treePath cwd query = inPartitions p.target (newer ++ p :: older) := by
    unfold treePath
    dsimp only
    rw [hquery, find?_target hsound hp, hps]
  rw [hps] at hcompiles
  refine ⟨treePath_asFile_self r p.place hquery, fun hnewer => ?_, fun q hq => ?_⟩
  · rw [hlookup]
    exact inPartitions_target (hsound.partitions p hp) hcompiles hnewer
  · rw [hlookup, ← hscript]
    exact inPartitions_hidden hcompiles hq hlast

/-- A script, and after it the directory that it is in. -/
def scriptFirst : Source :=
  .tree "/" ⟨none, none, none, none, [("b", .bound "src/b.luau"), ("a", .bound "src")]⟩

theorem build_scriptFirst :
    ∃ r, build (Stored.fileSystem [("/src/b.luau", .text "")]) 3 .standard scriptFirst = .ok r ∧
      r.table.partitions =
        [⟨⟨.root, ["src"]⟩, ["a"], []⟩] ++ ⟨⟨.root, ["src", "b.luau"]⟩, ["b"], []⟩ :: [] ∧
      r.treePath [] (.ofString "/src/b.luau") = .ok (some ["a", "b"]) := by
  have hrun : (build (Stored.fileSystem [("/src/b.luau", .text "")]) 3 .standard scriptFirst).toOption.map
      (fun r => (r.table.partitions, (r.treePath [] (.ofString "/src/b.luau")).toOption)) =
        some ([⟨⟨.root, ["src"]⟩, ["a"], []⟩, ⟨⟨.root, ["src", "b.luau"]⟩, ["b"], []⟩],
          some (some ["a", "b"])) := by
    decide +kernel
  obtain ⟨r, hbuild, hr⟩ := exists_eq_ok hrun
  obtain ⟨hps, hquery⟩ := Prod.mk.inj hr
  exact ⟨r, hbuild, hps, toOption_eq_some.1 hquery⟩

/-- The directory hides the script. -/
theorem boundScript_found_hidden :
    ∃ r, build (Stored.fileSystem [("/src/b.luau", .text "")]) 3 .standard scriptFirst = .ok r ∧
      r.treePath [] (.ofString "/src/b.luau") = .ok (some ["a", "b"]) ∧
      (r.asFile ⟨.root, ["src", "b.luau"]⟩ ["b"]).treePath [] (.ofString "/src/b.luau") =
        .ok (some ["b"]) := by
  obtain ⟨r, hbuild, hps, -⟩ := build_scriptFirst
  have hcompiles : ∀ p ∈ r.table.partitions, p.Compiles := by
    rw [hps]
    decide
  obtain ⟨htext, hqueries⟩ := boundScript_found hbuild hcompiles hps (by decide) (by decide) []
  obtain ⟨hmapped, -, hhidden⟩ := (hqueries _).2 htext
  have hserves : Partition.Serves ⟨⟨.root, ["src"]⟩, ["a"], []⟩ ⟨.root, ["src", "b.luau"]⟩ :=
    ⟨⟨["b.luau"], by decide⟩, fun _ hr => absurd hr List.not_mem_nil⟩
  obtain ⟨part, parts, hparts, hfound⟩ :=
    hhidden _ ⟨[], [], rfl, hserves, fun _ hq => absurd hq List.not_mem_nil⟩
  cases (show some ["b.luau"] = some (part :: parts) from hparts)
  exact ⟨r, hbuild, hfound, hmapped⟩

/-- The last registration of a script does not always decide where it is found. -/
theorem not_boundScript_found :
    ¬ ∀ (fs : FileSystem) (depth : Nat) (config : Config) (s : Source) (r : Resolver),
      build fs depth config s = .ok r → (∀ p ∈ r.table.partitions, p.Compiles) →
        ∀ newer p older, r.table.partitions = newer ++ p :: older →
          (∀ q ∈ newer, q.target ≠ p.target) → p.target.isScript = true →
            r.treePath fs.workingDirectory (.ofString p.target.toText) = .ok (some p.place) := by
  intro h
  obtain ⟨r, hbuild, hps, hhidden⟩ := build_scriptFirst
  have hcompiles : ∀ p ∈ r.table.partitions, p.Compiles := by
    rw [hps]
    decide
  have htext : Path.toText ⟨.root, ["src", "b.luau"]⟩ = "/src/b.luau" := by decide +kernel
  have hfound := h _ _ _ _ r hbuild hcompiles _ _ [] hps (by decide) (by decide)
  rw [htext, show (Stored.fileSystem [("/src/b.luau", .text "")]).workingDirectory = [] from rfl,
    hhidden] at hfound
  exact absurd (Option.some.inj (Except.ok.inj hfound)) (by decide)

end Resolver

end PlaceMap
