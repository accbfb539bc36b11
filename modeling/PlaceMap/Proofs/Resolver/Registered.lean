/-
Everything that a build registers is found again: the text of a mapped file leads to its tree path,
and the text of a partition's target to what the newest partition that serves it says.

A file is registered under its normal form with the present extension, and a query brings its path
into that form once more. The invariant of the build says that this changes nothing, that no target
is covered by its own rules, and that the mapped files come first without hiding a partition.
-/
import PlaceMap.FileSystem.Stored
import PlaceMap.Proofs.Resolver.Query
import PlaceMap.Proofs.Table.Sound

namespace PlaceMap.Resolver

/-! ## The table of a resolver -/

theorem build_sound {fs : FileSystem} {depth : Nat} {config : Config} {s : Source} {r : Resolver}
    (h : build fs depth config s = .ok r) : r.table.Sound fs s := by
  rw [(build_eq_ok h).2]
  exact (s.walk_sound fs depth).now

/-! ## What is registered -/

theorem treePath_mapped {fs : FileSystem} {s : Source} {r : Resolver} (h : r.table.Sound fs s)
    (cwd : List String) {e : Path × TreePath} (he : e ∈ r.table.fileMap) :
    r.treePath cwd (.ofString e.1.toText) = .ok (some e.2) := by
  have hlua : e.1.suffix ≠ ".lua" := by
    intro hlua
    rcases (h.files e he).suffix with hdata | hdata <;> rw [hlua] at hdata <;> exact absurd hdata (by decide)
  rw [treePath_toText r cwd (h.files e he).isNormal hlua, FileMap.find?_of_mem h.once he]

theorem serves_target {fs : FileSystem} {s : Source} {p : Partition} (h : p.Sound fs s) :
    p.Serves p.target :=
  ⟨⟨[], p.target.below?_self⟩, h.uncovered⟩

/-- No file is mapped under the target of a partition. -/
theorem find?_target {fs : FileSystem} {s : Source} {t : Table} (h : t.Sound fs s) {p : Partition}
    (hp : p ∈ t.partitions) : t.fileMap.find? p.target = none := by
  refine FileMap.find?_eq_none.2 fun hm => ?_
  obtain ⟨e, he, heq⟩ := List.mem_map.1 hm
  exact h.disjoint he hp heq

theorem treePath_target {fs : FileSystem} {s : Source} {r : Resolver} (h : r.table.Sound fs s)
    (cwd : List String) {p : Partition} (hp : p ∈ r.table.partitions) :
    r.treePath cwd (.ofString p.target.toText) = inPartitions p.target r.table.partitions := by
  have hsound := h.partitions p hp
  have hlua : p.target.suffix ≠ ".lua" := fun he => hsound.suffix (by rw [he]; decide)
  rw [treePath_toText r cwd hsound.isNormal hlua, find?_target h hp]

/-- Whatever a build registers is found again under its text: a mapped file at its tree path, and
the target of a partition at the tree path of the newest partition that serves it, followed by the
remainder below that one's target. Where no newer partition holds the target, this is the
partition's own tree path. -/
theorem registered_found {fs : FileSystem} {depth : Nat} {config : Config} {s : Source}
    {r : Resolver} (hbuild : build fs depth config s = .ok r)
    (hcompiles : ∀ p ∈ r.table.partitions, p.Compiles) (cwd : List String) :
    (∀ e ∈ r.table.fileMap, r.treePath cwd (.ofString e.1.toText) = .ok (some e.2)) ∧
    ∀ newer p older, r.table.partitions = newer ++ p :: older →
      (∃ q parts, Partition.Newest p.target r.table.partitions q ∧
        p.target.below? q.target = some parts ∧
        r.treePath cwd (.ofString p.target.toText) =
          .ok (some (q.place ++ remainder p.target.isScript parts))) ∧
      ((∀ q ∈ newer, p.target.below? q.target = none) →
        r.treePath cwd (.ofString p.target.toText) = .ok (some p.place)) := by
  have hsound := build_sound hbuild
  refine ⟨fun e he => treePath_mapped hsound cwd he, fun newer p older hps => ?_⟩
  have hp : p ∈ r.table.partitions := by
    rw [hps]
    exact List.mem_append_right _ List.mem_cons_self
  have hserves := serves_target (hsound.partitions p hp)
  rw [treePath_target hsound cwd hp]
  constructor
  · obtain ⟨q, hq⟩ := Partition.exists_newest ⟨p, hp, hserves⟩
    obtain ⟨parts, hparts, hfound⟩ := inPartitions_of_newest hcompiles hq
    exact ⟨q, parts, hq, hparts, hfound⟩
  · intro hnewer
    have hnewest : Partition.Newest p.target r.table.partitions p := by
      refine ⟨newer, older, hps, hserves, fun q hq hheld => ?_⟩
      obtain ⟨⟨parts, hparts⟩, -⟩ := hheld
      rw [hnewer q hq] at hparts
      cases hparts
    obtain ⟨parts, hparts, hfound⟩ := inPartitions_of_newest hcompiles hnewest
    rw [p.target.below?_self] at hparts
    cases hparts
    rw [hfound, remainder, List.append_nil]

/-- A project that binds a directory, a script in it and a data file, and that ignores `out`. -/
def smallProject : FileSystem := Stored.fileSystem
  [("/p.json", .text ("\x7b\"name\":\"p\",\"globIgnorePaths\":[\"out\"],\"tree\":\x7b\"$path\":\"src\"," ++
      "\"b\":\x7b\"$path\":\"src/b.lua\"\x7d,\"c\":\x7b\"$path\":\"c.toml\"\x7d\x7d\x7d")),
   ("/src/b.luau", .text "")]

theorem registered_found_small :
    ∃ r, build smallProject 3 ⟨[], [], []⟩ (.project "/p.json") = .ok r ∧
      (∀ p ∈ r.table.partitions, p.Compiles) ∧
      r.treePath [] (.ofString "/c.toml") = .ok (some ["c"]) ∧
      r.treePath [] (.ofString "/src/b.luau") = .ok (some ["b"]) := by
  have hrun : (build smallProject 3 ⟨[], [], []⟩ (.project "/p.json")).toOption.map
      (fun r => (r.table.fileMap, r.table.partitions)) =
        some ([(⟨.root, ["c.toml"]⟩, ["c"])],
          [⟨⟨.root, ["src", "b.luau"]⟩, ["b"], [⟨⟨.root, []⟩, "out"⟩]⟩,
            ⟨⟨.root, ["src"]⟩, [], [⟨⟨.root, []⟩, "out"⟩]⟩]) := by
    decide +kernel
  rcases hbuild : build smallProject 3 ⟨[], [], []⟩ (.project "/p.json") with e | r
  · rw [hbuild] at hrun
    cases hrun
  rw [hbuild] at hrun
  obtain ⟨hfiles, hpartitions⟩ := Prod.mk.inj (Option.some.inj hrun)
  have hcompiles : ∀ p ∈ r.table.partitions, p.Compiles := by
    rw [hpartitions]
    decide +kernel
  obtain ⟨hmapped, hregistered⟩ := registered_found hbuild hcompiles []
  refine ⟨r, rfl, hcompiles, ?_, ?_⟩
  · exact hmapped (⟨.root, ["c.toml"]⟩, ["c"]) (by rw [hfiles]; exact List.mem_cons_self)
  · exact (hregistered [] _ _ hpartitions).2 fun q hq => absurd hq List.not_mem_nil

end PlaceMap.Resolver
