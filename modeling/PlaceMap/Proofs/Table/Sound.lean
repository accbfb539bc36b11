/-
What holds of every table on the way of a build, whether or not the build stops later: where the
mapped files and the targets of the partitions stand and how they are named, that no partition is
covered by its own rules, and that these rules are the ignored paths of the one project whose tree
declares the partition, never those of a project that includes it.

The normal form of a target is due to the binding that it comes from, its suffix to the replacement
of the former extension, and the rest to what is asked before it is settled. So the invariant has
two halves: what is known of every visit that a build comes to (`Reached.sound`), and that the
changes of the table which such a visit may make keep it sound (`Source.walk_sound`).
-/
import PlaceMap.FileSystem.Stored
import PlaceMap.Proofs.Glob.Rules
import PlaceMap.Proofs.Table.FileMap
import PlaceMap.Proofs.Walk.Reached

namespace PlaceMap

open Walk (Reached Starts Asks Settles Closed Ensures)

/-! ## Sound tables -/

/-- A partition is declared by a binding: of the project in a file, whose ignored paths are its
rules, or of the tree that the build is given, without any rules. -/
inductive Partition.Declared (fs : FileSystem) (s : Resolver.Source) : Partition → Prop
  | project {file place root} {p : Project} {e : TreePath × Binding} :
    Reached fs s (.project file place root) → Project.load fs file = .ok p →
    e ∈ p.tree.bindings (Walk.placeOf root p.name place) →
    Declared fs s ⟨(e.2.target fs file.parent).toLuau, e.1, p.rules file⟩
  | given {base} {e : TreePath × Binding} :
    Starts fs s (.ofBinding fs base [] e) → Declared fs s ⟨(e.2.target fs base).toLuau, e.1, []⟩

/-- A partition that a build may register. -/
structure Partition.Sound (fs : FileSystem) (s : Resolver.Source) (p : Partition) : Prop where
  isNormal : p.target.IsNormal
  suffix : p.target.suffix ∉ [".lua", ".json", ".toml"]
  name : FileName.isProject p.target.name = false
  uncovered : ∀ rule ∈ p.ignored, rule.covers p.target = .ok false
  declared : p.Declared fs s

/-- A data file that a build may map. -/
structure Path.IsDataFile (file : Path) : Prop where
  isNormal : file.IsNormal
  suffix : file.suffix = ".json" ∨ file.suffix = ".toml"
  name : FileName.isProject file.name = false

/-- A table that a build may leave: every file is mapped once. -/
structure Table.Sound (fs : FileSystem) (s : Resolver.Source) (t : Table) : Prop where
  files : ∀ e ∈ t.fileMap, e.1.IsDataFile
  once : t.fileMap.files.Nodup
  partitions : ∀ p ∈ t.partitions, p.Sound fs s

/-- All rules of a partition are read in one directory. -/
theorem Partition.Declared.root {fs : FileSystem} {s : Resolver.Source} {p : Partition}
    (h : p.Declared fs s) : ∃ root, ∀ rule ∈ p.ignored, rule.root = root := by
  cases h with
  | @project file place root p e hreached hload he =>
    refine ⟨file.parent, fun rule hr => ?_⟩
    obtain ⟨glob, -, rfl⟩ := List.mem_map.1 hr
    rfl
  | given => exact ⟨⟨.root, []⟩, fun _ hr => absurd hr List.not_mem_nil⟩

namespace Table.Sound

variable {fs : FileSystem} {s : Resolver.Source} {t : Table}

theorem empty (fs : FileSystem) (s : Resolver.Source) : Table.empty.Sound fs s :=
  ⟨fun _ he => absurd he List.not_mem_nil, List.nodup_nil, fun _ hp => absurd hp List.not_mem_nil⟩

theorem mapFile (h : t.Sound fs s) {file : Path} (hfile : file.IsDataFile) (place : TreePath) :
    (t.mapFile file place).Sound fs s := by
  refine ⟨fun e he => ?_, FileMap.nodup_insert h.once file place, h.partitions⟩
  rcases FileMap.mem_insert he with rfl | he
  · exact hfile
  · exact h.files e he

theorem register (h : t.Sound fs s) {p : Partition} (hp : p.Sound fs s) :
    (t.register p).Sound fs s := by
  refine ⟨h.files, h.once, fun q hq => ?_⟩
  rcases List.mem_cons.1 hq with rfl | hq
  · exact hp
  · exact h.partitions q hq

/-- No mapped file is the target of a partition: their suffixes differ. -/
theorem disjoint (h : t.Sound fs s) {e : Path × TreePath} (he : e ∈ t.fileMap) {p : Partition}
    (hp : p ∈ t.partitions) : e.1 ≠ p.target := by
  intro heq
  have hsuffix := (h.partitions p hp).suffix
  rw [← heq] at hsuffix
  rcases (h.files e he).suffix with hdata | hdata <;> rw [hdata] at hsuffix <;> exact hsuffix (by simp)

end Table.Sound

/-! ## The visits that a build comes to -/

/-- What is known of a visit: its paths can be spelled, and a target comes from a binding, whose
project's ignored paths are its rules. -/
def Visit.Sound (fs : FileSystem) (s : Resolver.Source) : Visit → Prop
  | .project file _ _ => file.Proper
  | .target path place ignored _ =>
    path.IsNormal ∧ Partition.Declared fs s ⟨path.toLuau, place, ignored⟩
  | .directory dir _ _ _ => dir.Proper

namespace Walk

variable {fs : FileSystem} {s : Resolver.Source}

theorem isNormal_target {base : Path} (h : base.Proper) (b : Binding) :
    (b.target fs base).IsNormal :=
  fs.isNormal_normalize (Path.join_proper h (Path.ofString_proper b.path))

theorem Starts.sound {v : Visit} (h : Starts fs s v) : v.Sound fs s := by
  have hnormal : ∀ text, (fs.normalize (.ofString text)).Proper := fun text =>
    (fs.isNormal_normalize (Path.ofString_proper text)).proper
  have hstart := h
  cases s with
  | project file =>
    cases h
    exact hnormal file
  | tree base n =>
    obtain ⟨e, -, rfl⟩ := h
    exact ⟨isNormal_target (hnormal base) e.2, .given hstart⟩
  | directory base =>
    obtain ⟨e, -, rfl⟩ := h
    have hbase := (fs.isNormal_normalize (hnormal base)).proper
    exact ⟨isNormal_target hbase e.2, .given hstart⟩

theorem Settles.sound {v : Visit} {path : Path} {place : TreePath} {ignored : List IgnoreRule}
    (h : Settles v path place ignored) (hv : v.Sound fs s) :
    path.IsNormal ∧ path.suffix ≠ ".lua" ∧ FileName.isProject path.name = false ∧
      Partition.Declared fs s ⟨path, place, ignored⟩ := by
  obtain ⟨raw, optional, rfl, rfl, -, hproject⟩ := h
  exact ⟨hv.1.toLuau, raw.suffix_toLuau_ne, hproject, hv.2⟩

/-- A sound visit that a build comes to asks for sound ones. -/
theorem Asks.sound {v v' : Visit} (h : Asks fs v v') (hreached : Reached fs s v)
    (hv : v.Sound fs s) : v'.Sound fs s := by
  cases h with
  | binding hload he =>
    exact ⟨isNormal_target (Path.parent_proper hv) _, .project hreached hload he⟩
  | included => exact hv.1.toLuau.proper
  | standard hs => exact Path.child_proper (hs.sound hv).1.proper _
  | search hs => exact (hs.sound hv).1.proper
  | standardBelow => exact Path.child_proper hv _
  | entry => exact Path.child_proper hv _
  | subdirectory => exact Path.child_proper hv _

theorem Reached.sound {v : Visit} (h : Reached fs s v) : v.Sound fs s := by
  induction h with
  | start h => exact h.sound
  | ask h ha ih => exact ha.sound h ih

end Walk

/-! ## Walks that keep an invariant -/

/-- A property holds of every table of a course. -/
def Course.Always (I : Table → Prop) (c : Course) : Prop := ∀ t ∈ c.tables, I t

theorem Course.Always.now {I : Table → Prop} {c : Course} (h : c.Always I) : I c.now :=
  h c.now List.mem_cons_self

/-- A walk goes on with tables that have a property. -/
def Walk.Keeps (I : Table → Prop) : Walk Unit → Prop :=
  Ensures fun c _ d => c.Always I → d.Always I

theorem Walk.Keeps.change {I : Table → Prop} {f : Table → Table} (h : ∀ t, I t → I (f t)) :
    Keeps I (Walk.change f) := by
  refine Ensures.change fun c hc t ht => ?_
  rcases List.mem_cons.1 ht with rfl | ht
  · exact h c.now hc.now
  · exact hc t ht

/-- What holds of the empty table and is kept by every change that a build may make holds of every
table on its way. -/
theorem Resolver.Source.walk_always {fs : FileSystem} {s : Resolver.Source} {I : Table → Prop}
    (hempty : I .empty) (hwarn : ∀ w t, I t → I (t.warn w)) (hgame : ∀ t, I t → I t.markGame)
    (hmap : ∀ v path place ignored, Reached fs s v → Settles v path place ignored →
      path.isData = true → ∀ t, I t → I (t.mapFile path place))
    (hregister : ∀ v path place ignored, Reached fs s v → Settles v path place ignored →
      path.isData = false → ∀ t, I t → I (t.register ⟨path, place, ignored⟩)) (depth : Nat) :
    ((s.walk fs depth).course .empty).Always I := by
  have hclosed : Closed fs (Reached fs s) (Walk.Keeps I) :=
    { pure := Ensures.pure fun _ hc => hc
      stop := fun _ _ _ _ => Ensures.throw fun _ hc => hc
      bind := fun _ _ => Ensures.bind (fun _ _ _ h => h) fun _ _ _ _ h h' hc => h' (h hc)
      warn := fun w => .change (hwarn w)
      markGame := .change hgame
      mapFile := fun v path place ignored hv hs hdata =>
        .change (hmap v path place ignored hv hs hdata)
      register := fun v path place ignored hv hs hdata =>
        .change (hregister v path place ignored hv hs hdata) }
  refine hclosed.source (Ensures.throw fun _ hc => hc) depth ⟨.empty, []⟩ fun t ht => ?_
  rw [List.mem_singleton.1 ht]
  exact hempty

/-- What a build registers as a partition is sound. -/
theorem Walk.Settles.partition_sound {fs : FileSystem} {s : Resolver.Source} {v : Visit} {path : Path}
    {place : TreePath} {ignored : List IgnoreRule} (hs : Settles v path place ignored)
    (hv : v.Sound fs s) (hdata : path.isData = false) :
    Partition.Sound fs s ⟨path, place, ignored⟩ := by
  obtain ⟨hnormal, hlua, hproject, hdeclared⟩ := hs.sound hv
  obtain ⟨raw, optional, -, -, hcovers, -⟩ := hs
  refine ⟨hnormal, ?_, hproject, IgnoreRule.covers_of_anyCovers_false hcovers, hdeclared⟩
  intro hmem
  have hnot : ¬ (path.suffix = ".json" ∨ path.suffix = ".toml") := fun h => by
    rw [Path.isData_iff.2 h] at hdata
    cases hdata
  simp only [List.mem_cons, List.not_mem_nil, or_false] at hmem
  exact hmem.elim hlua hnot

theorem Resolver.Source.walk_sound (fs : FileSystem) (depth : Nat) (s : Resolver.Source) :
    ((s.walk fs depth).course .empty).Always (Table.Sound fs s) := by
  refine walk_always (.empty fs s) (fun _ _ h => ⟨h.files, h.once, h.partitions⟩)
    (fun _ h => ⟨h.files, h.once, h.partitions⟩) ?_ ?_ depth
  · intro v path place ignored hv hs hdata t h
    obtain ⟨hnormal, -, hproject, -⟩ := hs.sound hv.sound
    exact h.mapFile ⟨hnormal, Path.isData_iff.1 hdata, hproject⟩ place
  · intro v path place ignored hv hs hdata t h
    exact h.register (hs.partition_sound hv.sound hdata)

/-- Every table on the way of a build is sound, also when the build stops: the rules of a partition
are read in one directory, and no mapped file is the target of a partition. -/
theorem Resolver.Source.tables_sound (fs : FileSystem) (depth : Nat) (s : Resolver.Source) :
    ∀ t ∈ ((s.walk fs depth).course .empty).tables,
      t.Sound fs s ∧ (∀ p ∈ t.partitions, ∃ root, ∀ rule ∈ p.ignored, rule.root = root) ∧
        ∀ e ∈ t.fileMap, ∀ p ∈ t.partitions, e.1 ≠ p.target := by
  intro t ht
  have hsound := s.walk_sound fs depth t ht
  exact ⟨hsound, fun p hp => (hsound.partitions p hp).declared.root,
    fun e he p hp => hsound.disjoint he hp⟩

/-- A data file and a directory. -/
def Resolver.Source.fileAndDirectory : Resolver.Source :=
  .tree "/" ⟨none, none, none, none, [("c", .bound "c.toml"), ("s", .bound "src")]⟩

/-- The build stops after both are registered, since the directory cannot be searched. -/
theorem Resolver.Source.tables_sound_stopped :
    let fs := Stored.fileSystem [("/src/a.luau", .text "")]
    let c := (fileAndDirectory.walk fs 1).course .empty
    ((fileAndDirectory.walk fs 1).runOn .empty).1.isOk = false ∧ c.now ∈ c.tables ∧
      c.now.fileMap = [(⟨.root, ["c.toml"]⟩, ["c"])] ∧
      c.now.partitions = [⟨⟨.root, ["src"]⟩, ["s"], []⟩] ∧ c.now.Sound fs fileAndDirectory := by
  refine ⟨by decide +kernel, List.mem_cons_self, by decide +kernel, by decide +kernel, ?_⟩
  exact (tables_sound _ 1 fileAndDirectory _ List.mem_cons_self).1

end PlaceMap
