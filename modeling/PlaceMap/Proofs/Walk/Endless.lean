/-
Why visits lead on and on. In a chain of visits without an end, projects turn up again and again, or
from some visit on there are only directories, each below the one before. On a bounded file system
there are finitely many files and directories, so the latter is impossible, and of the projects in
the chain two are in one file: that project includes itself. Failures do not matter here, since
nothing is asked for where one is met.
-/
import Mathlib.Data.Set.Finite.List
import PlaceMap.Proofs.FileSystem.Healthy
import PlaceMap.Proofs.Table.Sound
import PlaceMap.Proofs.Walk.BrokenProjects
import PlaceMap.Proofs.Walk.Depth

namespace PlaceMap

/-- The project file of a visit. -/
def Visit.file? : Visit → Option Path
  | .project file _ _ => some file
  | _ => none

/-- The directory of a visit. -/
def Visit.directory? : Visit → Option Path
  | .directory dir _ _ _ => some dir
  | _ => none

/-- The path of a visit. -/
def Visit.path : Visit → Path
  | .project file _ _ => file
  | .target path _ _ _ => path
  | .directory dir _ _ _ => dir

theorem Path.Proper.file {v : Visit} (h : v.path.Proper) {file : Path} (hfile : v.file? = some file) :
    file.Proper := by
  cases v <;> cases hfile
  exact h

theorem Path.Proper.directory {v : Visit} (h : v.path.Proper) {dir : Path}
    (hdir : v.directory? = some dir) : dir.Proper := by
  cases v <;> cases hdir
  exact h

namespace Walk

variable {fs : FileSystem} {s : Resolver.Source}

/-- A visit leads to a project file that leads to itself again. -/
def Recurs (fs : FileSystem) (v : Visit) : Prop :=
  ∃ w w' file m n, AsksIn fs m v w ∧ AsksIn fs (n + 1) w w' ∧ w.file? = some file ∧
    w'.file? = some file

/-- A project file that a build comes to leads to itself again. -/
def IncludesItself (fs : FileSystem) (s : Resolver.Source) : Prop :=
  ∃ v v' file n, Reached fs s v ∧ AsksIn fs (n + 1) v v' ∧
    v.file? = some file ∧ v'.file? = some file

/-- A project that asks for anything stands in a file. -/
theorem Asks.has {v v' : Visit} (h : Asks fs v v') {file : Path} (hfile : v.file? = some file) :
    fs.has file = .ok true := by
  cases h with
  | binding hload =>
    cases hfile
    exact Project.has_of_load hload
  | included => cases hfile
  | standard hs => obtain ⟨raw, optional, rfl, -⟩ := hs; cases hfile
  | search hs => obtain ⟨raw, optional, rfl, -⟩ := hs; cases hfile
  | standardBelow => cases hfile
  | entry => cases hfile
  | subdirectory => cases hfile

/-- What is asked for by a visit that is not of a project, and is not a project itself, is a
directory; from a directory it is one of its entries. -/
theorem Asks.directory {v v' : Visit} (h : Asks fs v v') (hv : v.file? = none)
    (hv' : v'.file? = none) :
    ∃ dir', v'.directory? = some dir' ∧
      ∀ dir, v.directory? = some dir →
        ∃ names n, fs.list dir = .ok names ∧ n ∈ names ∧ dir' = dir.child n := by
  cases h with
  | binding => cases hv
  | included => cases hv'
  | standard => cases hv'
  | search hs =>
    obtain ⟨raw, optional, rfl, -⟩ := hs
    exact ⟨_, rfl, fun _ hdir => by cases hdir⟩
  | standardBelow => cases hv'
  | entry => cases hv'
  | subdirectory hl _ _ hn _ =>
    refine ⟨_, rfl, fun dir hdir => ?_⟩
    cases hdir
    exact ⟨_, _, hl, hn, rfl⟩

/-- What is asked for as a directory is one. -/
theorem Asks.isDirectory {v v' : Visit} (h : Asks fs v v') {dir : Path}
    (hdir : v'.directory? = some dir) : fs.isDirectory dir = .ok true := by
  cases h with
  | binding => cases hdir
  | included => cases hdir
  | standard => cases hdir
  | search _ _ hdirectory => cases hdir; exact hdirectory
  | standardBelow => cases hdir
  | entry => cases hdir
  | subdirectory _ _ _ _ hdirectory => cases hdir; exact hdirectory

/-- A visit of a path that can be spelled asks for visits of such paths. -/
theorem Asks.proper {v v' : Visit} (h : Asks fs v v') (hv : v.path.Proper) : v'.path.Proper := by
  cases h with
  | binding => exact (isNormal_target (Path.parent_proper hv) _).proper
  | included => exact Path.toLuau_proper hv
  | standard hs =>
    obtain ⟨raw, optional, rfl, rfl, -⟩ := hs
    exact Path.child_proper (Path.toLuau_proper hv) _
  | search hs =>
    obtain ⟨raw, optional, rfl, rfl, -⟩ := hs
    exact Path.toLuau_proper hv
  | standardBelow => exact Path.child_proper hv _
  | entry => exact Path.child_proper hv _
  | subdirectory => exact Path.child_proper hv _

/-- What a visit asks for as a project file is named like one, if listed names can stand in a path. -/
theorem Asks.isProject {v v' : Visit} (h : Asks fs v v') (hv : v.path.Proper)
    (hfs : ∀ dir names n, dir.Proper → fs.list dir = .ok names → n ∈ names → FileName.IsPart n)
    {file : Path} (hfile : v'.file? = some file) : FileName.isProject file.name = true := by
  have hdefault : ∀ dir : Path,
      FileName.isProject (dir.child FileName.defaultProject).name = true := fun dir => by
    rw [Path.name_child (by decide)]
    decide
  cases h with
  | binding => cases hfile
  | included _ hp => cases hfile; exact hp
  | standard => cases hfile; exact hdefault _
  | search => cases hfile
  | standardBelow => cases hfile; exact hdefault _
  | entry hl _ _ hn hp =>
    cases hfile
    rw [Path.name_child (hfs _ _ _ hv hl hn)]
    exact hp
  | subdirectory => cases hfile

theorem Starts.proper {v : Visit} (h : Starts fs s v) : v.path.Proper := by
  have hsound := h.sound
  cases v with
  | project => exact hsound
  | target => exact hsound.1.proper
  | directory => exact hsound

section

variable {chain : Nat → Visit} (hchain : ∀ n, Asks fs (chain n) (chain (n + 1)))
include hchain

theorem asksIn_chain (m k : Nat) : AsksIn fs k (chain m) (chain (m + k)) := by
  induction k generalizing m with
  | zero => exact .here
  | succ k ih =>
    have hrest := ih (m + 1)
    rw [Nat.add_assoc, Nat.add_comm 1] at hrest
    exact .step (hchain m) hrest

theorem reached_chain (hstart : Starts fs s (chain 0)) (n : Nat) : Reached fs s (chain n) := by
  induction n with
  | zero => exact .start hstart
  | succ n ih => exact ih.ask (hchain n)

theorem proper_chain (hproper : (chain 0).path.Proper) (n : Nat) : (chain n).path.Proper := by
  induction n with
  | zero => exact hproper
  | succ n ih => exact (hchain n).proper ih

/-- If projects turn up in a chain again and again, one of them leads to itself. -/
theorem exists_again_of_infinite (hfs : fs.Bounded) (hproper : (chain 0).path.Proper)
    (hinf : {n | (chain n).file?.isSome}.Infinite) :
    ∃ m k file, (chain m).file? = some file ∧ (chain (m + (k + 1))).file? = some file := by
  obtain ⟨paths, hpaths⟩ := hfs.finite
  have hmaps : Set.MapsTo (fun n => (chain n).file?) {n | (chain n).file?.isSome}
      {found | found ∈ paths.map some} := by
    intro n hn
    obtain ⟨file, hfile⟩ := Option.isSome_iff_exists.1 hn
    have hmem := hpaths file ((proper_chain hchain hproper n).file hfile) (.inl ((hchain n).has hfile))
    show (chain n).file? ∈ paths.map some
    rw [hfile]
    exact List.mem_map_of_mem hmem
  obtain ⟨m, hm, n, -, hne, heq⟩ := hinf.exists_ne_map_eq_of_mapsTo hmaps (List.finite_toSet _)
  obtain ⟨file, hfile⟩ := Option.isSome_iff_exists.1 hm
  have hfile' : (chain n).file? = some file := heq.symm.trans hfile
  rcases Nat.lt_or_gt_of_ne hne with hlt | hlt
  · obtain ⟨k, rfl⟩ := Nat.exists_eq_add_of_lt hlt
    exact ⟨m, k, file, hfile, hfile'⟩
  · obtain ⟨k, rfl⟩ := Nat.exists_eq_add_of_lt hlt
    exact ⟨n, k, file, hfile', hfile⟩

/-- Where a chain goes on without projects, there are directories, each longer than the one
before. -/
theorem exists_long_directory (hfs : fs.Bounded) {first : Nat}
    (hfirst : ∀ n, first ≤ n → (chain n).file? = none) (k : Nat) :
    ∃ dir, (chain (first + k + 1)).directory? = some dir ∧ k ≤ dir.parts.length := by
  induction k with
  | zero =>
    obtain ⟨dir, hdir, -⟩ := (hchain first).directory (hfirst _ (Nat.le_refl _)) (hfirst _ (by omega))
    exact ⟨dir, hdir, Nat.zero_le _⟩
  | succ k ih =>
    obtain ⟨dir, hdir, hk⟩ := ih
    obtain ⟨dir', hdir', hentry⟩ :=
      (hchain (first + k + 1)).directory (hfirst _ (by omega)) (hfirst _ (by omega))
    obtain ⟨names, n, hl, hn, rfl⟩ := hentry dir hdir
    refine ⟨_, hdir', ?_⟩
    rw [Path.parts_child (hfs.listed dir names n hl hn).1, List.length_append]
    exact Nat.succ_le_succ hk

/-- A chain does not go on forever without projects. -/
theorem infinite_of_chain (hfs : fs.Bounded) (hproper : (chain 0).path.Proper) :
    {n | (chain n).file?.isSome}.Infinite := by
  intro hfinite
  obtain ⟨last, hlast⟩ := hfinite.bddAbove
  have hfirst : ∀ n, last + 1 ≤ n → (chain n).file? = none := by
    intro n hn
    by_contra hsome
    have hle : n ≤ last := hlast (Option.isSome_iff_ne_none.2 hsome)
    omega
  obtain ⟨paths, hpaths⟩ := hfs.finite
  -- A directory longer than every path there is.
  obtain ⟨dir, hdir, hlong⟩ := exists_long_directory hchain hfs hfirst
    (paths.toFinset.sup (fun p => p.parts.length) + 1)
  have hmem := hpaths dir ((proper_chain hchain hproper _).directory hdir)
    (.inr ((hchain _).isDirectory hdir))
  have hle := Finset.le_sup (f := fun p : Path => p.parts.length) (List.mem_toFinset.2 hmem)
  omega

/-- In a chain without an end, a project leads to itself. -/
theorem exists_again (hfs : fs.Bounded) (hproper : (chain 0).path.Proper) :
    ∃ m k file, (chain m).file? = some file ∧ (chain (m + (k + 1))).file? = some file :=
  exists_again_of_infinite hchain hfs hproper (infinite_of_chain hchain hfs hproper)

end

/-- On a bounded file system, visits lead on and on only if a project includes itself. -/
theorem not_endless (hfs : fs.Bounded) (h : ¬ IncludesItself fs s) : ¬ Endless fs s := by
  rintro ⟨chain, hstart, hchain⟩
  obtain ⟨m, k, file, hm, hk⟩ := exists_again hchain hfs hstart.proper
  exact h ⟨_, _, file, k, reached_chain hchain hstart m, asksIn_chain hchain m (k + 1), hm, hk⟩

/-- A visit is shallow, however many failures there are, if no project that it leads to leads to
itself. -/
theorem exists_shallow_of_not_recurs (hfs : fs.Bounded) {v : Visit} (hproper : v.path.Proper)
    (h : ¬ Recurs fs v) : ∃ n, Shallow fs n v := by
  refine exists_shallow (by_contra fun hacc => ?_)
  obtain ⟨chain, rfl, hchain⟩ := not_acc_iff_exists_descending_chain.1 hacc
  obtain ⟨m, k, file, hm, hk⟩ := exists_again hchain hfs hproper
  have hreached := asksIn_chain hchain 0 m
  rw [Nat.zero_add] at hreached
  exact h ⟨_, _, file, m, k, hreached, asksIn_chain hchain m (k + 1), hm, hk⟩

theorem Reached.asksIn {v w : Visit} {n : Nat} (hv : Reached fs s v) (h : AsksIn fs n v w) :
    Reached fs s w := by
  induction h with
  | here => exact hv
  | step ha _ ih => exact ih (hv.ask ha)

theorem Recurs.includesItself {v : Visit} (h : Recurs fs v) (hv : Starts fs s v) :
    IncludesItself fs s := by
  obtain ⟨w, w', file, m, n, hw, hw', hfile, hfile'⟩ := h
  exact ⟨w, w', file, n, (Reached.start hv).asksIn hw, hw', hfile, hfile'⟩

/-! ## Level by level -/

theorem AsksIn.mem_generation {m n : Nat} {v v' : Visit} (h : AsksIn fs n v v')
    (hv : v ∈ s.generation fs m) : v' ∈ s.generation fs (m + n) := by
  induction h generalizing m with
  | here => exact hv
  | step ha _ ih =>
    have hnext := ih (m := m + 1) (List.mem_flatMap.2 ⟨_, hv, ha.mem_successors⟩)
    rw [Nat.add_right_comm, Nat.add_assoc] at hnext
    exact hnext

/-- No project includes itself if no file turns up in two generations, up to one without any
visits. -/
theorem not_includesItself_of_generations {n : Nat} (hnil : s.generation fs n = [])
    (h : ∀ m < n, ∀ v ∈ s.generation fs m, ∀ k < n, m < k → ∀ v' ∈ s.generation fs k,
      v.file? = none ∨ v.file? ≠ v'.file?) : ¬ IncludesItself fs s := by
  rintro ⟨v, v', file, k, hreached, hasks, hfile, hfile'⟩
  obtain ⟨m, hm⟩ := Resolver.exists_generation hreached
  have hbefore : ∀ {l w}, w ∈ s.generation fs l → l < n := by
    intro l w hw
    by_contra hge
    rw [Resolver.Source.generation_eq_nil hnil (Nat.le_of_not_lt hge)] at hw
    cases hw
  have hlast := hasks.mem_generation hm
  rcases h m (hbefore hm) v hm _ (hbefore hlast) (by omega) v' hlast with hnone | hne
  · rw [hnone] at hfile
    cases hfile
  · exact hne (hfile.trans hfile'.symm)

end Walk

end PlaceMap
