/-
When a walk comes to an end, whatever it visits and from whatever table. Visits lead to visits in
circles: a tree asks for targets, a target for a project or a directory, a directory for projects and
directories, and a project for a tree. What shrinks is, first, the rank of the project, and while no
new project is loaded, the number of directories that are still below. So on a file system with
finitely many directories below each path every walk ends, if a rank of the project files falls from
a project to all that its walk loads.

That a walk loads a project is said of the walk as it goes, and not of what it would ask for if
nothing stopped it: a visit is entered once all before it have returned.
-/
import Mathlib.Data.Set.Card
import Mathlib.Logic.Relation
import Mathlib.Order.WellFounded
import PlaceMap.Proofs.Path.Relocation
import PlaceMap.Proofs.Walk.Doing
import PlaceMap.Proofs.Walk.Endless
import PlaceMap.Proofs.Walk.Log

namespace PlaceMap

open FileName (IsOrdinary IsPart)

/-! ## Directories below a path -/

/-- What leads from a path down to directories, by the names of entries. -/
def FileSystem.below (fs : FileSystem) (dir : Path) : Set (List String) :=
  {parts | (∀ part ∈ parts, IsOrdinary part) ∧ parts ≠ [] ∧
    fs.isDirectory (dir.descend parts) = .ok true}

/-- Directories list the names of entries, and below each path there are finitely many directories:
no links among them lead around in a circle. -/
structure FileSystem.Grounded (fs : FileSystem) : Prop where
  listed : ∀ dir names n, fs.list dir = .ok names → n ∈ names → IsOrdinary n
  finite : ∀ dir : Path, dir.Proper → (fs.below dir).Finite

namespace FileSystem

variable {fs : FileSystem}

/-- If there are finitely many directories, there are below each path. -/
theorem Bounded.grounded (h : fs.Bounded) : fs.Grounded where
  listed := h.listed
  finite dir hdir := by
    obtain ⟨paths, hpaths⟩ := h.finite
    refine Set.Finite.of_injOn (f := dir.descend) (t := {p | p ∈ paths}) ?_ ?_ (List.finite_toSet paths)
    · rintro parts ⟨hparts, -, hfound⟩
      refine hpaths _ (fun part hp => ?_) (.inr hfound)
      rcases List.mem_append.1 hp with hp | hp
      · exact hdir part hp
      · exact (hparts part hp).1
    · exact fun _ _ _ _ h => Path.descend_inj.1 h

/-- Below an entry that is a directory there are fewer directories. -/
theorem Grounded.ncard_below_child (h : fs.Grounded) {dir : Path} (hdir : dir.Proper) {n : String}
    (hn : IsOrdinary n) (hchild : fs.isDirectory (dir.child n) = .ok true) :
    (fs.below (dir.child n)).ncard < (fs.below dir).ncard := by
  have hdescend : ∀ parts, (dir.child n).descend parts = dir.descend (n :: parts) := by
    intro parts
    rw [Path.child_eq_descend hn.1, Path.descend_descend]
    rfl
  have hsubset : List.cons n '' fs.below (dir.child n) ⊂ fs.below dir := by
    refine Set.ssubset_iff_exists.2 ⟨?_, [n], ?_, ?_⟩
    · rintro _ ⟨parts, ⟨hparts, -, hfound⟩, rfl⟩
      refine ⟨fun part hp => ?_, List.cons_ne_nil n parts, hdescend parts ▸ hfound⟩
      rcases List.mem_cons.1 hp with rfl | hp
      · exact hn
      · exact hparts part hp
    · refine ⟨fun part hp => List.mem_singleton.1 hp ▸ hn, List.cons_ne_nil n [], ?_⟩
      rw [← hdescend, Path.descend_nil, hchild]
    · rintro ⟨parts, ⟨-, hne, -⟩, heq⟩
      exact hne (List.cons.inj heq).2
  calc (fs.below (dir.child n)).ncard
      = (List.cons n '' fs.below (dir.child n)).ncard :=
        (Set.ncard_image_of_injective _ (List.cons_injective)).symm
    _ < (fs.below dir).ncard := Set.ncard_lt_ncard hsubset (h.finite dir hdir)

end FileSystem

/-! ## What a walk enters -/

/-- A visit returns, if it may be nested deeply enough. -/
def Visit.Returns (fs : FileSystem) (v : Visit) : Prop :=
  ∃ depth, ∀ t, ((Walk.visit fs depth v).runOn t).1 = .ok ()

/-- A walk goes on after an action: it is no stop, and if it is a visit, that returns. -/
def Action.Passes (fs : FileSystem) : Action → Prop
  | .visit v => v.Returns fs
  | .stop _ => False
  | _ => True

/-- A walk that does one thing after another comes to a visit. -/
inductive Action.ComesTo (fs : FileSystem) : List Action → Visit → Prop
  | here {v l} : ComesTo fs (.visit v :: l) v
  | later {a l v} : a.Passes fs → ComesTo fs l v → ComesTo fs (a :: l) v

namespace Walk

/-- The walk of a visit enters another visit. -/
def Enters (fs : FileSystem) (v v' : Visit) : Prop := Action.ComesTo fs (v.actions fs) v'

/-- The walk of a project file loads another one, whatever lies between them. -/
def Loads (fs : FileSystem) (file file' : Path) : Prop :=
  ∃ v v', v.path.Proper ∧ v.file? = some file ∧ v'.file? = some file' ∧
    Relation.TransGen (Enters fs) v v' ∧ ∃ p, Project.load fs file' = .ok p

/-- From some depth on, walks that are given by their depth are not too deep, and the depth makes no
difference: from every table they end alike and leave the same table. -/
def Finishes (walk : Nat → Walk Unit) : Prop :=
  ∃ depth, (∀ t, ((walk depth).runOn t).1 ≠ .error .tooDeep) ∧
    ∀ more, depth ≤ more → ∀ t, (walk more).runOn t = (walk depth).runOn t

end Walk

/-! ## How a list of actions ends -/

namespace Action

variable {fs : FileSystem} {depth more : Nat} {l : List Action} {v : Visit}

/-- The stop at which it ends to do one thing after another, if it ends at one. -/
def ending? (fs : FileSystem) (depth : Nat) (l : List Action) : Option Stop :=
  (l.flatMap (expand (Visit.log fs depth))).findSome? stop?

theorem failure?_performAll (l : List Action) (depth : Nat) (t : Table) :
    failure? ((performAll (Walk.visit fs depth) l).runOn t).1 = ending? fs depth l := by
  rw [runOn_performAll, failure?_replay]
  rfl

theorem ending?_cons (a : Action) (l : List Action) :
    ending? fs depth (a :: l) = (ending? fs depth [a]).or (ending? fs depth l) := by
  simp [ending?, List.findSome?_append]

theorem ending?_visit (depth : Nat) (v : Visit) :
    ending? fs (depth + 1) [.visit v] = ending? fs depth (v.actions fs) := by
  simp [ending?, expand, Visit.log]

/-- What is not too deep ends alike at greater depths. -/
theorem runOn_deeper (h : ending? fs depth l ≠ some .tooDeep) (hmore : depth ≤ more) (t : Table) :
    (performAll (Walk.visit fs more) l).runOn t = (performAll (Walk.visit fs depth) l).runOn t := by
  have hdeep : ((performAll (Walk.visit fs depth) l).follow ⟨t, []⟩).1 ≠ .error .tooDeep := by
    intro hdeep
    refine h ((failure?_performAll l depth t).symm.trans ?_)
    exact failure?_eq_some.2 hdeep
  have hextends : Walk.Extends (performAll (Walk.visit fs depth) l)
      (performAll (Walk.visit fs more) l) := .performAll (Walk.visit_deeper fs hmore) l
  unfold Walk.runOn
  rw [hextends _ hdeep]

theorem ending?_deeper (h : ending? fs depth l ≠ some .tooDeep) (hmore : depth ≤ more) :
    ending? fs more l = ending? fs depth l := by
  rw [← failure?_performAll l more .empty, ← failure?_performAll l depth .empty,
    runOn_deeper h hmore]

theorem finishes_of_end (h : ending? fs depth l ≠ some .tooDeep) :
    Walk.Finishes fun depth => performAll (Walk.visit fs depth) l := by
  refine ⟨depth, fun t hdeep => h ?_, fun more hmore t => runOn_deeper h hmore t⟩
  rw [← failure?_performAll l depth t]
  exact failure?_eq_some.2 hdeep

theorem returns_of_end (h : ending? fs depth [.visit v] = none) : v.Returns fs := by
  refine ⟨depth, fun t => ?_⟩
  rw [← failure?_performAll _ depth t, performAll_singleton, perform] at h
  cases hrun : ((Walk.visit fs depth v).runOn t).1 with
  | ok u => rfl
  | error e => rw [hrun] at h; cases h

/-- To do one thing after another comes to an end if every visit that it comes to does. -/
theorem exists_end : ∀ {l : List Action}, (∀ e, .stop e ∈ l → e ≠ .tooDeep) →
    (∀ v, ComesTo fs l v → ∃ depth, ending? fs depth [.visit v] ≠ some .tooDeep) →
    ∃ depth, ending? fs depth l ≠ some .tooDeep
  | [], _, _ => ⟨0, nofun⟩
  | a :: l, hstop, hvisit => by
    have hrest : a.Passes fs → ∃ depth, ending? fs depth l ≠ some .tooDeep := fun ha =>
      exists_end (fun e he => hstop e (List.mem_cons_of_mem a he)) fun v hv => hvisit v (.later ha hv)
    cases a with
    | stop e =>
      refine ⟨0, fun hdeep => hstop e List.mem_cons_self ?_⟩
      exact Option.some.inj hdeep
    | visit v =>
      obtain ⟨first, hfirst⟩ := hvisit v .here
      cases hend : ending? fs first [.visit v] with
      | some e =>
        refine ⟨first, ?_⟩
        rw [ending?_cons, hend]
        rwa [hend] at hfirst
      | none =>
        obtain ⟨rest, hrest⟩ := hrest (returns_of_end hend)
        refine ⟨max first rest, ?_⟩
        rw [ending?_cons, ending?_deeper hfirst (Nat.le_max_left first rest), hend,
          ending?_deeper hrest (Nat.le_max_right first rest)]
        exact hrest
    | _ =>
      obtain ⟨depth, hdepth⟩ := hrest trivial
      refine ⟨depth, ?_⟩
      rw [ending?_cons]
      exact hdepth

theorem ComesTo.mem (h : ComesTo fs l v) : .visit v ∈ l := by
  induction h with
  | here => exact List.mem_cons_self
  | later _ _ ih => exact List.mem_cons_of_mem _ ih

end Action

/-! ## What shrinks -/

namespace Walk

variable {fs : FileSystem} {v v' : Visit}

theorem Enters.asks (h : Enters fs v v') : Asks fs v v' := Action.asks_of_mem h.mem

/-- A visit comes to an end if no chain of visits goes on from it without one. -/
theorem exists_end_of_acc (h : Acc (fun v' v => Enters fs v v') v) :
    ∃ depth, Action.ending? fs depth [.visit v] ≠ some .tooDeep := by
  induction h with
  | intro v _ ih =>
    have hstop : ∀ e, .stop e ∈ v.actions fs → e ≠ .tooDeep := by
      intro e he
      cases Action.does_of_mem he with
      | stop hstops => exact hstops.ne_tooDeep
    obtain ⟨depth, hdepth⟩ := Action.exists_end hstop ih
    refine ⟨depth + 1, ?_⟩
    rwa [Action.ending?_visit]

/-- From every project file that a visit leads to, the chains of visits end. -/
def ProjectsEnd (fs : FileSystem) (v : Visit) : Prop :=
  ∀ v', Relation.TransGen (Enters fs) v v' → v'.file?.isSome → Acc (fun v' v => Enters fs v v') v'

theorem ProjectsEnd.enter (h : ProjectsEnd fs v) (hv : Enters fs v v') : ProjectsEnd fs v' :=
  fun w hw => h w (.head hv hw)

theorem ProjectsEnd.acc_project (h : ProjectsEnd fs v) (hv : Enters fs v v') (hfile : v'.file?.isSome) :
    Acc (fun v' v => Enters fs v v') v' := h v' (.single hv) hfile

/-- Without new projects, the search of a directory ends: there are fewer and fewer directories below
those that are searched. -/
theorem acc_directory (hfs : fs.Grounded) : ∀ (size : Nat) {dir : Path} {place : TreePath}
    {name : Option String} {ignored : List IgnoreRule}, dir.Proper → (fs.below dir).ncard = size →
    ProjectsEnd fs (.directory dir place name ignored) →
    Acc (fun v' v => Enters fs v v') (.directory dir place name ignored) := by
  intro size
  induction size using Nat.strong_induction_on with
  | _ size ih =>
    intro dir place name ignored hdir hsize hprojects
    refine .intro _ fun v' hv => ?_
    cases hv.asks with
    | search hs => exact absurd rfl hs.ne_directory
    | standard hs => exact absurd rfl hs.ne_directory
    | standardBelow => exact hprojects.acc_project hv rfl
    | entry => exact hprojects.acc_project hv rfl
    | subdirectory hl _ _ hn hchild =>
      have hfewer := hfs.ncard_below_child hdir (hfs.listed _ _ _ hl hn) hchild
      exact ih _ (hsize ▸ hfewer) (Path.child_proper hdir _) rfl (hprojects.enter hv)

theorem acc_target (hfs : fs.Grounded) {path : Path} {place : TreePath} {ignored : List IgnoreRule}
    {optional : Bool} (hpath : path.Proper)
    (hprojects : ProjectsEnd fs (.target path place ignored optional)) :
    Acc (fun v' v => Enters fs v v') (.target path place ignored optional) := by
  refine .intro _ fun v' hv => ?_
  have hproper := hv.asks.proper (v := .target path place ignored optional) hpath
  cases hv.asks with
  | included => exact hprojects.acc_project hv rfl
  | standard => exact hprojects.acc_project hv rfl
  | search => exact acc_directory hfs _ hproper rfl (hprojects.enter hv)

theorem proper_of_enters (h : Relation.TransGen (Enters fs) v v') (hv : v.path.Proper) :
    v'.path.Proper := by
  induction h with
  | single h => exact h.asks.proper hv
  | tail _ h ih => exact h.asks.proper ih

/-- A project asks for targets, and only if it can be loaded. -/
theorem Asks.of_project {file : Path} {place : TreePath} {root : Bool}
    (h : Asks fs (.project file place root) v') :
    ∃ p, Project.load fs file = .ok p ∧ ∃ e, v' = .ofBinding fs file.parent (p.rules file) e := by
  cases h with
  | binding hload => exact ⟨_, hload, _, rfl⟩
  | standard hs => obtain ⟨raw, optional, hraw, -⟩ := hs; cases hraw
  | search hs => obtain ⟨raw, optional, hraw, -⟩ := hs; cases hraw

/-- A project that cannot be loaded leads to no visits. -/
theorem acc_of_unloaded {file : Path} {place : TreePath} {root : Bool}
    (h : ∀ p, Project.load fs file ≠ .ok p) :
    Acc (fun v' v => Enters fs v v') (.project file place root) := by
  refine .intro _ fun v' hv => ?_
  obtain ⟨p, hload, -⟩ := hv.asks.of_project
  exact absurd hload (h p)

section

variable (hfs : fs.Grounded) {α : Type} [LT α] [WellFoundedLT α] {rank : Path → α}
  (hrank : ∀ file file', Loads fs file file' → rank file' < rank file)
include hfs hrank

/-- The chains of visits from a project file end, if a rank falls along the projects on the way. -/
theorem acc_project {file : Path} (hfile : file.Proper) (place : TreePath) (root : Bool) :
    Acc (fun v' v => Enters fs v v') (.project file place root) := by
  have hwf : WellFounded (InvImage (· < ·) rank) := InvImage.wf rank wellFounded_lt
  induction file using hwf.induction generalizing place root with
  | _ file ih =>
    have hproper : (Visit.project file place root).path.Proper := hfile
    have hprojects : ProjectsEnd fs (.project file place root) := by
      intro w hw hsome
      have hwproper := proper_of_enters hw hproper
      cases w with
      | target => cases hsome
      | directory => cases hsome
      | project file' place' root' =>
        by_cases hload : ∃ p, Project.load fs file' = .ok p
        · exact ih file' (hrank _ _ ⟨_, _, hproper, rfl, rfl, hw, hload⟩) hwproper place' root'
        · exact acc_of_unloaded fun p hp => hload ⟨p, hp⟩
    refine .intro _ fun v' hv => ?_
    obtain ⟨p, -, e, rfl⟩ := hv.asks.of_project
    exact acc_target hfs (hv.asks.proper hproper) (hprojects.enter hv)

theorem acc_visit {v : Visit} (hv : v.path.Proper) : Acc (fun v' v => Enters fs v v') v := by
  have hprojects : ProjectsEnd fs v := by
    intro w hw hsome
    have hproper := proper_of_enters hw hv
    cases w with
    | project file place root => exact acc_project hfs hrank hproper place root
    | target => cases hsome
    | directory => cases hsome
  cases v with
  | project file place root => exact acc_project hfs hrank hv place root
  | target => exact acc_target hfs hv hprojects
  | directory => exact acc_directory hfs _ hv rfl hprojects

end

/-- Every walk finishes, if below each path there are finitely many directories and a rank of the
project files falls from each of them to those that its walk loads: the visit of a project file, of a
target and of a directory, and the visits of a tree, however large, all from every table. -/
theorem walks_finish {fs : FileSystem} (hfs : fs.Grounded) {α : Type} [LT α] [WellFoundedLT α]
    {rank : Path → α} (hrank : ∀ file file', Loads fs file file' → rank file' < rank file) :
    (∀ v : Visit, v.path.Proper → Finishes fun depth => visit fs depth v) ∧
    ∀ (base : Path) (name : String) (n : TreeNode) (place : TreePath) (root : Bool)
      (ignored : List IgnoreRule), base.Proper →
      Finishes fun depth => tree fs (visit fs depth) base name n place root ignored := by
  have hend : ∀ v : Visit, v.path.Proper → ∃ depth, Action.ending? fs depth [.visit v] ≠ some .tooDeep :=
    fun v hv => exists_end_of_acc (acc_visit hfs hrank hv)
  constructor
  · intro v hv
    obtain ⟨depth, hdepth⟩ := hend v hv
    have hfinishes := Action.finishes_of_end hdepth
    simpa only [Action.performAll_singleton, Action.perform] using hfinishes
  · intro base name n place root ignored hbase
    simp only [Action.tree_eq]
    have hstop : ∀ e, .stop e ∈ Action.ofTree fs base ignored n (placeOf root name place) →
        e ≠ .tooDeep := by
      intro e he
      rcases Action.mem_ofTree he with ⟨v, h⟩ | h <;> cases h
    have hvisit : ∀ v, Action.ComesTo fs (Action.ofTree fs base ignored n (placeOf root name place)) v →
        ∃ depth, Action.ending? fs depth [.visit v] ≠ some .tooDeep := by
      intro v hv
      obtain ⟨e, -, rfl⟩ := Action.visit_mem_ofTree hv.mem
      exact hend _ (isNormal_target hbase _).proper
    obtain ⟨depth, hdepth⟩ := Action.exists_end hstop hvisit
    exact Action.finishes_of_end hdepth

end Walk

/-! ## Following what projects load -/

namespace Visit

/-- The same visit at the root of the instance tree. -/
def atRoot : Visit → Visit
  | .project file _ _ => .project file [] true
  | .target path _ ignored optional => .target path [] ignored optional
  | .directory dir _ _ ignored => .directory dir [] none ignored

/-- The visits that a visit may lead to in so many steps, all at the root of the instance tree. -/
def leads (fs : FileSystem) : Nat → Visit → List Visit
  | 0, v => [v.atRoot]
  | n + 1, v => (leads fs n v).flatMap fun w => (w.successors fs).map atRoot

variable {fs : FileSystem} {v v' : Visit}

/-- What a visit may ask for does not depend on its tree path. -/
theorem successors_atRoot (fs : FileSystem) (v : Visit) :
    (v.atRoot.successors fs).map atRoot = (v.successors fs).map atRoot := by
  cases v with
  | project file place root =>
    have hbindings : ∀ (p : Project) (place : TreePath),
        ((p.tree.bindings place).map (ofBinding fs file.parent (p.rules file))).map atRoot =
          ((p.tree.bindings []).map (ofBinding fs file.parent (p.rules file))).map atRoot := by
      intro p place
      rw [← List.append_nil place, TreeNode.bindings_append]
      simp [ofBinding, atRoot, TreeNode.liftPlace]
    simp only [atRoot, successors]
    cases Project.load fs file with
    | ok p => exact (hbindings p _).trans (hbindings p _).symm
    | error e => rfl
  | target path place ignored optional =>
    simp only [atRoot, successors]
    split
    · rfl
    · cases fs.list path.toLuau with
      | ok names => dsimp only; split <;> rfl
      | error e => rfl
  | directory dir place name ignored =>
    simp only [atRoot, successors]
    cases fs.list dir with
    | error e => rfl
    | ok names =>
      dsimp only
      split
      · rfl
      · rw [List.map_flatMap, List.map_flatMap]
        refine List.flatMap_congr fun n _ => ?_
        rw [List.map_append, List.map_append]
        congr 1
        · split <;> rfl
        · split <;> rfl

theorem leads_atRoot (fs : FileSystem) (v : Visit) : ∀ n, v.atRoot.leads fs n = v.leads fs n
  | 0 => by cases v <;> rfl
  | n + 1 => by rw [leads, leads, leads_atRoot fs v n]

theorem leads_eq_nil {m n : Nat} (h : v.leads fs m = []) (hmn : m ≤ n) : v.leads fs n = [] := by
  induction hmn with
  | refl => exact h
  | step _ ih => rw [leads, ih]; rfl

theorem atRoot_mem_leads {w w' : Visit} {n : Nat} (h : w.atRoot ∈ v.leads fs n)
    (ha : Walk.Asks fs w w') : w'.atRoot ∈ v.leads fs (n + 1) := by
  refine List.mem_flatMap.2 ⟨_, h, ?_⟩
  rw [successors_atRoot]
  exact List.mem_map_of_mem ha.mem_successors

theorem exists_leads (h : Relation.TransGen (Walk.Enters fs) v v') :
    ∃ n, v'.atRoot ∈ v.leads fs (n + 1) := by
  induction h with
  | single hv => exact ⟨0, atRoot_mem_leads (List.mem_singleton_self _) hv.asks⟩
  | tail _ hv ih =>
    obtain ⟨n, hn⟩ := ih
    exact ⟨n + 1, atRoot_mem_leads hn hv.asks⟩

theorem file?_atRoot (v : Visit) : v.atRoot.file? = v.file? := by cases v <;> rfl

end Visit

namespace Walk

/-- On a file system held in memory a rank of the project files falls if it does level by level,
up to one without any visits. -/
theorem falls_of_leads {s : Stored} {n : Nat} {rank : Path → Nat}
    (hnil : ∀ key ∈ s.keys, (Visit.project (.ofString key) [] true).leads s.fileSystem n = [])
    (hfalls : ∀ key ∈ s.keys, ∀ m < n,
      ∀ v ∈ (Visit.project (.ofString key) [] true).leads s.fileSystem (m + 1), ∀ file ∈ v.file?,
        rank file < rank (.ofString key)) {file file' : Path}
    (h : Loads s.fileSystem file file') : rank file' < rank file := by
  obtain ⟨v, v', hproper, hfile, hfile', henters, -⟩ := h
  obtain ⟨m, hm⟩ := Visit.exists_leads henters
  cases v with
  | target => cases hfile
  | directory => cases hfile
  | project _ place root =>
    cases hfile
    have hhas : s.fileSystem.has file = .ok true := by
      obtain ⟨w, hw, -⟩ := (Relation.TransGen.head'_iff).1 henters
      exact hw.asks.has rfl
    have hkey := Stored.mem_keys_of_has (Except.ok.inj hhas)
    have hfile : Path.ofString file.toText = file := Path.ofString_toText hproper
    have hleads : v'.atRoot ∈ (Visit.project (.ofString file.toText) [] true).leads s.fileSystem
        (m + 1) := by
      rw [hfile]
      exact (Visit.leads_atRoot s.fileSystem (.project file place root) (m + 1)) ▸ hm
    have hmn : m < n := by
      by_contra hge
      rw [Visit.leads_eq_nil (hnil _ hkey) (by omega)] at hleads
      cases hleads
    have hlt := hfalls _ hkey m hmn _ hleads file' (by rw [Visit.file?_atRoot]; exact hfile')
    rwa [hfile] at hlt

/-- A project that includes another one twice: by itself, and in a directory with a project that is
found by the search. -/
def diamond : Stored :=
  [("/p/app.project.json", .text ("\x7b\"name\":\"app\",\"tree\":\x7b" ++
      "\"a\":\x7b\"$path\":\"lib.project.json\"\x7d,\"b\":\x7b\"$path\":\"src\"\x7d\x7d\x7d")),
   ("/p/lib.project.json",
      .text "\x7b\"name\":\"lib\",\"tree\":\x7b\"$path\":\"main.luau\"\x7d\x7d"),
   ("/p/src", .listing ["pkg"]),
   ("/p/src/pkg", .listing ["default.project.json"]),
   ("/p/src/pkg/default.project.json",
      .text "\x7b\"name\":\"pkg\",\"tree\":\x7b\"$path\":\"../../lib.project.json\"\x7d\x7d")]

/-- The application stands above the default projects, and these above all other files. -/
def diamondRank (file : Path) : Nat :=
  if file.name = "app.project.json" then 2 else if file.name = FileName.defaultProject then 1 else 0

theorem walks_finish_diamond :
    diamond.fileSystem.Grounded ∧
      (∀ file file', Loads diamond.fileSystem file file' → diamondRank file' < diamondRank file) ∧
      Finishes fun depth =>
        visit diamond.fileSystem depth (.project (.ofString "/p/app.project.json") [] true) := by
  have hfs : diamond.fileSystem.Grounded := by
    refine FileSystem.Bounded.grounded (Stored.bounded (fun e he names hnames => ?_) (by decide +kernel))
    refine Stored.names_ordinary ?_
    have hplain : ∀ e ∈ diamond, e.2.isPlain = true := by decide
    have he := hplain e he
    rwa [hnames] at he
  have hrank : ∀ file file', Loads diamond.fileSystem file file' →
      diamondRank file' < diamondRank file :=
    fun _ _ => falls_of_leads (n := 9) (by decide +kernel) (by decide +kernel)
  exact ⟨hfs, hrank, (walks_finish hfs hrank).1 _ (Path.ofString_proper _)⟩

end Walk

end PlaceMap
