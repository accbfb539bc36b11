/-
What one level of a visit can do: which further visits it asks for (`Asks`), which targets it
registers (`Settles`), and why it stops (`Stops`). Every other proof about all the visits of a walk
cites these and does not open the walk: a property of walks that its parts have (`Closed`) holds of
every visit, where what is known of the visits (`V`) is kept from a visit to those that it asks for.

The closed set of visits that is mostly used is `Reached`: those that the visits a build starts with
lead to.
-/
import PlaceMap.Proofs.Walk.Preorder
import PlaceMap.Resolver

namespace PlaceMap

/-- The ignore rules of a project that is loaded from a file. -/
def Project.rules (p : Project) (file : Path) : List IgnoreRule :=
  (p.ignored.getD []).map (IgnoreRule.mk file.parent)

/-- The target of a binding that is read in the directory `base`. -/
def Binding.target (fs : FileSystem) (base : Path) (b : Binding) : Path :=
  fs.normalize (base.join (Path.ofString b.path))

/-- The visit of the target of a binding, which stands for the tree path of its node. -/
def Visit.ofBinding (fs : FileSystem) (base : Path) (ignored : List IgnoreRule)
    (e : TreePath × Binding) : Visit :=
  .target (e.2.target fs base) e.1 ignored e.2.isOptional

namespace Walk

/-- The visit of a target that its rules do not cover and that is no project file settles it under
`path`. -/
def Settles (v : Visit) (path : Path) (place : TreePath) (ignored : List IgnoreRule) : Prop :=
  ∃ raw optional, v = .target raw place ignored optional ∧ path = raw.toLuau ∧
    IgnoreRule.anyCovers ignored path = .ok false ∧ FileName.isProject path.name = false

theorem Settles.ne_directory {v : Visit} {path : Path} {place : TreePath}
    {ignored : List IgnoreRule} (h : Settles v path place ignored) {dir : Path} {place' : TreePath}
    {name : Option String} {ignored' : List IgnoreRule} : v ≠ .directory dir place' name ignored' := by
  obtain ⟨raw, optional, rfl, -⟩ := h
  exact Visit.noConfusion

/-- A visit may ask for another one. -/
inductive Asks (fs : FileSystem) : Visit → Visit → Prop
  -- A project asks for the targets of its bindings.
  | binding {file place root} {p : Project} {e : TreePath × Binding} :
    Project.load fs file = .ok p → e ∈ p.tree.bindings (placeOf root p.name place) →
    Asks fs (.project file place root) (.ofBinding fs file.parent (p.rules file) e)
  -- A target that is a project file is included.
  | included {path place ignored optional} :
    IgnoreRule.anyCovers ignored path.toLuau = .ok false →
    FileName.isProject path.toLuau.name = true →
    Asks fs (.target path place ignored optional) (.project path.toLuau place true)
  -- A default project is included in the place of a target directory.
  | standard {v path place ignored names} :
    Settles v path place ignored → path.isData = false → fs.isDirectory path = .ok true →
    fs.list path = .ok names → FileName.defaultProject ∈ names →
    Asks fs v (.project (path.child FileName.defaultProject) place true)
  -- A target directory is searched.
  | search {v path place ignored names} :
    Settles v path place ignored → path.isData = false → fs.isDirectory path = .ok true →
    fs.list path = .ok names → FileName.defaultProject ∉ names →
    Asks fs v (.directory path place none ignored)
  -- A default project stands for its directory.
  | standardBelow {dir place name ignored names} :
    fs.list dir = .ok names → FileName.defaultProject ∈ names →
    Asks fs (.directory dir place name ignored)
      (.project (dir.child FileName.defaultProject) place false)
  -- A project file in a directory is included.
  | entry {dir place name ignored names} {n : String} :
    fs.list dir = .ok names → FileName.defaultProject ∉ names →
    IgnoreRule.anyCovers ignored dir = .ok false → n ∈ names → FileName.isProject n = true →
    fs.isFile (dir.child n) = .ok true →
    Asks fs (.directory dir place name ignored) (.project (dir.child n) (place ++ name.toList) false)
  -- A directory in a directory is searched.
  | subdirectory {dir place name ignored names} {n : String} :
    fs.list dir = .ok names → FileName.defaultProject ∉ names →
    IgnoreRule.anyCovers ignored dir = .ok false → n ∈ names →
    fs.isDirectory (dir.child n) = .ok true →
    Asks fs (.directory dir place name ignored)
      (.directory (dir.child n) (place ++ name.toList) (some n) ignored)

/-- A visit may stop by itself, at a question that has no answer. -/
inductive Stops (fs : FileSystem) : Visit → Stop → Prop
  -- A project file cannot be looked at.
  | load {file place root e} :
    Project.load fs file = .error (.failed e) → Stops fs (.project file place root) (.failed e)
  -- A project file holds an integer of too many digits.
  | oversized {file place root digits} :
    Project.load fs file = .error (.oversized digits) →
    Stops fs (.project file place root) (.oversized digits)
  -- A rule cannot be compared with a target.
  | glob {path place ignored optional fault} :
    IgnoreRule.anyCovers ignored path.toLuau = .error fault →
    Stops fs (.target path place ignored optional) (.glob fault)
  -- It is not known whether a target exists.
  | existence {path place ignored optional e} :
    fs.has path.toLuau = .error e → Stops fs (.target path place ignored optional) (.failed e)
  -- It is not known whether a target is a directory.
  | kind {v path place ignored e} :
    Settles v path place ignored → fs.isDirectory path = .error e → Stops fs v (.failed e)
  -- A target directory is not to be listed.
  | target {v path place ignored e} :
    Settles v path place ignored → path.isData = false → fs.isDirectory path = .ok true →
    fs.list path = .error e → e.isSystem = false → Stops fs v (.failed e)
  -- A directory is not to be listed.
  | directory {dir place name ignored e} :
    fs.list dir = .error e → e.isSystem = false →
    Stops fs (.directory dir place name ignored) (.failed e)
  -- A rule cannot be compared with a directory.
  | globBelow {dir place name ignored fault} :
    IgnoreRule.anyCovers ignored dir = .error fault →
    Stops fs (.directory dir place name ignored) (.glob fault)
  -- It is not known whether a project file in a directory is a file.
  | entry {dir place name ignored names e} {n : String} :
    fs.list dir = .ok names → n ∈ names → FileName.isProject n = true →
    fs.isFile (dir.child n) = .error e → Stops fs (.directory dir place name ignored) (.failed e)
  -- It is not known whether an entry of a directory is a directory.
  | subdirectory {dir place name ignored names e} {n : String} :
    fs.list dir = .ok names → n ∈ names → fs.isDirectory (dir.child n) = .error e →
    Stops fs (.directory dir place name ignored) (.failed e)

/-- A property of walks that holds of the parts that visits with the property `V` are made of. -/
structure Closed (fs : FileSystem) (V : Visit → Prop) (K : Walk Unit → Prop) : Prop where
  pure : K (pure ())
  stop : ∀ v e, V v → Stops fs v e → K (throw e)
  bind : ∀ w w', K w → K w' → K (do w; w')
  warn : ∀ w, K (warn w)
  markGame : K (change Table.markGame)
  mapFile : ∀ v path place ignored, V v → Settles v path place ignored → path.isData = true →
    K (change (Table.mapFile path place))
  register : ∀ v path place ignored, V v → Settles v path place ignored → path.isData = false →
    K (change (Table.register ⟨path, place, ignored⟩))

section

variable {fs : FileSystem} {V : Visit → Prop} {K : Walk Unit → Prop} {visit : Visit → Walk Unit}

theorem Closed.forM {α : Type} (h : Closed fs V K) {f : α → Walk Unit} :
    ∀ (l : List α), (∀ a ∈ l, K (f a)) → K (l.forM f)
  | [], _ => h.pure
  | a :: l, hf =>
    h.bind (f a) (l.forM f) (hf a List.mem_cons_self)
      (h.forM l fun b hb => hf b (List.mem_cons_of_mem _ hb))

/-- A question is followed by what holds after each answer, or by its stop. -/
theorem ask_cases {answer : Except FsError Bool} {f : Bool → Walk Unit}
    (hthrow : ∀ e, answer = .error e → K (throw (.failed e))) (hf : ∀ b, answer = .ok b → K (f b)) :
    K (ask answer >>= f) := by
  cases answer with
  | ok b => exact hf b rfl
  | error e => exact hthrow e rfl

theorem isIgnored_cases {rules : List IgnoreRule} {p : Path} {f : Bool → Walk Unit}
    (hthrow : ∀ fault, IgnoreRule.anyCovers rules p = .error fault → K (throw (.glob fault)))
    (hf : ∀ b, IgnoreRule.anyCovers rules p = .ok b → K (f b)) : K (isIgnored rules p >>= f) := by
  cases hc : IgnoreRule.anyCovers rules p with
  | ok b => rw [isIgnored_of_ok hc]; exact hf b hc
  | error fault => rw [isIgnored_of_error hc]; exact hthrow fault hc

theorem Closed.list_cases (h : Closed fs V K) {dir : Path} {f : Option (List String) → Walk Unit}
    (hthrow : ∀ e, fs.list dir = .error e → e.isSystem = false → K (throw (.failed e)))
    (hnone : K (f none)) (hsome : ∀ names, fs.list dir = .ok names → K (f (some names))) :
    K (list fs dir >>= f) := by
  cases hl : fs.list dir with
  | ok names => rw [list_of_ok hl]; exact hsome names hl
  | error e =>
    cases he : e.isSystem with
    | true => rw [list_of_system hl he]; exact h.bind _ _ (h.warn _) hnone
    | false => rw [list_of_unusable hl he]; exact hthrow e hl he

/-! ## One level of a visit -/

/-- The visits of a tree are those of the targets of its bindings. -/
theorem Closed.tree (h : Closed fs V K) {base : Path} {name : String} {n : TreeNode} {place : TreePath}
    {root : Bool} {ignored : List IgnoreRule}
    (hvisit : ∀ e ∈ n.bindings (placeOf root name place), K (visit (.ofBinding fs base ignored e))) :
    K (Walk.tree fs visit base name n place root ignored) := by
  unfold Walk.tree
  rw [nodes_eq_forM]
  refine h.forM _ fun e he => h.bind _ _ ?_ ?_
  · unfold bound
    split
    · exact h.pure
    · rename_i b hb
      exact hvisit (e.1, b) (TreeNode.mem_bindings.2 ⟨e.2, he, hb⟩)
  · unfold noteClass
    split
    · exact h.markGame
    · exact h.pure

theorem Closed.project (h : Closed fs V K) {file : Path} {place : TreePath} {root : Bool}
    (hv : V (.project file place root))
    (hvisit : ∀ v', Asks fs (.project file place root) v' → K (visit v')) :
    K (Walk.project fs visit file place root) := by
  unfold Walk.project
  split
  · rename_i p hp
    exact h.tree fun e he => hvisit _ (.binding hp he)
  · exact h.warn _
  · exact h.warn _
  · rename_i hp
    exact h.stop _ _ hv (.load hp)
  · rename_i hp
    exact h.stop _ _ hv (.oversized hp)

theorem Closed.targetDirectory (h : Closed fs V K) {v : Visit} {path : Path} {place : TreePath}
    {ignored : List IgnoreRule} (hv : V v) (hs : Settles v path place ignored)
    (hdata : path.isData = false) (hdir : fs.isDirectory path = .ok true)
    (hvisit : ∀ v', Asks fs v v' → K (visit v')) :
    K (Walk.targetDirectory fs visit path place ignored) := by
  have hthrow : ∀ e, fs.list path = .error e → e.isSystem = false → K (throw (.failed e)) :=
    fun e hl he => h.stop v _ hv (.target hs hdata hdir hl he)
  refine h.list_cases hthrow h.pure fun names hl => ?_
  dsimp only
  split
  · rename_i hc
    exact hvisit _ (.standard hs hdata hdir hl (List.contains_iff_mem.1 hc))
  · rename_i hc
    refine h.bind _ _ (h.register v path place ignored hv hs hdata) ?_
    exact hvisit _ (.search hs hdata hdir hl fun hm => hc (List.contains_iff_mem.2 hm))

theorem Closed.settle (h : Closed fs V K) {v : Visit} {path : Path} {place : TreePath}
    {ignored : List IgnoreRule} (found : Bool) (hv : V v) (hs : Settles v path place ignored)
    (hvisit : ∀ v', Asks fs v v' → K (visit v')) :
    K (Walk.settle fs visit path place ignored found) := by
  unfold Walk.settle
  cases hdata : path.isData with
  | true => exact h.mapFile v path place ignored hv hs hdata
  | false =>
    have hregister := h.register v path place ignored hv hs hdata
    cases found with
    | false => exact hregister
    | true =>
      refine ask_cases (fun e he => h.stop v _ hv (.kind hs he)) fun b hb => ?_
      cases b with
      | false => exact hregister
      | true => exact h.targetDirectory hv hs hdata hb hvisit

theorem Closed.target (h : Closed fs V K) {path : Path} {place : TreePath} {ignored : List IgnoreRule}
    {optional : Bool} (hv : V (.target path place ignored optional))
    (hvisit : ∀ v', Asks fs (.target path place ignored optional) v' → K (visit v')) :
    K (Walk.target fs visit path place ignored optional) := by
  refine isIgnored_cases (fun _ hc => h.stop _ _ hv (.glob hc)) fun covered hc => ?_
  cases covered with
  | true => exact h.pure
  | false =>
    refine ask_cases (fun e he => h.stop _ _ hv (.existence he)) fun found _ => ?_
    cases hp : FileName.isProject path.toLuau.name with
    | true =>
      rw [if_pos rfl]
      split
      · exact hvisit _ (.included hc hp)
      · exact h.pure
    | false =>
      have hs : Settles (.target path place ignored optional) path.toLuau place ignored :=
        ⟨path, optional, rfl, rfl, hc, hp⟩
      rw [if_neg Bool.false_ne_true]
      unfold plainTarget
      split
      · exact h.settle found hv hs hvisit
      · exact h.bind _ _ (h.warn _) (h.settle found hv hs hvisit)

theorem Closed.directory (h : Closed fs V K) {dir : Path} {place : TreePath} {name : Option String}
    {ignored : List IgnoreRule} (hv : V (.directory dir place name ignored))
    (hvisit : ∀ v', Asks fs (.directory dir place name ignored) v' → K (visit v')) :
    K (Walk.directory fs visit dir place name ignored) := by
  have hthrow : ∀ e, fs.list dir = .error e → e.isSystem = false → K (throw (.failed e)) :=
    fun e hl he => h.stop _ _ hv (.directory hl he)
  refine h.list_cases hthrow h.pure fun names hl => ?_
  dsimp only
  split
  · rename_i hc
    exact hvisit _ (.standardBelow hl (List.contains_iff_mem.1 hc))
  rename_i hc
  have hstandard : FileName.defaultProject ∉ names := fun hm => hc (List.contains_iff_mem.2 hm)
  refine isIgnored_cases (fun _ hc => h.stop _ _ hv (.globBelow hc)) fun covered hcovers => ?_
  cases covered with
  | true => exact h.pure
  | false =>
    refine h.bind _ _ (h.forM names fun n hn => ?_) (h.forM names fun n hn => ?_)
    · unfold projectEntry
      split
      · rename_i hp
        refine ask_cases (fun e he => h.stop _ _ hv (.entry hl hn hp he)) fun b hb => ?_
        cases b with
        | false => exact h.pure
        | true => exact hvisit _ (.entry hl hstandard hcovers hn hp hb)
      · exact h.pure
    · refine ask_cases (fun e he => h.stop _ _ hv (.subdirectory hl hn he)) fun b hb => ?_
      cases b with
      | false => exact h.pure
      | true => exact hvisit _ (.subdirectory hl hstandard hcovers hn hb)

theorem Closed.enter (h : Closed fs V K) {v : Visit} (hv : V v)
    (hvisit : ∀ v', Asks fs v v' → K (visit v')) : K (Walk.enter fs visit v) := by
  cases v with
  | project file place root => exact h.project hv hvisit
  | target path place ignored optional => exact h.target hv hvisit
  | directory dir place name ignored => exact h.directory hv hvisit

end

/-! ## Whole visits -/

/-- What holds of the parts of all visits in a set that asking does not leave holds of the visits,
at any depth. -/
theorem Closed.visit {fs : FileSystem} {V : Visit → Prop} {K : Walk Unit → Prop} (h : Closed fs V K)
    (hdeep : K (throw .tooDeep)) (hV : ∀ v v', V v → Asks fs v v' → V v') :
    ∀ (depth : Nat) (v : Visit), V v → K (Walk.visit fs depth v)
  | 0, _, _ => hdeep
  | depth + 1, v, hv => h.enter hv fun v' ha => h.visit hdeep hV depth v' (hV v v' hv ha)

/-- A visit leads to another one in so many steps. -/
inductive AsksIn (fs : FileSystem) : Nat → Visit → Visit → Prop
  | here {v} : AsksIn fs 0 v v
  | step {n v v' v''} : Asks fs v v' → AsksIn fs n v' v'' → AsksIn fs (n + 1) v v''

/-! ## The visits of a build -/

/-- A build starts with a visit. -/
def Starts (fs : FileSystem) : Resolver.Source → Visit → Prop
  | .project file, v => v = .project (fs.normalize (.ofString file)) [] true
  | .tree base n, v =>
    ∃ e ∈ n.bindings [], v = .ofBinding fs (fs.normalize (.ofString base)) [] e
  | .directory base, v =>
    ∃ e ∈ (TreeNode.bound (fs.normalize (.ofString base)).toText).bindings [],
      v = .ofBinding fs (fs.normalize (fs.normalize (.ofString base))) [] e

/-- A build may come to a visit. -/
inductive Reached (fs : FileSystem) (s : Resolver.Source) : Visit → Prop
  | start {v} : Starts fs s v → Reached fs s v
  | ask {v v'} : Reached fs s v → Asks fs v v' → Reached fs s v'

/-- A build may list a directory: a target, or a directory that it searches. -/
inductive Lists (fs : FileSystem) (s : Resolver.Source) : Path → Prop
  | target {v path place ignored} :
    Reached fs s v → Settles v path place ignored → path.isData = false →
    fs.isDirectory path = .ok true → Lists fs s path
  | directory {dir place name ignored} :
    Reached fs s (.directory dir place name ignored) → Lists fs s dir

theorem Reached.isDirectory {fs : FileSystem} {s : Resolver.Source} {dir : Path} {place : TreePath}
    {name : Option String} {ignored : List IgnoreRule}
    (h : Reached fs s (.directory dir place name ignored)) : fs.isDirectory dir = .ok true := by
  cases h with
  | start hs =>
    cases s with
    | project => cases hs
    | tree => obtain ⟨e, -, he⟩ := hs; cases he
    | directory => obtain ⟨e, -, he⟩ := hs; cases he
  | ask _ ha =>
    cases ha with
    | search _ _ hdir => exact hdir
    | subdirectory _ _ _ _ hdir => exact hdir

/-- A build lists directories only. -/
theorem Lists.isDirectory {fs : FileSystem} {s : Resolver.Source} {dir : Path}
    (h : Lists fs s dir) : fs.isDirectory dir = .ok true := by
  cases h with
  | target _ _ _ hdir => exact hdir
  | directory hv => exact hv.isDirectory

/-- A build is made of the visits that it starts with. -/
theorem Closed.start {fs : FileSystem} {s : Resolver.Source} {V : Visit → Prop}
    {K : Walk Unit → Prop} (h : Closed fs V K) {depth : Nat}
    (hvisit : ∀ v, Starts fs s v → K (Walk.visit fs depth v)) : K (s.walk fs depth) := by
  cases s with
  | project file => exact hvisit _ rfl
  | tree base n => exact h.tree fun e he => hvisit _ ⟨e, he, rfl⟩
  | directory base => exact h.tree fun e he => hvisit _ ⟨e, he, rfl⟩

/-- What holds of the parts of the visits that a build comes to holds of the build. -/
theorem Closed.source {fs : FileSystem} {s : Resolver.Source} {K : Walk Unit → Prop}
    (h : Closed fs (Reached fs s) K) (hdeep : K (throw .tooDeep)) (depth : Nat) :
    K (s.walk fs depth) :=
  h.start fun v hv => h.visit hdeep (fun _ _ => .ask) depth v (.start hv)

end Walk

namespace Resolver

theorem build_eq_ofWalk (fs : FileSystem) (depth : Nat) (config : Config) (s : Source) :
    build fs depth config s = ofWalk config (s.walk fs depth) := by
  cases s <;> rfl

/-- The table of a resolver is the last one on the way of its build. -/
theorem build_eq_ok {fs : FileSystem} {depth : Nat} {config : Config} {s : Source} {r : Resolver}
    (h : build fs depth config s = .ok r) :
    (s.walk fs depth).follow ⟨.empty, []⟩ = (.ok (), (s.walk fs depth).course .empty) ∧
      r = ⟨((s.walk fs depth).course .empty).now, config⟩ := by
  rw [build_eq_ofWalk] at h
  unfold ofWalk Walk.runOn at h
  unfold Walk.course
  rcases hw : (s.walk fs depth).follow ⟨.empty, []⟩ with ⟨_ | u, d⟩
  · rw [hw] at h
    cases h
  · rw [hw] at h
    cases h
    exact ⟨rfl, rfl⟩

end Resolver

end PlaceMap
