/-
One level of a visit as the list of what it does. A visit asks the file system and never the table,
so its answers fix what is done, one thing after another: warnings, changes of the table, further
visits, and a stop, after which nothing is done any more. Statements that compare two walks compare
these lists and need not follow the text of the walk.
-/
import PlaceMap.Proofs.Walk.Reached

namespace PlaceMap

/-- One thing that a visit does. -/
inductive Action where
  | warn (w : Warning)
  | markGame
  | mapFile (file : Path) (place : TreePath)
  | register (p : Partition)
  | visit (v : Visit)
  | stop (e : Stop)

namespace Action

/-- Does one thing, where further visits are a parameter. -/
def perform (visit : Visit → Walk Unit) : Action → Walk Unit
  | .warn w => Walk.warn w
  | .markGame => Walk.change Table.markGame
  | .mapFile file place => Walk.change (Table.mapFile file place)
  | .register p => Walk.change (Table.register p)
  | .visit v => visit v
  | .stop e => throw e

/-- Does one thing after another. -/
def performAll (visit : Visit → Walk Unit) (l : List Action) : Walk Unit := forM l (perform visit)

/-- What is done by the answer to a question about what stands where. -/
def asked (answer : Except FsError Bool) (next : Bool → List Action) : List Action :=
  match answer with
  | .ok b => next b
  | .error e => [.stop (.failed e)]

/-- What is done by the answer of some rules to a path. -/
def compared (rules : List IgnoreRule) (p : Path) (next : Bool → List Action) : List Action :=
  match IgnoreRule.anyCovers rules p with
  | .ok b => next b
  | .error fault => [.stop (.glob fault)]

/-- What is done by what a directory lists. -/
def listed (fs : FileSystem) (dir : Path) (next : List String → List Action) : List Action :=
  match fs.list dir with
  | .ok names => next names
  | .error e => if e.isSystem then [.warn (.unreadable dir e)] else [.stop (.failed e)]

/-- Visits the target of a node, if it has one, and notes the node's class. -/
def ofNode (fs : FileSystem) (base : Path) (ignored : List IgnoreRule) (e : TreePath × TreeNode) :
    List Action :=
  (e.2.binding.toList.map fun b => .visit (.ofBinding fs base ignored (e.1, b))) ++
    if e.2.className = some gameClass then [.markGame] else []

/-- Visits the targets of a tree in the order of the document. -/
def ofTree (fs : FileSystem) (base : Path) (ignored : List IgnoreRule) (n : TreeNode)
    (place : TreePath) : List Action :=
  (n.preorder place).flatMap (ofNode fs base ignored)

def ofProject (fs : FileSystem) (file : Path) (place : TreePath) (root : Bool) : List Action :=
  match Project.load fs file with
  | .ok p => ofTree fs file.parent (p.rules file) p.tree (Walk.placeOf root p.name place)
  | .error (.missing _) => [.warn (.missing file)]
  | .error (.invalid cause) => [.warn (.invalid file cause)]
  | .error (.failed e) => [.stop (.failed e)]
  | .error (.oversized digits) => [.stop (.oversized digits)]

def ofTargetDirectory (fs : FileSystem) (path : Path) (place : TreePath)
    (ignored : List IgnoreRule) : List Action :=
  listed fs path fun names =>
    if FileName.defaultProject ∈ names then
      [.visit (.project (path.child FileName.defaultProject) place true)]
    else [.register ⟨path, place, ignored⟩, .visit (.directory path place none ignored)]

def ofSettled (fs : FileSystem) (path : Path) (place : TreePath) (ignored : List IgnoreRule)
    (found : Bool) : List Action :=
  if path.isData then [.mapFile path place]
  else asked (if found then fs.isDirectory path else .ok false) fun isDirectory =>
    if isDirectory then ofTargetDirectory fs path place ignored
    else [.register ⟨path, place, ignored⟩]

/-- `path` is the target with its present extension. -/
def ofTarget (fs : FileSystem) (path : Path) (place : TreePath) (ignored : List IgnoreRule)
    (optional : Bool) : List Action :=
  compared ignored path fun covered =>
    if covered then []
    else asked (fs.has path) fun found =>
      if FileName.isProject path.name then
        if found || !optional then [.visit (.project path place true)] else []
      else (if found || optional then [] else [.warn (.missing path)]) ++
        ofSettled fs path place ignored found

/-- Visits an entry of a directory if it is a project file. -/
def ofProjectEntry (fs : FileSystem) (dir : Path) (place : TreePath) (name : String) :
    List Action :=
  if FileName.isProject name then
    asked (fs.isFile (dir.child name)) fun isFile =>
      if isFile then [.visit (.project (dir.child name) place false)] else []
  else []

/-- Visits an entry of a directory if it is a directory. -/
def ofDirectoryEntry (fs : FileSystem) (dir : Path) (place : TreePath) (ignored : List IgnoreRule)
    (name : String) : List Action :=
  asked (fs.isDirectory (dir.child name)) fun isDirectory =>
    if isDirectory then [.visit (.directory (dir.child name) place (some name) ignored)] else []

def ofEntries (fs : FileSystem) (dir : Path) (place : TreePath) (ignored : List IgnoreRule)
    (names : List String) : List Action :=
  names.flatMap (ofProjectEntry fs dir place) ++ names.flatMap (ofDirectoryEntry fs dir place ignored)

def ofDirectory (fs : FileSystem) (dir : Path) (place : TreePath) (name : Option String)
    (ignored : List IgnoreRule) : List Action :=
  listed fs dir fun names =>
    if FileName.defaultProject ∈ names then
      [.visit (.project (dir.child FileName.defaultProject) place false)]
    else compared ignored dir fun covered =>
      if covered then [] else ofEntries fs dir (place ++ name.toList) ignored names

end Action

/-- What one level of a visit does. -/
def Visit.actions (fs : FileSystem) : Visit → List Action
  | .project file place root => Action.ofProject fs file place root
  | .target path place ignored optional => Action.ofTarget fs path.toLuau place ignored optional
  | .directory dir place name ignored => Action.ofDirectory fs dir place name ignored

/-- What a build does. -/
def Resolver.Source.actions (fs : FileSystem) : Resolver.Source → List Action
  | .project file => [.visit (.project (fs.normalize (.ofString file)) [] true)]
  | .tree base n => Action.ofTree fs (fs.normalize (.ofString base)) [] n []
  | .directory base =>
    let base := fs.normalize (.ofString base)
    Action.ofTree fs (fs.normalize base) [] (.bound base.toText) []

namespace Action

variable {fs : FileSystem} {visit : Visit → Walk Unit}

/-! ## The walk does what the lists say -/

theorem performAll_nil : performAll visit [] = pure () := rfl

theorem performAll_singleton (a : Action) : performAll visit [a] = a.perform visit := by
  unfold performAll
  rw [List.forM_cons, List.forM_nil]
  exact bind_pure _

theorem performAll_cons (a : Action) (l : List Action) :
    performAll visit (a :: l) = (do a.perform visit; performAll visit l) := List.forM_cons

theorem performAll_append (l l' : List Action) :
    performAll visit (l ++ l') = (do performAll visit l; performAll visit l') := List.forM_append

theorem performAll_flatMap {α : Type} (f : α → List Action) :
    ∀ l : List α, performAll visit (l.flatMap f) = forM l fun a => performAll visit (f a)
  | [] => rfl
  | a :: l => by
    rw [List.flatMap_cons, performAll_append, performAll_flatMap f l, List.forM_cons]

theorem performAll_asked {answer : Except FsError Bool} {f : Bool → Walk Unit}
    {next : Bool → List Action} (h : ∀ b, f b = performAll visit (next b)) :
    (Walk.ask answer >>= f) = performAll visit (asked answer next) := by
  cases answer with
  | ok b => exact (pure_bind b f).trans (h b)
  | error e =>
    rw [asked, performAll_singleton, perform]
    rfl

theorem performAll_compared {rules : List IgnoreRule} {p : Path} {f : Bool → Walk Unit}
    {next : Bool → List Action} (h : ∀ b, f b = performAll visit (next b)) :
    (Walk.isIgnored rules p >>= f) = performAll visit (compared rules p next) := by
  unfold compared
  cases hc : IgnoreRule.anyCovers rules p with
  | ok b =>
    rw [Walk.isIgnored_of_ok hc]
    exact (pure_bind b f).trans (h b)
  | error fault =>
    rw [Walk.isIgnored_of_error hc]
    dsimp only
    rw [performAll_singleton, perform]
    rfl

theorem performAll_listed {dir : Path} {f : Option (List String) → Walk Unit}
    {next : List String → List Action} (hnone : f none = pure ())
    (h : ∀ names, f (some names) = performAll visit (next names)) :
    (Walk.list fs dir >>= f) = performAll visit (listed fs dir next) := by
  unfold listed
  cases hl : fs.list dir with
  | ok names =>
    rw [Walk.list_of_ok hl]
    exact (pure_bind _ f).trans (h names)
  | error e =>
    cases he : e.isSystem with
    | true =>
      simp only [Walk.list_of_system hl he, he, if_true, performAll_singleton, perform, bind_assoc,
        pure_bind, hnone]
      exact bind_pure _
    | false =>
      simp only [Walk.list_of_unusable hl he, he, Bool.false_eq_true, if_false,
        performAll_singleton, perform]
      rfl

theorem node_eq (base : Path) (ignored : List IgnoreRule) (e : TreePath × TreeNode) :
    Walk.node fs visit base ignored e = performAll visit (ofNode fs base ignored e) := by
  unfold Walk.node ofNode Walk.bound Walk.noteClass
  rw [performAll_append]
  congr 1
  · cases e.2.binding with
    | none => rfl
    | some b =>
      rw [Option.toList_some, List.map_singleton, performAll_singleton, perform]
      rfl
  · funext _
    split
    · rw [performAll_singleton, perform]
    · rfl

theorem tree_eq (base : Path) (name : String) (n : TreeNode) (place : TreePath) (root : Bool)
    (ignored : List IgnoreRule) : Walk.tree fs visit base name n place root ignored =
      performAll visit (ofTree fs base ignored n (Walk.placeOf root name place)) := by
  unfold Walk.tree ofTree
  rw [Walk.nodes_eq_forM, performAll_flatMap, funext (node_eq base ignored)]

theorem project_eq (file : Path) (place : TreePath) (root : Bool) :
    Walk.project fs visit file place root = performAll visit (ofProject fs file place root) := by
  unfold Walk.project ofProject
  rcases Project.load fs file with (_ | _ | _ | _) | p
  all_goals dsimp only
  · rw [performAll_singleton, perform]
  · rw [performAll_singleton, perform]
  · rw [performAll_singleton, perform]
  · rw [performAll_singleton, perform]
  · exact tree_eq _ _ _ place root _

theorem targetDirectory_eq (path : Path) (place : TreePath) (ignored : List IgnoreRule) :
    Walk.targetDirectory fs visit path place ignored =
      performAll visit (ofTargetDirectory fs path place ignored) := by
  refine performAll_listed rfl fun names => ?_
  dsimp only
  by_cases hc : FileName.defaultProject ∈ names
  · rw [if_pos (List.contains_iff_mem.2 hc), if_pos hc, performAll_singleton]
    rfl
  · rw [if_neg fun h => hc (List.contains_iff_mem.1 h), if_neg hc, performAll_cons,
      performAll_singleton]
    rfl

theorem settle_eq (path : Path) (place : TreePath) (ignored : List IgnoreRule) (found : Bool) :
    Walk.settle fs visit path place ignored found =
      performAll visit (ofSettled fs path place ignored found) := by
  unfold Walk.settle ofSettled
  split
  · rw [performAll_singleton, perform]
  have hask : (if found then Walk.ask (fs.isDirectory path) else pure false) =
      Walk.ask (if found then fs.isDirectory path else .ok false) := by
    cases found <;> rfl
  rw [hask]
  refine performAll_asked fun isDirectory => ?_
  split
  · exact targetDirectory_eq path place ignored
  · rw [performAll_singleton, perform]

theorem target_eq (path : Path) (place : TreePath) (ignored : List IgnoreRule) (optional : Bool) :
    Walk.target fs visit path place ignored optional =
      performAll visit (ofTarget fs path.toLuau place ignored optional) := by
  refine performAll_compared fun covered => ?_
  split
  · rfl
  refine performAll_asked fun found => ?_
  split
  · split
    · rw [performAll_singleton, perform]
    · rfl
  · unfold Walk.plainTarget
    rw [performAll_append, ← settle_eq]
    split
    · rw [performAll_nil, pure_bind]
    · rw [performAll_singleton, perform]

theorem projectEntry_eq (dir : Path) (place : TreePath) (name : String) :
    Walk.projectEntry fs visit dir place name = performAll visit (ofProjectEntry fs dir place name) := by
  unfold Walk.projectEntry ofProjectEntry
  split
  · refine performAll_asked fun isFile => ?_
    split
    · rw [performAll_singleton, perform]
    · rfl
  · rfl

theorem directoryEntry_eq (dir : Path) (place : TreePath) (ignored : List IgnoreRule)
    (name : String) : Walk.directoryEntry fs visit dir place ignored name =
      performAll visit (ofDirectoryEntry fs dir place ignored name) := by
  refine performAll_asked fun isDirectory => ?_
  split
  · rw [performAll_singleton, perform]
  · rfl

theorem directory_eq (dir : Path) (place : TreePath) (name : Option String)
    (ignored : List IgnoreRule) : Walk.directory fs visit dir place name ignored =
      performAll visit (ofDirectory fs dir place name ignored) := by
  refine performAll_listed rfl fun names => ?_
  dsimp only
  by_cases hc : FileName.defaultProject ∈ names
  · rw [if_pos (List.contains_iff_mem.2 hc), if_pos hc, performAll_singleton]
    rfl
  rw [if_neg fun h => hc (List.contains_iff_mem.1 h), if_neg hc]
  refine performAll_compared fun covered => ?_
  split
  · rfl
  unfold Walk.entries ofEntries
  rw [performAll_append, performAll_flatMap, performAll_flatMap]
  simp only [← projectEntry_eq, ← directoryEntry_eq]
  rfl

/-- One level of a visit does what its list says. -/
theorem enter_eq (v : Visit) : Walk.enter fs visit v = performAll visit (v.actions fs) := by
  cases v with
  | project file place root => exact project_eq file place root
  | target path place ignored optional => exact target_eq path place ignored optional
  | directory dir place name ignored => exact directory_eq dir place name ignored

theorem walk_eq (s : Resolver.Source) (depth : Nat) :
    s.walk fs depth = performAll (Walk.visit fs depth) (s.actions fs) := by
  cases s with
  | project file =>
    unfold Resolver.Source.actions
    rw [performAll_singleton, perform]
    rfl
  | tree base n => exact tree_eq _ "" n [] true []
  | directory base => exact tree_eq _ "" _ [] true []

/-! ## What may be done -/

theorem mem_asked {answer : Except FsError Bool} {next : Bool → List Action} {a : Action}
    (h : a ∈ asked answer next) : (∃ b, answer = .ok b ∧ a ∈ next b) ∨
      ∃ e, answer = .error e ∧ a = .stop (.failed e) := by
  cases answer with
  | ok b => exact .inl ⟨b, rfl, h⟩
  | error e => exact .inr ⟨e, rfl, List.mem_singleton.1 h⟩

theorem mem_compared {rules : List IgnoreRule} {p : Path} {next : Bool → List Action} {a : Action}
    (h : a ∈ compared rules p next) :
    (∃ b, IgnoreRule.anyCovers rules p = .ok b ∧ a ∈ next b) ∨
      ∃ fault, IgnoreRule.anyCovers rules p = .error fault ∧ a = .stop (.glob fault) := by
  unfold compared at h
  split at h
  · rename_i b hc
    exact .inl ⟨b, hc, h⟩
  · rename_i fault hc
    exact .inr ⟨fault, hc, List.mem_singleton.1 h⟩

theorem mem_listed {dir : Path} {next : List String → List Action} {a : Action}
    (h : a ∈ listed fs dir next) :
    (∃ names, fs.list dir = .ok names ∧ a ∈ next names) ∨
      (∃ e, fs.list dir = .error e ∧ e.isSystem = true ∧ a = .warn (.unreadable dir e)) ∨
      ∃ e, fs.list dir = .error e ∧ e.isSystem = false ∧ a = .stop (.failed e) := by
  unfold listed at h
  split at h
  · rename_i names hl
    exact .inl ⟨names, hl, h⟩
  · rename_i e hl
    split at h
    · rename_i he
      exact .inr (.inl ⟨e, hl, he, List.mem_singleton.1 h⟩)
    · rename_i he
      exact .inr (.inr ⟨e, hl, Bool.not_eq_true _ ▸ he, List.mem_singleton.1 h⟩)

/-! ## The visits among the actions -/

variable {v v' : Visit}

theorem visit_mem_asked {answer : Except FsError Bool} {next : Bool → List Action}
    (h : .visit v' ∈ asked answer next) : ∃ b, answer = .ok b ∧ .visit v' ∈ next b :=
  (mem_asked h).resolve_right nofun

theorem visit_mem_compared {rules : List IgnoreRule} {p : Path} {next : Bool → List Action}
    (h : .visit v' ∈ compared rules p next) :
    ∃ b, IgnoreRule.anyCovers rules p = .ok b ∧ .visit v' ∈ next b :=
  (mem_compared h).resolve_right nofun

theorem visit_mem_listed {dir : Path} {next : List String → List Action}
    (h : .visit v' ∈ listed fs dir next) :
    ∃ names, fs.list dir = .ok names ∧ .visit v' ∈ next names :=
  (mem_listed h).resolve_right nofun

theorem visit_mem_ofTree {base : Path} {ignored : List IgnoreRule} {n : TreeNode} {place : TreePath}
    (h : .visit v' ∈ ofTree fs base ignored n place) :
    ∃ e ∈ n.bindings place, v' = .ofBinding fs base ignored e := by
  obtain ⟨e, he, h⟩ := List.mem_flatMap.1 h
  rcases List.mem_append.1 h with h | h
  · obtain ⟨b, hb, h⟩ := List.mem_map.1 h
    cases h
    exact ⟨(e.1, b), TreeNode.mem_bindings.2 ⟨e.2, he, Option.mem_toList.1 hb⟩, rfl⟩
  · split at h
    · cases List.mem_singleton.1 h
    · cases h

theorem asks_of_mem_ofSettled {path : Path} {place : TreePath} {ignored : List IgnoreRule}
    {found : Bool} (hs : Walk.Settles v path place ignored)
    (h : .visit v' ∈ ofSettled fs path place ignored found) : Walk.Asks fs v v' := by
  unfold ofSettled at h
  split at h
  · cases List.mem_singleton.1 h
  rename_i hdata
  have hdata : path.isData = false := Bool.not_eq_true _ ▸ hdata
  obtain ⟨isDirectory, hdir, hnext⟩ := visit_mem_asked h
  cases isDirectory with
  | false => cases List.mem_singleton.1 hnext
  | true =>
    cases found with
    | false => cases hdir
    | true =>
      obtain ⟨names, hl, h⟩ := visit_mem_listed hnext
      split at h
      · rename_i hn
        cases List.mem_singleton.1 h
        exact .standard hs hdata hdir hl hn
      · rename_i hn
        rcases List.mem_cons.1 h with h | h
        · cases h
        · cases List.mem_singleton.1 h
          exact .search hs hdata hdir hl hn

theorem asks_of_mem_ofTarget {path : Path} {place : TreePath} {ignored : List IgnoreRule}
    {optional : Bool} (h : .visit v' ∈ ofTarget fs path.toLuau place ignored optional) :
    Walk.Asks fs (.target path place ignored optional) v' := by
  obtain ⟨covered, hc, h⟩ := visit_mem_compared h
  cases covered with
  | true => cases h
  | false =>
    obtain ⟨found, -, h⟩ := visit_mem_asked h
    split at h
    · rename_i hp
      split at h
      · cases List.mem_singleton.1 h
        exact .included hc hp
      · cases h
    · rename_i hp
      have hs : Walk.Settles (.target path place ignored optional) path.toLuau place ignored :=
        ⟨path, optional, rfl, rfl, hc, Bool.not_eq_true _ ▸ hp⟩
      rcases List.mem_append.1 h with h | h
      · split at h
        · cases h
        · cases List.mem_singleton.1 h
      · exact asks_of_mem_ofSettled hs h

theorem asks_of_mem_ofDirectory {dir : Path} {place : TreePath} {name : Option String}
    {ignored : List IgnoreRule} (h : .visit v' ∈ ofDirectory fs dir place name ignored) :
    Walk.Asks fs (.directory dir place name ignored) v' := by
  obtain ⟨names, hl, h⟩ := visit_mem_listed h
  split at h
  · rename_i hn
    cases List.mem_singleton.1 h
    exact .standardBelow hl hn
  rename_i hn
  obtain ⟨covered, hc, h⟩ := visit_mem_compared h
  cases covered with
  | true => cases h
  | false =>
    rcases List.mem_append.1 h with h | h
    · obtain ⟨n, hm, h⟩ := List.mem_flatMap.1 h
      unfold ofProjectEntry at h
      split at h
      · rename_i hp
        obtain ⟨isFile, hf, h⟩ := visit_mem_asked h
        split at h
        · rename_i hb
          cases List.mem_singleton.1 h
          exact .entry hl hn hc hm hp (hb ▸ hf)
        · cases h
      · cases h
    · obtain ⟨n, hm, h⟩ := List.mem_flatMap.1 h
      obtain ⟨isDirectory, hd, h⟩ := visit_mem_asked h
      split at h
      · rename_i hb
        cases List.mem_singleton.1 h
        exact .subdirectory hl hn hc hm (hb ▸ hd)
      · cases h

/-- A visit asks for the visits among its actions. -/
theorem asks_of_mem (h : .visit v' ∈ v.actions fs) : Walk.Asks fs v v' := by
  cases v with
  | project file place root =>
    unfold Visit.actions ofProject at h
    dsimp only at h
    split at h
    · rename_i p hp
      obtain ⟨e, he, rfl⟩ := visit_mem_ofTree h
      exact .binding hp he
    all_goals cases List.mem_singleton.1 h
  | target path place ignored optional => exact asks_of_mem_ofTarget h
  | directory dir place name ignored => exact asks_of_mem_ofDirectory h

/-- A build starts with the visits among its actions. -/
theorem starts_of_mem {s : Resolver.Source} (h : .visit v ∈ s.actions fs) : Walk.Starts fs s v := by
  cases s with
  | project file => cases List.mem_singleton.1 h; rfl
  | tree base n => exact visit_mem_ofTree h
  | directory base => exact visit_mem_ofTree h

/-! ## Walks with the same lists -/

theorem performAll_congr {visit visit' : Visit → Walk Unit} :
    ∀ l : List Action, (∀ v, .visit v ∈ l → visit v = visit' v) →
      performAll visit l = performAll visit' l
  | [], _ => rfl
  | a :: l, h => by
    rw [performAll_cons, performAll_cons,
      performAll_congr l fun v hv => h v (List.mem_cons_of_mem a hv)]
    cases a with
    | visit v => rw [perform, perform, h v List.mem_cons_self]
    | _ => rfl

/-- Visits do the same on two file systems if one level of each of them does. -/
theorem visit_congr {fs fs' : FileSystem} {V : Visit → Prop}
    (hV : ∀ v v', V v → Walk.Asks fs v v' → V v') (h : ∀ v, V v → v.actions fs' = v.actions fs) :
    ∀ (depth : Nat) (v : Visit), V v → Walk.visit fs' depth v = Walk.visit fs depth v
  | 0, _, _ => rfl
  | depth + 1, v, hv => by
    unfold Walk.visit
    rw [enter_eq, enter_eq, h v hv]
    exact performAll_congr _ fun v' hv' =>
      visit_congr hV h depth v' (hV v v' hv (asks_of_mem hv'))

end Action

/-- A build has the same outcome on two file systems if it starts alike and one level of each visit
that it comes to does the same. -/
theorem Resolver.build_congr {fs fs' : FileSystem} {s : Resolver.Source}
    (hstart : s.actions fs' = s.actions fs)
    (h : ∀ v, Walk.Reached fs s v → v.actions fs' = v.actions fs) (depth : Nat) (config : Config) :
    build fs' depth config s = build fs depth config s := by
  rw [build_eq_ofWalk, build_eq_ofWalk, Action.walk_eq, Action.walk_eq, hstart]
  refine congrArg (ofWalk config) (Action.performAll_congr _ fun v hv => ?_)
  exact Action.visit_congr (fun _ _ => .ask) h depth v (.start (Action.starts_of_mem hv))

end PlaceMap
