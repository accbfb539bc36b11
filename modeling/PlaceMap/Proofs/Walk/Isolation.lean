/-
Broken projects are isolated: a tree some of whose bindings lead to broken projects is walked as if
these bindings were not there, but for one warning in the place of each.

What a walk does depends on the table neither in its course nor in its warnings. So the warnings of
a tree are those of its nodes, one after another in the order of the document, and to leave out the
binding of a node is to leave out its warnings there.
-/
import PlaceMap.FileSystem.Stored
import PlaceMap.Proofs.Json.Digits
import PlaceMap.Proofs.Walk.BrokenProjects
import PlaceMap.Proofs.Walk.Depth
import PlaceMap.Proofs.Walk.Related

namespace PlaceMap

/-! ## Trees without some of their bindings -/

namespace TreeNode

mutual

/-- The tree without the bindings of the nodes at some tree paths; all else stays. -/
def unbind (drop : TreePath → Bool) : TreeNode → TreePath → TreeNode
  | ⟨className, binding, properties, ignoreUnknown, children⟩, place =>
    ⟨className, if drop place then none else binding, properties, ignoreUnknown,
      unbindAll drop children place⟩

/-- The children of a node without some of the bindings in them. -/
def unbindAll (drop : TreePath → Bool) :
    List (String × TreeNode) → TreePath → List (String × TreeNode)
  | [], _ => []
  | (name, child) :: rest, place =>
    (name, unbind drop child (place ++ [name])) :: unbindAll drop rest place

end

/-- A node of a tree, without some of the bindings at and below it. -/
def unbindEntry (drop : TreePath → Bool) (e : TreePath × TreeNode) : TreePath × TreeNode :=
  (e.1, e.2.unbind drop e.1)

section

variable (drop : TreePath → Bool)

mutual

/-- The nodes stay where they are. -/
theorem preorder_unbind :
    ∀ (n : TreeNode) (place : TreePath),
      (n.unbind drop place).preorder place = (n.preorder place).map (unbindEntry drop)
  | ⟨className, binding, properties, ignoreUnknown, children⟩, place => by
    rw [unbind, preorder, preorder, List.map_cons, preorderAll_unbindAll children place]
    rw [unbindEntry, unbind]

theorem preorderAll_unbindAll :
    ∀ (children : List (String × TreeNode)) (place : TreePath),
      preorderAll (unbindAll drop children place) place =
        (preorderAll children place).map (unbindEntry drop)
  | [], _ => by rw [unbindAll, preorderAll, List.map_nil]
  | (name, child) :: rest, place => by
    rw [unbindAll, preorderAll, preorderAll, List.map_append,
      preorder_unbind child (place ++ [name]), preorderAll_unbindAll rest place]

end

theorem unbind_className (n : TreeNode) (place : TreePath) :
    (n.unbind drop place).className = n.className := by
  cases n
  rw [unbind]

theorem unbind_binding (n : TreeNode) (place : TreePath) :
    (n.unbind drop place).binding = if drop place then none else n.binding := by
  cases n
  rw [unbind]

end

end TreeNode

/-! ## Relations that every change of a table keeps -/

/-- A relation between tables is kept if both are changed alike. -/
structure Table.Kept (R : Table → Table → Prop) : Prop where
  warn : ∀ w t t', R t t' → R (t.warn w) (t'.warn w)
  markGame : ∀ t t', R t t' → R t.markGame t'.markGame
  mapFile : ∀ file place t t', R t t' → R (t.mapFile file place) (t'.mapFile file place)
  register : ∀ p t t', R t t' → R (t.register p) (t'.register p)

/-- Two tables differ at most in their warnings. -/
structure Table.Agree (t t' : Table) : Prop where
  fileMap : t.fileMap = t'.fileMap
  partitions : t.partitions = t'.partitions
  isGame : t.isGame = t'.isGame

/-- The warnings of `t` are some earlier ones and then those of `d`. -/
def Table.Continues (earlier : List Warning) (d t : Table) : Prop :=
  t.warnings = earlier ++ d.warnings

theorem Table.Agree.refl (t : Table) : t.Agree t := ⟨rfl, rfl, rfl⟩

theorem Table.Agree.kept : Kept Agree where
  warn := fun _ _ _ h => ⟨h.fileMap, h.partitions, h.isGame⟩
  markGame := fun _ _ h => ⟨h.fileMap, h.partitions, rfl⟩
  mapFile := fun file place _ _ h =>
    ⟨congrArg (FileMap.insert · file place) h.fileMap, h.partitions, h.isGame⟩
  register := fun p _ _ h => ⟨h.fileMap, congrArg (p :: ·) h.partitions, h.isGame⟩

theorem Table.Continues.kept (earlier : List Warning) : Kept (Continues earlier) where
  warn := by
    intro w d t h
    show t.warnings ++ [w] = earlier ++ (d.warnings ++ [w])
    rw [h, List.append_assoc]
  markGame := fun _ _ h => h
  mapFile := fun _ _ _ _ h => h
  register := fun _ _ _ h => h

namespace Walk

section

variable {fs : FileSystem} {R : Table → Table → Prop}

theorem Related.performAll (hR : Table.Kept R) {visit : Visit → Walk Unit}
    (hvisit : ∀ v, Related Eq R (visit v) (visit v)) (l : List Action) :
    Related Eq R (Action.performAll visit l) (Action.performAll visit l) := by
  refine .forM l fun a _ => ?_
  cases a with
  | warn w => exact .change (hR.warn w)
  | markGame => exact .change hR.markGame
  | mapFile file place => exact .change (hR.mapFile file place)
  | register p => exact .change (hR.register p)
  | visit v => exact hvisit v
  | stop e => exact .throw rfl

/-- A visit does the same on tables that are related. -/
theorem Related.visit (hR : Table.Kept R) :
    ∀ (depth : Nat) (v : Visit), Related Eq R (Walk.visit fs depth v) (Walk.visit fs depth v)
  | 0, _ => .throw rfl
  | depth + 1, v => by
    rw [Walk.visit, Action.enter_eq]
    exact .performAll hR (Related.visit hR depth) _

theorem Related.node (hR : Table.Kept R) (depth : Nat) (base : Path) (ignored : List IgnoreRule)
    (e : TreePath × TreeNode) :
    Related Eq R (Walk.node fs (Walk.visit fs depth) base ignored e)
      (Walk.node fs (Walk.visit fs depth) base ignored e) := by
  rw [Action.node_eq]
  exact .performAll hR (.visit hR depth) _

end

/-! ## Warnings in their order -/

/-- What a walk warns of when it runs on the empty table. -/
def warnings (w : Walk Unit) : List Warning := (w.runOn .empty).2.warnings

/-- The table has no say in how a walk ends and what it warns of. -/
def Oblivious (w : Walk Unit) : Prop := ∀ earlier, Related Eq (Table.Continues earlier) w w

theorem Oblivious.follow_eq {w : Walk Unit} (h : w.Oblivious) (c : Course) :
    (w.follow c).1 = (w.runOn .empty).1 ∧
      (w.follow c).2.now.warnings = c.now.warnings ++ w.warnings := by
  obtain ⟨hend, hnow⟩ := h c.now.warnings ⟨.empty, []⟩ c (List.append_nil _).symm
  exact ⟨(endsAlike_eq hend).symm, hnow⟩

/-- One pass over a list that runs to its end warns of what the walks for its entries warn of, one
after another. -/
theorem forM_warnings {α : Type} {f : α → Walk Unit} :
    ∀ (l : List α), (∀ a ∈ l, (f a).Oblivious) → ∀ c, ((forM l f).follow c).1 = .ok () →
      ((forM l f).follow c).2.now.warnings = c.now.warnings ++ l.flatMap (fun a => (f a).warnings) ∧
        ∀ a ∈ l, ((f a).runOn .empty).1 = .ok ()
  | [], _, c, _ => ⟨(List.append_nil _).symm, fun _ ha => absurd ha List.not_mem_nil⟩
  | a :: l, h, c, hok => by
    obtain ⟨hend, hwarnings⟩ := (h a List.mem_cons_self).follow_eq c
    rw [List.forM_cons] at hok ⊢
    rcases hfirst : (f a).follow c with ⟨e | _, d⟩
    · rw [follow_bind_error hfirst] at hok
      cases hok
    rw [hfirst] at hend hwarnings
    rw [follow_bind_ok hfirst] at hok ⊢
    obtain ⟨hrest, hends⟩ := forM_warnings l (fun b hb => h b (List.mem_cons_of_mem a hb)) d hok
    refine ⟨?_, fun b hb => ?_⟩
    · rw [List.flatMap_cons, ← List.append_assoc, ← hwarnings]
      exact hrest
    · rcases List.mem_cons.1 hb with rfl | hb
      · exact hend.symm
      · exact hends b hb

/-! ## Bindings to broken projects -/

/-- Some of the nodes, given by their tree paths, lead to broken projects. Each comes with the warning
that its project is worth. -/
def Breaks (fs : FileSystem) (base : Path) (ignored : List IgnoreRule)
    (nodes : List (TreePath × TreeNode)) (broken : TreePath → Option Warning) : Prop :=
  ∀ e ∈ nodes, ∀ w, broken e.1 = some w →
    ∃ b, e.2.binding = some b ∧ b.Broken fs base ignored w

/-- The tree path is that of a node that leads to a broken project. -/
def isBroken (broken : TreePath → Option Warning) (place : TreePath) : Bool := (broken place).isSome

theorem isBroken_eq_false {broken : TreePath → Option Warning} {place : TreePath}
    (h : broken place = none) : isBroken broken place = false := by
  rw [isBroken, h]
  rfl

theorem isBroken_eq_true {broken : TreePath → Option Warning} {place : TreePath} {w : Warning}
    (h : broken place = some w) : isBroken broken place = true := by
  rw [isBroken, h]
  rfl

section

variable {fs : FileSystem} {visit : Visit → Walk Unit} {base : Path} {ignored : List IgnoreRule}
  {drop : TreePath → Bool} {e : TreePath × TreeNode}

theorem node_unbindEntry_of_kept (h : drop e.1 = false) :
    node fs visit base ignored (TreeNode.unbindEntry drop e) = node fs visit base ignored e := by
  unfold node TreeNode.unbindEntry
  rw [TreeNode.unbind_binding, TreeNode.unbind_className, h, if_neg Bool.false_ne_true]

theorem node_unbindEntry_of_dropped (h : drop e.1 = true) :
    node fs visit base ignored (TreeNode.unbindEntry drop e) = noteClass e.2.className := by
  unfold node TreeNode.unbindEntry
  rw [TreeNode.unbind_binding, TreeNode.unbind_className, h, if_pos rfl]
  exact pure_bind _ _

/-- What is visited at a node that leads to a broken project is the warning, if the limit on the
depth allows as much. -/
theorem node_broken {b : Binding} (hb : e.2.binding = some b) {w : Warning}
    (h : b.Broken fs base ignored w) (depth : Nat) :
    node fs (Walk.visit fs (depth + 2)) base ignored e = (do warn w; noteClass e.2.className) := by
  have hbound : bound fs (Walk.visit fs (depth + 2)) base ignored (some b) e.1 = warn w :=
    h.visit_eq depth e.1
  unfold node
  rw [hb, hbound]

theorem node_broken_cases {b : Binding} (hb : e.2.binding = some b) {w : Warning}
    (h : b.Broken fs base ignored w) (depth : Nat) :
    node fs (Walk.visit fs depth) base ignored e = (do warn w; noteClass e.2.className) ∨
      node fs (Walk.visit fs depth) base ignored e = throw .tooDeep := by
  have hbound : bound fs (Walk.visit fs depth) base ignored (some b) e.1 =
      Walk.visit fs depth (.ofBinding fs base ignored (e.1, b)) := rfl
  unfold node
  rw [hb, hbound]
  rcases h.visit_cases depth e.1 with heq | heq <;> rw [heq]
  · exact .inl rfl
  · exact .inr rfl

theorem noteClass_warnings (className : Option String) : (noteClass className).warnings = [] := by
  unfold noteClass
  split <;> rfl

end

section

variable {fs : FileSystem} {base : Path} {ignored : List IgnoreRule}
  {broken : TreePath → Option Warning}

/-- With and without its binding to a broken project, a node does the same but for the warning. -/
theorem node_related {nodes : List (TreePath × TreeNode)} (h : Breaks fs base ignored nodes broken)
    (depth : Nat) {e : TreePath × TreeNode} (he : e ∈ nodes) :
    Related Eq Table.Agree (node fs (visit fs (depth + 2)) base ignored e)
      (node fs (visit fs (depth + 2)) base ignored
        (TreeNode.unbindEntry (isBroken broken) e)) := by
  have hkept := @Related.node fs _ Table.Agree.kept (depth + 2) base ignored e
  cases hw : broken e.1 with
  | none =>
    rw [node_unbindEntry_of_kept (isBroken_eq_false hw)]
    exact hkept
  | some w =>
    obtain ⟨b, hb, hbroken⟩ := h e he w hw
    rw [node_unbindEntry_of_dropped (isBroken_eq_true hw), node_broken hb hbroken]
    have hclass : Related Eq Table.Agree (noteClass e.2.className) (noteClass e.2.className) := by
      unfold noteClass
      split
      · exact .change Table.Agree.kept.markGame
      · exact .pure _
    intro c c' hc
    have hwarn : (warn w).follow c = (.ok (), c.change (Table.warn w)) := follow_change _ _
    rw [follow_bind_ok hwarn]
    exact hclass _ c' ⟨hc.fileMap, hc.partitions, hc.isGame⟩

/-- The nodes that keep their bindings warn of what they did before, and the others of nothing. -/
theorem warnings_unbindEntry (depth : Nat) : ∀ nodes : List (TreePath × TreeNode),
    nodes.flatMap (fun e => (node fs (visit fs depth) base ignored
      (TreeNode.unbindEntry (isBroken broken) e)).warnings) =
    (nodes.filter fun e => !isBroken broken e.1).flatMap fun e =>
      (node fs (visit fs depth) base ignored e).warnings
  | [] => rfl
  | e :: nodes => by
    rw [List.flatMap_cons, warnings_unbindEntry depth nodes]
    cases hw : broken e.1 with
    | none =>
      have hkept := isBroken_eq_false hw
      rw [node_unbindEntry_of_kept hkept, List.filter_cons_of_pos (by rw [hkept]; rfl),
        List.flatMap_cons]
    | some w =>
      have hdropped := isBroken_eq_true hw
      rw [node_unbindEntry_of_dropped hdropped, noteClass_warnings, List.nil_append,
        List.filter_cons_of_neg (by rw [hdropped]; exact Bool.false_ne_true)]

/-- A node that leads to a broken project warns of that, if it does not go too deep. -/
theorem node_broken_warnings {nodes : List (TreePath × TreeNode)}
    (h : Breaks fs base ignored nodes broken) (depth : Nat) {e : TreePath × TreeNode}
    (he : e ∈ nodes) {w : Warning} (hw : broken e.1 = some w)
    (hok : ((node fs (visit fs depth) base ignored e).runOn .empty).1 = .ok ()) :
    (node fs (visit fs depth) base ignored e).warnings = [w] := by
  obtain ⟨b, hb, hbroken⟩ := h e he w hw
  rcases node_broken_cases hb hbroken depth with heq | heq
  · rw [heq]
    unfold noteClass
    split <;> rfl
  · rw [heq] at hok
    cases hok

/-- The tables `full` and `rest` that the walks of a tree with and without its bindings to broken
projects leave, both from the table `t`: they differ in the warnings alone, those are warned of node
by node in the order of the document, and in the place of a missing binding stands one warning. -/
structure Isolated (broken : TreePath → Option Warning) (nodes : List (TreePath × TreeNode))
    (own : TreePath × TreeNode → List Warning) (t full rest : Table) : Prop where
  agree : full.Agree rest
  full : full.warnings = t.warnings ++ nodes.flatMap own
  rest : rest.warnings = t.warnings ++ (nodes.filter fun e => !isBroken broken e.1).flatMap own
  broken : ∀ e ∈ nodes, ∀ w, broken e.1 = some w → own e = [w]

variable {name : String} {n : TreeNode} {place : TreePath} {root : Bool}

theorem tree_eq_forM (visit : Visit → Walk Unit) :
    tree fs visit base name n place root ignored =
      forM (n.preorder (placeOf root name place)) (node fs visit base ignored) :=
  nodes_eq_forM fs visit base ignored n (placeOf root name place)

theorem tree_unbind_eq_forM (visit : Visit → Walk Unit) (drop : TreePath → Bool) :
    tree fs visit base name (n.unbind drop (placeOf root name place)) place root ignored =
      forM (n.preorder (placeOf root name place)) fun e =>
        node fs visit base ignored (TreeNode.unbindEntry drop e) := by
  rw [tree_eq_forM, TreeNode.preorder_unbind, List.forM_map]

/-- A tree that is walked to its end at some depth is walked alike at greater ones. -/
theorem tree_deeper {depth : Nat} {c : Course}
    (h : ((tree fs (visit fs depth) base name n place root ignored).follow c).1 = .ok ()) :
    (tree fs (visit fs (depth + 2)) base name n place root ignored).follow c =
      (tree fs (visit fs depth) base name n place root ignored).follow c := by
  have hdeeper : Extends (tree fs (visit fs depth) base name n place root ignored)
      (tree fs (visit fs (depth + 2)) base name n place root ignored) := by
    rw [Action.tree_eq, Action.tree_eq]
    exact .performAll (visit_deeper fs (Nat.le_add_right depth 2)) _
  exact hdeeper c (by rw [h]; exact nofun)

theorem tree_related (h : Breaks fs base ignored (n.preorder (placeOf root name place)) broken)
    (depth : Nat) : Related Eq Table.Agree
      (tree fs (visit fs (depth + 2)) base name n place root ignored)
      (tree fs (visit fs (depth + 2)) base name
        (n.unbind (isBroken broken) (placeOf root name place)) place root ignored) := by
  rw [tree_eq_forM, tree_unbind_eq_forM]
  exact .forM _ fun e he => node_related h depth he

theorem node_oblivious (depth : Nat) (e : TreePath × TreeNode) :
    (node fs (visit fs depth) base ignored e).Oblivious := fun earlier =>
  .node (Table.Continues.kept earlier) depth base ignored e

theorem tree_isolated (h : Breaks fs base ignored (n.preorder (placeOf root name place)) broken)
    {depth : Nat} {t : Table}
    (hfull : ((tree fs (visit fs depth) base name n place root ignored).runOn t).1 = .ok ())
    (hrest : ((tree fs (visit fs depth) base name
      (n.unbind (isBroken broken) (placeOf root name place)) place root ignored).runOn t).1 = .ok ()) :
    Isolated broken (n.preorder (placeOf root name place))
      (fun e => (node fs (visit fs depth) base ignored e).warnings) t
      ((tree fs (visit fs depth) base name n place root ignored).runOn t).2
      ((tree fs (visit fs depth) base name
        (n.unbind (isBroken broken) (placeOf root name place)) place root ignored).runOn t).2 := by
  have hagree := (tree_related h depth ⟨t, []⟩ ⟨t, []⟩ (.refl t)).2
  rw [tree_deeper hfull, tree_deeper hrest] at hagree
  rw [tree_eq_forM] at hfull
  rw [tree_unbind_eq_forM] at hrest
  obtain ⟨hwarnings, hends⟩ := forM_warnings _ (fun e _ => node_oblivious depth e) ⟨t, []⟩ hfull
  obtain ⟨hwarnings', -⟩ := forM_warnings _ (fun e _ => node_oblivious depth _) ⟨t, []⟩ hrest
  refine ⟨hagree, ?_, ?_, fun e he w hw => node_broken_warnings h depth he hw (hends e he)⟩
  · rw [tree_eq_forM]
    exact hwarnings
  · rw [tree_unbind_eq_forM, ← warnings_unbindEntry]
    exact hwarnings'

end

/-- A project file that is missing, undecodable, malformed or of the wrong shape is worth one warning
and changes nothing else, whatever the table, the tree path and the way to it; the warning is that
the file is missing exactly if it is. So a tree with bindings to such files, or to directories whose
default projects are such, is walked as without these bindings: to the same end, and to a table
that differs in the warnings alone, of which there is one more for each such binding, in its place. -/
theorem broken_isolated (fs : FileSystem) :
    (∀ {file w}, Project.Broken fs file w → ∀ depth place root t,
      (visit fs (depth + 1) (.project file place root)).runOn t = (.ok (), t.warn w) ∧
        ((fs.has file = .ok false ∧ w = .missing file) ∨
          (fs.has file = .ok true ∧ ∃ cause, w = .invalid file cause))) ∧
    ∀ base name n place root ignored broken,
      Breaks fs base ignored (TreeNode.preorder n (placeOf root name place)) broken → ∀ depth t,
        let rest := n.unbind (isBroken broken) (placeOf root name place)
        let run := fun depth n => (tree fs (visit fs depth) base name n place root ignored).runOn t
        ((run (depth + 2) n).1 = (run (depth + 2) rest).1 ∧
          (run (depth + 2) n).2.Agree (run (depth + 2) rest).2) ∧
        ((run depth n).1 = .ok () → (run depth rest).1 = .ok () →
          Isolated broken (n.preorder (placeOf root name place))
            (fun e => (node fs (visit fs depth) base ignored e).warnings) t
            (run depth n).2 (run depth rest).2) := by
  refine ⟨fun h depth place root t => ⟨?_, h.missing_or_invalid⟩,
    fun base name n place root ignored broken h depth t => ⟨?_, ?_⟩⟩
  · rw [h.visit_eq]
    rfl
  · obtain ⟨hend, hagree⟩ := tree_related h depth ⟨t, []⟩ ⟨t, []⟩ (.refl t)
    exact ⟨endsAlike_eq hend, hagree⟩
  · exact tree_isolated h

/-- A directory whose default project is not closed. -/
def unclosed : Stored := [("/d/default.project.json", .text "[")]

/-- Bindings to a missing project, to the directory, and to a missing data file. -/
def unclosedTree : TreeNode :=
  ⟨none, none, none, none,
    [("a", .bound "x.project.json"), ("d", .bound "d"), ("c", .bound "c.toml")]⟩

/-- The text of the directory's default project ends where an item should be. -/
def unclosedWarning : Warning :=
  .invalid ⟨.root, ["d", "default.project.json"]⟩
    (.malformed ⟨.root, ["d", "default.project.json"]⟩ ⟨.expectingValue, 1, 1, 2⟩)

/-- The nodes of the tree that lead to broken projects. -/
def unclosedNodes (place : TreePath) : Option Warning :=
  if place = ["a"] then some (.missing ⟨.root, ["x.project.json"]⟩)
  else if place = ["d"] then some unclosedWarning
  else none

theorem broken_unclosed :
    Project.Broken unclosed.fileSystem ⟨.root, ["d", "default.project.json"]⟩ unclosedWarning := by
  have hholds : unclosed.fileSystem.Holds ⟨.root, ["d", "default.project.json"]⟩ (.ok "[") :=
    ⟨congrArg Except.ok (by decide +kernel), _, rfl, rfl⟩
  exact .malformed hholds (failure?_eq_some.1 (by decide +kernel)) rfl

theorem preorder_unclosedTree : unclosedTree.preorder [] =
    [([], unclosedTree), (["a"], .bound "x.project.json"), (["d"], .bound "d"),
      (["c"], .bound "c.toml")] := rfl

theorem breaks_unclosed :
    Breaks unclosed.fileSystem ⟨.root, []⟩ [] (unclosedTree.preorder []) unclosedNodes := by
  intro e he w hw
  rw [preorder_unclosedTree] at he
  simp only [List.mem_cons, List.not_mem_nil, or_false] at he
  rcases he with rfl | rfl | rfl | rfl
  · cases hw
  · -- The missing project.
    cases hw
    refine ⟨_, rfl, .project rfl (by decide +kernel) nofun ?_⟩
    have htarget : ((Binding.required "x.project.json").target unclosed.fileSystem ⟨.root, []⟩).toLuau =
        ⟨.root, ["x.project.json"]⟩ := by
      decide +kernel
    rw [htarget]
    exact .missing (congrArg Except.ok (by decide +kernel))
  · -- The directory.
    cases hw
    have htarget : ((Binding.required "d").target unclosed.fileSystem ⟨.root, []⟩).toLuau =
        ⟨.root, ["d"]⟩ := by
      decide +kernel
    have hlist : unclosed.fileSystem.list ⟨.root, ["d"]⟩ = .ok ["default.project.json"] :=
      toOption_eq_some.1 (by decide +kernel)
    refine ⟨_, rfl, .directory rfl ?_ ?_ ?_ ?_ (htarget ▸ hlist) (by decide) ?_⟩
    all_goals rw [htarget]
    · decide +kernel
    · decide +kernel
    · exact congrArg Except.ok (by decide +kernel)
    · exact congrArg Except.ok (by decide +kernel)
    · exact broken_unclosed
  · cases hw

/-- The walk goes on to the data file, after a warning for each of the two projects. -/
theorem broken_isolated_unclosed :
    let fs := unclosed.fileSystem
    let run := fun n => (tree fs (visit fs 2) ⟨.root, []⟩ "" n [] true []).runOn .empty
    let rest := unclosedTree.unbind (isBroken unclosedNodes) []
    (visit fs 1 (.project ⟨.root, ["d", "default.project.json"]⟩ [] true)).runOn .empty =
        (.ok (), Table.empty.warn unclosedWarning) ∧
      (run unclosedTree).2.Agree (run rest).2 ∧
      (run unclosedTree).2.fileMap = [(⟨.root, ["c.toml"]⟩, ["c"])] ∧
      (run unclosedTree).2.warnings =
        [.missing ⟨.root, ["x.project.json"]⟩, unclosedWarning] ++ (run rest).2.warnings := by
  intro fs run rest
  obtain ⟨hfile, htree⟩ := broken_isolated fs
  have hfull : (run unclosedTree).1 = .ok () := toOption_eq_some.1 (by decide +kernel)
  have hrest : (run rest).1 = .ok () := toOption_eq_some.1 (by decide +kernel)
  have hisolated :=
    (htree ⟨.root, []⟩ "" unclosedTree [] true [] unclosedNodes breaks_unclosed 2 .empty).2 hfull hrest
  refine ⟨(hfile broken_unclosed 0 [] true .empty).1, hisolated.agree, by decide +kernel, ?_⟩
  have hmissing := hisolated.broken (["a"], .bound "x.project.json")
    (preorder_unclosedTree ▸ by simp) _ rfl
  have hinvalid := hisolated.broken (["d"], .bound "d") (preorder_unclosedTree ▸ by simp) _ rfl
  have hroot : (node fs (visit fs 2) ⟨.root, []⟩ [] ([], unclosedTree)).warnings = [] := rfl
  have hfullWarnings := hisolated.full
  have hrestWarnings := hisolated.rest
  rw [show placeOf true "" [] = [] from rfl, preorder_unclosedTree] at hfullWarnings hrestWarnings
  rw [hfullWarnings, hrestWarnings]
  have hkept : [([], unclosedTree), (["a"], TreeNode.bound "x.project.json"), (["d"], .bound "d"),
      (["c"], .bound "c.toml")].filter (fun e => !isBroken unclosedNodes e.1) =
        [([], unclosedTree), (["c"], .bound "c.toml")] := rfl
  rw [hkept]
  simp only [List.flatMap_cons, List.flatMap_nil, hroot, hmissing, hinvalid, Table.empty,
    List.nil_append, List.cons_append]

/-- A text that is not JSON may stop the walk: it has an integer of too many digits, and what else is
wrong with it comes after that. -/
theorem not_broken_isolated :
    ¬ ∀ (fs : FileSystem) (file : Path) (text : String) (fault : Json.Fault),
      fs.Holds file (.ok text) → Json.read text = .error fault →
        ∀ depth place root t, ∃ w,
          (visit fs (depth + 1) (.project file place root)).runOn t = (.ok (), t.warn w) := by
  intro h
  obtain ⟨fault, hread, hdigits⟩ := @Json.read_unclosed_nines 4300 (by decide)
  have hholds : (Stored.fileSystem [("/p.project.json",
      .text (String.ofList ('[' :: Json.nines 4300)))]).Holds ⟨.root, ["p.project.json"]⟩
        (.ok (String.ofList ('[' :: Json.nines 4300))) :=
    ⟨congrArg Except.ok (by decide +kernel), _, rfl, rfl⟩
  have hload := Project.load_of_text hholds
  rw [Project.ofText, hread] at hload
  dsimp only at hload
  rw [hdigits] at hload
  obtain ⟨w, hw⟩ := h _ _ _ fault hholds hread 0 [] true .empty
  rw [visit, enter, project, hload] at hw
  cases hw

end Walk

end PlaceMap
