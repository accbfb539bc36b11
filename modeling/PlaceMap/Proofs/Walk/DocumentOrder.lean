/-
A tree is walked in one flat pass over its nodes, each with its tree path, in the order of the
document: a tree path grows by the names on the way down to a node, and by nothing that was met
beside that way. So the class of a node counts wherever the node stands: unless a project is loaded
on the way, a walk that returns has marked the tree as a whole game exactly if some node says so.
-/
import PlaceMap.Proofs.Walk.Doing
import PlaceMap.Proofs.Walk.Endless
import PlaceMap.Proofs.Walk.Log

namespace PlaceMap

open PlaceMap.Action (ofTree expand isMark replay)

/-! ## Marks in a log -/

section

variable {fs : FileSystem} {base : Path} {ignored : List IgnoreRule} {n : TreeNode} {place : TreePath}

/-- A visit that marks the tree as a whole game loads a project. -/
theorem Visit.exists_load_of_mark {depth : Nat} {v : Visit} (h : .markGame ∈ v.log fs depth) :
    ∃ v' ∈ v.visits fs depth, ∃ file p, v'.file? = some file ∧ Project.load fs file = .ok p := by
  rcases mem_log h with hdeep | ⟨v', hv', ha⟩
  · cases hdeep
  · cases Action.does_of_mem ha with
    | game hload => exact ⟨_, hv', _, _, rfl, hload⟩

theorem Action.markGame_mem_ofTree :
    .markGame ∈ ofTree fs base ignored n place ↔
      ∃ e ∈ n.preorder place, e.2.className = some gameClass := by
  unfold ofTree
  rw [List.mem_flatMap]
  refine exists_congr fun e => and_congr_right fun _ => ?_
  unfold ofNode
  by_cases hclass : e.2.className = some gameClass <;> simp [hclass]

/-- If no project is loaded below the bindings of a tree, its log marks the tree as a whole game
exactly if one of its nodes does. -/
theorem Action.any_isMark_ofTree {depth : Nat}
    (h : ∀ b ∈ n.bindings place, ∀ v ∈ (Visit.ofBinding fs base ignored b).visits fs depth,
      ∀ file, v.file? = some file → ∀ p, Project.load fs file ≠ .ok p) :
    ((ofTree fs base ignored n place).flatMap (expand (Visit.log fs depth))).any isMark = true ↔
      ∃ e ∈ n.preorder place, e.2.className = some gameClass := by
  have hmark : ∀ a : Action, a.isMark = true ↔ a = .markGame := by
    intro a
    cases a <;> simp [isMark]
  rw [← @markGame_mem_ofTree fs base ignored n place, List.any_eq_true]
  constructor
  · rintro ⟨a, ha, hm⟩
    obtain rfl := (hmark a).1 hm
    obtain ⟨b, hb, ha⟩ := List.mem_flatMap.1 ha
    cases b with
    | visit v =>
      obtain ⟨e, he, rfl⟩ := visit_mem_ofTree hb
      obtain ⟨v', hv', file, p, hfile, hload⟩ := Visit.exists_load_of_mark ha
      exact absurd hload (h e he v' hv' file hfile p)
    | markGame => exact hb
    | _ => cases List.mem_singleton.1 ha
  · intro hm
    exact ⟨.markGame, List.mem_flatMap.2 ⟨_, hm, List.mem_singleton_self _⟩, rfl⟩

end

namespace Walk

/-! ## The flat pass -/

/-- One pass over some nodes, each with its tree path: the target of the node is visited, if it has
one, and then its class is noted. -/
def pass (fs : FileSystem) (visit : Visit → Walk Unit) (base : Path) (ignored : List IgnoreRule)
    (nodes : List (TreePath × TreeNode)) : Walk Unit :=
  forM nodes fun (place, n) => do
    match n.binding with
    | none => pure ()
    | some b =>
      visit (.target (fs.normalize (base.join (.ofString b.path))) place ignored b.isOptional)
    if n.className = some gameClass then change Table.markGame else pure ()

theorem pass_eq_forM (fs : FileSystem) (visit : Visit → Walk Unit) (base : Path)
    (ignored : List IgnoreRule) (nodes : List (TreePath × TreeNode)) :
    pass fs visit base ignored nodes = forM nodes (node fs visit base ignored) := by
  refine congrArg (forM nodes) (funext fun (place, n) => ?_)
  unfold node bound noteClass
  dsimp only
  cases n.binding with
  | none => rw [pure_bind]
  | some b => rfl

/-- A tree is walked in one pass over its nodes in the order of the document, from every course to the
same end and the same course. If the walk returns and no project is loaded on the way, the tree is a
whole game exactly if it was one before or the class of some node makes it one. -/
theorem tree_flat (fs : FileSystem) (depth : Nat) (base : Path) (name : String) (n : TreeNode)
    (place : TreePath) (root : Bool) (ignored : List IgnoreRule) :
    let nodes := n.preorder (placeOf root name place)
    (∀ c, (tree fs (visit fs depth) base name n place root ignored).follow c =
      (pass fs (visit fs depth) base ignored nodes).follow c) ∧
    ∀ t t', (tree fs (visit fs depth) base name n place root ignored).runOn t = (.ok (), t') →
      (∀ b ∈ n.bindings (placeOf root name place),
        ∀ v ∈ (Visit.ofBinding fs base ignored b).visits fs depth,
          ∀ file, v.file? = some file → ∀ p, Project.load fs file ≠ .ok p) →
      (t'.isGame = true ↔
        t.isGame = true ∨ ∃ e ∈ nodes, e.2.className = some gameClass) := by
  refine ⟨fun c => ?_, fun t t' hrun hload => ?_⟩
  · rw [tree, nodes_eq_forM, pass_eq_forM]
  · rw [Action.tree_eq, Action.runOn_performAll] at hrun
    have hstop := Action.replay_eq_ok.1 (congrArg Prod.fst hrun)
    have hgame := congrArg (fun run => run.2.isGame) hrun
    rw [Action.replay_snd t hstop] at hgame
    rw [← hgame, Bool.or_eq_true, Action.any_isMark_ofTree hload]

/-- A tree with a binding to a project file that is missing, and below it a node that makes the tree
a whole game. -/
def nestedGame : TreeNode :=
  ⟨none, none, none, none,
    [("lib", .bound "gone.project.json"),
     ("world", ⟨none, some (.required "src"), none, none,
       [("place", ⟨some gameClass, none, none, none, []⟩)]⟩)]⟩

theorem tree_flat_nestedGame :
    let fs := Stored.fileSystem [("/p/src/a.luau", .text "")]
    let run := (tree fs (visit fs 3) ⟨.root, ["p"]⟩ "app" nestedGame ["a"] false []).runOn .empty
    run = (.ok (), run.2) ∧
      (∀ b ∈ nestedGame.bindings ["a", "app"],
        ∀ v ∈ (Visit.ofBinding fs ⟨.root, ["p"]⟩ [] b).visits fs 3,
          ∀ file, v.file? = some file → ∀ p, Project.load fs file ≠ .ok p) ∧
      run.2.isGame = true := by
  intro fs run
  have hok : run = (.ok (), run.2) :=
    Prod.ext (toOption_eq_some.1 (by decide +kernel : run.1.toOption = some ())) rfl
  have hmissing : ∀ b ∈ nestedGame.bindings ["a", "app"],
      ∀ v ∈ (Visit.ofBinding fs ⟨.root, ["p"]⟩ [] b).visits fs 3,
        ∀ file ∈ v.file?, (Project.load fs file).toOption.isNone = true := by
    decide +kernel
  have hload : ∀ b ∈ nestedGame.bindings ["a", "app"],
      ∀ v ∈ (Visit.ofBinding fs ⟨.root, ["p"]⟩ [] b).visits fs 3,
        ∀ file, v.file? = some file → ∀ p, Project.load fs file ≠ .ok p := by
    intro b hb v hv file hfile p hp
    have hnone := hmissing b hb v hv file hfile
    rw [hp] at hnone
    cases hnone
  refine ⟨hok, hload, ?_⟩
  refine ((tree_flat fs 3 ⟨.root, ["p"]⟩ "app" nestedGame ["a"] false []).2 .empty run.2 hok hload).2 ?_
  exact .inr ⟨(["a", "app", "world", "place"], ⟨some gameClass, none, none, none, []⟩), by
    simp [nestedGame, TreeNode.bound, TreeNode.preorder, TreeNode.preorderAll, placeOf], rfl⟩

end Walk

end PlaceMap
