/-
A tree as the list of its nodes in the order of the document, each with its tree path: a node comes
before its children. Visiting the bindings of a tree is one pass over this list.
-/
import PlaceMap.Proofs.Walk.Basic

namespace PlaceMap

namespace TreeNode

mutual

/-- The nodes of a tree in the order of the document, each with its tree path. -/
def preorder : TreeNode → TreePath → List (TreePath × TreeNode)
  | ⟨className, binding, properties, ignoreUnknown, children⟩, place =>
    (place, ⟨className, binding, properties, ignoreUnknown, children⟩) ::
      preorderAll children place

/-- The nodes below some children of a node. -/
def preorderAll : List (String × TreeNode) → TreePath → List (TreePath × TreeNode)
  | [], _ => []
  | (name, child) :: rest, place => preorder child (place ++ [name]) ++ preorderAll rest place

end

/-- The bindings of a tree in the order of the document, each with the tree path of its node. -/
def bindings (node : TreeNode) (place : TreePath) : List (TreePath × Binding) :=
  (node.preorder place).filterMap fun e => e.2.binding.map (e.1, ·)

/-- Puts a path in front of the tree path that something stands at. -/
def liftPlace {α : Type} (front : TreePath) (e : TreePath × α) : TreePath × α := (front ++ e.1, e.2)

mutual

theorem preorder_append (front : TreePath) :
    ∀ (node : TreeNode) (place : TreePath),
      node.preorder (front ++ place) = (node.preorder place).map (liftPlace front)
  | ⟨className, binding, properties, ignoreUnknown, children⟩, place => by
    rw [preorder, preorder, List.map_cons, preorderAll_append front children place]
    rfl

theorem preorderAll_append (front : TreePath) :
    ∀ (children : List (String × TreeNode)) (place : TreePath),
      preorderAll children (front ++ place) = (preorderAll children place).map (liftPlace front)
  | [], _ => by rw [preorderAll, preorderAll]; rfl
  | (name, child) :: rest, place => by
    rw [preorderAll, preorderAll, List.map_append, List.append_assoc,
      preorder_append front child (place ++ [name]), preorderAll_append front rest place]

end

theorem mem_bindings {node : TreeNode} {place q : TreePath} {b : Binding} :
    (q, b) ∈ node.bindings place ↔ ∃ n, (q, n) ∈ node.preorder place ∧ n.binding = some b := by
  unfold bindings
  rw [List.mem_filterMap]
  constructor
  · rintro ⟨⟨q', n⟩, hm, h⟩
    obtain ⟨b', hb, h⟩ := Option.map_eq_some_iff.1 h
    cases h
    exact ⟨n, hm, hb⟩
  · rintro ⟨n, hm, hb⟩
    exact ⟨(q, n), hm, by rw [hb]; rfl⟩

theorem bindings_append (front : TreePath) (node : TreeNode) (place : TreePath) :
    node.bindings (front ++ place) = (node.bindings place).map (liftPlace front) := by
  unfold bindings
  rw [preorder_append, List.filterMap_map, List.map_filterMap]
  refine congrArg (List.filterMap · _) (funext fun e => ?_)
  cases h : e.2.binding <;> simp [liftPlace, h]

end TreeNode

namespace Walk

/-- Visits the target of a node, if it has one, and notes the node's class. -/
def node (fs : FileSystem) (visit : Visit → Walk Unit) (base : Path) (ignored : List IgnoreRule)
    (e : TreePath × TreeNode) : Walk Unit := do
  bound fs visit base ignored e.2.binding e.1
  noteClass e.2.className

section

variable (fs : FileSystem) (visit : Visit → Walk Unit) (base : Path) (ignored : List IgnoreRule)

mutual

/-- The visits of a tree are one pass over its nodes in the order of the document. -/
theorem nodes_eq_forM :
    ∀ (n : TreeNode) (place : TreePath),
      nodes fs visit base ignored n place = forM (n.preorder place) (node fs visit base ignored)
  | ⟨className, binding, properties, ignoreUnknown, children⟩, place => by
    rw [nodes, TreeNode.preorder, List.forM_cons, childNodes_eq_forM children place]
    simp only [node, bind_assoc]

theorem childNodes_eq_forM :
    ∀ (children : List (String × TreeNode)) (place : TreePath),
      childNodes fs visit base ignored children place =
        forM (TreeNode.preorderAll children place) (node fs visit base ignored)
  | [], _ => by rw [childNodes, TreeNode.preorderAll, List.forM_nil]
  | (name, child) :: rest, place => by
    rw [childNodes, TreeNode.preorderAll, List.forM_append, nodes_eq_forM child (place ++ [name]),
      childNodes_eq_forM rest place]

end

end

end Walk

end PlaceMap
