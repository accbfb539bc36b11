/-
The order of siblings in a tree. What a node does depends on its own fields and its tree path, so to
reorder the children of nodes is to reorder what a build does: the log of the one build is a
permutation of that of the other. Hence the two resolvers have the same partitions and warnings, in
some order.

The order matters where two bindings meet: a file that is mapped twice is found where it was mapped
last, and of two partitions that hold a file the newer one is asked. Where no file is mapped twice
and no partition lies in another, every query has the same answer.
-/
import PlaceMap.FileSystem.Stored
import PlaceMap.Proofs.Resolver.Faults
import PlaceMap.Proofs.Walk.Log

namespace PlaceMap

/-! ## Reordered trees -/

namespace TreeNode

mutual

/-- Two trees differ at most in the order of children, at any of their nodes. -/
inductive Reordered : TreeNode → TreeNode → Prop
  | node {className binding properties ignoreUnknown children children'} :
    ReorderedAll children children' →
    Reordered ⟨className, binding, properties, ignoreUnknown, children⟩
      ⟨className, binding, properties, ignoreUnknown, children'⟩

/-- Children in another order, and reordered themselves. -/
inductive ReorderedAll : List (String × TreeNode) → List (String × TreeNode) → Prop
  | nil : ReorderedAll [] []
  | cons {name n n' l l'} :
    Reordered n n' → ReorderedAll l l' → ReorderedAll ((name, n) :: l) ((name, n') :: l')
  | swap {c d l} : ReorderedAll (c :: d :: l) (d :: c :: l)
  | trans {l m l'} : ReorderedAll l m → ReorderedAll m l' → ReorderedAll l l'

end

mutual

theorem Reordered.refl : ∀ n : TreeNode, Reordered n n
  | ⟨_, _, _, _, children⟩ => .node (ReorderedAll.refl children)

theorem ReorderedAll.refl : ∀ l : List (String × TreeNode), ReorderedAll l l
  | [] => .nil
  | (_, n) :: l => .cons (Reordered.refl n) (ReorderedAll.refl l)

end

/-- Children may come in any order. -/
theorem ReorderedAll.of_perm {l l' : List (String × TreeNode)} (h : l.Perm l') :
    ReorderedAll l l' := by
  induction h with
  | nil => exact .nil
  | cons c _ ih => exact .cons (Reordered.refl c.2) ih
  | swap c d l => exact .swap
  | trans _ _ ih ih' => exact ih.trans ih'

end TreeNode

namespace Action

open TreeNode (Reordered ReorderedAll preorderAll)

variable {fs : FileSystem} {base : Path} {ignored : List IgnoreRule}

/-- Visits the targets of some children of a node. -/
def ofChildren (fs : FileSystem) (base : Path) (ignored : List IgnoreRule)
    (children : List (String × TreeNode)) (place : TreePath) : List Action :=
  (preorderAll children place).flatMap (ofNode fs base ignored)

theorem ofTree_eq (className : Option String) (binding : Option Binding)
    (properties : Option Properties) (ignoreUnknown : Option Bool)
    (children : List (String × TreeNode)) (place : TreePath) :
    ofTree fs base ignored ⟨className, binding, properties, ignoreUnknown, children⟩ place =
      ofNode fs base ignored (place, ⟨className, binding, properties, ignoreUnknown, []⟩) ++
        ofChildren fs base ignored children place := by
  rw [ofTree, TreeNode.preorder, List.flatMap_cons]
  rfl

theorem ofChildren_cons (c : String × TreeNode) (l : List (String × TreeNode)) (place : TreePath) :
    ofChildren fs base ignored (c :: l) place =
      ofTree fs base ignored c.2 (place ++ [c.1]) ++ ofChildren fs base ignored l place := by
  rw [ofChildren, preorderAll, List.flatMap_append]
  rfl

mutual

/-- A reordered tree does the same, in another order. -/
theorem ofTree_perm : ∀ {n n' : TreeNode}, Reordered n n' → ∀ place,
    (ofTree fs base ignored n place).Perm (ofTree fs base ignored n' place)
  | _, _, .node h, place => by
    rw [ofTree_eq, ofTree_eq]
    exact (ofChildren_perm h place).append_left _

theorem ofChildren_perm : ∀ {l l' : List (String × TreeNode)}, ReorderedAll l l' → ∀ place,
    (ofChildren fs base ignored l place).Perm (ofChildren fs base ignored l' place)
  | _, _, .nil, _ => .refl _
  | _, _, .cons h hl, place => by
    rw [ofChildren_cons, ofChildren_cons]
    exact (ofTree_perm h _).append (ofChildren_perm hl place)
  | _, _, .swap, place => by
    simp only [ofChildren_cons, ← List.append_assoc]
    exact List.perm_append_comm.append_right _
  | _, _, .trans h h', place => (ofChildren_perm h place).trans (ofChildren_perm h' place)

end

end Action

/-! ## Partitions apart from each other -/

/-- Neither of two partitions holds the other one's target. -/
def Partition.Apart (p q : Partition) : Prop :=
  p.target.below? q.target = none ∧ q.target.below? p.target = none

instance (p q : Partition) : Decidable (p.Apart q) := inferInstanceAs (Decidable (_ ∧ _))

theorem Partition.Apart.symm {p q : Partition} (h : p.Apart q) : q.Apart p := ⟨h.2, h.1⟩

/-- No file lies in both of two partitions that are apart. -/
theorem Partition.Apart.not_both {p q : Partition} (h : p.Apart q) {file : Path}
    {parts parts' : List String} (hp : file.below? p.target = some parts)
    (hq : file.below? q.target = some parts') : False := by
  rcases Path.within_or_isBelow hp hq with ⟨rest, hrest⟩ | ⟨part, rest, hrest⟩
  · rw [h.1] at hrest
    cases hrest
  · rw [h.2] at hrest
    cases hrest

namespace Resolver

/-- Among partitions that are apart from each other it does not matter which is asked first. -/
theorem inPartitions_perm {file : Path} {ps qs : List Partition} (h : ps.Perm qs)
    (hapart : ps.Pairwise Partition.Apart) : inPartitions file ps = inPartitions file qs := by
  induction h with
  | nil => rfl
  | cons p _ ih => rw [inPartitions_cons, inPartitions_cons, ih hapart.of_cons]
  | swap p q ps =>
    have hpq : q.Apart p := List.rel_of_pairwise_cons hapart List.mem_cons_self
    simp only [inPartitions_cons]
    rcases hq : file.below? q.target with _ | parts
    · rfl
    · rcases hp : file.below? p.target with _ | parts'
      · rfl
      · -- If both hold the file, one of them lies in the other.
        exact (hpq.not_both hq hp).elim
  | trans hps _ ih ih' =>
    have hmiddle := (hps.pairwise_iff Partition.Apart.symm).1 hapart
    exact (ih hapart).trans (ih' hmiddle)

/-! ## Two builds -/

variable {fs : FileSystem} {depth : Nat} {config : Config} {base : String} {n n' : TreeNode}
  {r : Resolver}

/-- The files that a build maps, in order, each as often as it is mapped. -/
def Source.mappedFiles (fs : FileSystem) (depth : Nat) (s : Source) : List Path :=
  ((s.log fs depth).filterMap Action.mapped?).map (·.1)

theorem Source.log_perm (h : n.Reordered n') :
    ((Source.tree base n).log fs depth).Perm ((Source.tree base n').log fs depth) :=
  (Action.ofTree_perm h []).flatMap_right _

/-- If one of two trees can be built that differ in the order of children at most, then so can the
other one. Whether the tree is a game is the same, and the partitions and the warnings are the same
but for their order. If in addition no file is mapped twice and no partition lies in another one,
every file is mapped to the same tree path, and every query has the same answer. -/
theorem build_reordered (hn : n.Reordered n')
    (hbuild : build fs depth config (.tree base n) = .ok r) :
    ∃ r', build fs depth config (.tree base n') = .ok r' ∧ r.table.isGame = r'.table.isGame ∧
      r.table.partitions.Perm r'.table.partitions ∧ r.table.warnings.Perm r'.table.warnings ∧
      (((Source.tree base n).mappedFiles fs depth).Nodup →
        r.table.partitions.Pairwise Partition.Apart →
        (∀ file, r.table.fileMap.find? file = r'.table.fileMap.find? file) ∧
          ∀ cwd query, r.treePath cwd query = r'.treePath cwd query) := by
  have hlog : ((Source.tree base n).log fs depth).Perm ((Source.tree base n').log fs depth) :=
    Source.log_perm hn
  obtain ⟨r', hbuild'⟩ : ∃ r', build fs depth config (.tree base n') = .ok r' := by
    obtain ⟨hstop, -⟩ := build_eq_ok_iff.1 hbuild
    exact ⟨_, build_eq_ok_iff.2 ⟨fun a ha => hstop a (hlog.mem_iff.2 ha), rfl⟩⟩
  have htable := table_eq_of_log hbuild
  have htable' := table_eq_of_log hbuild'
  have hpartitions : r.table.partitions.Perm r'.table.partitions := by
    rw [htable, htable']
    exact (List.reverse_perm _).trans ((hlog.filterMap _).trans (List.reverse_perm _).symm)
  refine ⟨r', hbuild', ?_, hpartitions, ?_, fun honce hapart => ?_⟩
  · rw [htable, htable']
    exact hlog.any_eq
  · rw [htable, htable']
    exact hlog.filterMap _
  -- With each file mapped once, a lookup depends on which files are mapped, and not on their order.
  have hmapped := hlog.filterMap Action.mapped?
  have honce' : ((Source.tree base n').mappedFiles fs depth).Nodup :=
    (hmapped.map Prod.fst).nodup_iff.1 honce
  have hfiles : ∀ file, r.table.fileMap.find? file = r'.table.fileMap.find? file := by
    intro file
    refine Option.ext fun place => ?_
    rw [htable, htable']
    rw [FileMap.find?_foldl_insert honce, FileMap.find?_foldl_insert honce']
    simp only [FileMap.find?_nil, reduceCtorEq, and_false, or_false, hmapped.mem_iff]
  refine ⟨hfiles, fun cwd query => ?_⟩
  unfold treePath
  dsimp only
  rw [hfiles, inPartitions_perm hpartitions hapart]

/-- A directory, a data file and a script. -/
def siblings : Stored := [("/a/x.luau", .text ""), ("/b.toml", .text ""), ("/c.luau", .text "")]

/-- A tree that binds the three, two of them below a node that makes it a game. -/
def siblingTree : TreeNode :=
  ⟨none, none, none, none, [("a", .bound "a"),
    ("d", ⟨some gameClass, none, none, none, [("b", .bound "b.toml"), ("c", .bound "c.luau")]⟩)]⟩

/-- The tree with the children of both nodes in the opposite order. -/
def turnedTree : TreeNode :=
  ⟨none, none, none, none, [("d", ⟨some gameClass, none, none, none,
    [("c", .bound "c.luau"), ("b", .bound "b.toml")]⟩), ("a", .bound "a")]⟩

theorem reordered_turnedTree : siblingTree.Reordered turnedTree :=
  .node (.trans (.of_perm (.swap _ _ [])) (.cons (.node (.of_perm (.swap _ _ []))) (.refl _)))

theorem build_reordered_turned :
    ∃ r r', build siblings.fileSystem 3 .standard (.tree "/" siblingTree) = .ok r ∧
      build siblings.fileSystem 3 .standard (.tree "/" turnedTree) = .ok r' ∧
      r'.table.isGame = true ∧ r.table.partitions ≠ r'.table.partitions ∧
      r.table.partitions.Perm r'.table.partitions ∧
      ∀ cwd query, r.treePath cwd query = r'.treePath cwd query := by
  have hrun : (build siblings.fileSystem 3 .standard (.tree "/" siblingTree)).toOption.map
      (fun r => (r.table.isGame, r.table.partitions)) =
        some (true, [⟨⟨.root, ["c.luau"]⟩, ["d", "c"], []⟩, ⟨⟨.root, ["a"]⟩, ["a"], []⟩]) := by
    decide +kernel
  have hrun' : (build siblings.fileSystem 3 .standard (.tree "/" turnedTree)).toOption.map
      (fun r => r.table.partitions) =
        some [⟨⟨.root, ["a"]⟩, ["a"], []⟩, ⟨⟨.root, ["c.luau"]⟩, ["d", "c"], []⟩] := by
    decide +kernel
  obtain ⟨r, hbuild, hparts⟩ := exists_eq_ok hrun
  obtain ⟨hgame, hparts⟩ := Prod.mk.inj hparts
  obtain ⟨r', hbuild', hgame', hperm, -, hdisjoint⟩ := build_reordered reordered_turnedTree hbuild
  obtain ⟨r'', hbuild'', hparts'⟩ := exists_eq_ok hrun'
  cases hbuild'.symm.trans hbuild''
  have honce : ((Source.tree "/" siblingTree).mappedFiles siblings.fileSystem 3).Nodup := by
    decide +kernel
  have hapart : r.table.partitions.Pairwise Partition.Apart := by
    rw [hparts]
    decide +kernel
  refine ⟨r, r', hbuild, hbuild', hgame' ▸ hgame, ?_, hperm, (hdisjoint honce hapart).2⟩
  rw [hparts, hparts']
  decide

end Resolver

end PlaceMap
