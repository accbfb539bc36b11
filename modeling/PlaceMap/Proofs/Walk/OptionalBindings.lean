/-
An optional binding is silent, and that is all. To make required bindings of a tree optional, at
whatever nodes, changes neither how the walk of the tree ends nor what it leaves in the table, but
for the warnings: there is one less for each of these bindings whose target is missing and not
ignored.

At a single node this is an equation between walks: the required binding warns, if a warning is due,
and then does what the optional one does. Project files are no exception. A required binding to a
missing one is visited, while an optional one is passed over; but all that the visit does is to warn.
-/
import Mathlib.Data.List.Forall2
import PlaceMap.FileSystem.Stored
import PlaceMap.Proofs.Walk.Isolation
import PlaceMap.Proofs.Walk.Searching

namespace PlaceMap

/-! ## Trees with more optional bindings -/

/-- Two bindings to the same path, of which the first may be required and the second optional. -/
inductive Binding.Relaxed : Binding → Binding → Prop
  | same (b : Binding) : Relaxed b b
  | turned (path : String) : Relaxed (.required path) (.optional path)

namespace TreeNode

mutual

/-- Some required bindings of a tree have been made optional; all else stays. -/
inductive Relaxed : TreeNode → TreeNode → Prop
  | node {className binding binding' properties ignoreUnknown children children'} :
    Option.Rel Binding.Relaxed binding binding' → RelaxedAll children children' →
    Relaxed ⟨className, binding, properties, ignoreUnknown, children⟩
      ⟨className, binding', properties, ignoreUnknown, children'⟩

/-- Some required bindings among the children of a node have been made optional. -/
inductive RelaxedAll : List (String × TreeNode) → List (String × TreeNode) → Prop
  | nil : RelaxedAll [] []
  | cons {name n n' l l'} :
    Relaxed n n' → RelaxedAll l l' → RelaxedAll ((name, n) :: l) ((name, n') :: l')

end

/-- Two nodes at the same tree path that differ at most in whether their binding is optional. -/
structure RelaxedAt (e e' : TreePath × TreeNode) : Prop where
  place : e.1 = e'.1
  className : e.2.className = e'.2.className
  binding : Option.Rel Binding.Relaxed e.2.binding e'.2.binding

mutual

/-- The nodes of the two trees correspond to each other, one by one. -/
theorem Relaxed.preorder : ∀ {n n' : TreeNode}, Relaxed n n' → ∀ place,
    List.Forall₂ RelaxedAt (n.preorder place) (n'.preorder place)
  | _, _, .node hbinding hchildren, place => by
    rw [TreeNode.preorder, TreeNode.preorder]
    exact .cons ⟨rfl, rfl, hbinding⟩ (hchildren.preorder place)

theorem RelaxedAll.preorder : ∀ {l l' : List (String × TreeNode)}, RelaxedAll l l' → ∀ place,
    List.Forall₂ RelaxedAt (preorderAll l place) (preorderAll l' place)
  | _, _, .nil, _ => by
    rw [preorderAll]
    exact .nil
  | _, _, .cons hn hl, place => by
    rw [preorderAll, preorderAll]
    exact List.rel_append (hn.preorder _) (hl.preorder place)

end

end TreeNode

namespace Walk

/-! ## Warnings in front of a walk -/

/-- Warns of one thing after another. -/
def warnAll (ws : List Warning) : Walk Unit := forM ws warn

theorem warnAll_nil_bind (w : Walk Unit) : (do warnAll []; w) = w := rfl

theorem warnAll_singleton_bind (x : Warning) (w : Walk Unit) :
    (do warnAll [x]; w) = (do warn x; w) := rfl

theorem follow_warnAll (ws : List Warning) (c : Course) :
    ∃ d, (warnAll ws).follow c = (.ok (), d) ∧ d.now = c.now.warnAll ws := by
  induction ws generalizing c with
  | nil => exact ⟨c, rfl, (c.now.warnAll_nil).symm⟩
  | cons w ws ih =>
    obtain ⟨d, hd, hnow⟩ := ih (c.change (Table.warn w))
    refine ⟨d, ?_, ?_⟩
    · have hwarn : (warn w).follow c = (.ok (), c.change (Table.warn w)) := follow_change _ _
      rw [warnAll, List.forM_cons, follow_bind_ok hwarn]
      exact hd
    · rw [hnow]
      exact (Table.warnAll_append [w] ws c.now).symm

theorem Related.warnAll_left {w w' : Walk Unit} (h : Related Eq Table.Agree w w')
    (ws : List Warning) : Related Eq Table.Agree (do warnAll ws; w) w' := by
  intro c c' hc
  obtain ⟨d, hd, hnow⟩ := follow_warnAll ws c
  rw [follow_bind_ok hd]
  refine h d c' ?_
  rw [hnow]
  exact ⟨hc.fileMap, hc.partitions, hc.isGame⟩

theorem Oblivious.warnings_warnAll {w : Walk Unit} (h : w.Oblivious) (ws : List Warning) :
    (do warnAll ws; w : Walk Unit).warnings = ws ++ w.warnings := by
  obtain ⟨d, hd, hnow⟩ := follow_warnAll ws ⟨.empty, []⟩
  have hfollow := (h.follow_eq d).2
  rw [hnow] at hfollow
  unfold Walk.warnings runOn
  rw [follow_bind_ok hd]
  exact hfollow

end Walk

/-! ## One target -/

/-- What a required binding warns of at once: its target is missing and not ignored. -/
def Walk.missed (fs : FileSystem) (ignored : List IgnoreRule) (path : Path) : List Warning :=
  if IgnoreRule.anyCovers ignored path = .ok false ∧ fs.has path = .ok false then [.missing path]
  else []

namespace Action

variable {fs : FileSystem} {path : Path} {place : TreePath} {ignored : List IgnoreRule}

/-- A missing target that is required is visited, if it is a project file, or else reported; and then
it is treated as an optional one. -/
theorem ofTarget_of_missing (hcovers : IgnoreRule.anyCovers ignored path = .ok false)
    (hhas : fs.has path = .ok false) :
    ofTarget fs path place ignored false =
      (if FileName.isProject path.name then .visit (.project path place true)
        else .warn (.missing path)) :: ofTarget fs path place ignored true := by
  unfold ofTarget compared
  by_cases hproject : FileName.isProject path.name = true <;> simp [hcovers, hhas, hproject, asked]

/-- A target that is ignored, that exists, or of which either is not known, is treated in one way. -/
theorem ofTarget_of_not_missing
    (h : ¬ (IgnoreRule.anyCovers ignored path = .ok false ∧ fs.has path = .ok false)) :
    ofTarget fs path place ignored false = ofTarget fs path place ignored true := by
  unfold ofTarget compared
  rcases hcovers : IgnoreRule.anyCovers ignored path with fault | covered
  · rfl
  cases covered with
  | true => rfl
  | false =>
    rcases hhas : fs.has path with e | found
    · rfl
    cases found with
    | true => rfl
    | false => exact absurd ⟨hcovers, hhas⟩ h

end Action

namespace Walk

section

variable {fs : FileSystem}

/-- A required target is an optional one after a warning, if one is due. Two levels are enough to see
that a project file is missing. -/
theorem visit_required (depth : Nat) (path : Path) (place : TreePath) (ignored : List IgnoreRule) :
    visit fs (depth + 2) (.target path place ignored false) = (do
      warnAll (missed fs ignored path.toLuau)
      visit fs (depth + 2) (.target path place ignored true)) := by
  have hactions : ∀ optional, visit fs (depth + 2) (.target path place ignored optional) =
      Action.performAll (visit fs (depth + 1))
        (Action.ofTarget fs path.toLuau place ignored optional) := by
    intro optional
    rw [visit, Action.enter_eq]
    rfl
  rw [hactions, hactions, missed]
  split
  · rename_i h
    have hwarn : Action.perform (visit fs (depth + 1))
        (if FileName.isProject path.toLuau.name then .visit (.project path.toLuau place true)
          else .warn (.missing path.toLuau)) = warn (.missing path.toLuau) := by
      split
      · exact (Project.Broken.missing h.2).visit_eq depth place true
      · rfl
    rw [Action.ofTarget_of_missing h.1 h.2, Action.performAll_cons, hwarn, warnAll_singleton_bind]
  · rename_i h
    rw [Action.ofTarget_of_not_missing h, warnAll_nil_bind]

/-! ## One node -/

/-- The warnings of a node that are not given any more once its binding has become optional. -/
def silenced (fs : FileSystem) (base : Path) (ignored : List IgnoreRule)
    (e e' : TreePath × TreeNode) : List Warning :=
  match e.2.binding, e'.2.binding with
  | some (.required path), some (.optional _) =>
    missed fs ignored ((Binding.required path).target fs base).toLuau
  | _, _ => []

variable {base : Path} {ignored : List IgnoreRule} {e e' : TreePath × TreeNode}

/-- A node warns of what is silenced at it, and then does what it does with an optional binding. -/
theorem node_relaxed (h : TreeNode.RelaxedAt e e') (depth : Nat) :
    node fs (visit fs (depth + 2)) base ignored e = (do
      warnAll (silenced fs base ignored e e')
      node fs (visit fs (depth + 2)) base ignored e') := by
  obtain ⟨place, n⟩ := e
  obtain ⟨place', n'⟩ := e'
  obtain ⟨hplace, hclass, hbinding⟩ := h
  dsimp only at hplace hclass hbinding
  subst hplace
  unfold node silenced
  dsimp only
  rw [hclass]
  rcases hb : n.binding with _ | b <;> rcases hb' : n'.binding with _ | b' <;> rw [hb, hb'] at hbinding
  · rfl
  · cases hbinding
  · cases hbinding
  · cases hbinding with
    | some hrelaxed =>
      cases hrelaxed with
      | same =>
        cases b <;> rfl
      | turned path =>
        have hvisit : bound fs (visit fs (depth + 2)) base ignored (some (.required path)) place =
            (do
              warnAll (missed fs ignored ((Binding.required path).target fs base).toLuau)
              bound fs (visit fs (depth + 2)) base ignored (some (.optional path)) place) :=
          visit_required depth _ place ignored
        rw [hvisit, bind_assoc]

/-! ## A whole tree -/

theorem node_relaxed_related (h : TreeNode.RelaxedAt e e') (depth : Nat) :
    Related Eq Table.Agree (node fs (visit fs (depth + 2)) base ignored e)
      (node fs (visit fs (depth + 2)) base ignored e') := by
  rw [node_relaxed h]
  exact Related.warnAll_left (.node Table.Agree.kept _ base ignored e') _

theorem node_relaxed_warnings (h : TreeNode.RelaxedAt e e') (depth : Nat) :
    (node fs (visit fs (depth + 2)) base ignored e).warnings =
      silenced fs base ignored e e' ++
        (node fs (visit fs (depth + 2)) base ignored e').warnings := by
  rw [node_relaxed h]
  exact (node_oblivious _ e').warnings_warnAll _

/-- If the nodes of a tree are one column of a list of pairs, its walk is a pass over the pairs. -/
theorem tree_eq_forM_pairs {n : TreeNode} {name : String} {place : TreePath} {root : Bool} {α : Type}
    {pairs : List α} {column : α → TreePath × TreeNode}
    (h : n.preorder (placeOf root name place) = pairs.map column) (visit : Visit → Walk Unit) :
    tree fs visit base name n place root ignored =
      forM pairs fun p => node fs visit base ignored (column p) := by
  rw [tree_eq_forM, h, List.forM_map]

end

/-- However many required bindings of a tree are made optional, at whatever nodes, the walk of the
tree ends in the same way and leaves the same table but for the warnings. If the walk does not stop,
what is warned of node by node in the order of the document is the same, but that in front of the
other warnings of a node there is no longer the one for its own missing target. The depth leaves two
levels below the tree, since a missing project file is only seen on the second. -/
theorem relaxed_silences (fs : FileSystem) {n n' : TreeNode} (h : n.Relaxed n') (base : Path)
    (name : String) (place : TreePath) (root : Bool) (ignored : List IgnoreRule) (depth : Nat)
    (t : Table) :
    let pairs := (n.preorder (placeOf root name place)).zip (n'.preorder (placeOf root name place))
    let own := fun e => (node fs (visit fs (depth + 2)) base ignored e).warnings
    let run := fun n => (tree fs (visit fs (depth + 2)) base name n place root ignored).runOn t
    ((run n).1 = (run n').1 ∧ (run n).2.Agree (run n').2) ∧
      ((run n).1 = .ok () →
        (run n').2.warnings = t.warnings ++ pairs.flatMap (fun p => own p.2) ∧
        (run n).2.warnings =
          t.warnings ++ pairs.flatMap fun p => silenced fs base ignored p.1 p.2 ++ own p.2) := by
  intro pairs own run
  obtain ⟨hlength, hrelaxed⟩ := List.forall₂_iff_zip.1 (h.preorder (placeOf root name place))
  have hcolumn : n.preorder (placeOf root name place) = pairs.map Prod.fst :=
    (List.map_fst_zip hlength.le).symm
  have hcolumn' : n'.preorder (placeOf root name place) = pairs.map Prod.snd :=
    (List.map_snd_zip hlength.ge).symm
  have htree : tree fs (visit fs (depth + 2)) base name n place root ignored =
      forM pairs fun p => node fs (visit fs (depth + 2)) base ignored p.1 :=
    tree_eq_forM_pairs hcolumn _
  have htree' : tree fs (visit fs (depth + 2)) base name n' place root ignored =
      forM pairs fun p => node fs (visit fs (depth + 2)) base ignored p.2 :=
    tree_eq_forM_pairs hcolumn' _
  have hrelated : Related Eq Table.Agree
      (tree fs (visit fs (depth + 2)) base name n place root ignored)
      (tree fs (visit fs (depth + 2)) base name n' place root ignored) := by
    rw [htree, htree']
    exact .forM pairs fun p hp => node_relaxed_related (hrelaxed hp) depth
  obtain ⟨hend, hagree⟩ := hrelated ⟨t, []⟩ ⟨t, []⟩ (.refl t)
  refine ⟨⟨endsAlike_eq hend, hagree⟩, fun hok => ?_⟩
  have hok' : (run n').1 = .ok () := (endsAlike_eq hend).symm.trans hok
  dsimp only [run] at hok hok' ⊢
  rw [htree] at hok ⊢
  rw [htree'] at hok' ⊢
  obtain ⟨hwarnings, -⟩ := forM_warnings pairs (fun p _ => node_oblivious _ p.1) ⟨t, []⟩ hok
  obtain ⟨hwarnings', -⟩ := forM_warnings pairs (fun p _ => node_oblivious _ p.2) ⟨t, []⟩ hok'
  refine ⟨hwarnings', hwarnings.trans ?_⟩
  exact congrArg (t.warnings ++ ·)
    (List.flatMap_congr fun p hp => node_relaxed_warnings (hrelaxed hp) depth)

/-- A directory with a script in it. -/
def sources : Stored := [("/src/a.luau", .text "")]

/-- Bindings to a missing project, a missing directory, an ignored one, the directory, and a missing
script. The first four are required or optional. -/
def sourcesTree (bind : String → Binding) : TreeNode :=
  let leaf := fun b => TreeNode.mk none (some b) none none []
  ⟨none, none, none, none,
    [("a", leaf (bind "x.project.json")), ("b", leaf (bind "gone")), ("c", leaf (bind "out")),
      ("d", leaf (bind "src")), ("e", leaf (.required "lost.lua"))]⟩

theorem relaxed_sourcesTree : (sourcesTree .required).Relaxed (sourcesTree .optional) := by
  have hleaf : ∀ {b b'}, Binding.Relaxed b b' →
      TreeNode.Relaxed ⟨none, some b, none, none, []⟩ ⟨none, some b', none, none, []⟩ :=
    fun h => .node (.some h) .nil
  exact .node .none (.cons (hleaf (.turned _)) (.cons (hleaf (.turned _))
    (.cons (hleaf (.turned _)) (.cons (hleaf (.turned _)) (.cons (hleaf (.same _)) .nil)))))

/-- The missing project and the missing directory are no longer reported; the partitions are the
same. -/
theorem relaxed_silences_sources :
    let fs := sources.fileSystem
    let rules : List IgnoreRule := [⟨⟨.root, []⟩, "out"⟩]
    let pairs := ((sourcesTree .required).preorder (placeOf true "" [])).zip
      ((sourcesTree .optional).preorder (placeOf true "" []))
    let run := fun n => (tree fs (visit fs 2) ⟨.root, []⟩ "" n [] true rules).runOn .empty
    (run (sourcesTree .required)).1 = .ok () ∧ (run (sourcesTree .optional)).1 = .ok () ∧
      (run (sourcesTree .required)).2.Agree (run (sourcesTree .optional)).2 ∧
      (run (sourcesTree .optional)).2.partitions.map (·.place) = [["e"], ["d"], ["b"]] ∧
      (run (sourcesTree .required)).2.warnings =
        Table.empty.warnings ++ pairs.flatMap (fun p => silenced fs ⟨.root, []⟩ rules p.1 p.2 ++
          (node fs (visit fs 2) ⟨.root, []⟩ rules p.2).warnings) ∧
      (pairs.flatMap fun p => silenced fs ⟨.root, []⟩ rules p.1 p.2).map Warning.summary =
        ["Path does not exist \"/x.project.json\"", "Path does not exist \"/gone\""] ∧
      (run (sourcesTree .optional)).2.warnings.map Warning.summary =
        ["Path does not exist \"/lost.luau\""] := by
  intro fs rules pairs run
  obtain ⟨⟨hend, hagree⟩, hwarnings⟩ :=
    relaxed_silences fs relaxed_sourcesTree ⟨.root, []⟩ "" [] true rules 0 .empty
  have hok : (run (sourcesTree .required)).1 = .ok () := toOption_eq_some.1 (by decide +kernel)
  refine ⟨hok, hend.symm.trans hok, hagree, ?_, (hwarnings hok).2, ?_, ?_⟩
  · decide +kernel
  · decide +kernel
  · decide +kernel

end Walk

end PlaceMap
