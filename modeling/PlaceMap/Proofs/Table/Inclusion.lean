/-
Including a project is compositional: what a walk adds to a table does not depend on the table, and
on the tree path it starts from only in that everything found stands below it. Run at the tree path
`front` on a table `s`, a walk ends as it does at the root of the tree on the empty table, and it
leaves `s` with what it leaves there, moved below `front`, included.

The proof is one simulation. `Includes front s` relates the table of the walk that runs alone to
that of the walk that runs on `s`; every change of the table keeps it, so every part of a walk does,
and induction on the depth carries it to the visits below.
-/
import PlaceMap.Proofs.Table.FileMap
import PlaceMap.Proofs.Walk.Preorder
import PlaceMap.Proofs.Walk.Related

namespace PlaceMap

/-! ## Tables that include what another one holds -/

/-- The same partition below another tree path. -/
def Partition.lift (front : TreePath) (p : Partition) : Partition :=
  { p with place := front ++ p.place }

/-- `t` is `s` with what `d` holds included at the tree path `front`: the partitions and the
warnings stand next to those of `s`, a file that `d` maps is mapped as there, every other file is
mapped as in `s`, and the files of `s` keep their order before the new ones. -/
structure Table.Includes (front : TreePath) (s d t : Table) : Prop where
  partitions : t.partitions = d.partitions.map (Partition.lift front) ++ s.partitions
  warnings : t.warnings = s.warnings ++ d.warnings
  isGame : t.isGame = (s.isGame || d.isGame)
  find? : ∀ file, t.fileMap.find? file =
    match d.fileMap.find? file with
    | some place => some (front ++ place)
    | none => s.fileMap.find? file
  files : t.fileMap.files = s.fileMap.files ++ d.fileMap.files.filter (· ∉ s.fileMap.files)

namespace Table.Includes

variable {front : TreePath} {s d t : Table}

theorem refl (front : TreePath) (s : Table) : Includes front s .empty s :=
  ⟨rfl, (List.append_nil _).symm, (Bool.or_false _).symm, fun _ => rfl, (List.append_nil _).symm⟩

theorem warn (h : Includes front s d t) (w : Warning) : Includes front s (d.warn w) (t.warn w) := by
  refine ⟨h.partitions, ?_, h.isGame, h.find?, h.files⟩
  show t.warnings ++ [w] = s.warnings ++ (d.warnings ++ [w])
  rw [h.warnings, List.append_assoc]

theorem markGame (h : Includes front s d t) : Includes front s d.markGame t.markGame :=
  ⟨h.partitions, h.warnings, (Bool.or_true _).symm, h.find?, h.files⟩

theorem register (h : Includes front s d t) (p : Partition) :
    Includes front s (d.register p) (t.register (p.lift front)) := by
  refine ⟨?_, h.warnings, h.isGame, h.find?, h.files⟩
  show p.lift front :: t.partitions = (p :: d.partitions).map (Partition.lift front) ++ s.partitions
  rw [h.partitions]; rfl

/-- The files of a map with one more, seen beside the files `known`. -/
theorem files_step (known new : List Path) (file : Path) :
    (if file ∈ known ++ new.filter (· ∉ known) then known ++ new.filter (· ∉ known)
      else known ++ new.filter (· ∉ known) ++ [file]) =
    known ++ (if file ∈ new then new else new ++ [file]).filter (· ∉ known) := by
  by_cases hk : file ∈ known
  · by_cases hn : file ∈ new <;> simp [hk, hn]
  · by_cases hn : file ∈ new <;> simp [hk, hn]

theorem mapFile (h : Includes front s d t) (file : Path) (place : TreePath) :
    Includes front s (d.mapFile file place) (t.mapFile file (front ++ place)) := by
  refine ⟨h.partitions, h.warnings, h.isGame, fun other => ?_, ?_⟩
  · show (t.fileMap.insert file (front ++ place)).find? other =
      match (d.fileMap.insert file place).find? other with
      | some place => some (front ++ place)
      | none => s.fileMap.find? other
    rw [FileMap.find?_insert, FileMap.find?_insert]
    by_cases ho : file = other
    · rw [if_pos ho, if_pos ho]
    · rw [if_neg ho, if_neg ho, h.find? other]
  · show (t.fileMap.insert file (front ++ place)).files =
      s.fileMap.files ++ (d.fileMap.insert file place).files.filter (· ∉ s.fileMap.files)
    rw [FileMap.files_insert, FileMap.files_insert, h.files, files_step]

end Table.Includes

/-! ## Visits below another tree path -/

/-- The tree path that a visit stands for. -/
def Visit.place : Visit → TreePath
  | .project _ place _ => place
  | .target _ place _ _ => place
  | .directory _ place _ _ => place

/-- The same visit standing for another tree path. -/
def Visit.placedAt (place : TreePath) : Visit → Visit
  | .project file _ root => .project file place root
  | .target path _ ignored optional => .target path place ignored optional
  | .directory dir _ name ignored => .directory dir place name ignored

/-- The same visit below another tree path. -/
def Visit.lift (front : TreePath) (v : Visit) : Visit := v.placedAt (front ++ v.place)

theorem Visit.lift_placedAt_nil (front : TreePath) (v : Visit) :
    (v.placedAt []).lift front = v.placedAt front := by
  cases v <;> simp only [lift, placedAt, place, List.append_nil]

namespace Walk

/-- On every table the walk `within` ends as the walk `alone` does on the empty table, and includes
what that one finds at the tree path `front`. -/
def Included (front : TreePath) (alone within : Walk Unit) : Prop :=
  ∀ s, (within.runOn s).1 = (alone.runOn .empty).1 ∧
    Table.Includes front s (alone.runOn .empty).2 (within.runOn s).2

/-- A simulation between two walks is an inclusion. -/
theorem included_of_related {front : TreePath} {alone within : Walk Unit}
    (h : ∀ s, Related Eq (Table.Includes front s) alone within) : Included front alone within := by
  intro s
  obtain ⟨hend, hnow⟩ := h s ⟨.empty, []⟩ ⟨s, []⟩ (.refl front s)
  exact ⟨(endsAlike_eq hend).symm, hnow⟩

section

variable {fs : FileSystem} {front : TreePath} {s : Table} {visit : Visit → Walk Unit}

/-! ## One level of a visit -/

section

variable (hvisit : ∀ v, Related Eq (Table.Includes front s) (visit v) (visit (v.lift front)))
include hvisit

theorem bound_included (base : Path) (ignored : List IgnoreRule) (binding : Option Binding)
    (place : TreePath) : Related Eq (Table.Includes front s)
      (bound fs visit base ignored binding place)
      (bound fs visit base ignored binding (front ++ place)) := by
  cases binding with
  | none => exact .pure _
  | some b => exact hvisit (.target _ place ignored b.isOptional)

theorem node_included (base : Path) (ignored : List IgnoreRule) (e : TreePath × TreeNode) :
    Related Eq (Table.Includes front s) (node fs visit base ignored e)
      (node fs visit base ignored (TreeNode.liftPlace front e)) := by
  refine .bind (bound_included hvisit base ignored e.2.binding e.1) fun _ => ?_
  unfold noteClass TreeNode.liftPlace
  split
  · exact .change fun _ _ h => h.markGame
  · exact .pure _

theorem tree_included (base : Path) (name : String) (n : TreeNode) (place : TreePath) (root : Bool)
    (ignored : List IgnoreRule) : Related Eq (Table.Includes front s)
      (tree fs visit base name n place root ignored)
      (tree fs visit base name n (front ++ place) root ignored) := by
  have hplace : placeOf root name (front ++ place) = front ++ placeOf root name place := by
    cases root
    · exact List.append_assoc front place [name]
    · rfl
  unfold tree
  rw [hplace, nodes_eq_forM, nodes_eq_forM, TreeNode.preorder_append, List.forM_map]
  exact .forM _ fun e _ => node_included hvisit base ignored e

theorem project_included (file : Path) (place : TreePath) (root : Bool) :
    Related Eq (Table.Includes front s) (project fs visit file place root)
      (project fs visit file (front ++ place) root) := by
  unfold project
  split
  · exact tree_included hvisit _ _ _ place root _
  · exact .change fun _ _ h => h.warn _
  · exact .change fun _ _ h => h.warn _
  · exact .throw rfl
  · exact .throw rfl

theorem targetDirectory_included (path : Path) (place : TreePath) (ignored : List IgnoreRule) :
    Related Eq (Table.Includes front s) (targetDirectory fs visit path place ignored)
      (targetDirectory fs visit path (front ++ place) ignored) := by
  refine .bind (.list (fun _ => rfl) (fun w _ _ h => h.warn w) fs path) fun found => ?_
  cases found with
  | none => exact .pure _
  | some names =>
    dsimp only
    split
    · exact hvisit (.project _ place true)
    · exact .bind (.change fun _ _ h => h.register ⟨path, place, ignored⟩) fun _ =>
        hvisit (.directory path place none ignored)

theorem settle_included (path : Path) (place : TreePath) (ignored : List IgnoreRule)
    (found : Bool) : Related Eq (Table.Includes front s)
      (settle fs visit path place ignored found)
      (settle fs visit path (front ++ place) ignored found) := by
  unfold settle
  split
  · exact .change fun _ _ h => h.mapFile path place
  refine .bind ?_ fun isDirectory => ?_
  · split
    · exact .ask (fun _ => rfl) _
    · exact .pure _
  split
  · exact targetDirectory_included hvisit path place ignored
  · exact .change fun _ _ h => h.register ⟨path, place, ignored⟩

theorem plainTarget_included (path : Path) (place : TreePath) (ignored : List IgnoreRule)
    (optional found : Bool) : Related Eq (Table.Includes front s)
      (plainTarget fs visit path place ignored optional found)
      (plainTarget fs visit path (front ++ place) ignored optional found) := by
  unfold plainTarget
  split
  · exact settle_included hvisit path place ignored found
  · exact .bind (.change fun _ _ h => h.warn _) fun _ =>
      settle_included hvisit path place ignored found

theorem target_included (path : Path) (place : TreePath) (ignored : List IgnoreRule)
    (optional : Bool) : Related Eq (Table.Includes front s)
      (target fs visit path place ignored optional)
      (target fs visit path (front ++ place) ignored optional) := by
  refine .bind (.isIgnored (fun _ => rfl) ignored _) fun isIgnored => ?_
  split
  · exact .pure _
  refine .bind (.ask (fun _ => rfl) _) fun found => ?_
  split
  · split
    · exact hvisit (.project _ place true)
    · exact .pure _
  · exact plainTarget_included hvisit _ place ignored optional found

theorem projectEntry_included (dir : Path) (place : TreePath) (name : String) :
    Related Eq (Table.Includes front s) (projectEntry fs visit dir place name)
      (projectEntry fs visit dir (front ++ place) name) := by
  unfold projectEntry
  split
  · refine .bind (.ask (fun _ => rfl) _) fun isFile => ?_
    split
    · exact hvisit (.project _ place false)
    · exact .pure _
  · exact .pure _

theorem directoryEntry_included (dir : Path) (place : TreePath) (ignored : List IgnoreRule)
    (name : String) : Related Eq (Table.Includes front s)
      (directoryEntry fs visit dir place ignored name)
      (directoryEntry fs visit dir (front ++ place) ignored name) := by
  refine .bind (.ask (fun _ => rfl) _) fun isDirectory => ?_
  split
  · exact hvisit (.directory _ place (some name) ignored)
  · exact .pure _

theorem directory_included (dir : Path) (place : TreePath) (name : Option String)
    (ignored : List IgnoreRule) : Related Eq (Table.Includes front s)
      (directory fs visit dir place name ignored)
      (directory fs visit dir (front ++ place) name ignored) := by
  refine .bind (.list (fun _ => rfl) (fun w _ _ h => h.warn w) fs dir) fun found => ?_
  cases found with
  | none => exact .pure _
  | some names =>
    dsimp only
    split
    · exact hvisit (.project _ place false)
    refine .bind (.isIgnored (fun _ => rfl) ignored dir) fun isIgnored => ?_
    split
    · exact .pure _
    rw [List.append_assoc]
    exact .bind (.forM names fun n _ => projectEntry_included hvisit dir _ n) fun _ =>
      .forM names fun n _ => directoryEntry_included hvisit dir _ ignored n

theorem enter_included (v : Visit) :
    Related Eq (Table.Includes front s) (enter fs visit v) (enter fs visit (v.lift front)) := by
  cases v with
  | project file place root => exact project_included hvisit file place root
  | target path place ignored optional => exact target_included hvisit path place ignored optional
  | directory dir place name ignored => exact directory_included hvisit dir place name ignored

end

/-! ## Whole visits -/

theorem visit_included (fs : FileSystem) (front : TreePath) (s : Table) :
    ∀ (depth : Nat) (v : Visit),
      Related Eq (Table.Includes front s) (Walk.visit fs depth v) (Walk.visit fs depth (v.lift front))
  | 0, _ => .throw rfl
  | depth + 1, v => enter_included (visit_included fs front s depth) v

end

/-- Every visit, and the visits of every tree, only include in the table that they run on what they
find alone. Nothing registered before is lost or reordered; a data file may be mapped anew. -/
theorem walk_included (fs : FileSystem) (depth : Nat) (front : TreePath) :
    (∀ v : Visit, Included front (visit fs depth (v.placedAt [])) (visit fs depth (v.placedAt front))) ∧
    ∀ (base : Path) (name : String) (n : TreeNode) (root : Bool) (ignored : List IgnoreRule),
      Included front (tree fs (visit fs depth) base name n [] root ignored)
        (tree fs (visit fs depth) base name n front root ignored) := by
  constructor
  · intro v
    refine included_of_related fun s => ?_
    have h := visit_included fs front s depth (v.placedAt [])
    rwa [Visit.lift_placedAt_nil] at h
  · intro base name n root ignored
    refine included_of_related fun s => ?_
    have h := @tree_included fs front s _ (visit_included fs front s depth) base name n [] root ignored
    rwa [List.append_nil] at h

end Walk

end PlaceMap
