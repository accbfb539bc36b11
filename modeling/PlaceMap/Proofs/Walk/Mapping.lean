/-
What a walk does to the part of a table that queries read, the mapped files and the partitions, when
it runs to its end: the calculus by which the effect of a walk is composed from those of its parts.
-/
import PlaceMap.Proofs.Walk.Basic

namespace PlaceMap

/-- The part of a table that queries read. -/
structure Mapping where
  files : FileMap
  partitions : List Partition
  deriving DecidableEq, Repr

def Mapping.empty : Mapping := ⟨[], []⟩

/-- Takes up a target: a data file is mapped, and every other one is the newest partition. -/
def Mapping.settle (m : Mapping) (rules : List IgnoreRule) (place : TreePath) (target : Path) :
    Mapping :=
  if target.isData then ⟨m.files.insert target place, m.partitions⟩
  else ⟨m.files, ⟨target, place, rules⟩ :: m.partitions⟩

def Table.mapping (t : Table) : Mapping := ⟨t.fileMap, t.partitions⟩

namespace Walk

/-- A walk that runs to its end changes what queries read by `f`. -/
def Maps (f : Mapping → Mapping) : Walk Unit → Prop :=
  Ensures fun c r d => r = .ok () → d.now.mapping = f c.now.mapping

namespace Maps

variable {f g : Mapping → Mapping} {w w' : Walk Unit}

theorem pure : Maps id (pure ()) := Ensures.pure fun _ _ => rfl

theorem throw (e : Stop) : Maps f (throw e) := Ensures.throw fun _ h => by cases h

theorem change {change : Table → Table} (h : ∀ t, (change t).mapping = f t.mapping) :
    Maps f (Walk.change change) := Ensures.change fun c _ => h c.now

theorem warn (warning : Warning) : Maps id (Walk.warn warning) := change fun _ => rfl

theorem mapFile {path : Path} (h : path.isData = true) (place : TreePath)
    (rules : List IgnoreRule) :
    Maps (fun m => m.settle rules place path) (Walk.change (Table.mapFile path place)) :=
  change fun t => by
    unfold Mapping.settle
    rw [if_pos h]
    rfl

theorem register {path : Path} (h : path.isData = false) (place : TreePath)
    (rules : List IgnoreRule) :
    Maps (fun m => m.settle rules place path) (Walk.change (Table.register ⟨path, place, rules⟩)) :=
  change fun t => by
    unfold Mapping.settle
    rw [h]
    rfl

theorem bind (h : Maps f w) (h' : Maps g w') : Maps (fun m => g (f m)) (do w; w') := by
  refine Ensures.bind (fun _ _ _ _ he => by cases he) (fun c d r e hf hg hr => ?_) h h'
  rw [hg hr, hf rfl]

theorem bind_id (h : Maps f w) (h' : Maps id w') : Maps f (do w; w') := h.bind h'

theorem id_bind (h : Maps id w) (h' : Maps f w') : Maps f (do w; w') := h.bind h'

/-- One pass over a list does what the walks for its entries do, one after another. -/
theorem forM {α : Type} {step : α → Walk Unit} {g : Mapping → α → Mapping} :
    ∀ (l : List α), (∀ a ∈ l, Maps (fun m => g m a) (step a)) →
      Maps (fun m => l.foldl g m) (l.forM step)
  | [], _ => pure
  | a :: l, h =>
    bind (h a List.mem_cons_self) (forM l fun b hb => h b (List.mem_cons_of_mem _ hb))

end Maps

end Walk

end PlaceMap
