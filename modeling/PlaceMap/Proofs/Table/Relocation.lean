/-
Tables that hold the same for two directories: files, targets of partitions and directories of rules
stand at the same places in them, tree paths are equal, and texts are the same up to the directories.
Every change of a table keeps this.
-/
import Mathlib.Data.List.Forall2
import PlaceMap.Proofs.Glob.Rules
import PlaceMap.Proofs.Path.Relocation
import PlaceMap.Proofs.Table.FileMap
import PlaceMap.Table.Walk

namespace PlaceMap

open List (Forall₂)

variable {A B : Path}

/-- The same failure, told of paths in `B` instead of `A`. -/
structure FsError.Moved (A B : Path) (e e' : FsError) : Prop where
  kind : e.kind = e'.kind
  message : Path.Retold A B e.message e'.message

theorem FsError.Moved.isSystem_eq {e e' : FsError} (h : e.Moved A B e') : e.isSystem = e'.isSystem := by
  unfold FsError.isSystem
  rw [h.kind]

/-- The same answer, or failures that `E` relates. -/
inductive Answers {ε α : Type} (E : ε → ε → Prop) : Except ε α → Except ε α → Prop
  | ok (a : α) : Answers E (.ok a) (.ok a)
  | error {e e' : ε} : E e e' → Answers E (.error e) (.error e')

/-- The same stop, told of paths in `B` instead of `A`. -/
inductive Stop.Moved (A B : Path) : Stop → Stop → Prop
  | glob (fault : Glob.Fault) : Moved A B (.glob fault) (.glob fault)
  | failed {e e' : FsError} : e.Moved A B e' → Moved A B (.failed e) (.failed e')
  | oversized (digits : Nat) : Moved A B (.oversized digits) (.oversized digits)
  | tooDeep : Moved A B .tooDeep .tooDeep

/-- The same glob, read in the same place. -/
structure IgnoreRule.Moved (A B : Path) (rule rule' : IgnoreRule) : Prop where
  root : Path.Moved A B rule.root rule'.root
  glob : rule.glob = rule'.glob

/-- A partition at the same place with the same tree path and rules. -/
structure Partition.Moved (A B : Path) (p p' : Partition) : Prop where
  target : Path.MovedBelow A B p.target p'.target
  place : p.place = p'.place
  ignored : Forall₂ (IgnoreRule.Moved A B) p.ignored p'.ignored

/-- A file at the same place with the same tree path. -/
structure FileMap.EntryMoved (A B : Path) (e e' : Path × TreePath) : Prop where
  file : Path.MovedBelow A B e.1 e'.1
  place : e.2 = e'.2

/-- The same warning, told of paths in `B` instead of `A`, whether in full or not. -/
structure Warning.Moved (A B : Path) (w w' : Warning) : Prop where
  summary : Path.Retold A B w.summary w'.summary
  details : ∀ help, Path.Retold A B (w.details help) (w'.details help)

/-- A table that holds of `B` what another one holds of `A`. -/
structure Table.Moved (A B : Path) (t t' : Table) : Prop where
  fileMap : Forall₂ (FileMap.EntryMoved A B) t.fileMap t'.fileMap
  partitions : Forall₂ (Partition.Moved A B) t.partitions t'.partitions
  isGame : t.isGame = t'.isGame
  warnings : Forall₂ (Warning.Moved A B) t.warnings t'.warnings

/-! ## Rules -/

theorem IgnoreRule.Moved.covers_eq {rule rule' : IgnoreRule} (h : rule.Moved A B rule') {p p' : Path}
    (hp : Path.Moved A B p p') : rule.covers p = rule'.covers p' := by
  unfold IgnoreRule.covers
  rw [hp.below?_eq h.root, h.glob]

theorem IgnoreRule.anyCovers_moved {rules rules' : List IgnoreRule}
    (h : Forall₂ (IgnoreRule.Moved A B) rules rules') {p p' : Path} (hp : Path.Moved A B p p') :
    IgnoreRule.anyCovers rules p = IgnoreRule.anyCovers rules' p' := by
  induction h with
  | nil => rfl
  | cons hrule _ ih => rw [anyCovers_cons, anyCovers_cons, hrule.covers_eq hp, ih]

/-! ## Changes of a table -/

theorem FileMap.find?_moved {m m' : FileMap} (h : Forall₂ (EntryMoved A B) m m') {file file' : Path}
    (hfile : Path.Moved A B file file') : m.find? file = FileMap.find? m' file' := by
  induction h with
  | nil => rfl
  | cons he _ ih =>
    rw [find?_cons, find?_cons, ih, he.place]
    simp only [he.file.moved.eq_iff hfile]

theorem FileMap.insert_moved {m m' : FileMap} (h : Forall₂ (EntryMoved A B) m m') {file file' : Path}
    (hfile : Path.MovedBelow A B file file') (place : TreePath) :
    Forall₂ (EntryMoved A B) (m.insert file place) (FileMap.insert m' file' place) := by
  induction h with
  | nil => exact .cons ⟨hfile, rfl⟩ .nil
  | @cons e e' rest rest' he hrest ih =>
    rw [insert, insert]
    by_cases hf : e.1 = file
    · rw [if_pos hf, if_pos ((he.file.moved.eq_iff hfile.moved).1 hf)]
      exact .cons ⟨he.file, rfl⟩ hrest
    · rw [if_neg hf, if_neg fun hf' => hf ((he.file.moved.eq_iff hfile.moved).2 hf')]
      exact .cons he ih

namespace Table.Moved

variable {t t' : Table}

theorem empty (A B : Path) : Moved A B .empty .empty := ⟨.nil, .nil, rfl, .nil⟩

theorem warn (h : t.Moved A B t') {w w' : Warning} (hw : w.Moved A B w') :
    (t.warn w).Moved A B (t'.warn w') :=
  ⟨h.fileMap, h.partitions, h.isGame, List.rel_append h.warnings (.cons hw .nil)⟩

theorem markGame (h : t.Moved A B t') : t.markGame.Moved A B t'.markGame :=
  ⟨h.fileMap, h.partitions, rfl, h.warnings⟩

theorem mapFile (h : t.Moved A B t') {file file' : Path} (hfile : Path.MovedBelow A B file file')
    (place : TreePath) : (t.mapFile file place).Moved A B (t'.mapFile file' place) :=
  ⟨FileMap.insert_moved h.fileMap hfile place, h.partitions, h.isGame, h.warnings⟩

theorem register (h : t.Moved A B t') {p p' : Partition} (hp : p.Moved A B p') :
    (t.register p).Moved A B (t'.register p') :=
  ⟨h.fileMap, .cons hp h.partitions, h.isGame, h.warnings⟩

end Table.Moved

/-! ## Warnings -/

open PlaceMap.Path (Retold)

/-- The same fault of a project, told of paths in `B` instead of `A`, whether in full or not. -/
structure Invalid.Moved (A B : Path) (cause cause' : Invalid) : Prop where
  summary : Retold A B cause.summary cause'.summary
  details : ∀ help, Retold A B (cause.details help) (cause'.details help)

namespace Invalid.Moved

variable {p p' : Path} (h : Path.Moved A B p p')
include h

theorem undecodable (fault : Text.Utf8.Fault) :
    Moved A B (.undecodable p fault) (.undecodable p' fault) :=
  ⟨.append (.append (.path h) (.same _)) (.same _),
    fun _ => .append (.append (.path h) (.same _)) (.same _)⟩

theorem malformed (fault : Json.Fault) : Moved A B (.malformed p fault) (.malformed p' fault) :=
  ⟨.append (.append (.path h) (.same _)) (.same _),
    fun _ => .append (.append (.path h) (.same _)) (.same _)⟩

end Invalid.Moved

namespace Warning.Moved

variable {p p' : Path} (h : Path.Moved A B p p')
include h

theorem missing : Moved A B (.missing p) (.missing p') :=
  ⟨.append (.append (.same _) (.path h)) (.same _),
    fun _ => .append (.append (.same _) (.path h)) (.same _)⟩

theorem unreadable {e e' : FsError} (he : e.Moved A B e') :
    Moved A B (.unreadable p e) (.unreadable p' e') :=
  ⟨.append (.append (.append (.same _) (.path h)) (.same _)) he.message,
    fun _ => .append (.append (.append (.same _) (.path h)) (.same _)) he.message⟩

theorem invalid {cause cause' : Invalid} (hcause : cause.Moved A B cause') :
    Moved A B (.invalid p cause) (.invalid p' cause') :=
  ⟨.append (.append (.append (.same _) (.path h)) (.same _)) hcause.summary,
    fun help => .append (.append (.append (.same _) (.path h)) (.same _)) (hcause.details help)⟩

end Warning.Moved

end PlaceMap
