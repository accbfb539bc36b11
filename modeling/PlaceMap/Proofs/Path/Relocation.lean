/-
The same place in two directories. Whatever is asked about a path below a directory by its parts
alone has the same answer in another directory: its name, the parts below a path on the way to it,
and where `..` leads, as long as it does not lead out of the directory.
-/
import Mathlib.Data.List.Basic
import PlaceMap.Proofs.Path.Normal

namespace PlaceMap

open FileName (IsPart IsOrdinary)

namespace Path

/-- The path that some parts lead to from a directory. -/
def descend (dir : Path) (parts : List String) : Path := ⟨dir.anchor, dir.parts ++ parts⟩

theorem descend_inj {dir : Path} {parts parts' : List String} :
    dir.descend parts = dir.descend parts' ↔ parts = parts' := by
  unfold descend
  rw [Path.mk.injEq]
  exact ⟨fun h => List.append_cancel_left h.2, fun h => ⟨rfl, congrArg _ h⟩⟩

theorem descend_nil (dir : Path) : dir.descend [] = dir := congrArg (mk dir.anchor) (List.append_nil _)

theorem descend_descend (dir : Path) (front rest : List String) :
    (dir.descend front).descend rest = dir.descend (front ++ rest) :=
  congrArg (mk dir.anchor) (List.append_assoc _ front rest)

theorem join_descend (base dir : Path) (parts : List String) :
    base.join (dir.descend parts) = (base.join dir).descend parts := by
  unfold join descend
  by_cases ha : dir.anchor = .relative
  · rw [if_pos ha, if_pos ha, List.append_assoc]
  · rw [if_neg ha, if_neg ha]

theorem child_eq_descend {n : String} (h : IsPart n) (dir : Path) : dir.child n = dir.descend [n] := by
  unfold child join
  rw [ofString_part h, if_pos rfl]
  rfl

theorem parent_descend (dir : Path) (chain : List String) (n : String) :
    (dir.descend (chain ++ [n])).parent = dir.descend chain := by
  unfold descend parent
  rw [← List.append_assoc, List.dropLast_concat]

/-- A path other than a root is an entry of the directory that holds it. -/
theorem eq_child {p : Path} (h : p.Proper) (hne : p.parts ≠ []) :
    IsPart p.name ∧ p = p.parent.child p.name := by
  obtain ⟨anchor, parts⟩ := p
  obtain ⟨front, last, rfl⟩ := (List.eq_nil_or_concat' parts).resolve_left hne
  have hname : Path.name ⟨anchor, front ++ [last]⟩ = last := by simp [Path.name]
  have hlast : IsPart last := h last (List.mem_append_right _ List.mem_cons_self)
  rw [hname, child_eq_descend hlast]
  exact ⟨hlast, by simp [parent, descend]⟩

theorem below?_descend (dir : Path) (parts : List String) :
    (dir.descend parts).below? dir = some parts := below?_eq_some.2 ⟨rfl, rfl⟩

theorem IsNormal.descend {dir : Path} (h : dir.IsNormal) {parts : List String}
    (hparts : ∀ part ∈ parts, IsOrdinary part) : (dir.descend parts).IsNormal := by
  refine ⟨h.1, fun part hp => ?_⟩
  rcases List.mem_append.1 hp with hp | hp
  · exact h.2 part hp
  · exact hparts part hp

/-- Parts that do not lead up lead on from the normal form of a path. -/
theorem normalize_join {parts : List String} (h : ".." ∉ parts) (cwd : List String) (p : Path) :
    (p.join ⟨.relative, parts⟩).normalize cwd = (p.normalize cwd).descend parts := by
  obtain ⟨anchor, before⟩ := p
  cases anchor with
  | relative =>
    refine congrArg (Path.mk .root) ?_
    show squash (cwd ++ (before ++ parts)) = squash (cwd ++ before) ++ parts
    rw [← List.append_assoc, squash_append _ h]
  | root => exact congrArg (Path.mk .root) (squash_append before h)
  | doubleRoot => exact congrArg (Path.mk .doubleRoot) (squash_append before h)

/-- Below a directory a path is named by the parts that lead there. -/
theorem name_descend (dir : Path) {parts : List String} (hne : parts ≠ []) :
    (dir.descend parts).name = name ⟨.relative, parts⟩ := by
  obtain ⟨front, last, rfl⟩ := (List.eq_nil_or_concat' parts).resolve_left hne
  simp [Path.name, descend]

theorem isScript_descend (dir : Path) {parts : List String} (hne : parts ≠ []) :
    (dir.descend parts).isScript = isScript ⟨.relative, parts⟩ := by
  unfold isScript suffix
  rw [name_descend dir hne]

theorem toLuau_descend (dir : Path) {parts : List String} (hne : parts ≠ []) :
    (dir.descend parts).toLuau = dir.descend (toLuau ⟨.relative, parts⟩).parts := by
  obtain ⟨front, last, rfl⟩ := (List.eq_nil_or_concat' parts).resolve_left hne
  simp [Path.toLuau, mapName, descend, ← List.append_assoc]

/-- A replaced extension leaves something to lead by. -/
theorem parts_toLuau_ne_nil {p : Path} (hne : p.parts ≠ []) : p.toLuau.parts ≠ [] := by
  obtain ⟨front, last, hparts⟩ := (List.eq_nil_or_concat' p.parts).resolve_left hne
  simp [Path.toLuau, mapName, hparts]

/-! ## Leading up -/

/-- Takes one part on a stack of the parts before it; `..` may not lead further up than that. -/
def resolveStep (stack : List String) (part : String) : Option (List String) :=
  if part = ".." then
    match stack with
    | [] => none
    | _ :: rest => some rest
  else some (part :: stack)

/-- Resolves every `..` of some parts by the names alone, if none leads further up than where they
start. -/
def resolve? (parts : List String) : Option (List String) :=
  (parts.foldlM resolveStep []).map List.reverse

/-- Parts that do not lead up are resolved alike whatever stands before them. -/
theorem foldl_squashStep_of_resolve (before : List String) :
    ∀ (parts stack found : List String), parts.foldlM resolveStep stack = some found →
      parts.foldl squashStep (stack ++ before) = found ++ before
  | [], stack, found, h => by
    cases h
    rfl
  | part :: parts, stack, found, h => by
    rw [List.foldlM_cons] at h
    obtain ⟨next, hnext, h⟩ := Option.bind_eq_some_iff.1 h
    have hstep : squashStep (stack ++ before) part = next ++ before := by
      unfold resolveStep at hnext
      unfold squashStep
      split at hnext
      · rename_i hup
        rw [if_pos hup]
        cases stack with
        | nil => cases hnext
        | cons _ rest => cases hnext; rfl
      · rename_i hup
        cases hnext
        rw [if_neg hup]
        rfl
    rw [List.foldl_cons, hstep]
    exact foldl_squashStep_of_resolve before parts next found h

theorem squash_of_resolve {parts found : List String} (h : resolve? parts = some found)
    {before : List String} (hbefore : ".." ∉ before) : squash (before ++ parts) = before ++ found := by
  obtain ⟨stack, hstack, rfl⟩ := Option.map_eq_some_iff.1 h
  unfold squash
  rw [List.foldl_append, foldl_squashStep hbefore, List.append_nil]
  have hfold := foldl_squashStep_of_resolve before.reverse parts [] stack hstack
  rw [List.nil_append] at hfold
  rw [hfold, List.reverse_append, List.reverse_reverse]

/-- What is left of parts that are resolved is some of them, none of them `..`. -/
theorem mem_of_resolve {parts found : List String} (h : resolve? parts = some found) {part : String}
    (hp : part ∈ found) : part ∈ parts ∧ part ≠ ".." := by
  have hsquash := squash_of_resolve h (@List.not_mem_nil _ "..")
  rw [List.nil_append, List.nil_append] at hsquash
  exact mem_squash (hsquash ▸ hp)

/-- A path below a directory is normalized there. -/
theorem normalize_descend {dir : Path} (h : dir.IsNormal) (cwd : List String)
    {parts found : List String} (hparts : resolve? parts = some found) :
    (dir.descend parts).normalize cwd = dir.descend found := by
  have hup : ".." ∉ dir.parts := fun hm => (h.2 _ hm).2 rfl
  have hsquash := squash_of_resolve hparts hup
  obtain ⟨anchor, before⟩ := dir
  cases anchor with
  | relative => exact absurd rfl h.1
  | root => exact congrArg (Path.mk .root) hsquash
  | doubleRoot => exact congrArg (Path.mk .doubleRoot) hsquash

/-! ## The same place in two directories -/

/-- `p'` stands in the directory `B` where `p` stands in `A`. -/
def Moved (A B p p' : Path) : Prop :=
  ∃ parts, (∀ part ∈ parts, IsPart part) ∧ p = A.descend parts ∧ p' = B.descend parts

/-- `p'` stands in the directory `B` where `p` stands in `A`, and they are not the directories. -/
def MovedBelow (A B p p' : Path) : Prop :=
  ∃ parts, parts ≠ [] ∧ (∀ part ∈ parts, IsPart part) ∧ p = A.descend parts ∧ p' = B.descend parts

variable {A B p p' : Path}

theorem MovedBelow.moved (h : MovedBelow A B p p') : Moved A B p p' := by
  obtain ⟨parts, -, h⟩ := h
  exact ⟨parts, h⟩

/-- Moving keeps different paths apart. -/
theorem Moved.eq_iff (h : Moved A B p p') {q q' : Path} (hq : Moved A B q q') : p = q ↔ p' = q' := by
  obtain ⟨parts, -, rfl, rfl⟩ := h
  obtain ⟨parts', -, rfl, rfl⟩ := hq
  rw [descend_inj, descend_inj]

theorem Moved.below?_eq (h : Moved A B p p') {dir dir' : Path} (hdir : Moved A B dir dir') :
    p.below? dir = p'.below? dir' := by
  obtain ⟨parts, -, rfl, rfl⟩ := h
  obtain ⟨front, -, rfl, rfl⟩ := hdir
  refine Option.ext fun rest => ?_
  rw [below?_eq_some, below?_eq_some]
  simp only [descend, List.append_assoc, List.append_cancel_left_eq, true_and]

theorem MovedBelow.parent (h : MovedBelow A B p p') : Moved A B p.parent p'.parent := by
  obtain ⟨parts, hne, hparts, rfl, rfl⟩ := h
  refine ⟨parts.dropLast, fun part hp => hparts part (List.dropLast_subset _ hp), ?_, ?_⟩
  all_goals simp only [Path.parent, descend, List.dropLast_append_of_ne_nil hne]

theorem MovedBelow.child (h : MovedBelow A B p p') {name : String}
    (hname : (ofString name).anchor = .relative) :
    MovedBelow A B (p.child name) (p'.child name) := by
  obtain ⟨parts, hne, hparts, rfl, rfl⟩ := h
  refine ⟨parts ++ (ofString name).parts, by simp [hne], fun part hp => ?_, ?_, ?_⟩
  · rcases List.mem_append.1 hp with hp | hp
    · exact hparts part hp
    · exact ofString_proper name part hp
  all_goals simp only [Path.child, join, if_pos hname, descend, List.append_assoc]

theorem MovedBelow.toLuau (h : MovedBelow A B p p') : MovedBelow A B p.toLuau p'.toLuau := by
  obtain ⟨parts, hne, hparts, rfl, rfl⟩ := h
  refine ⟨(Path.toLuau ⟨.relative, parts⟩).parts, parts_toLuau_ne_nil hne, fun part hp => ?_,
    toLuau_descend A hne, toLuau_descend B hne⟩
  obtain ⟨front, last, rfl⟩ := (List.eq_nil_or_concat' parts).resolve_left hne
  simp only [Path.toLuau, mapName, List.getLast?_concat, List.dropLast_concat] at hp
  rcases List.mem_append.1 hp with hp | hp
  · exact hparts part (List.mem_append_left _ hp)
  · cases List.mem_singleton.1 hp
    exact FileName.isPart_toLuau (hparts last (List.mem_append_right _ (List.mem_singleton_self _)))

theorem MovedBelow.name_eq (h : MovedBelow A B p p') : p.name = p'.name := by
  obtain ⟨parts, hne, -, rfl, rfl⟩ := h
  rw [name_descend A hne, name_descend B hne]

theorem MovedBelow.isData_eq (h : MovedBelow A B p p') : p.isData = p'.isData := by
  unfold isData suffix
  rw [h.name_eq]

theorem MovedBelow.isScript_eq (h : MovedBelow A B p p') : p.isScript = p'.isScript := by
  unfold isScript suffix
  rw [h.name_eq]

/-! ## Texts -/

/-- Two texts are the same up to paths in `A`, which are moved to `B`. -/
inductive Retold (A B : Path) : String → String → Prop
  | same (text : String) : Retold A B text text
  | path {p p' : Path} : Moved A B p p' → Retold A B p.toText p'.toText
  | append {s s' t t' : String} : Retold A B s s' → Retold A B t t' → Retold A B (s ++ t) (s' ++ t')

end Path

end PlaceMap
