/-
How a resolver answers: the newest partition that serves a file decides, where a partition serves
what lies in it unless one of its rules covers it. And how the query's own normalizing leaves a path
alone that is normal already.
-/
import PlaceMap.Proofs.Glob.Rules
import PlaceMap.Resolver

namespace PlaceMap

/-! ## The remainder of a path -/

namespace Resolver

/-- What the parts of a file below a partition are called in the instance tree: the directories as
they are, the file without its extensions. The script that stands for its directory has no name. -/
def remainder (isScript : Bool) : List String → TreePath
  | [] => []
  | [last] =>
    if isScript = true ∧ FileName.stripExtensions last = "init" then []
    else [FileName.stripExtensions last]
  | dir :: parts => dir :: remainder isScript parts

theorem remainder_concat (isScript : Bool) (last : String) :
    ∀ dirs : List String, remainder isScript (dirs ++ [last]) = dirs ++ remainder isScript [last]
  | [] => rfl
  | dir :: dirs => by
    obtain ⟨next, parts, hparts⟩ : ∃ next parts, dirs ++ [last] = next :: parts := by
      cases dirs <;> exact ⟨_, _, rfl⟩
    rw [List.cons_append, List.cons_append, ← remainder_concat isScript last dirs, hparts]
    rfl

theorem moduleNames_eq (isScript : Bool) (parts : List String) :
    moduleNames isScript parts = remainder isScript parts := by
  rcases List.eq_nil_or_concat parts with rfl | ⟨dirs, last, rfl⟩
  · rfl
  · rw [List.concat_eq_append, remainder_concat]
    unfold moduleNames
    rw [List.getLast?_concat, List.dropLast_concat]
    dsimp only
    by_cases h : isScript = true ∧ FileName.stripExtensions last = "init"
    · have hb : (isScript && FileName.stripExtensions last == FileName.initStem) = true := by
        rw [Bool.and_eq_true, beq_iff_eq]
        exact h
      rw [if_pos hb, remainder, if_pos h, List.append_nil]
    · have hb : ¬ (isScript && FileName.stripExtensions last == FileName.initStem) = true := by
        rw [Bool.and_eq_true, beq_iff_eq]
        exact h
      rw [if_neg hb, remainder, if_neg h]

example : remainder true ["a", "init.server.luau"] = ["a"] := by decide
example : remainder true ["a", "b.client.luau"] = ["a", "b"] := by decide

end Resolver

/-! ## Partitions that serve a file -/

/-- A partition serves a file in it that none of its rules covers. -/
def Partition.Serves (p : Partition) (file : Path) : Prop :=
  (∃ parts, file.below? p.target = some parts) ∧ ∀ rule ∈ p.ignored, rule.covers file = .ok false

/-- The globs of a partition's rules all compile. -/
def Partition.Compiles (p : Partition) : Prop := ∀ rule ∈ p.ignored, rule.Compiles

instance (p : Partition) : Decidable p.Compiles :=
  inferInstanceAs (Decidable (∀ rule ∈ p.ignored, rule.Compiles))

/-- The newest of some partitions, the newest first, that serves a file. -/
def Partition.Newest (file : Path) (ps : List Partition) (q : Partition) : Prop :=
  ∃ newer older, ps = newer ++ q :: older ∧ q.Serves file ∧ ∀ p ∈ newer, ¬ p.Serves file

theorem Partition.exists_newest {file : Path} :
    ∀ {ps : List Partition}, (∃ p ∈ ps, p.Serves file) → ∃ q, Newest file ps q
  | [], ⟨p, hp, _⟩ => by cases hp
  | first :: ps, ⟨p, hp, hserves⟩ => by
    by_cases hfirst : first.Serves file
    · exact ⟨first, [], ps, rfl, hfirst, fun p hp => by cases hp⟩
    · rcases List.mem_cons.1 hp with rfl | hp
      · exact absurd hserves hfirst
      · obtain ⟨q, newer, older, rfl, hq, hnewer⟩ := exists_newest ⟨p, hp, hserves⟩
        refine ⟨q, first :: newer, older, rfl, hq, fun p hp => ?_⟩
        rcases List.mem_cons.1 hp with rfl | hp
        · exact hfirst
        · exact hnewer p hp

namespace Resolver

theorem inPartitions_cons (file : Path) (p : Partition) (rest : List Partition) :
    inPartitions file (p :: rest) =
      match file.below? p.target with
      | none => inPartitions file rest
      | some parts =>
        match IgnoreRule.anyCovers p.ignored file with
        | .ok true => inPartitions file rest
        | .ok false => .ok (some (p.place ++ remainder file.isScript parts))
        | .error fault => .error fault := by
  rw [inPartitions]
  rcases file.below? p.target with _ | parts
  · rfl
  · dsimp only
    rw [moduleNames_eq]
    rcases IgnoreRule.anyCovers p.ignored file with fault | _ | _ <;> rfl

/-- Partitions that do not serve a file are passed over. -/
theorem inPartitions_append {file : Path} (rest : List Partition) :
    ∀ {ps : List Partition}, (∀ p ∈ ps, p.Compiles) → (∀ p ∈ ps, ¬ p.Serves file) →
      inPartitions file (ps ++ rest) = inPartitions file rest
  | [], _, _ => rfl
  | p :: ps, hcompiles, hserves => by
    have ih : inPartitions file (ps ++ rest) = inPartitions file rest :=
      inPartitions_append rest (fun q hq => hcompiles q (List.mem_cons_of_mem _ hq))
        fun q hq => hserves q (List.mem_cons_of_mem _ hq)
    rw [List.cons_append, inPartitions_cons]
    rcases hb : file.below? p.target with _ | parts
    · exact ih
    · have hany := @IgnoreRule.anyCovers_of_compiles file _ (hcompiles p List.mem_cons_self)
      cases hc : decide (IgnoreRule.Covered p.ignored file) with
      | true =>
        rw [hany, hc]
        exact ih
      | false =>
        rw [hc] at hany
        have hrules := IgnoreRule.anyCovers_eq_false.1 hany
        exact absurd ⟨⟨parts, hb⟩, hrules⟩ (hserves p List.mem_cons_self)

/-- The newest partition that serves a file decides where it is found. -/
theorem inPartitions_of_newest {file : Path} {ps : List Partition} {q : Partition}
    (hcompiles : ∀ p ∈ ps, p.Compiles) (h : Partition.Newest file ps q) :
    ∃ parts, file.below? q.target = some parts ∧
      inPartitions file ps = .ok (some (q.place ++ remainder file.isScript parts)) := by
  obtain ⟨newer, older, rfl, ⟨⟨parts, hparts⟩, hrules⟩, hnewer⟩ := h
  refine ⟨parts, hparts, ?_⟩
  rw [inPartitions_append _ (fun p hp => hcompiles p (List.mem_append_left _ hp)) hnewer,
    inPartitions_cons, hparts, IgnoreRule.anyCovers_eq_false.2 hrules]

/-! ## Queries -/

/-- A normal path whose extension is present already is looked up as it is, in any directory. -/
theorem treePath_toText (r : Resolver) (cwd : List String) {file : Path} (h : file.IsNormal)
    (hlua : file.suffix ≠ ".lua") :
    r.treePath cwd (.ofString file.toText) =
      match r.table.fileMap.find? file with
      | some place => .ok (some place)
      | none => inPartitions file r.table.partitions := by
  have hfile : ((Path.ofString file.toText).normalize cwd).toLuau = file := by
    rw [Path.ofString_toText h.proper, h.normalize_eq, Path.toLuau_of_suffix_ne hlua]
  unfold treePath
  cases hfind : r.table.fileMap.find? file <;> simp only [hfile, hfind]

end Resolver

end PlaceMap
