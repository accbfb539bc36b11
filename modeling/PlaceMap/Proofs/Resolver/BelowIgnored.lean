/-
What lies below an ignored directory is ignored with it, however globs are read, and no rule covers
its own directory or what lies outside of it. So a partition whose rules cover a directory passes over
all queries for what lies below.

A query sees the present extension of scripts. That keeps what lies below a directory below it, but
the query for the directory itself may ask for another name.
-/
import PlaceMap.Proofs.Path.Relocation
import PlaceMap.Proofs.Resolver.Ignored

namespace PlaceMap

/-! ## Strictly below a directory -/

namespace Path

/-- A path lies below a directory and is not the directory. -/
def LiesBelow (p dir : Path) : Prop := ∃ part parts, p.below? dir = some (part :: parts)

variable {p dir : Path}

theorem liesBelow_iff : p.LiesBelow dir ↔ ∃ parts, parts ≠ [] ∧ p = dir.descend parts := by
  unfold LiesBelow
  constructor
  · rintro ⟨part, parts, h⟩
    obtain ⟨hanchor, hparts⟩ := below?_eq_some.1 h
    exact ⟨part :: parts, List.cons_ne_nil _ _, congr (congrArg mk hanchor) hparts⟩
  · rintro ⟨parts, hne, rfl⟩
    obtain ⟨part, rest, rfl⟩ := List.exists_cons_of_ne_nil hne
    exact ⟨part, rest, below?_descend dir _⟩

theorem not_liesBelow_self (p : Path) : ¬ p.LiesBelow p := by
  rintro ⟨part, parts, h⟩
  rw [below?_self] at h
  cases h

/-- Only the last part of a path has an extension to replace, and a directory above ends before. -/
theorem LiesBelow.toLuau (h : p.LiesBelow dir) : p.toLuau.LiesBelow dir := by
  obtain ⟨parts, hne, rfl⟩ := liesBelow_iff.1 h
  rw [toLuau_descend dir hne]
  exact liesBelow_iff.2 ⟨_, parts_toLuau_ne_nil hne, rfl⟩

end Path

/-! ## Rules, however globs are read -/

namespace IgnoreRule

variable {d : Glob.Dialect} {rules : List IgnoreRule} {p dir r : Path}

theorem anyCoversIn_join (h : ∀ rule ∈ rules, rule.CompilesIn d) (hr : r.anchor = .relative)
    (hdir : anyCoversIn d rules dir = .ok true) : anyCoversIn d rules (dir.join r) = .ok true := by
  obtain ⟨rule, hm, hc⟩ := (anyCoversIn_iff h).1 hdir
  have hbelow : (dir.join r).below? dir = some r.parts := by
    unfold Path.join
    rw [if_pos hr]
    exact Path.below?_eq_some.2 ⟨rfl, rfl⟩
  exact (anyCoversIn_iff h).2 ⟨rule, hm, coversIn_below hc hbelow⟩

/-- What a rule covers lies below its directory, as the glob is asked about nothing else. -/
theorem liesBelow_of_coversIn {rule : IgnoreRule} (h : rule.coversIn d p = .ok true) :
    p.LiesBelow rule.root := by
  obtain ⟨_, front, rest, -, hne, hp, -⟩ := coversIn_iff.1 h
  obtain ⟨part, front, rfl⟩ := List.exists_cons_of_ne_nil hne
  exact ⟨part, front ++ rest, hp⟩

theorem coversIn_eq_false {rule : IgnoreRule} (h : rule.CompilesIn d) (hp : ¬ p.LiesBelow rule.root) :
    rule.coversIn d p = .ok false := by
  obtain ⟨b, hb⟩ := coversIn_of_compilesIn h p
  cases b with
  | true => exact absurd (liesBelow_of_coversIn hb) hp
  | false => exact hb

end IgnoreRule

/-! ## Partitions that are passed over -/

namespace Resolver

/-- The same resolver with other partitions. -/
def withPartitions (r : Resolver) (ps : List Partition) : Resolver :=
  { r with table := { r.table with partitions := ps } }

/-- A partition that does not spare a file is passed over wherever it stands, or ends the search with
a fault. -/
theorem inPartitions_remove {file : Path} {p : Partition}
    (h : IgnoreRule.anyCovers p.ignored file ≠ .ok false) (older : List Partition) :
    ∀ newer : List Partition,
      inPartitions file (newer ++ p :: older) = inPartitions file (newer ++ older) ∨
        ∃ fault, IgnoreRule.anyCovers p.ignored file = .error fault ∧
          inPartitions file (newer ++ p :: older) = .error fault
  | [] => by
    rw [List.nil_append, List.nil_append, inPartitions_cons]
    rcases file.below? p.target with _ | parts
    · exact .inl rfl
    · rcases hc : IgnoreRule.anyCovers p.ignored file with fault | _ | _
      · exact .inr ⟨fault, rfl, rfl⟩
      · exact absurd hc h
      · exact .inl rfl
  | q :: newer => by
    have ih := inPartitions_remove h older newer
    rw [List.cons_append, List.cons_append, inPartitions_cons, inPartitions_cons]
    rcases file.below? q.target with _ | parts
    · exact ih
    · rcases IgnoreRule.anyCovers q.ignored file with fault | _ | _
      · exact .inl rfl
      · exact .inl rfl
      · exact ih

/-- Without partitions and mapped files nothing is found. -/
theorem treePath_withPartitions_nil {r : Resolver} (h : r.table.fileMap = []) (cwd : List String)
    (query : Path) : (r.withPartitions []).treePath cwd query = .ok none := by
  unfold treePath withPartitions
  dsimp only
  rw [h]
  rfl

theorem treePath_remove {r : Resolver} {newer older : List Partition} {p : Partition}
    (hr : r.table.partitions = newer ++ p :: older) {cwd : List String} {query : Path}
    (h : IgnoreRule.anyCovers p.ignored (query.normalize cwd).toLuau ≠ .ok false) :
    r.treePath cwd query = (r.withPartitions (newer ++ older)).treePath cwd query ∨
      ¬ p.Compiles ∧ ∃ fault, r.treePath cwd query = .error fault := by
  unfold treePath withPartitions
  dsimp only
  rw [hr]
  rcases r.table.fileMap.find? (query.normalize cwd).toLuau with _ | place
  · rcases inPartitions_remove h older newer with heq | ⟨fault, hfault, hfails⟩
    · exact .inl heq
    · exact .inr ⟨fun hcompiles => Walk.anyCovers_ne_error hcompiles hfault, fault, hfails⟩
  · exact .inl rfl

/-- Rules that cover a directory cover what a query below it asks for; and what a query for the
directory asks for, if the name of the directory does not have the former extension. -/
theorem covered_of_query {rules : List IgnoreRule} {dir q : Path} (h : IgnoreRule.Covered rules dir)
    (hq : q.LiesBelow dir ∨ q = dir ∧ dir.suffix ≠ ".lua") : IgnoreRule.Covered rules q.toLuau := by
  rcases hq with hq | ⟨rfl, hsuffix⟩
  · obtain ⟨part, parts, hbelow⟩ := hq.toLuau
    exact h.below hbelow
  · rw [Path.toLuau_of_suffix_ne hsuffix]
    exact h

open IgnoreRule (anyCovers anyCoversIn) in
/-- Rules that compile and cover a directory cover everything below it, and none covers its own
directory or a path that does not lie below that. Both hold in every dialect that can read the rules,
not only in the one that globs are compiled from. So if the rules of a partition cover a directory, a
query for what lies below is answered as if the partition were missing, or it fails for a glob of the
partition that does not compile; and so is a query for the directory itself, unless its name has the
former extension. -/
theorem ignored_below :
    (∀ rules : List IgnoreRule, (∀ rule ∈ rules, rule.Compiles) →
      (∀ dir r : Path, r.anchor = .relative → anyCovers rules dir = .ok true →
        anyCovers rules (dir.join r) = .ok true) ∧
      ∀ rule ∈ rules, ∀ p : Path, ¬ p.LiesBelow rule.root → rule.covers p = .ok false) ∧
    (∀ (d : Glob.Dialect) (rules : List IgnoreRule), (∀ rule ∈ rules, rule.CompilesIn d) →
      (∀ dir r : Path, r.anchor = .relative → anyCoversIn d rules dir = .ok true →
        anyCoversIn d rules (dir.join r) = .ok true) ∧
      ∀ rule ∈ rules, ∀ p : Path, ¬ p.LiesBelow rule.root → rule.coversIn d p = .ok false) ∧
    ∀ (r : Resolver) (newer older : List Partition) (p : Partition),
      r.table.partitions = newer ++ p :: older → ∀ dir : Path, anyCovers p.ignored dir = .ok true →
        ∀ (cwd : List String) (query : Path),
          (query.normalize cwd).LiesBelow dir ∨ query.normalize cwd = dir ∧ dir.suffix ≠ ".lua" →
            r.treePath cwd query = (r.withPartitions (newer ++ older)).treePath cwd query ∨
              ¬ p.Compiles ∧ ∃ fault, r.treePath cwd query = .error fault := by
  have hdialects (d : Glob.Dialect) (rules : List IgnoreRule)
      (h : ∀ rule ∈ rules, rule.CompilesIn d) :
      (∀ dir r : Path, r.anchor = .relative → anyCoversIn d rules dir = .ok true →
        anyCoversIn d rules (dir.join r) = .ok true) ∧
      ∀ rule ∈ rules, ∀ p : Path, ¬ p.LiesBelow rule.root → rule.coversIn d p = .ok false :=
    ⟨fun _ _ hr hdir => IgnoreRule.anyCoversIn_join h hr hdir,
      fun rule hm _ hp => IgnoreRule.coversIn_eq_false (h rule hm) hp⟩
  refine ⟨fun rules h => ?_, hdialects, fun r newer older p hpartitions dir hdir cwd query hquery => ?_⟩
  · simp only [IgnoreRule.anyCovers_eq_standard, IgnoreRule.covers_eq_standard]
    exact hdialects .standard rules fun rule hm => IgnoreRule.compilesIn_standard.2 (h rule hm)
  · refine treePath_remove hpartitions fun hspared => ?_
    have hcovered := covered_of_query (IgnoreRule.covered_of_anyCovers hdir) hquery
    exact IgnoreRule.not_covered (IgnoreRule.anyCovers_eq_false.1 hspared) hcovered

/-- The rule of a project that ignores all scripts with the former extension. -/
def formerScripts : List IgnoreRule := [⟨⟨.root, []⟩, "*.lua"⟩]

/-- Such a project, and a directory that its rule takes for a script. -/
def formerDirectory : Stored :=
  [("/p.json", .text ("\x7b\"name\":\"p\",\"globIgnorePaths\":[\"*.lua\"],\"tree\":" ++
      "\x7b\"$path\":\"src\"\x7d\x7d")),
   ("/src/x.lua/a.luau", .text "")]

theorem compiles_formerScripts : ∀ rule ∈ formerScripts, rule.Compiles := by
  decide +kernel

theorem covered_formerDirectory :
    IgnoreRule.anyCovers formerScripts ⟨.root, ["src", "x.lua"]⟩ = .ok true := by
  rw [IgnoreRule.anyCovers_of_compiles compiles_formerScripts]
  decide +kernel

theorem build_formerDirectory :
    ∃ r, ofProject formerDirectory.fileSystem 5 .standard (.ofString "/p.json") = .ok r ∧
      r.table.fileMap = [] ∧
      r.table.partitions = [⟨⟨.root, ["src"]⟩, [], formerScripts⟩] ∧
      r.treePath [] (.ofString "/src/x.lua") = .ok (some ["x"]) := by
  have hrun : (ofProject formerDirectory.fileSystem 5 .standard
      (.ofString "/p.json")).toOption.map (fun r =>
        (r.table.fileMap, r.table.partitions,
          (r.treePath [] (.ofString "/src/x.lua")).toOption)) =
        some ([], [⟨⟨.root, ["src"]⟩, [], formerScripts⟩], some (some ["x"])) := by
    decide +kernel
  obtain ⟨r, hbuild, hr⟩ := exists_eq_ok hrun
  obtain ⟨hfiles, hr⟩ := Prod.mk.inj hr
  obtain ⟨hpartitions, hquery⟩ := Prod.mk.inj hr
  exact ⟨r, hbuild, hfiles, hpartitions, toOption_eq_some.1 hquery⟩

theorem ignored_below_former :
    ∃ r, ofProject formerDirectory.fileSystem 5 .standard (.ofString "/p.json") = .ok r ∧
      IgnoreRule.anyCovers formerScripts ⟨.root, ["src", "x.lua", "a.luau"]⟩ = .ok true ∧
      IgnoreRule.covers ⟨⟨.root, []⟩, "*.lua"⟩ ⟨.root, []⟩ = .ok false ∧
      IgnoreRule.anyCoversIn (fun _ => .ok fun text => text == ['s', 'r', 'c']) formerScripts
        ⟨.root, ["src", "x.lua"]⟩ = .ok true ∧
      r.treePath [] (.ofString "/src/x.lua/a.luau") = .ok none := by
  obtain ⟨r, hbuild, hfiles, hpartitions, -⟩ := build_formerDirectory
  obtain ⟨hstandard, hdialects, hremove⟩ := ignored_below
  obtain ⟨hbelow, hroot⟩ := hstandard formerScripts compiles_formerScripts
  have hquery : (Path.normalize [] (.ofString "/src/x.lua/a.luau")).below? ⟨.root, ["src", "x.lua"]⟩ =
      some ["a.luau"] := by
    decide +kernel
  refine ⟨r, hbuild, ?_, ?_, ?_, ?_⟩
  · exact hbelow ⟨.root, ["src", "x.lua"]⟩ ⟨.relative, ["a.luau"]⟩ rfl covered_formerDirectory
  · exact hroot _ List.mem_cons_self _ (Path.not_liesBelow_self _)
  · exact (hdialects _ _ fun _ _ => ⟨_, rfl⟩).1 ⟨.root, ["src"]⟩ ⟨.relative, ["x.lua"]⟩ rfl rfl
  · rcases hremove r [] [] _ hpartitions _ covered_formerDirectory [] _ (.inl ⟨_, _, hquery⟩) with
      heq | ⟨hfaulty, -⟩
    · rw [heq]
      exact treePath_withPartitions_nil hfiles _ _
    · exact absurd compiles_formerScripts hfaulty

/-- A query for a covered directory whose name has the former extension is a query for another name,
which the rules need not cover. -/
theorem not_ignored_below :
    ¬ ∀ (r : Resolver) (newer older : List Partition) (p : Partition),
      r.table.partitions = newer ++ p :: older → p.Compiles →
        ∀ dir : Path, IgnoreRule.anyCovers p.ignored dir = .ok true →
          ∀ (cwd : List String) (query : Path) (parts : List String),
            (query.normalize cwd).below? dir = some parts →
              r.treePath cwd query = (r.withPartitions (newer ++ older)).treePath cwd query := by
  intro h
  obtain ⟨r, -, hfiles, hpartitions, hfound⟩ := build_formerDirectory
  have hquery : (Path.normalize [] (.ofString "/src/x.lua")).below? ⟨.root, ["src", "x.lua"]⟩ =
      some [] := by
    decide +kernel
  have hnone := h r [] [] _ hpartitions compiles_formerScripts _ covered_formerDirectory [] _ _ hquery
  rw [hfound, List.append_nil, treePath_withPartitions_nil hfiles] at hnone
  cases hnone

end Resolver

end PlaceMap
