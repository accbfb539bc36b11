/-
When a query fails. A glob is compiled only for a path in the directory of its rule, so a build that
returns has compiled the globs of a partition whose target lies in that directory, since none of
them covers the target. What is left are partitions whose target lies above the directory: a query
for a path in the directory is the first one to look at their globs.
-/
import PlaceMap.Proofs.Resolver.Registered

namespace PlaceMap

/-- `p` lies below `dir`, and is not `dir` itself. -/
def Path.IsBelow (p dir : Path) : Prop := ∃ part parts, p.below? dir = some (part :: parts)

/-- Of two directories on the way to a path one holds the other. -/
theorem Path.within_or_isBelow {p dir root : Path} {parts front : List String}
    (hdir : p.below? dir = some parts) (hroot : p.below? root = some front) :
    (∃ rest, dir.below? root = some rest) ∨ root.IsBelow dir := by
  obtain ⟨hanchor, hparts⟩ := below?_eq_some.1 hdir
  obtain ⟨hanchor', hfront⟩ := below?_eq_some.1 hroot
  have hprefix : dir.parts <+: p.parts := ⟨parts, hparts.symm⟩
  have hprefix' : root.parts <+: p.parts := ⟨front, hfront.symm⟩
  rcases List.prefix_or_prefix_of_prefix hprefix' hprefix with ⟨rest, hrest⟩ | ⟨rest, hrest⟩
  · exact .inl ⟨rest, below?_eq_some.2 ⟨hanchor.symm.trans hanchor', hrest.symm⟩⟩
  · have hbelow : root.below? dir = some rest :=
      below?_eq_some.2 ⟨hanchor'.symm.trans hanchor, hrest.symm⟩
    cases rest with
    | nil =>
      refine .inl ⟨[], below?_eq_some.2 ⟨hanchor.symm.trans hanchor', ?_⟩⟩
      rw [← hrest, List.append_nil, List.append_nil]
    | cons part rest => exact .inr ⟨part, rest, hbelow⟩

namespace IgnoreRule

/-- A rule fails at a path in its directory, if its glob does not compile. -/
theorem covers_eq_error {rule : IgnoreRule} {p : Path} {fault : Glob.Fault} :
    rule.covers p = .error fault ↔
      (∃ parts, p.below? rule.root = some parts) ∧ Glob.compile rule.glob = .error fault := by
  unfold covers
  rcases p.below? rule.root with _ | parts
  · simp
  · unfold Glob.isMatch
    rcases Glob.compile rule.glob with fault' | _ | found
    · simp [bind, Except.bind]
    · simp [bind, Except.bind, pure, Except.pure]
    · simp [bind, Except.bind, pure, Except.pure]

theorem anyCovers_eq_error {p : Path} {fault : Glob.Fault} :
    ∀ {rules : List IgnoreRule}, anyCovers rules p = .error fault →
      ∃ rule ∈ rules, rule.covers p = .error fault
  | [], h => by cases h
  | first :: rest, h => by
    rw [anyCovers_cons] at h
    rcases hc : first.covers p with fault' | _ | _
    · rw [hc] at h
      cases h
      exact ⟨first, List.mem_cons_self, hc⟩
    · rw [hc] at h
      obtain ⟨rule, hr, hcovers⟩ := anyCovers_eq_error h
      exact ⟨rule, List.mem_cons_of_mem _ hr, hcovers⟩
    · rw [hc] at h
      cases h

end IgnoreRule

namespace Resolver

theorem inPartitions_eq_error {file : Path} {fault : Glob.Fault} :
    ∀ {ps : List Partition}, inPartitions file ps = .error fault →
      ∃ p ∈ ps, (∃ parts, file.below? p.target = some parts) ∧
        IgnoreRule.anyCovers p.ignored file = .error fault
  | [], h => by cases h
  | p :: ps, h => by
    have hrest : inPartitions file ps = .error fault →
        ∃ q ∈ p :: ps, (∃ parts, file.below? q.target = some parts) ∧
          IgnoreRule.anyCovers q.ignored file = .error fault := by
      intro h
      obtain ⟨q, hq, hfails⟩ := inPartitions_eq_error h
      exact ⟨q, List.mem_cons_of_mem _ hq, hfails⟩
    rw [inPartitions_cons] at h
    rcases hb : file.below? p.target with _ | parts
    · rw [hb] at h
      exact hrest h
    · rw [hb] at h
      rcases hc : IgnoreRule.anyCovers p.ignored file with fault' | _ | _
      · rw [hc] at h
        cases h
        exact ⟨p, List.mem_cons_self, ⟨parts, hb⟩, hc⟩
      · rw [hc] at h
        cases h
      · rw [hc] at h
        exact hrest h

theorem treePath_eq_error {r : Resolver} {cwd : List String} {query : Path} {fault : Glob.Fault}
    (h : r.treePath cwd query = .error fault) :
    inPartitions (query.normalize cwd).toLuau r.table.partitions = .error fault := by
  unfold treePath at h
  dsimp only at h
  split at h
  · cases h
  · exact h

/-- A rule of a partition that a build has registered was compared with the target, so its glob
compiles unless the target lies outside of its directory. -/
theorem outside_of_fault {fs : FileSystem} {s : Source} {p : Partition} (h : p.Sound fs s)
    {rule : IgnoreRule} (hrule : rule ∈ p.ignored) {fault : Glob.Fault}
    (hfault : Glob.compile rule.glob = .error fault) : p.target.below? rule.root = none := by
  rcases hb : p.target.below? rule.root with _ | parts
  · rfl
  · have herror := IgnoreRule.covers_eq_error.2 ⟨⟨parts, hb⟩, hfault⟩
    rw [h.uncovered rule hrule] at herror
    cases herror

/-- A resolver that was built answers a query, unless a partition stands for a directory above the
one of its own rules, and the query is for a path in there: then a glob that does not compile may
be looked at for the first time. -/
theorem treePath_answers_or_fails {fs : FileSystem} {depth : Nat} {config : Config} {s : Source}
    {r : Resolver} (hbuild : build fs depth config s = .ok r) (cwd : List String) (query : Path) :
    (∃ place, r.treePath cwd query = .ok place) ∨
    ∃ fault, r.treePath cwd query = .error fault ∧
      ∃ p ∈ r.table.partitions, ∃ rule ∈ p.ignored,
        Glob.compile rule.glob = .error fault ∧ rule.root.IsBelow p.target ∧
          ∃ parts, (query.normalize cwd).toLuau.below? rule.root = some parts := by
  rcases hq : r.treePath cwd query with fault | place
  · right
    obtain ⟨p, hp, ⟨parts, hparts⟩, hany⟩ := inPartitions_eq_error (treePath_eq_error hq)
    obtain ⟨rule, hrule, hcovers⟩ := IgnoreRule.anyCovers_eq_error hany
    obtain ⟨⟨front, hfront⟩, hfault⟩ := IgnoreRule.covers_eq_error.1 hcovers
    have hsound := (build_sound hbuild).partitions p hp
    refine ⟨fault, rfl, p, hp, rule, hrule, hfault, ?_, front, hfront⟩
    rcases Path.within_or_isBelow hparts hfront with ⟨rest, hrest⟩ | hbelow
    · rw [outside_of_fault hsound hrule hfault] at hrest
      cases hrest
    · exact hbelow
  · exact .inl ⟨place, rfl⟩

/-- A project that stands for a directory above its own, and whose first ignored path is no glob.
The search for project files does not come back to it, since it lies below another project. -/
def climbing : FileSystem := Stored.fileSystem
  [("/a/m", .listing ["b", "default.project.json"]),
   ("/a/m/default.project.json", .text "\x7b\"name\":\"m\",\"tree\":\x7b\x7d\x7d"),
   ("/a/m/b/app.project.json", .text ("\x7b\"name\":\"app\",\"globIgnorePaths\":[\"!\",\"out\"]," ++
      "\"tree\":\x7b\"$path\":\"../..\"\x7d\x7d"))]

theorem build_climbing : ∃ r, build climbing 5 ⟨[], [], []⟩ (.project "/a/m/b/app.project.json") = .ok r ∧
    r.treePath [] (.ofString "/a/m/b/out/c.luau") = .error (.malformed "!") := by
  have hrun : (build climbing 5 ⟨[], [], []⟩ (.project "/a/m/b/app.project.json")).toOption.map
      (fun r => failure? (r.treePath [] (.ofString "/a/m/b/out/c.luau"))) =
        some (some (.malformed "!")) := by
    decide +kernel
  obtain ⟨r, hbuild, hquery⟩ := exists_eq_ok hrun
  exact ⟨r, hbuild, failure?_eq_some.1 hquery⟩

/-- Not every query to a resolver that was built is answered. -/
theorem not_treePath_answers :
    ¬ ∀ (fs : FileSystem) (depth : Nat) (config : Config) (s : Source) (r : Resolver),
      build fs depth config s = .ok r →
        ∀ cwd query, ∃ place, r.treePath cwd (.ofString query) = .ok place := by
  intro h
  obtain ⟨r, hbuild, hquery⟩ := build_climbing
  obtain ⟨place, hplace⟩ := h _ _ _ _ r hbuild [] "/a/m/b/out/c.luau"
  rw [hquery] at hplace
  cases hplace

/-- The glob that the query fails at is one of a partition above the directory of its rules. -/
theorem treePath_fails_climbing :
    ∃ r, build climbing 5 ⟨[], [], []⟩ (.project "/a/m/b/app.project.json") = .ok r ∧
      r.treePath [] (.ofString "/a/m/b/out/c.luau") = .error (.malformed "!") ∧
      ∃ p ∈ r.table.partitions, ∃ rule ∈ p.ignored,
        Glob.compile rule.glob = .error (.malformed "!") ∧ rule.root.IsBelow p.target := by
  obtain ⟨r, hbuild, hquery⟩ := build_climbing
  refine ⟨r, hbuild, hquery, ?_⟩
  rcases treePath_answers_or_fails hbuild [] (.ofString "/a/m/b/out/c.luau") with
    ⟨place, hplace⟩ | ⟨fault, hfault, p, hp, rule, hrule, hglob, hbelow, -⟩
  · rw [hquery] at hplace
    cases hplace
  · rw [hquery] at hfault
    cases hfault
    exact ⟨p, hp, rule, hrule, hglob, hbelow⟩

end Resolver

end PlaceMap
