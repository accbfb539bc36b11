/-
Ignore rules: rules whose globs compile always give an answer, a list of rules covers a path exactly
if one of its rules does, and a rule that covers a directory covers everything below it.

The last does not rest on what globs match. A rule asks its glob about every path on the way down
from its own directory, so it covers a path exactly if the glob matches one of these, and the ways to
two paths, one below the other, begin alike.
-/
import PlaceMap.Glob.Rule
import PlaceMap.Proofs.Path.Normal

namespace PlaceMap

namespace Glob

/-! ## Dialects -/

/-- A way to read globs: which texts a glob matches, or why it cannot be read. -/
abbrev Dialect := String → Except Fault (List Char → Bool)

/-- The dialect of the patterns that globs compile to. -/
def Dialect.standard : Dialect := fun glob =>
  (compile glob).map fun found text => found.any fun p => p.accepts (unanchored text)

/-- Whether a glob, as a dialect reads it, matches a path of the given parts or one of the
directories on the way to it. -/
def Dialect.isMatch (d : Dialect) (glob : String) (parts : List String) : Except Fault Bool :=
  (d glob).map fun matched =>
    (slices (parts.map String.toList)).any fun slice => matched (Text.join '/' slice)

theorem isMatch_eq_standard (glob : String) (parts : List String) :
    isMatch glob parts = Dialect.standard.isMatch glob parts := by
  unfold isMatch Dialect.isMatch Dialect.standard
  rcases compile glob with fault | _ | p
  · rfl
  · exact congrArg Except.ok (List.any_eq_false.2 fun _ _ => Bool.false_ne_true).symm
  · rfl

theorem mem_slices {parts slice : List (List Char)} :
    slice ∈ slices parts ↔ slice ≠ [] ∧ slice <+: parts := by
  unfold slices
  constructor
  · intro h
    obtain ⟨i, hi, rfl⟩ := List.mem_map.1 h
    have hi := List.mem_range.1 hi
    refine ⟨fun hnil => ?_, List.take_prefix _ _⟩
    have hlength := congrArg List.length hnil
    rw [List.length_take, List.length_nil] at hlength
    omega
  · rintro ⟨hne, hp⟩
    have hpos := List.length_pos_iff.2 hne
    have hle := hp.length_le
    refine List.mem_map.2 ⟨slice.length - 1, List.mem_range.2 (by omega), ?_⟩
    rw [Nat.sub_add_cancel hpos]
    exact (List.prefix_iff_eq_take.1 hp).symm

end Glob

namespace IgnoreRule

/-- Whether a rule covers a path, its glob being read in a dialect. -/
def coversIn (d : Glob.Dialect) (rule : IgnoreRule) (p : Path) : Except Glob.Fault Bool :=
  match p.below? rule.root with
  | none => .ok false
  | some parts => d.isMatch rule.glob parts

/-- Whether some rule covers a path, the globs being read in a dialect. -/
def anyCoversIn (d : Glob.Dialect) : List IgnoreRule → Path → Except Glob.Fault Bool
  | [], _ => .ok false
  | rule :: rest, p => do
    if ← rule.coversIn d p then return true
    anyCoversIn d rest p

/-- A dialect can read the glob of a rule. -/
def CompilesIn (d : Glob.Dialect) (rule : IgnoreRule) : Prop := ∃ matched, d rule.glob = .ok matched

section Dialects

variable {d : Glob.Dialect} {rule : IgnoreRule} {p dir : Path}

theorem covers_eq_standard (rule : IgnoreRule) (p : Path) :
    rule.covers p = rule.coversIn .standard p := by
  unfold covers coversIn
  rcases p.below? rule.root with _ | parts
  · rfl
  · exact Glob.isMatch_eq_standard rule.glob parts

theorem anyCovers_eq_standard (p : Path) :
    ∀ rules : List IgnoreRule, anyCovers rules p = anyCoversIn .standard rules p
  | [] => rfl
  | rule :: rest => by
    rw [anyCovers, anyCoversIn, covers_eq_standard, anyCovers_eq_standard p rest]

/-- A rule covers a path exactly if its glob matches a path on the way there, from the rule's
directory, which is not on the way itself. -/
theorem coversIn_iff : rule.coversIn d p = .ok true ↔
    ∃ matched front rest, d rule.glob = .ok matched ∧ front ≠ [] ∧
      p.below? rule.root = some (front ++ rest) ∧
        matched (Text.join '/' (front.map String.toList)) = true := by
  unfold coversIn Glob.Dialect.isMatch
  constructor
  · intro h
    rcases hp : p.below? rule.root with _ | parts
    · rw [hp] at h
      cases h
    rcases hd : d rule.glob with fault | matched
    · rw [hp, hd] at h
      cases h
    rw [hp, hd] at h
    obtain ⟨slice, hs, hmatched⟩ := List.any_eq_true.1 (Except.ok.inj h)
    obtain ⟨hne, hprefix⟩ := Glob.mem_slices.1 hs
    obtain ⟨front, ⟨rest, rfl⟩, rfl⟩ := List.prefix_map_iff.1 hprefix
    exact ⟨matched, front, rest, rfl, fun hnil => hne (congrArg (List.map _) hnil), rfl, hmatched⟩
  · rintro ⟨matched, front, rest, hd, hne, hp, hmatched⟩
    rw [hp, hd]
    refine congrArg Except.ok (List.any_eq_true.2 ⟨front.map String.toList, ?_, hmatched⟩)
    refine Glob.mem_slices.2 ⟨fun hnil => hne (List.map_eq_nil_iff.1 hnil), ?_⟩
    rw [List.map_append]
    exact List.prefix_append _ _

/-- The way to a path below a directory leads through all that is on the way to the directory. -/
theorem coversIn_below {parts : List String} (h : rule.coversIn d dir = .ok true)
    (hp : p.below? dir = some parts) : rule.coversIn d p = .ok true := by
  obtain ⟨matched, front, rest, hd, hne, hdir, hmatched⟩ := coversIn_iff.1 h
  refine coversIn_iff.2 ⟨matched, front, rest ++ parts, hd, hne, ?_, hmatched⟩
  rw [← List.append_assoc]
  exact Path.below?_trans hp hdir

theorem coversIn_of_compilesIn (h : rule.CompilesIn d) (p : Path) : ∃ b, rule.coversIn d p = .ok b := by
  obtain ⟨matched, h⟩ := h
  unfold coversIn Glob.Dialect.isMatch
  rw [h]
  split
  · exact ⟨false, rfl⟩
  · exact ⟨_, rfl⟩

theorem anyCoversIn_iff :
    ∀ {rules : List IgnoreRule}, (∀ rule ∈ rules, rule.CompilesIn d) →
      (anyCoversIn d rules p = .ok true ↔ ∃ rule ∈ rules, rule.coversIn d p = .ok true)
  | [], _ => by simp [anyCoversIn]
  | first :: rest, h => by
    have ih := @anyCoversIn_iff rest fun rule hr => h rule (List.mem_cons_of_mem first hr)
    obtain ⟨b, hb⟩ := coversIn_of_compilesIn (h first List.mem_cons_self) p
    have hstep : anyCoversIn d (first :: rest) p = if b then .ok true else anyCoversIn d rest p := by
      rw [anyCoversIn, hb]
      rfl
    simp only [hstep, List.mem_cons, exists_eq_or_imp, hb, ← ih]
    cases b with
    | true => simp
    | false => simp

end Dialects

/-! ## Rules that compile -/

/-- The glob of a rule has a pattern, or is known to match nothing. -/
def Compiles (rule : IgnoreRule) : Prop := ∃ found, Glob.compile rule.glob = .ok found

instance (rule : IgnoreRule) : Decidable rule.Compiles :=
  match h : Glob.compile rule.glob with
  | .ok found => .isTrue ⟨found, h⟩
  | .error _ => .isFalse fun ⟨_, hfound⟩ => by rw [h] at hfound; cases hfound

theorem compilesIn_standard {rule : IgnoreRule} : rule.CompilesIn .standard ↔ rule.Compiles := by
  unfold CompilesIn Compiles Glob.Dialect.standard
  constructor
  · rintro ⟨_, h⟩
    rcases hc : Glob.compile rule.glob with fault | found
    · rw [hc] at h
      cases h
    · exact ⟨found, rfl⟩
  · rintro ⟨found, h⟩
    rw [h]
    exact ⟨_, rfl⟩

theorem covers_of_compiles {rule : IgnoreRule} (h : rule.Compiles) (p : Path) :
    ∃ b, rule.covers p = .ok b := by
  rw [covers_eq_standard]
  exact coversIn_of_compilesIn (compilesIn_standard.2 h) p

theorem covers_below {rule : IgnoreRule} {p dir : Path} {parts : List String}
    (h : rule.covers dir = .ok true) (hp : p.below? dir = some parts) :
    rule.covers p = .ok true := by
  rw [covers_eq_standard] at h ⊢
  exact coversIn_below h hp

theorem anyCovers_cons (rule : IgnoreRule) (rest : List IgnoreRule) (p : Path) :
    anyCovers (rule :: rest) p =
      match rule.covers p with
      | .ok true => .ok true
      | .ok false => anyCovers rest p
      | .error fault => .error fault := by
  rw [anyCovers]
  rcases rule.covers p with fault | _ | _ <;> rfl

/-- Rules that do not cover a path were all tried, and none covers it. -/
theorem covers_of_anyCovers_false {p : Path} :
    ∀ {rules : List IgnoreRule}, anyCovers rules p = .ok false →
      ∀ rule ∈ rules, rule.covers p = .ok false
  | [], _, rule, hr => by cases hr
  | first :: rest, h, rule, hr => by
    rw [anyCovers_cons] at h
    rcases hc : first.covers p with fault | _ | _
    · rw [hc] at h
      cases h
    · rw [hc] at h
      rcases List.mem_cons.1 hr with rfl | hr
      · exact hc
      · exact covers_of_anyCovers_false h rule hr
    · rw [hc] at h
      cases h

/-- Some rule of a list covers a path. -/
def Covered (rules : List IgnoreRule) (p : Path) : Prop := ∃ rule ∈ rules, rule.covers p = .ok true

instance (rule : IgnoreRule) (p : Path) : Decidable (rule.covers p = .ok true) :=
  match rule.covers p with
  | .ok true => .isTrue rfl
  | .ok false => .isFalse fun h => by cases h
  | .error _ => .isFalse fun h => by cases h

instance (rules : List IgnoreRule) (p : Path) : Decidable (Covered rules p) :=
  inferInstanceAs (Decidable (∃ rule ∈ rules, rule.covers p = .ok true))

theorem covered_cons {rule : IgnoreRule} {rest : List IgnoreRule} {p : Path} :
    Covered (rule :: rest) p ↔ rule.covers p = .ok true ∨ Covered rest p := by
  unfold Covered
  simp only [List.mem_cons, exists_eq_or_imp]

theorem covered_of_anyCovers {p : Path} :
    ∀ {rules : List IgnoreRule}, anyCovers rules p = .ok true → Covered rules p
  | [], h => by cases h
  | first :: rest, h => by
    rw [anyCovers_cons] at h
    rcases hc : first.covers p with fault | _ | _
    · rw [hc] at h
      cases h
    · rw [hc] at h
      exact covered_cons.2 (.inr (covered_of_anyCovers h))
    · exact covered_cons.2 (.inl hc)

/-- Rules that cover a directory cover everything below it. -/
theorem Covered.below {rules : List IgnoreRule} {p dir : Path} {parts : List String}
    (h : Covered rules dir) (hp : p.below? dir = some parts) : Covered rules p := by
  obtain ⟨rule, hr, hc⟩ := h
  exact ⟨rule, hr, covers_below hc hp⟩

/-- Rules that compile always have an answer: whether one of them covers the path. -/
theorem anyCovers_of_compiles {p : Path} :
    ∀ {rules : List IgnoreRule}, (∀ rule ∈ rules, rule.Compiles) →
      anyCovers rules p = .ok (decide (Covered rules p))
  | [], _ => rfl
  | first :: rest, h => by
    have ih := @anyCovers_of_compiles p rest fun rule hr => h rule (List.mem_cons_of_mem first hr)
    obtain ⟨b, hb⟩ := covers_of_compiles (h first List.mem_cons_self) p
    rw [anyCovers_cons, hb]
    cases b with
    | true => simp only [covered_cons, hb, true_or, decide_true]
    | false => simp [covered_cons, hb, ih]

theorem anyCovers_eq_false_iff {rules : List IgnoreRule} {p : Path}
    (h : ∀ rule ∈ rules, rule.Compiles) : anyCovers rules p = .ok false ↔ ¬ Covered rules p := by
  rw [anyCovers_of_compiles h, Except.ok.injEq, decide_eq_false_iff_not]

/-- Rules none of which covers a path were all asked. -/
theorem anyCovers_eq_false {rules : List IgnoreRule} {p : Path} :
    anyCovers rules p = .ok false ↔ ∀ rule ∈ rules, rule.covers p = .ok false := by
  refine ⟨covers_of_anyCovers_false, fun h => ?_⟩
  induction rules with
  | nil => rfl
  | cons rule rules ih =>
    rw [anyCovers_cons, h rule List.mem_cons_self]
    exact ih fun r hr => h r (List.mem_cons_of_mem _ hr)

end IgnoreRule

end PlaceMap
