/-
Relative addresses. In a tree one way alone leads from an instance to another without turning back,
and `relative` is that way: it leads to its target, every other list of steps that leads there is
longer, and its length is a distance.

The proof looks at a single step. A step leads to a neighbour, and of the addresses seen from two
neighbours one is the other with a step in front of it. So no step comes nearer to the target by more
than one, and the first step of the address is the only one that comes nearer at all.
-/
import Mathlib.Data.List.Induction
import PlaceMap.TreePath

namespace PlaceMap

/-! ## Steps -/

namespace Step

theorem apply_child (name : String) (a : TreePath) : (child name).apply a = some (a ++ [name]) := by
  cases a <;> rfl

theorem apply_parent_concat (a : TreePath) (name : String) : parent.apply (a ++ [name]) = some a := by
  cases a with
  | nil => rfl
  | cons x a =>
    have hdrop : (x :: a ++ [name]).dropLast = x :: a := List.dropLast_concat
    exact congrArg some hdrop

/-- A step that goes up comes from a child. -/
theorem exists_of_apply_parent {a a' : TreePath} (h : parent.apply a = some a') :
    ∃ name, a = a' ++ [name] := by
  rcases a.eq_nil_or_concat with rfl | ⟨front, last, rfl⟩
  · cases h
  · rw [List.concat_eq_append, apply_parent_concat] at h
    cases h
    exact ⟨last, List.concat_eq_append⟩

/-- A step below some instance goes the same way when all stands further down in the tree. -/
theorem apply_append {s : Step} {a a' : TreePath} (h : s.apply a = some a') (c : TreePath) :
    s.apply (c ++ a) = some (c ++ a') := by
  cases s with
  | parent =>
    obtain ⟨name, rfl⟩ := exists_of_apply_parent h
    rw [← List.append_assoc, apply_parent_concat]
  | child name =>
    rw [apply_child] at h ⊢
    cases h
    rw [List.append_assoc]

end Step

namespace TreePath

/-! ## Following an address -/

theorem follow_append (steps steps' : List Step) (a : TreePath) :
    follow (steps ++ steps') a = (follow steps a).bind (follow steps') := by
  induction steps generalizing a with
  | nil => rfl
  | cons s steps ih =>
    rw [List.cons_append, follow, follow, Option.bind_assoc]
    exact congrArg _ (funext ih)

theorem follow_cons_eq_some {s : Step} {steps : List Step} {a b : TreePath} :
    follow (s :: steps) a = some b ↔ ∃ a', s.apply a = some a' ∧ follow steps a' = some b :=
  Option.bind_eq_some_iff

/-- Where an address leads, each of its beginnings leads somewhere. -/
theorem exists_follow_of_prefix {steps steps' : List Step} (h : steps' <+: steps) {a b : TreePath}
    (hb : follow steps a = some b) : ∃ p, follow steps' a = some p := by
  obtain ⟨rest, rfl⟩ := h
  rw [follow_append] at hb
  obtain ⟨p, hp, -⟩ := Option.bind_eq_some_iff.1 hb
  exact ⟨p, hp⟩

/-- An address leads the same way when all stands further down in the tree. -/
theorem follow_below {steps : List Step} {a b : TreePath} (h : follow steps a = some b)
    (c : TreePath) : follow steps (c ++ a) = some (c ++ b) := by
  induction steps generalizing a with
  | nil =>
    cases h
    rfl
  | cons s steps ih =>
    obtain ⟨a', ha, hb⟩ := follow_cons_eq_some.1 h
    exact follow_cons_eq_some.2 ⟨c ++ a', Step.apply_append ha c, ih hb⟩

theorem follow_down (a b : TreePath) : follow (b.map .child) a = some (a ++ b) := by
  induction b generalizing a with
  | nil => rw [List.append_nil]; rfl
  | cons y b ih =>
    rw [List.map_cons, follow, Step.apply_child, Option.bind_some, ih, List.append_assoc]
    rfl

theorem follow_up (a : TreePath) : follow (List.replicate a.length .parent) a = some [] := by
  induction a using List.reverseRecOn with
  | nil => rfl
  | append_singleton a name ih =>
    rw [List.length_append, List.length_singleton, List.replicate_succ, follow,
      Step.apply_parent_concat, Option.bind_some, ih]

/-! ## The address along the names of the two paths -/

theorem relative_nil (b : TreePath) : relative [] b = b.map .child := by
  simp [relative, commonLength]

theorem relative_nil_right (a : TreePath) : relative a [] = List.replicate a.length .parent := by
  simp [relative, commonLength]

/-- A name that two paths share does not count. -/
theorem relative_cons_cons (x : String) (a b : TreePath) :
    relative (x :: a) (x :: b) = relative a b := by
  simp [relative, commonLength]

theorem relative_cons_cons_of_ne {x y : String} (h : x ≠ y) (a b : TreePath) :
    relative (x :: a) (y :: b) =
      List.replicate (a.length + 1) .parent ++ (y :: b).map .child := by
  simp [relative, commonLength, h]

theorem relative_append_append (c a b : TreePath) : relative (c ++ a) (c ++ b) = relative a b := by
  induction c with
  | nil => rfl
  | cons x c ih => rw [List.cons_append, List.cons_append, relative_cons_cons, ih]

theorem relative_self (a : TreePath) : relative a a = [] := by
  simpa [relative_nil] using relative_append_append a [] []

/-- The address leads to its target. -/
theorem follow_relative : ∀ a b : TreePath, follow (relative a b) a = some b
  | [], b => by rw [relative_nil, follow_down, List.nil_append]
  | x :: a, [] => by rw [relative_nil_right, follow_up]
  | x :: a, y :: b => by
    by_cases h : x = y
    · rw [h, relative_cons_cons]
      exact follow_below (follow_relative a b) [y]
    · have hup : follow (List.replicate (a.length + 1) .parent) (x :: a) = some [] := follow_up (x :: a)
      rw [relative_cons_cons_of_ne h, follow_append, hup, Option.bind_some, follow_down,
        List.nil_append]

theorem commonLength_comm : ∀ a b : TreePath, commonLength a b = commonLength b a
  | [], [] => rfl
  | [], _ :: _ => rfl
  | _ :: _, [] => rfl
  | x :: a, y :: b => by
    rw [commonLength, commonLength, commonLength_comm a b]
    simp only [eq_comm]

theorem length_relative_comm (a b : TreePath) :
    (relative a b).length = (relative b a).length := by
  simp [relative, commonLength_comm b a, Nat.add_comm]

/-- The address goes up once for each name that is not shared. -/
theorem count_parent_relative (a b : TreePath) :
    (relative a b).count .parent = a.length - commonLength a b := by
  have hdown : ((b.drop (commonLength a b)).map Step.child).count .parent = 0 :=
    List.count_eq_zero.2 fun h => by
      obtain ⟨name, -, hname⟩ := List.mem_map.1 h
      cases hname
  rw [relative, List.count_append, List.count_replicate_self, hdown, Nat.add_zero]

/-! ## Two paths below a third -/

section

variable {a b c : TreePath}

/-- Each beginning of the address leads to a path below all that both ends are below. -/
theorem follow_relative_below (ha : c <+: a) (hb : c <+: b) {steps : List Step}
    (h : steps <+: relative a b) : ∃ p, follow steps a = some p ∧ c <+: p := by
  obtain ⟨a, rfl⟩ := ha
  obtain ⟨b, rfl⟩ := hb
  rw [relative_append_append] at h
  obtain ⟨p, hp⟩ := exists_follow_of_prefix h (follow_relative a b)
  exact ⟨c ++ p, follow_below hp c, List.prefix_append c p⟩

theorem count_parent_relative_le (ha : c <+: a) (hb : c <+: b) :
    (relative a b).count .parent ≤ a.length - c.length := by
  obtain ⟨a, rfl⟩ := ha
  obtain ⟨b, rfl⟩ := hb
  rw [relative_append_append, count_parent_relative, List.length_append]
  omega

end

/-! ## One step -/

/-- Of the addresses seen from an instance and from one of its children, one begins with the step to
the other. -/
theorem relative_concat : ∀ (a : TreePath) (name : String) (b : TreePath),
    relative a b = .child name :: relative (a ++ [name]) b ∨
      relative (a ++ [name]) b = .parent :: relative a b
  | [], name, [] => .inr rfl
  | [], name, y :: b => by
    by_cases h : name = y
    · left
      rw [h, List.nil_append, relative_cons_cons, relative_nil, relative_nil]
      rfl
    · right
      rw [List.nil_append, relative_cons_cons_of_ne h, relative_nil]
      rfl
  | x :: a, name, [] => by
    right
    rw [relative_nil_right, relative_nil_right, List.length_append]
    rfl
  | x :: a, name, y :: b => by
    rw [List.cons_append]
    by_cases h : x = y
    · rw [h, relative_cons_cons, relative_cons_cons]
      exact relative_concat a name b
    · right
      rw [relative_cons_cons_of_ne h, relative_cons_cons_of_ne h, List.length_append]
      rfl

/-- A step that leads somewhere either is the first one of the address, or leads away from the
target. -/
theorem relative_step {s : Step} {a a' : TreePath} (h : s.apply a = some a') (b : TreePath) :
    relative a b = s :: relative a' b ∨ ∃ s', relative a' b = s' :: relative a b := by
  cases s with
  | child name =>
    rw [Step.apply_child] at h
    cases h
    exact (relative_concat a name b).imp id fun h => ⟨_, h⟩
  | parent =>
    obtain ⟨name, rfl⟩ := Step.exists_of_apply_parent h
    exact (relative_concat a' name b).symm.imp id fun hdown => ⟨_, hdown⟩

/-- Whatever leads to the target is the address or longer. -/
theorem eq_relative_or_longer {steps : List Step} {a b : TreePath} (h : follow steps a = some b) :
    steps = relative a b ∨ (relative a b).length < steps.length := by
  induction steps generalizing a with
  | nil =>
    cases h
    exact .inl (relative_self _).symm
  | cons s steps ih =>
    obtain ⟨a', ha, hb⟩ := follow_cons_eq_some.1 h
    rcases relative_step ha b with hnearer | ⟨s', hfarther⟩
    · rw [hnearer]
      rcases ih hb with rfl | hlonger
      · exact .inl rfl
      · right
        simpa using hlonger
    · -- The rest starts one step farther away, and is no shorter than the address from there.
      right
      have hle : (relative a' b).length ≤ steps.length := by
        rcases ih hb with rfl | hlonger <;> omega
      rw [hfarther] at hle
      simp only [List.length_cons] at hle ⊢
      omega

/-! ## The shortest address -/

/-- The address leads from `a` to `b` and never up from the root. Whatever else leads there is longer.
The length of the address is a distance: the way back is as long, and a way round by `c` is no
shorter. -/
theorem relative_shortest (a b : TreePath) :
    follow (relative a b) a = some b ∧
      (∀ steps, follow steps a = some b →
        (relative a b).length ≤ steps.length ∧
          (steps.length = (relative a b).length → steps = relative a b)) ∧
      (relative a b).length = (relative b a).length ∧
      ∀ c, (relative a b).length ≤ (relative a c).length + (relative c b).length := by
  have hshortest : ∀ steps, follow steps a = some b → (relative a b).length ≤ steps.length := by
    intro steps h
    rcases eq_relative_or_longer h with rfl | hlonger <;> omega
  refine ⟨follow_relative a b, fun steps h => ⟨hshortest steps h, fun hlength => ?_⟩,
    length_relative_comm a b, fun c => ?_⟩
  · rcases eq_relative_or_longer h with heq | hlonger
    · exact heq
    · omega
  · -- The two addresses in turn are a way from `a` to `b`.
    rw [← List.length_append]
    refine hshortest _ ?_
    rw [follow_append, follow_relative, Option.bind_some, follow_relative]

/-- A way that first goes down, and from the target down and up again, is longer than the address. -/
theorem relative_shortest_detour :
    let steps : List Step := [.child "x", .parent, .parent, .child "c", .child "d", .parent]
    follow steps ["a", "b"] = some ["a", "c"] ∧
      relative ["a", "b"] ["a", "c"] = [.parent, .child "c"] ∧
      (relative ["a", "b"] ["a", "c"]).length ≤ steps.length := by
  intro steps
  have hsteps : follow steps ["a", "b"] = some ["a", "c"] := rfl
  obtain ⟨-, hshortest, -, -⟩ := relative_shortest ["a", "b"] ["a", "c"]
  exact ⟨hsteps, by decide, (hshortest steps hsteps).1⟩

end TreePath

end PlaceMap
