/-
Tree paths and containers. A path is compared with a container up to the shorter of the two, so it is
classified by every container that it lies in, and also by those that lie below it. What holds of a
path because it lies in a container holds of all that is below the path. What holds of it because it
stands above containers does not: some path below it misses all of them.

Two files in the same container see each other without leaving it: the relative address climbs no
higher than their last common ancestor.
-/
import Mathlib.Data.Fintype.EquivFin
import PlaceMap.Proofs.TreePath.Relative
import PlaceMap.Resolver

namespace PlaceMap

/-! ## Paths in containers -/

namespace TreePath

/-- The path is one of the containers, or is below one. -/
def LiesIn (p : TreePath) (containers : List TreePath) : Prop := ∃ c ∈ containers, c <+: p

theorem LiesIn.append {p : TreePath} {containers : List TreePath} (h : p.LiesIn containers)
    (q : TreePath) : LiesIn (p ++ q) containers := by
  obtain ⟨c, hc, hp⟩ := h
  exact ⟨c, hc, hp.trans (List.prefix_append p q)⟩

theorem agrees_iff : ∀ {p c : TreePath}, p.agrees c = true ↔ c <+: p ∨ p <+: c
  | [], c => by simp [agrees]
  | _ :: _, [] => by simp [agrees]
  | x :: p, y :: c => by
    rw [agrees, Bool.and_eq_true, beq_iff_eq, agrees_iff, List.cons_prefix_cons,
      List.cons_prefix_cons, eq_comm (a := y), ← and_or_left]

theorem prefix_of_agrees {p c : TreePath} (h : p.agrees c = true) (hlength : c.length ≤ p.length) :
    c <+: p := by
  rcases agrees_iff.1 h with hc | hp
  · exact hc
  · rw [hp.eq_of_length_le hlength]

/-- Below every path there is one that misses all containers that do not hold the path itself: some
name stands in none of them. -/
theorem exists_disagrees (containers : List TreePath) (p : TreePath) :
    ∃ q, ∀ c ∈ containers, agrees (p ++ q) c = true → c <+: p := by
  obtain ⟨name, hname⟩ := Infinite.exists_notMem_finset containers.flatten.toFinset
  refine ⟨[name], fun c hc h => ?_⟩
  have hfresh : name ∉ c := fun hm =>
    hname (List.mem_toFinset.2 (List.mem_flatten.2 ⟨c, hc, hm⟩))
  rcases agrees_iff.1 h with hc | hp
  · rcases List.prefix_concat_iff.1 hc with rfl | hc
    · exact absurd (List.mem_append_right p (List.mem_singleton_self name)) hfresh
    · exact hc
  · exact absurd (hp.subset (List.mem_append_right p (List.mem_singleton_self name))) hfresh

end TreePath

namespace Resolver

open TreePath (follow relative)

variable {r : Resolver} {containers : List TreePath}

/-! ## The container of a path -/

theorem container_isSome_iff (hgame : r.table.isGame = true) {p : TreePath} :
    (r.container containers (some p)).isSome = true ↔ ∃ c ∈ containers, p.agrees c = true := by
  simp only [container, hgame, if_true, List.find?_isSome]

theorem agrees_of_container {p c : TreePath} (h : r.container containers (some p) = some c) :
    p.agrees c = true := by
  simp only [container] at h
  split at h
  · exact List.find?_some h
  · cases h

/-- All that is at and below a path has a container exactly if the path lies in one. -/
theorem container_below_iff (hgame : r.table.isGame = true) {p : TreePath} :
    (∀ q, (r.container containers (some (p ++ q))).isSome = true) ↔ p.LiesIn containers := by
  constructor
  · intro h
    obtain ⟨q, hq⟩ := TreePath.exists_disagrees containers p
    obtain ⟨c, hc, hagrees⟩ := (container_isSome_iff hgame).1 (h q)
    exact ⟨c, hc, hq c hc hagrees⟩
  · intro h q
    obtain ⟨c, hc, hp⟩ := h.append q
    exact (container_isSome_iff hgame).2 ⟨c, hc, TreePath.agrees_iff.2 (.inl hp)⟩

theorem side_eq_server_iff {place : Option TreePath} :
    r.side place = .server ↔ (r.container r.config.server place).isSome = true := by
  unfold side
  split
  · simp [*]
  · split <;> simp [*]

theorem side_ne_unknown_iff (hgame : r.table.isGame = true) {p : TreePath} :
    r.side (some p) ≠ .unknown ↔
      (r.container (r.config.server ++ r.config.client) (some p)).isSome = true := by
  rw [container_isSome_iff hgame]
  simp only [List.mem_append, or_and_right, exists_or, ← container_isSome_iff hgame]
  unfold side
  split
  · simp [*]
  · split <;> simp [*]

/-! ## What is inherited -/

/-- All that is at and below a path is isolated exactly if the path lies in an isolated container; all
of it runs on the server exactly if the path lies in a container of the server; and the side of all of
it is known exactly if the path lies in a container of one of the sides. -/
theorem inherited_iff_liesIn (r : Resolver) (hgame : r.table.isGame = true) (p : TreePath) :
    ((∀ q, r.isIsolated (some (p ++ q)) = true) ↔ p.LiesIn r.config.isolated) ∧
      ((∀ q, r.side (some (p ++ q)) = .server) ↔ p.LiesIn r.config.server) ∧
      ((∀ q, r.side (some (p ++ q)) ≠ .unknown) ↔
        p.LiesIn (r.config.server ++ r.config.client)) := by
  refine ⟨container_below_iff hgame, ?_, ?_⟩
  · simp only [side_eq_server_iff]
    exact container_below_iff hgame
  · simp only [side_ne_unknown_iff hgame]
    exact container_below_iff hgame

/-- A game without files. -/
def emptyGame (config : Config) : Resolver := ⟨Table.empty.markGame, config⟩

/-- Scripts of the player are isolated, with all that is below them. -/
theorem inherited_iff_liesIn_scripts :
    (emptyGame .standard).table.isGame = true ∧
      TreePath.LiesIn ["StarterPlayer", "StarterPlayerScripts", "Boot"] Config.standard.isolated ∧
      ∀ q, (emptyGame .standard).isIsolated
        (some (["StarterPlayer", "StarterPlayerScripts", "Boot"] ++ q)) = true := by
  have hlies : TreePath.LiesIn ["StarterPlayer", "StarterPlayerScripts", "Boot"]
      Config.standard.isolated :=
    ⟨["StarterPlayer", "StarterPlayerScripts"], by decide, by decide⟩
  exact ⟨rfl, hlies, (inherited_iff_liesIn (emptyGame .standard) rfl _).1.2 hlies⟩

/-- What stands above containers is classified by them, while other things below it are not. -/
theorem not_inherited :
    (¬ ∀ (r : Resolver) (p q : TreePath), r.table.isGame = true →
      r.isIsolated (some p) = true → r.isIsolated (some (p ++ q)) = true) ∧
    (¬ ∀ (r : Resolver) (p q : TreePath), r.table.isGame = true →
      r.side (some p) = .server → r.side (some (p ++ q)) = .server) ∧
    ¬ ∀ (r : Resolver) (p q : TreePath), r.table.isGame = true →
      r.side (some p) = .client → r.side (some (p ++ q)) ≠ .unknown := by
  refine ⟨fun h => ?_, fun h => ?_, fun h => ?_⟩
  · have hplayer := h (emptyGame .standard) ["StarterPlayer"] ["Humanoid"] rfl (by decide)
    revert hplayer
    decide
  · have hroot := h (emptyGame .standard) [] ["Workspace"] rfl (by decide)
    revert hroot
    decide
  · have hplayer := h (emptyGame ⟨[], [["StarterPlayer", "StarterPlayerScripts"]], []⟩)
      ["StarterPlayer"] ["Humanoid"] rfl (by decide)
    exact hplayer (by decide)

/-! ## Files in one container -/

theorem relation_eq_inToIn {a b : Option TreePath} :
    r.relation a b = .inToIn ↔
      ∃ c, r.container r.config.isolated a = some c ∧ r.container r.config.isolated b = some c := by
  unfold relation
  split
  · rename_i c d hc hd
    by_cases h : c = d <;> simp [*, eq_comm]
  all_goals simp [*]

/-- A file and what it requires in the same isolated container, both no higher than the container, are
joined by an address that never leaves the container: after each of its steps one is still below it,
so it goes up no more often than the file is deep in the container. The relation is mutual. -/
theorem relative_stays_inside (r : Resolver) {a b : TreePath}
    (h : r.relation (some a) (some b) = .inToIn) :
    r.relation (some b) (some a) = .inToIn ∧
      ∃ c, r.container r.config.isolated (some a) = some c ∧
        (c.length ≤ a.length → c.length ≤ b.length →
          (∀ steps, steps <+: relative a b → ∃ p, follow steps a = some p ∧ c <+: p) ∧
          (relative a b).count .parent ≤ a.length - c.length) := by
  obtain ⟨c, ha, hb⟩ := relation_eq_inToIn.1 h
  refine ⟨relation_eq_inToIn.2 ⟨c, hb, ha⟩, c, ha, fun hla hlb => ?_⟩
  have hca : c <+: a := TreePath.prefix_of_agrees (agrees_of_container ha) hla
  have hcb : c <+: b := TreePath.prefix_of_agrees (agrees_of_container hb) hlb
  exact ⟨fun steps hsteps => TreePath.follow_relative_below hca hcb hsteps,
    TreePath.count_parent_relative_le hca hcb⟩

/-- Of two containers, one in the other, the first that is listed counts. Two scripts in it see each
other by way of the folder that holds them both. -/
theorem relative_stays_inside_scripts :
    let r := emptyGame ⟨[["Player", "Scripts"], ["Player"]], [], []⟩
    let a := ["Player", "Scripts", "ui", "menu", "Menu"]
    let b := ["Player", "Scripts", "ui", "Button"]
    r.relation (some a) (some b) = .inToIn ∧ r.relation (some b) (some a) = .inToIn ∧
      relative a b = [.parent, .parent, .child "Button"] ∧
      (∃ p, follow [.parent, .parent] a = some p ∧ ["Player", "Scripts"] <+: p) ∧
      (relative a b).count .parent ≤ 3 := by
  intro r a b
  have hrelation : r.relation (some a) (some b) = .inToIn := by decide
  have haddress : relative a b = [.parent, .parent, .child "Button"] := by decide
  obtain ⟨hback, c, hc, hinside⟩ := relative_stays_inside r hrelation
  obtain rfl : ["Player", "Scripts"] = c := Option.some.inj hc
  obtain ⟨hway, hcount⟩ := hinside (by decide) (by decide)
  have hup : [Step.parent, .parent] <+: relative a b := by rw [haddress]; decide
  exact ⟨hrelation, hback, haddress, hway _ hup, hcount⟩

end Resolver

end PlaceMap
