/-
The log of a walk: one flat list of what is done at all levels, in order. A visit asks the file
system and never the table, so with what is done at each further visit in the place of the request
for it, nothing is left to ask. How a walk ends and what it leaves in the table is read off its log:
it ends at the first stop, and up to there each thing that the table holds is due to one action.

Beside the log stands the list of the visits that a walk comes to. Whatever the log holds is an
action of one of them.
-/
import PlaceMap.Proofs.Table.FileMap
import PlaceMap.Proofs.Walk.Depth

namespace PlaceMap

/-! ## Logs -/

/-- What is done by an action, if visits do what `log` says. -/
def Action.expand (log : Visit → List Action) : Action → List Action
  | .visit v => log v
  | .warn w => [.warn w]
  | .markGame => [.markGame]
  | .mapFile file place => [.mapFile file place]
  | .register p => [.register p]
  | .stop e => [.stop e]

/-- The visits that an action comes to, if a visit comes to those of `visits`. -/
def Action.visitsBy (visits : Visit → List Visit) : Action → List Visit
  | .visit v => visits v
  | _ => []

/-- All that is done by a visit of at most `depth` levels. -/
def Visit.log (fs : FileSystem) : Nat → Visit → List Action
  | 0, _ => [.stop .tooDeep]
  | depth + 1, v => (v.actions fs).flatMap (Action.expand (log fs depth))

/-- The visits that a visit of at most `depth` levels comes to, each before those that it asks
for. -/
def Visit.visits (fs : FileSystem) : Nat → Visit → List Visit
  | 0, _ => []
  | depth + 1, v => v :: (v.actions fs).flatMap (Action.visitsBy (visits fs depth))

namespace Resolver.Source

/-- All that is done by a build. -/
def log (fs : FileSystem) (depth : Nat) (s : Source) : List Action :=
  (s.actions fs).flatMap (Action.expand (Visit.log fs depth))

/-- The visits that a build comes to. -/
def visits (fs : FileSystem) (depth : Nat) (s : Source) : List Visit :=
  (s.actions fs).flatMap (Action.visitsBy (Visit.visits fs depth))

end Resolver.Source

namespace Action

/-- The warning that an action adds. -/
def warning? : Action → Option Warning
  | .warn w => some w
  | _ => none

/-- The partition that an action registers. -/
def partition? : Action → Option Partition
  | .register p => some p
  | _ => none

/-- The file that an action maps, with its tree path. -/
def mapped? : Action → Option (Path × TreePath)
  | .mapFile file place => some (file, place)
  | _ => none

/-- The stop of an action. -/
def stop? : Action → Option Stop
  | .stop e => some e
  | _ => none

/-- Whether an action marks the tree as a whole game. -/
def isMark : Action → Bool
  | .markGame => true
  | _ => false

/-- Does what a log says, from a table on. -/
def replay : List Action → Table → Except Stop Unit × Table
  | [], t => (.ok (), t)
  | .warn w :: l, t => replay l (t.warn w)
  | .markGame :: l, t => replay l t.markGame
  | .mapFile file place :: l, t => replay l (t.mapFile file place)
  | .register p :: l, t => replay l (t.register p)
  | .visit _ :: l, t => replay l t
  | .stop e :: _, t => (.error e, t)

variable {fs : FileSystem}

/-! ## A walk does what its log says -/

theorem performAll_expand {visit skip : Visit → Walk Unit} {log : Visit → List Action}
    (h : ∀ v, visit v = performAll skip (log v)) (l : List Action) :
    performAll visit l = performAll skip (l.flatMap (expand log)) := by
  rw [performAll_flatMap]
  refine congrArg (forM l) (funext fun a => ?_)
  cases a with
  | visit v => exact h v
  | _ => rw [expand, performAll_singleton]; rfl

theorem visit_eq_log (skip : Visit → Walk Unit) :
    ∀ (depth : Nat) (v : Visit), Walk.visit fs depth v = performAll skip (v.log fs depth)
  | 0, _ => (performAll_singleton (.stop .tooDeep)).symm
  | depth + 1, v => by
    rw [Walk.visit, enter_eq, Visit.log]
    exact performAll_expand (visit_eq_log skip depth) _

theorem follow_performAll : ∀ (l : List Action) (c : Course),
    (((performAll (fun _ => pure ()) l).follow c).1,
      ((performAll (fun _ => pure ()) l).follow c).2.now) = replay l c.now
  | [], _ => rfl
  | a :: l, c => by
    rw [performAll_cons, Walk.follow_bind]
    cases a with
    | stop e => rfl
    | visit v => exact follow_performAll l c
    | _ => exact follow_performAll l _

theorem runOn_visit (depth : Nat) (v : Visit) (t : Table) :
    (Walk.visit fs depth v).runOn t = replay (v.log fs depth) t := by
  rw [visit_eq_log fun _ => pure ()]
  exact follow_performAll _ _

theorem runOn_performAll (l : List Action) (depth : Nat) (t : Table) :
    (performAll (Walk.visit fs depth) l).runOn t =
      replay (l.flatMap (expand (Visit.log fs depth))) t := by
  rw [performAll_expand (visit_eq_log (fun _ => pure ()) depth)]
  exact follow_performAll _ _

theorem runOn_source (s : Resolver.Source) (depth : Nat) (t : Table) :
    (s.walk fs depth).runOn t = replay (s.log fs depth) t := by
  rw [walk_eq]
  exact runOn_performAll _ depth t

/-! ## What a log leaves -/

/-- A log ends at its first stop. -/
theorem failure?_replay : ∀ (l : List Action) (t : Table),
    failure? (replay l t).1 = l.findSome? stop?
  | [], _ => rfl
  | a :: l, t => by
    cases a with
    | stop e => rfl
    | _ => exact failure?_replay l _

theorem replay_eq_ok {l : List Action} {t : Table} :
    (replay l t).1 = .ok () ↔ ∀ a ∈ l, a.stop? = none := by
  rw [← List.findSome?_eq_none_iff, ← failure?_replay l t]
  cases (replay l t).1 <;> simp [failure?]

/-- Without a stop, the table holds what it held and what the actions add to it. -/
theorem replay_snd : ∀ {l : List Action} (t : Table), (∀ a ∈ l, a.stop? = none) →
    (replay l t).2 =
      ⟨(l.filterMap mapped?).foldl (fun m e => m.insert e.1 e.2) t.fileMap,
        (l.filterMap partition?).reverse ++ t.partitions, t.isGame || l.any isMark,
        t.warnings ++ l.filterMap warning?⟩
  | [], t, _ => by simp [replay]
  | a :: l, t, h => by
    have ih := fun t => replay_snd t fun b hb => h b (List.mem_cons_of_mem a hb)
    cases a with
    | stop e => cases h _ List.mem_cons_self
    | _ =>
      rw [replay, ih]
      simp [List.filterMap_cons, Table.warn, Table.markGame, Table.mapFile, Table.register, mapped?,
        partition?, isMark, warning?]

end Action

namespace Resolver

variable {fs : FileSystem} {depth : Nat} {config : Config} {s : Source} {r : Resolver}

/-- A build returns if its log has no stop, and then what the actions of the log add up to. -/
theorem build_eq_ok_iff : build fs depth config s = .ok r ↔
    (∀ a ∈ s.log fs depth, a.stop? = none) ∧
      r = ⟨(Action.replay (s.log fs depth) .empty).2, config⟩ := by
  rw [build_eq_ofWalk, ofWalk, Action.runOn_source, ← Action.replay_eq_ok (t := .empty)]
  rcases Action.replay (s.log fs depth) .empty with ⟨_ | _, t⟩
  · exact ⟨nofun, fun h => nomatch h.1⟩
  · exact ⟨fun h => ⟨rfl, (Except.ok.inj h).symm⟩, fun h => congrArg Except.ok h.2.symm⟩

/-- What a resolver holds adds up from the actions of the log. -/
theorem table_eq_of_log (h : build fs depth config s = .ok r) :
    r.table = ⟨((s.log fs depth).filterMap Action.mapped?).foldl (fun m e => m.insert e.1 e.2) [],
      ((s.log fs depth).filterMap Action.partition?).reverse, (s.log fs depth).any Action.isMark,
      (s.log fs depth).filterMap Action.warning?⟩ := by
  obtain ⟨hstop, rfl⟩ := build_eq_ok_iff.1 h
  rw [Action.replay_snd _ hstop]
  simp [Table.empty]

end Resolver

/-! ## The visits that a log is due to -/

section

variable {fs : FileSystem} {depth : Nat} {v v' : Visit} {a : Action}

theorem Visit.self_mem_visits : v ∈ v.visits fs (depth + 1) := List.mem_cons_self

theorem Visit.mem_visits_of_action (h : .visit v' ∈ v.actions fs) {v'' : Visit}
    (hv : v'' ∈ v'.visits fs depth) : v'' ∈ v.visits fs (depth + 1) :=
  List.mem_cons_of_mem _ (List.mem_flatMap.2 ⟨_, h, hv⟩)

/-- What a visit does is too deep, or an action of a visit that it comes to. -/
theorem Visit.mem_log : ∀ {depth : Nat} {v : Visit}, a ∈ v.log fs depth →
    a = .stop .tooDeep ∨ ∃ v' ∈ v.visits fs depth, a ∈ v'.actions fs
  | 0, _, h => .inl (List.mem_singleton.1 h)
  | depth + 1, v, h => by
    obtain ⟨b, hb, ha⟩ := List.mem_flatMap.1 h
    cases b with
    | visit v' =>
      refine (mem_log ha).imp_right fun ⟨v'', hv, ha⟩ => ?_
      exact ⟨v'', mem_visits_of_action hb hv, ha⟩
    | _ => exact .inr ⟨v, self_mem_visits, List.mem_singleton.1 ha ▸ hb⟩

/-- A visit comes to itself and to what the visits among its actions come to. -/
theorem Visit.mem_visits_succ :
    v' ∈ v.visits fs (depth + 1) ↔
      v' = v ∨ ∃ w, .visit w ∈ v.actions fs ∧ v' ∈ w.visits fs depth := by
  rw [visits, List.mem_cons, List.mem_flatMap]
  refine or_congr_right ⟨?_, fun ⟨w, hw, hv⟩ => ⟨_, hw, hv⟩⟩
  rintro ⟨b, hb, hv⟩
  cases b with
  | visit w => exact ⟨w, hb, hv⟩
  | _ => cases hv

/-- What holds of a visit, and goes on from each visit that it comes to to those that this one asks
for, holds of them all. -/
theorem Visit.forall_visits {P : Visit → Prop} :
    ∀ {depth : Nat} {v : Visit}, P v →
      (∀ w ∈ v.visits fs depth, P w → ∀ w', .visit w' ∈ w.actions fs → P w') →
      ∀ w ∈ v.visits fs depth, P w
  | 0, _, _, _, _, h => nomatch h
  | depth + 1, v, hv, hstep, w, h => by
    rcases mem_visits_succ.1 h with rfl | ⟨v', hv', h⟩
    · exact hv
    · have hnext := hstep v self_mem_visits hv v' hv'
      exact forall_visits hnext (fun w hw => hstep w (mem_visits_of_action hv' hw)) w h

theorem Visit.shallow_of_mem (h : Walk.Shallow fs (depth + 1) v) (hv : .visit v' ∈ v.actions fs) :
    Walk.Shallow fs depth v' :=
  fun v'' hn => h v'' (.step (Action.asks_of_mem hv) hn)

/-- What `g` makes of the actions in a log is, in order, what `h` makes of the visits, if `g` makes
something only of the one action of a visit of which `h` makes the same. The walk may not be too
deep, and `V` holds of the visits. -/
theorem Visit.filterMap_log {β : Type} {g : Action → Option β} {h : Visit → Option β}
    {V : Visit → Prop} (hV : ∀ v v', V v → .visit v' ∈ v.actions fs → V v')
    (hvisit : ∀ v, g (.visit v) = none)
    (hsome : ∀ v b, V v → h v = some b → ∃ a, v.actions fs = [a] ∧ g a = some b)
    (hnone : ∀ v a b, V v → a ∈ v.actions fs → g a = some b → h v = some b) :
    ∀ {depth : Nat} {v : Visit}, V v → Walk.Shallow fs depth v →
      (v.log fs depth).filterMap g = (v.visits fs depth).filterMap h
  | 0, v, _, hshallow => absurd .here (hshallow v)
  | depth + 1, v, hv, hshallow => by
    rw [log, visits, List.filterMap_flatMap, List.filterMap_cons, List.filterMap_flatMap]
    rcases hb : h v with _ | b
    · -- No action counts but those of the visits that are asked for.
      refine List.flatMap_congr fun a ha => ?_
      have hskip : ∀ a ∈ v.actions fs, g a = none := fun a ha =>
        Option.eq_none_iff_forall_ne_some.2 fun b hg => by
          rw [hnone v a b hv ha hg] at hb
          cases hb
      cases a with
      | visit v' => exact filterMap_log hV hvisit hsome hnone (hV v v' hv ha) (shallow_of_mem hshallow ha)
      | _ => exact List.filterMap_cons_none (hskip _ ha)
    · obtain ⟨a, hactions, hg⟩ := hsome v b hv hb
      rw [hactions]
      cases a with
      | visit v' =>
        rw [hvisit] at hg
        cases hg
      | _ => simp [Action.expand, Action.visitsBy, hg]

variable {s : Resolver.Source}

theorem Resolver.Source.mem_visits :
    v ∈ s.visits fs depth ↔ ∃ w, .visit w ∈ s.actions fs ∧ v ∈ w.visits fs depth := by
  rw [visits, List.mem_flatMap]
  refine ⟨?_, fun ⟨w, hw, hv⟩ => ⟨_, hw, hv⟩⟩
  rintro ⟨b, hb, hv⟩
  cases b with
  | visit w => exact ⟨w, hb, hv⟩
  | _ => cases hv

/-- What a build does is its own action, or too deep, or an action of a visit that it comes to. -/
theorem Resolver.Source.mem_log (h : a ∈ s.log fs depth) :
    a ∈ s.actions fs ∨ a = .stop .tooDeep ∨ ∃ v ∈ s.visits fs depth, a ∈ v.actions fs := by
  obtain ⟨b, hb, ha⟩ := List.mem_flatMap.1 h
  cases b with
  | visit w =>
    refine .inr ((Visit.mem_log ha).imp_right fun ⟨v, hv, ha⟩ => ?_)
    exact ⟨v, mem_visits.2 ⟨w, hb, hv⟩, ha⟩
  | _ => exact .inl (List.mem_singleton.1 ha ▸ hb)

end

end PlaceMap
