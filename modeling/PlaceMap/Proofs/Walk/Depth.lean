/-
How deep a build goes. A limit that suffices once suffices from there on, and some limit suffices
unless the visits lead on and on: a visit asks for finitely many others, so visits without a bound
have a chain without an end.

Of a given file system the chains are followed by computing the visits level by level, as
`Source.generation` does.
-/
import Mathlib.Data.Finset.Lattice.Fold
import Mathlib.Order.WellFounded
import Mathlib.Tactic.Choose
import PlaceMap.Proofs.Walk.Actions
import PlaceMap.Proofs.Walk.Stopping

namespace PlaceMap

namespace Walk

variable {fs : FileSystem} {visit visit' : Visit → Walk Unit}

/-! ## More depth than needed -/

/-- From every course, the second walk goes on as the first one does, unless that is too deep. -/
def Extends (w w' : Walk Unit) : Prop :=
  ∀ c, (w.follow c).1 ≠ .error .tooDeep → w'.follow c = w.follow c

theorem Extends.refl (w : Walk Unit) : Extends w w := fun _ _ => rfl

theorem Extends.bind {w w' : Walk Unit} {f f' : Unit → Walk Unit} (h : Extends w w')
    (hf : ∀ u, Extends (f u) (f' u)) : Extends (w >>= f) (w' >>= f') := by
  intro c hc
  rcases hw : w.follow c with ⟨e | u, d⟩
  · rw [follow_bind_error hw] at hc ⊢
    have hw' : w'.follow c = (.error e, d) := hw ▸ h c (by rw [hw]; exact hc)
    exact follow_bind_error hw'
  · rw [follow_bind_ok hw] at hc ⊢
    have hw' : w'.follow c = (.ok u, d) := hw ▸ h c (by rw [hw]; exact nofun)
    rw [follow_bind_ok hw']
    exact hf u d hc

theorem Extends.performAll (h : ∀ v, Extends (visit v) (visit' v)) :
    ∀ l : List Action, Extends (Action.performAll visit l) (Action.performAll visit' l)
  | [] => .refl _
  | a :: l => by
    rw [Action.performAll_cons, Action.performAll_cons]
    refine .bind ?_ fun _ => Extends.performAll h l
    cases a with
    | visit v => exact h v
    | _ => exact .refl _

theorem visit_extends (fs : FileSystem) :
    ∀ (depth : Nat) (v : Visit), Extends (Walk.visit fs depth v) (Walk.visit fs (depth + 1) v)
  | 0, _ => fun _ h => absurd rfl h
  | depth + 1, v => by
    unfold Walk.visit
    rw [Action.enter_eq, Action.enter_eq]
    exact .performAll (visit_extends fs depth) _

theorem visit_deeper (fs : FileSystem) {depth more : Nat} (hmore : depth ≤ more) (v : Visit) :
    Extends (Walk.visit fs depth v) (Walk.visit fs more v) := by
  induction hmore with
  | refl => exact .refl _
  | @step m _ ih =>
    intro c hc
    have hm := ih c hc
    rw [visit_extends fs m v c (hm ▸ hc), hm]

/-! ## Visits without an end -/

/-- No visits are nested so deeply in a visit. -/
def Shallow (fs : FileSystem) (n : Nat) (v : Visit) : Prop := ∀ v', ¬ AsksIn fs n v v'

theorem AsksIn.shorten {v v' : Visit} {m n : Nat} (h : AsksIn fs n v v') (hmn : m ≤ n) :
    ∃ v'', AsksIn fs m v v'' := by
  induction h generalizing m with
  | here =>
    rw [Nat.le_zero.1 hmn]
    exact ⟨_, .here⟩
  | step ha _ ih =>
    cases m with
    | zero => exact ⟨_, .here⟩
    | succ m =>
      obtain ⟨v'', hn⟩ := ih (Nat.le_of_succ_le_succ hmn)
      exact ⟨v'', .step ha hn⟩

theorem Shallow.mono {v : Visit} {m n : Nat} (h : Shallow fs m v) (hmn : m ≤ n) : Shallow fs n v :=
  fun _ hn =>
    let ⟨v'', hm⟩ := hn.shorten hmn
    h v'' hm

/-- The visits of a build lead on and on. -/
def Endless (fs : FileSystem) (s : Resolver.Source) : Prop :=
  ∃ chain : Nat → Visit, Starts fs s (chain 0) ∧ ∀ n, Asks fs (chain n) (chain (n + 1))

end Walk

open Walk (Asks AsksIn Endless Reached Shallow Starts)

/-- The visits that a visit may ask for, whatever its rules cover. -/
def Visit.successors (fs : FileSystem) : Visit → List Visit
  | .project file place root =>
    match Project.load fs file with
    | .ok p => (p.tree.bindings (Walk.placeOf root p.name place)).map
        (.ofBinding fs file.parent (p.rules file))
    | .error _ => []
  | .target path place ignored _ =>
    let path := path.toLuau
    if FileName.isProject path.name then [.project path place true]
    else match fs.list path with
      | .ok names =>
        if FileName.defaultProject ∈ names then
          [.project (path.child FileName.defaultProject) place true]
        else [.directory path place none ignored]
      | .error _ => []
  | .directory dir place name ignored =>
    match fs.list dir with
    | .ok names =>
      if FileName.defaultProject ∈ names then
        [.project (dir.child FileName.defaultProject) place false]
      else
        let place := place ++ name.toList
        names.flatMap fun n =>
          (if FileName.isProject n then [.project (dir.child n) place false] else []) ++
            match fs.isDirectory (dir.child n) with
            | .ok true => [.directory (dir.child n) place (some n) ignored]
            | _ => []
    | .error _ => []

theorem Walk.Asks.mem_successors {fs : FileSystem} {v v' : Visit} (h : Asks fs v v') :
    v' ∈ v.successors fs := by
  cases h with
  | binding hload he =>
    simp only [Visit.successors, hload]
    exact List.mem_map_of_mem he
  | included _ hp =>
    simp only [Visit.successors, hp, if_true]
    exact List.mem_singleton_self _
  | standard hs _ _ hl hn =>
    obtain ⟨raw, optional, rfl, rfl, -, hp⟩ := hs
    simp only [Visit.successors, hp, hl, hn, Bool.false_eq_true, if_false, if_true]
    exact List.mem_singleton_self _
  | search hs _ _ hl hn =>
    obtain ⟨raw, optional, rfl, rfl, -, hp⟩ := hs
    simp only [Visit.successors, hp, hl, hn, Bool.false_eq_true, if_false]
    exact List.mem_singleton_self _
  | standardBelow hl hn =>
    simp only [Visit.successors, hl, hn, if_true]
    exact List.mem_singleton_self _
  | entry hl hn _ hm hp _ =>
    simp only [Visit.successors, hl, hn, if_false]
    refine List.mem_flatMap.2 ⟨_, hm, List.mem_append_left _ ?_⟩
    rw [if_pos hp]
    exact List.mem_singleton_self _
  | subdirectory hl hn _ hm hdir =>
    simp only [Visit.successors, hl, hn, if_false]
    refine List.mem_flatMap.2 ⟨_, hm, List.mem_append_right _ ?_⟩
    rw [hdir]
    exact List.mem_singleton_self _

/-- The visits that a build may start with. -/
def Resolver.Source.first (fs : FileSystem) : Resolver.Source → List Visit
  | .project file => [.project (fs.normalize (.ofString file)) [] true]
  | .tree base n => (n.bindings []).map (.ofBinding fs (fs.normalize (.ofString base)) [])
  | .directory base =>
    let base := fs.normalize (.ofString base)
    ((TreeNode.bound base.toText).bindings []).map (.ofBinding fs (fs.normalize base) [])

theorem Walk.Starts.mem_first {fs : FileSystem} {s : Resolver.Source} {v : Visit}
    (h : Starts fs s v) : v ∈ s.first fs := by
  cases s with
  | project file => exact List.mem_singleton.2 h
  | tree base n =>
    obtain ⟨e, he, rfl⟩ := h
    exact List.mem_map_of_mem he
  | directory base =>
    obtain ⟨e, he, rfl⟩ := h
    exact List.mem_map_of_mem he

namespace Walk

variable {fs : FileSystem} {s : Resolver.Source}

/-- A visit from which no chain goes on without an end is shallow: the visits that it asks for are,
and they are finitely many. -/
theorem exists_shallow {v : Visit} (h : Acc (fun v' v => Asks fs v v') v) :
    ∃ n, Shallow fs n v := by
  induction h with
  | intro v _ ih =>
    choose! bound hbound using ih
    refine ⟨(v.successors fs).toFinset.sup bound + 1, fun v'' h => ?_⟩
    cases h with
    | step ha hn =>
      have hle := Finset.le_sup (f := bound) (List.mem_toFinset.2 ha.mem_successors)
      exact (hbound _ ha).mono hle _ hn

theorem exists_shallow_starts (h : ¬ Endless fs s) : ∃ n, ∀ v, Starts fs s v → Shallow fs n v := by
  have hacc : ∀ v, Starts fs s v → ∃ n, Shallow fs n v := by
    intro v hv
    refine exists_shallow (by_contra fun hacc => ?_)
    obtain ⟨chain, rfl, hchain⟩ := not_acc_iff_exists_descending_chain.1 hacc
    exact h ⟨chain, hv, hchain⟩
  choose! bound hbound using hacc
  refine ⟨(s.first fs).toFinset.sup bound, fun v hv => ?_⟩
  exact (hbound v hv).mono (Finset.le_sup (f := bound) (List.mem_toFinset.2 hv.mem_first))

end Walk

namespace Resolver

variable {fs : FileSystem} {s : Source}

/-- Once the limit on the depth suffices, a higher one makes no difference. -/
theorem build_deeper {depth : Nat} {config : Config} {x : Except Stop Resolver}
    (h : build fs depth config s = x) (hx : x ≠ .error .tooDeep) {more : Nat} (hmore : depth ≤ more) :
    build fs more config s = x := by
  have hextends : Walk.Extends (s.walk fs depth) (s.walk fs more) := by
    rw [Action.walk_eq, Action.walk_eq]
    exact .performAll (Walk.visit_deeper fs hmore) _
  have hdeep : ((s.walk fs depth).follow ⟨.empty, []⟩).1 ≠ .error .tooDeep := by
    intro hdeep
    refine hx (h.symm.trans ?_)
    rw [build_eq_ofWalk]
    unfold ofWalk Walk.runOn
    rw [show ((s.walk fs depth).follow ⟨.empty, []⟩) = (.error .tooDeep, _) from Prod.ext hdeep rfl]
  rw [← h, build_eq_ofWalk, build_eq_ofWalk]
  unfold ofWalk Walk.runOn
  rw [hextends _ hdeep]

/-- A build whose visits do not lead on and on is not too deep, from some limit on. -/
theorem exists_depth (h : ¬ Endless fs s) :
    ∃ depth, ∀ more, depth ≤ more → ∀ config, build fs more config s ≠ .error .tooDeep := by
  obtain ⟨depth, hdepth⟩ := Walk.exists_shallow_starts h
  refine ⟨depth, fun more hmore config hbuild => ?_⟩
  rcases build_eq_error hbuild with ⟨-, v, v', hv, hn⟩ | ⟨v, -, hstop⟩
  · exact (hdepth v hv).mono hmore v' hn
  · exact hstop.ne_tooDeep rfl

/-! ## Level by level -/

/-- The visits that a build may come to after so many requests. -/
def Source.generation (fs : FileSystem) (s : Source) : Nat → List Visit
  | 0 => s.first fs
  | n + 1 => (s.generation fs n).flatMap (Visit.successors fs)

theorem Source.generation_eq_nil {m n : Nat} (h : s.generation fs m = []) (hmn : m ≤ n) :
    s.generation fs n = [] := by
  induction hmn with
  | refl => exact h
  | step _ ih => rw [generation, ih]; rfl

theorem exists_generation {v : Visit} (h : Reached fs s v) : ∃ n, v ∈ s.generation fs n := by
  induction h with
  | start hv => exact ⟨0, hv.mem_first⟩
  | ask _ ha ih =>
    obtain ⟨n, hn⟩ := ih
    exact ⟨n + 1, List.mem_flatMap.2 ⟨_, hn, ha.mem_successors⟩⟩

/-- Once a generation is empty, what holds of the generations before holds of all visits. -/
theorem reached_of_generations {n : Nat} (hnil : s.generation fs n = []) {P : Visit → Prop}
    (h : ∀ m < n, ∀ v ∈ s.generation fs m, P v) {v : Visit} (hv : Reached fs s v) : P v := by
  obtain ⟨m, hm⟩ := exists_generation hv
  rcases Nat.lt_or_ge m n with hlt | hge
  · exact h m hlt v hm
  · rw [Source.generation_eq_nil hnil hge] at hm
    cases hm

end Resolver

end PlaceMap
