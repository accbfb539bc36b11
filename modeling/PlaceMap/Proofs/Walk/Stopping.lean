/-
Why a build stops: a visit that it comes to has a question without an answer, or its visits are
nested as deep as the limit allows.
-/
import PlaceMap.Proofs.Walk.Reached

namespace PlaceMap

namespace Walk

/-- A walk stops in no other way than `E` allows. -/
def StopsOnly (E : Stop → Prop) : Walk Unit → Prop := Ensures fun _ r _ => ∀ e, r = .error e → E e

namespace StopsOnly

variable {E : Stop → Prop}

theorem change (f : Table → Table) : StopsOnly E (Walk.change f) :=
  Ensures.change fun _ _ h => by cases h

theorem throw {e : Stop} (h : E e) : StopsOnly E (throw e) :=
  Ensures.throw fun _ e' he => by
    cases he
    exact h

/-- Visits stop in no other way than one level of them does. -/
theorem closed {fs : FileSystem} {V : Visit → Prop} (h : ∀ v e, V v → Stops fs v e → E e) :
    Closed fs V (StopsOnly E) where
  pure := Ensures.pure fun _ _ h => by cases h
  stop := fun v e hv he => .throw (h v e hv he)
  bind := fun _ _ => Ensures.bind (fun _ _ _ h => h) fun _ _ _ _ _ h => h
  warn := fun w => .change _
  markGame := .change _
  mapFile := fun _ _ _ _ _ _ _ => .change _
  register := fun _ _ _ _ _ _ _ => .change _

end StopsOnly

theorem Stops.ne_tooDeep {fs : FileSystem} {v : Visit} {e : Stop} (h : Stops fs v e) :
    e ≠ .tooDeep := by
  cases h <;> exact Stop.noConfusion

/-- A visit that is too deep leads to visits that are nested as deep as the limit allows. -/
theorem visit_tooDeep (fs : FileSystem) :
    ∀ (depth : Nat) (v : Visit), (∀ v', ¬ AsksIn fs depth v v') →
      StopsOnly (· ≠ .tooDeep) (visit fs depth v)
  | 0, v, h => absurd .here (h v)
  | depth + 1, v, h => by
    have hclosed : Closed fs (fun _ => True) (StopsOnly (· ≠ .tooDeep)) :=
      StopsOnly.closed fun _ _ _ he => he.ne_tooDeep
    exact hclosed.enter trivial fun v' ha => visit_tooDeep fs depth v' fun v'' hn => h v'' (.step ha hn)

end Walk

namespace Resolver

open Walk (Starts AsksIn Reached Stops StopsOnly)

/-- A build that stops was too deep, or came to a visit that stops. -/
theorem build_eq_error {fs : FileSystem} {depth : Nat} {config : Config} {s : Source} {e : Stop}
    (h : build fs depth config s = .error e) :
    (e = .tooDeep ∧ ∃ v v', Starts fs s v ∧ AsksIn fs depth v v') ∨
    ∃ v, Reached fs s v ∧ Stops fs v e := by
  have hstop : ((s.walk fs depth).follow ⟨.empty, []⟩).1 = .error e := by
    rw [build_eq_ofWalk] at h
    unfold ofWalk Walk.runOn at h
    rcases hw : (s.walk fs depth).follow ⟨.empty, []⟩ with ⟨_ | _, d⟩
    · rw [hw] at h
      cases h
      rfl
    · rw [hw] at h
      cases h
  have hcause : StopsOnly (fun e => e = .tooDeep ∨ ∃ v, Reached fs s v ∧ Stops fs v e)
      (s.walk fs depth) :=
    (StopsOnly.closed fun v _ hv he => .inr ⟨v, hv, he⟩).source (.throw (.inl rfl)) depth
  refine (hcause _ e hstop).imp (fun he => ⟨he, ?_⟩) id
  by_cases hchain : ∃ v v', Starts fs s v ∧ AsksIn fs depth v v'
  · exact hchain
  have hshallow : StopsOnly (· ≠ .tooDeep) (s.walk fs depth) := by
    have hclosed : Walk.Closed fs (fun _ => True) (StopsOnly (· ≠ .tooDeep)) :=
      StopsOnly.closed fun _ _ _ he => he.ne_tooDeep
    exact hclosed.start fun v hv =>
      Walk.visit_tooDeep fs depth v fun v' hn => hchain ⟨v, v', hv, hn⟩
  exact absurd he (hshallow _ e hstop)

end Resolver

end PlaceMap
