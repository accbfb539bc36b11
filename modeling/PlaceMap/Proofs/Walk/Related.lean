/-
Two walks side by side. They are related by a relation between tables if from related tables they
end alike and leave related tables; a walk is related part by part.
-/
import PlaceMap.Proofs.Walk.Basic

namespace PlaceMap.Walk

variable {α β : Type}

/-- Two walks end alike: with the same result, or with stops that `E` relates. -/
def EndsAlike (E : Stop → Stop → Prop) : Except Stop α → Except Stop α → Prop
  | .ok a, .ok b => a = b
  | .error e, .error f => E e f
  | _, _ => False

theorem endsAlike_eq {x y : Except Stop α} (h : EndsAlike Eq x y) : x = y := by
  cases x <;> cases y
  · exact congrArg Except.error h
  · cases h
  · cases h
  · exact congrArg Except.ok h

/-- From tables that `R` relates, two walks end alike and leave tables that `R` relates. -/
def Related (E : Stop → Stop → Prop) (R : Table → Table → Prop) (w w' : Walk α) : Prop :=
  ∀ c c', R c.now c'.now →
    EndsAlike E (w.follow c).1 (w'.follow c').1 ∧ R (w.follow c).2.now (w'.follow c').2.now

namespace Related

variable {E : Stop → Stop → Prop} {R : Table → Table → Prop}

theorem pure (a : α) : Related E R (Pure.pure a : Walk α) (Pure.pure a) := by
  intro c c' h
  rw [follow_pure, follow_pure]
  exact ⟨rfl, h⟩

theorem throw {e e' : Stop} (he : E e e') :
    Related E R (MonadExcept.throw e : Walk α) (MonadExcept.throw e') := by
  intro c c' h
  rw [follow_throw, follow_throw]
  exact ⟨he, h⟩

theorem change {f g : Table → Table} (hfg : ∀ t t', R t t' → R (f t) (g t')) :
    Related E R (Walk.change f) (Walk.change g) := by
  intro c c' h
  rw [follow_change, follow_change]
  exact ⟨rfl, hfg _ _ h⟩

theorem bind {w w' : Walk α} {f f' : α → Walk β} (hw : Related E R w w')
    (hf : ∀ a, Related E R (f a) (f' a)) : Related E R (w >>= f) (w' >>= f') := by
  intro c c' h
  obtain ⟨hend, hnow⟩ := hw c c' h
  rw [follow_bind, follow_bind]
  rcases hc : w.follow c with ⟨x, d⟩
  rcases hc' : w'.follow c' with ⟨y, d'⟩
  rw [hc, hc'] at hend hnow
  cases x <;> cases y
  · exact ⟨hend, hnow⟩
  · cases hend
  · cases hend
  · cases hend
    exact hf _ d d' hnow

theorem forM {f g : α → Walk Unit} :
    ∀ (l : List α), (∀ a ∈ l, Related E R (f a) (g a)) → Related E R (l.forM f) (l.forM g)
  | [], _ => pure _
  | a :: l, h =>
    bind (h a List.mem_cons_self) fun _ => forM l fun b hb => h b (List.mem_cons_of_mem _ hb)

section

variable (hE : ∀ e, E e e)
include hE

theorem isIgnored (rules : List IgnoreRule) (p : Path) :
    Related E R (Walk.isIgnored rules p) (Walk.isIgnored rules p) := by
  cases h : IgnoreRule.anyCovers rules p with
  | ok b => rw [isIgnored_of_ok h]; exact pure b
  | error fault => rw [isIgnored_of_error h]; exact throw (hE _)

theorem ask (answer : Except FsError Bool) : Related E R (Walk.ask answer) (Walk.ask answer) := by
  cases answer with
  | ok b => exact pure b
  | error e => exact throw (hE _)

theorem list (hwarn : ∀ w t t', R t t' → R (t.warn w) (t'.warn w)) (fs : FileSystem) (dir : Path) :
    Related E R (Walk.list fs dir) (Walk.list fs dir) := by
  unfold Walk.list
  split
  · exact pure _
  · split
    · exact bind (change (hwarn _)) fun _ => pure _
    · exact throw (hE _)

end

end Related

end PlaceMap.Walk
