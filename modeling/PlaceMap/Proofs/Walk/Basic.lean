/-
How a walk goes on from a course: the equations of its parts, and of its questions once their
answers are known; and the rules for what a walk ensures, whatever it is. Later proofs cite these
and do not open the monad.
-/
import PlaceMap.Table.Walk

namespace PlaceMap

/-- Why a computation fails, if it does. -/
def failure? {ε α : Type} : Except ε α → Option ε
  | .ok _ => none
  | .error e => some e

theorem failure?_eq_some {ε α : Type} {x : Except ε α} {e : ε} :
    failure? x = some e ↔ x = .error e := by
  cases x <;> simp [failure?]

theorem toOption_eq_some {ε α : Type} {x : Except ε α} {a : α} : x.toOption = some a ↔ x = .ok a := by
  cases x <;> simp [Except.toOption]

/-- A computation whose result is known up to a function has a result. -/
theorem exists_eq_ok {ε α β : Type} {x : Except ε α} {f : α → β} {b : β}
    (h : x.toOption.map f = some b) : ∃ a, x = .ok a ∧ f a = b := by
  obtain ⟨a, hx, hf⟩ := Option.map_eq_some_iff.1 h
  exact ⟨a, toOption_eq_some.1 hx, hf⟩

theorem ne_error_of_exists {ε α : Type} {x : Except ε α} (h : ∃ a, x = .ok a) {e : ε} :
    x ≠ .error e := by
  obtain ⟨a, rfl⟩ := h
  exact nofun

end PlaceMap

namespace PlaceMap.Walk

variable {α β : Type}

/-! ## Parts of a walk -/

theorem follow_pure (a : α) (c : Course) : (pure a : Walk α).follow c = (.ok a, c) := rfl

theorem follow_throw (e : Stop) (c : Course) :
    Walk.follow (throw e : Walk α) c = (.error e, c) := rfl

theorem follow_change (f : Table → Table) (c : Course) :
    (change f).follow c = (.ok (), c.change f) := rfl

/-- A walk goes on with its second part unless the first one stops. -/
theorem follow_bind (w : Walk α) (f : α → Walk β) (c : Course) :
    (w >>= f).follow c =
      match w.follow c with
      | (.ok a, d) => (f a).follow d
      | (.error e, d) => (.error e, d) := by
  rw [follow, ExceptT.run_bind, StateT.run_bind]
  rcases h : w.follow c with ⟨_ | a, d⟩
  all_goals
    unfold follow at h
    rw [h]
    rfl

theorem follow_bind_ok {w : Walk α} {f : α → Walk β} {c d : Course} {a : α}
    (h : w.follow c = (.ok a, d)) : (w >>= f).follow c = (f a).follow d := by
  rw [follow_bind, h]

theorem follow_bind_error {w : Walk α} {f : α → Walk β} {c d : Course} {e : Stop}
    (h : w.follow c = (.error e, d)) : (w >>= f).follow c = (.error e, d) := by
  rw [follow_bind, h]

/-- A walk that is known to return leaves some course. -/
theorem exists_follow_eq_ok {w : Walk Unit} {c : Course} (h : (w.follow c).1.toOption = some ()) :
    ∃ d, w.follow c = (.ok (), d) := ⟨_, Prod.ext (toOption_eq_some.1 h) rfl⟩

/-! ## Questions with known answers -/

theorem isIgnored_of_ok {rules : List IgnoreRule} {p : Path} {b : Bool}
    (h : IgnoreRule.anyCovers rules p = .ok b) : isIgnored rules p = pure b := by
  unfold isIgnored; rw [h]

theorem isIgnored_of_error {rules : List IgnoreRule} {p : Path} {fault : Glob.Fault}
    (h : IgnoreRule.anyCovers rules p = .error fault) : isIgnored rules p = throw (.glob fault) := by
  unfold isIgnored; rw [h]

theorem list_of_ok {fs : FileSystem} {dir : Path} {names : List String}
    (h : fs.list dir = .ok names) : list fs dir = pure (some names) := by
  unfold list; rw [h]

theorem list_of_system {fs : FileSystem} {dir : Path} {e : FsError}
    (h : fs.list dir = .error e) (he : e.isSystem = true) :
    list fs dir = (do warn (.unreadable dir e); return none) := by
  unfold list; rw [h]; simp only [he, if_true]

theorem list_of_unusable {fs : FileSystem} {dir : Path} {e : FsError}
    (h : fs.list dir = .error e) (he : e.isSystem = false) : list fs dir = throw (.failed e) := by
  unfold list; rw [h]; simp [he]

/-! ## What a walk ensures -/

/-- From every course a walk ends, and leaves a course, as `P` says. -/
def Ensures (P : Course → Except Stop Unit → Course → Prop) (w : Walk Unit) : Prop :=
  ∀ c, P c (w.follow c).1 (w.follow c).2

namespace Ensures

variable {P Q R : Course → Except Stop Unit → Course → Prop}

theorem pure (h : ∀ c, P c (.ok ()) c) : Ensures P (Pure.pure ()) := by
  intro c
  rw [follow_pure]
  exact h c

theorem throw {e : Stop} (h : ∀ c, P c (.error e) c) : Ensures P (MonadExcept.throw e) := by
  intro c
  rw [follow_throw]
  exact h c

theorem change {f : Table → Table} (h : ∀ c, P c (.ok ()) (c.change f)) :
    Ensures P (Walk.change f) := by
  intro c
  rw [follow_change]
  exact h c

/-- Two walks in turn: either the first one stops, or the second one goes on from its end. -/
theorem bind {w w' : Walk Unit} (hstop : ∀ c e d, P c (.error e) d → R c (.error e) d)
    (hgo : ∀ c d r e, P c (.ok ()) d → Q d r e → R c r e) (h : Ensures P w) (h' : Ensures Q w') :
    Ensures R (do w; w') := by
  intro c
  have hfirst := h c
  rcases hw : w.follow c with ⟨e | _, d⟩ <;> rw [hw] at hfirst
  · rw [follow_bind_error hw]
    exact hstop c e d hfirst
  · rw [follow_bind_ok hw]
    exact hgo c d _ _ hfirst (h' d)

end Ensures

end PlaceMap.Walk
