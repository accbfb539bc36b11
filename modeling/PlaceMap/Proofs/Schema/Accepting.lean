/-
When a check accepts. Each way to put checks together accepts exactly what its parts accept, and
what it gives is put together from what they give; a boolean is read from exactly the values that
spell one.
-/
import Mathlib.Data.List.Forall2
import PlaceMap.Schema.Scalar

namespace PlaceMap

/-! ## The fields of an object -/

/-- What the field of a key says, where `R` tells what a value says: nothing if the key is absent or
its value is null. -/
inductive Json.Fields.Says {α : Type} (fields : Json.Fields) (key : String) (R : Json → α → Prop) :
    Option α → Prop
  | absent : fields.find? key = none → Says fields key R none
  | null : fields.find? key = some .null → Says fields key R none
  | value {v a} : fields.find? key = some v → R v a → Says fields key R (some a)

namespace Schema

variable {α β γ : Type}

/-! ## Checks of parts -/

namespace Checked

theorem map_eq_ok {a : Checked α} {f : α → β} {c : β} :
    a.map f = .ok c ↔ ∃ x, a = .ok x ∧ f x = c := by
  cases a <;> simp [Except.map]

theorem both_eq_ok {f : α → β → γ} {a : Checked α} {b : Checked β} {c : γ} :
    both f a b = .ok c ↔ ∃ x y, a = .ok x ∧ b = .ok y ∧ f x y = c := by
  cases a <;> cases b <;> simp [both]

theorem apply_eq_ok {f : Checked (α → β)} {a : Checked α} {c : β} :
    f.apply a = .ok c ↔ ∃ g x, f = .ok g ∧ a = .ok x ∧ g x = c := both_eq_ok

theorem within_eq_ok {place : List String} {a : Checked α} {x : α} :
    within place a = .ok x ↔ a = .ok x := by
  cases a <;> simp [within]

/-- A check with further violations does not accept. -/
theorem guarded_eq_ok {a : Checked α} {vs : List Violation} {x : α} :
    a.guarded vs = .ok x ↔ a = .ok x ∧ vs = [] := by
  unfold guarded
  cases vs <;> simp [both_eq_ok]

theorem items_eq_ok {check : Json → Checked α} :
    ∀ {items : List Json} {start : Nat} {l : List α},
      Checked.items check start items = .ok l ↔ List.Forall₂ (fun v a => check v = .ok a) items l
  | [], _, l => by
    rw [items, List.forall₂_nil_left_iff]
    exact ⟨fun h => (Except.ok.inj h).symm, fun h => h ▸ rfl⟩
  | v :: rest, start, l => by
    rw [items, both_eq_ok, List.forall₂_cons_left_iff]
    simp only [within_eq_ok, @items_eq_ok check rest]
    constructor
    · rintro ⟨a, as, ha, has, rfl⟩
      exact ⟨a, as, ha, has, rfl⟩
    · rintro ⟨a, as, ha, has, rfl⟩
      exact ⟨a, as, ha, has, rfl⟩

theorem report_eq_ok {model : String} {a : Checked α} {x : α} :
    a.report model = .ok x ↔ a = .ok x := by
  cases a <;> simp [report]

end Checked

/-! ## Checks of fields -/

/-- There are no unknown fields exactly if every field is known. -/
theorem unknown_eq_nil {known : String → Bool} {fields : Json.Fields} :
    unknown known fields = [] ↔ ∀ field ∈ fields, known field.1 = true := by
  unfold unknown
  rw [List.map_eq_nil_iff, List.filter_eq_nil_iff]
  simp only [Bool.not_eq_true', Bool.not_eq_false]

theorem required_eq_ok {whole : Json} {fields : Json.Fields} {key : String}
    {check : Json → Checked α} {a : α} :
    required whole fields key check = .ok a ↔ ∃ v, fields.find? key = some v ∧ check v = .ok a := by
  unfold required
  rw [Checked.within_eq_ok]
  cases fields.find? key <;> simp [Checked.refuse]

/-- A field that may be absent or null is accepted if a value that stands there is. -/
theorem optional_nullable_eq_ok {fields : Json.Fields} {key : String} {check : Json → Checked α}
    {R : Json → α → Prop} (hnull : ∀ a, ¬ R .null a) (hcheck : ∀ v a, check v = .ok a ↔ R v a)
    {o : Option α} :
    optional fields key none (nullable check) = .ok o ↔ fields.Says key R o := by
  unfold optional
  rcases hfind : fields.find? key with _ | v
  · constructor
    · rintro ⟨⟩
      exact .absent hfind
    · intro h
      cases h with
      | absent => rfl
      | null => rfl
      | value h => rw [hfind] at h; cases h
  · dsimp only
    rw [Checked.within_eq_ok]
    constructor
    · intro h
      unfold nullable at h
      split at h
      · cases h
        exact .null hfind
      · obtain ⟨a, ha, rfl⟩ := Checked.map_eq_ok.1 h
        exact .value hfind ((hcheck _ _).1 ha)
    · intro h
      cases h with
      | absent h => rw [hfind] at h; cases h
      | null h => rw [hfind] at h; cases h; rfl
      | value h hv =>
        rw [hfind] at h
        cases h
        unfold nullable
        split
        · exact absurd hv (hnull _)
        · rw [(hcheck _ _).2 hv]
          rfl

/-! ## Checks of values -/

theorem string_eq_ok {v : Json} {s : String} : string v = .ok s ↔ v = .str s := by
  cases v <;> simp [string, Checked.refuse]

theorem list_eq_ok {check : Json → Checked α} {v : Json} {l : List α} :
    list check v = .ok l ↔
      ∃ items, v = .arr items ∧ List.Forall₂ (fun v a => check v = .ok a) items l := by
  cases v <;> simp [list, Checked.refuse, Checked.items_eq_ok]

/-- The first of two checks that accepts a value reads it. -/
theorem either_eq_ok {first second : String} {check check' : Json → Checked α} {v : Json} {a : α} :
    either first second check check' v = .ok a ↔
      check v = .ok a ∨ (∃ vs, check v = .error vs) ∧ check' v = .ok a := by
  unfold either
  cases check v <;> cases check' v <;> simp [Checked.both_eq_ok, Checked.within_eq_ok]

/-! ## Truth values -/

/-- The truth values and what spells them: the numbers 0 and 1, and some words in small or capital
letters. -/
inductive Spells : Json → Bool → Prop
  | bool (b) : Spells (.bool b) b
  | zero : Spells (.int 0) false
  | one : Spells (.int 1) true
  | realZero {x : Number} : x.toInt? = some 0 → Spells (.real x) false
  | realOne {x : Number} : x.toInt? = some 1 → Spells (.real x) true
  | no {s : String} : String.ofList (s.toList.map lower) ∈ ["0", "off", "f", "false", "n", "no"] →
    Spells (.str s) false
  | yes {s : String} : String.ofList (s.toList.map lower) ∈ ["1", "on", "t", "true", "y", "yes"] →
    Spells (.str s) true

theorem ofBit_eq_some {i : Int} {b : Bool} :
    ofBit i = some b ↔ (i = 0 ∧ b = false) ∨ (i = 1 ∧ b = true) := by
  unfold ofBit
  split
  · rename_i h
    subst h
    cases b <;> simp
  · split
    · rename_i h
      subst h
      cases b <;> simp
    · cases b <;> simp [*]

/-- No word spells both truth values. -/
theorem boolean?_eq_some {s : String} {b : Bool} : boolean? s = some b ↔ Spells (.str s) b := by
  have hdisjoint : ∀ word ∈ ["1", "on", "t", "true", "y", "yes"],
      word ∉ ["0", "off", "f", "false", "n", "no"] := by decide
  unfold boolean?
  dsimp only
  constructor
  · intro h
    split at h
    · rename_i hno
      cases h
      exact .no hno
    · split at h
      · rename_i hyes
        cases h
        exact .yes hyes
      · cases h
  · intro h
    cases h with
    | no hno => rw [if_pos hno]
    | yes hyes => rw [if_neg (hdisjoint _ hyes), if_pos hyes]

theorem spelled_eq_ok {v : Json} {o : Option Bool} {b : Bool} :
    (match o with
      | some b => .ok b
      | none => Checked.refuse .unclearBoolean v : Checked Bool) = .ok b ↔ o = some b := by
  cases o <;> simp [Checked.refuse]

theorem boolean_int_eq_ok {i : Int} {b : Bool} :
    boolean (.int i) = .ok b ↔ ofBit i = some b := by
  unfold boolean
  dsimp only
  split
  · exact spelled_eq_ok
  · rename_i hword
    constructor
    · rintro ⟨⟩
    · intro h
      -- Both numbers that spell a truth value fit into a word.
      rcases ofBit_eq_some.1 h with ⟨rfl, -⟩ | ⟨rfl, -⟩ <;> exact absurd (by decide) hword

theorem boolean_real_eq_ok {x : Number} {b : Bool} :
    boolean (.real x) = .ok b ↔ ∃ i, x.toInt? = some i ∧ ofBit i = some b := by
  have hbit : ∀ {i : Int}, ofBit i = some b → wholeWord? i = some i := by
    intro i h
    rcases ofBit_eq_some.1 h with ⟨rfl, -⟩ | ⟨rfl, -⟩ <;> decide
  unfold boolean
  dsimp only
  constructor
  · intro h
    split at h
    · rename_i i hi
      obtain ⟨j, hj, hw⟩ := Option.bind_eq_some_iff.1 hi
      have hij : j = i := by
        unfold wholeWord? at hw
        split at hw
        · exact Option.some.inj hw
        · cases hw
      exact ⟨i, hij ▸ hj, spelled_eq_ok.1 h⟩
    · cases h
  · rintro ⟨i, hi, hb⟩
    rw [hi, Option.bind_some, hbit hb]
    exact spelled_eq_ok.2 hb

theorem boolean_eq_ok {v : Json} {b : Bool} : boolean v = .ok b ↔ Spells v b := by
  cases v with
  | bool c =>
    constructor
    · rintro ⟨⟩
      exact .bool b
    · rintro ⟨⟩
      rfl
  | str s => exact spelled_eq_ok.trans boolean?_eq_some
  | int i =>
    rw [boolean_int_eq_ok, ofBit_eq_some]
    constructor
    · rintro (⟨rfl, rfl⟩ | ⟨rfl, rfl⟩)
      · exact .zero
      · exact .one
    · intro h
      cases h with
      | zero => exact .inl ⟨rfl, rfl⟩
      | one => exact .inr ⟨rfl, rfl⟩
  | real x =>
    rw [boolean_real_eq_ok]
    simp only [ofBit_eq_some]
    constructor
    · rintro ⟨i, hi, ⟨rfl, rfl⟩ | ⟨rfl, rfl⟩⟩
      · exact .realZero hi
      · exact .realOne hi
    · intro h
      cases h with
      | realZero hi => exact ⟨0, hi, .inl ⟨rfl, rfl⟩⟩
      | realOne hi => exact ⟨1, hi, .inr ⟨rfl, rfl⟩⟩
  | _ => exact ⟨nofun, nofun⟩

end Schema

end PlaceMap
