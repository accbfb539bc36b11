/-
Suffixes, and the replacement of the former script extension: a replaced name never has the former
suffix, a name without it stays as it is, and a replaced name of a directory entry is one again.
-/
import PlaceMap.FileName

namespace PlaceMap.FileName

/-! ## The last dot -/

theorem splitLastDot_eq_none {cs : List Char} : splitLastDot cs = none ↔ '.' ∉ cs := by
  induction cs with
  | nil => exact ⟨fun _ => List.not_mem_nil, fun _ => rfl⟩
  | cons c cs ih =>
    rw [splitLastDot]
    constructor
    · intro h hm
      rcases hs : splitLastDot cs with _ | ⟨before, after⟩
      · rw [hs] at h
        dsimp only at h
        split at h
        · cases h
        · rename_i hc
          rcases List.mem_cons.1 hm with he | hm
          · exact hc he.symm
          · exact ih.1 hs hm
      · rw [hs] at h
        cases h
    · intro h
      rw [ih.2 fun hm => h (List.mem_cons_of_mem _ hm)]
      exact if_neg fun hc : c = '.' => h (hc ▸ List.mem_cons_self)

/-- The last dot is the one behind which there is no dot. -/
theorem splitLastDot_append (before : List Char) {after : List Char} (h : '.' ∉ after) :
    splitLastDot (before ++ '.' :: after) = some (before, after) := by
  induction before with
  | nil =>
    rw [List.nil_append, splitLastDot, splitLastDot_eq_none.2 h]
    rfl
  | cons c before ih => rw [List.cons_append, splitLastDot, ih]

theorem eq_of_splitLastDot {cs before after : List Char}
    (h : splitLastDot cs = some (before, after)) : cs = before ++ '.' :: after ∧ '.' ∉ after := by
  induction cs generalizing before with
  | nil => cases h
  | cons c cs ih =>
    rw [splitLastDot] at h
    rcases hs : splitLastDot cs with _ | ⟨b, a⟩
    · rw [hs] at h
      dsimp only at h
      split at h
      · rename_i hc
        cases h
        exact ⟨by rw [hc]; rfl, splitLastDot_eq_none.1 hs⟩
      · cases h
    · rw [hs] at h
      cases h
      obtain ⟨hcs, ha⟩ := ih hs
      exact ⟨by rw [hcs]; rfl, ha⟩

/-! ## The suffix -/

/-- A suffix begins at the last dot, if characters stand on both sides of it. -/
theorem splitSuffix_append {before after : List Char} (hb : before ≠ []) (ha : after ≠ [])
    (h : '.' ∉ after) : splitSuffix (before ++ '.' :: after) = (before, '.' :: after) := by
  unfold splitSuffix
  rw [splitLastDot_append before h]
  cases before with
  | nil => exact absurd rfl hb
  | cons c before =>
    cases after with
    | nil => exact absurd rfl ha
    | cons d after => rfl

/-- The suffix is empty, or what stands from the last dot on. -/
theorem splitSuffix_cases (cs : List Char) :
    splitSuffix cs = (cs, []) ∨
    ∃ before after, before ≠ [] ∧ cs = before ++ '.' :: after ∧
      splitSuffix cs = (before, '.' :: after) := by
  unfold splitSuffix
  split
  · rename_i c before d after h
    exact .inr ⟨c :: before, d :: after, List.cons_ne_nil _ _, (eq_of_splitLastDot h).1, rfl⟩
  · exact .inl rfl

/-! ## The former extension of scripts -/

/-- A name either has the former suffix and loses it for the present one, or has another suffix and
stays as it is. -/
theorem toLuau_cases (name : String) :
    (suffix name ≠ ".lua" ∧ toLuau name = name) ∨
    ∃ front, front ≠ [] ∧ name.toList = front ++ legacyLua ∧
      toLuau name = String.ofList (front ++ luau) := by
  unfold suffix toLuau
  rcases splitSuffix_cases name.toList with h | ⟨front, after, hf, hname, h⟩
  · rw [h]
    exact .inl ⟨show String.ofList [] ≠ ".lua" by decide, rfl⟩
  · rw [h]
    by_cases he : '.' :: after = legacyLua
    · refine .inr ⟨front, hf, by rw [hname, he], ?_⟩
      simp only [he, beq_self_eq_true, if_true]
    · refine .inl ⟨fun hs => he ?_, ?_⟩
      · have := congrArg String.toList hs
        rwa [String.toList_ofList] at this
      · simp only [beq_false_of_ne he, Bool.false_eq_true, if_false]

theorem splitSuffix_luau {front : List Char} (h : front ≠ []) :
    splitSuffix (front ++ luau) = (front, luau) :=
  splitSuffix_append h (by decide) (by decide)

/-- No name keeps the former suffix. -/
theorem suffix_toLuau_ne (name : String) : suffix (toLuau name) ≠ ".lua" := by
  rcases toLuau_cases name with ⟨h, heq⟩ | ⟨front, hf, -, heq⟩
  · rwa [heq]
  · rw [heq]
    unfold suffix
    rw [String.toList_ofList, splitSuffix_luau hf]
    show String.ofList luau ≠ ".lua"
    decide

theorem toLuau_of_suffix_ne {name : String} (h : suffix name ≠ ".lua") : toLuau name = name := by
  rcases toLuau_cases name with ⟨-, heq⟩ | ⟨front, hf, hname, -⟩
  · exact heq
  · refine absurd ?_ h
    unfold suffix
    rw [hname, show front ++ legacyLua = front ++ '.' :: ['l', 'u', 'a'] from rfl,
      splitSuffix_append hf (by decide) (by decide)]

section

variable {stem : String} (h : stem ≠ "")
include h

theorem toLuau_former : toLuau (stem ++ ".lua") = stem ++ ".luau" := by
  have hne : stem.toList ≠ [] := fun he => h (String.toList_eq_nil_iff.1 he)
  have hsplit : splitSuffix (stem ++ ".lua").toList = (stem.toList, legacyLua) := by
    rw [String.toList_append]
    exact splitSuffix_append hne (by decide) (by decide)
  unfold toLuau
  rw [hsplit, ← String.toList_inj]
  simp [luau]

theorem toLuau_present : toLuau (stem ++ ".luau") = stem ++ ".luau" := by
  rw [← toLuau_former h, toLuau_of_suffix_ne (suffix_toLuau_ne _)]

end

/-- A name with an ending of three or more characters is neither of the two dot names. -/
theorem isOrdinary_append {stem ending : String} (hstem : '/' ∉ stem.toList)
    (hending : '/' ∉ ending.toList) (hlong : 2 < ending.length) : IsOrdinary (stem ++ ending) := by
  have hne : ∀ s : String, s.length ≤ 2 → stem ++ ending ≠ s := by
    rintro s hs rfl
    rw [String.length_append] at hs
    omega
  refine ⟨⟨hne "" (by decide), hne "." (by decide), ?_⟩, hne ".." (by decide)⟩
  rw [String.toList_append, List.mem_append]
  exact not_or.2 ⟨hstem, hending⟩

theorem isOrdinary_toLuau {name : String} (h : IsOrdinary name) : IsOrdinary (toLuau name) := by
  rcases toLuau_cases name with ⟨-, heq⟩ | ⟨front, -, hname, heq⟩
  · rwa [heq]
  · obtain ⟨⟨-, -, hslash⟩, -⟩ := h
    rw [hname] at hslash
    have hlong : ∀ s : String, s.toList.length < 5 → String.ofList (front ++ luau) ≠ s := by
      intro s hs he
      have := congrArg (List.length ∘ String.toList) he
      simp only [Function.comp, String.toList_ofList, List.length_append, luau, List.length_cons,
        List.length_nil] at this
      omega
    rw [heq]
    refine ⟨⟨hlong _ (by decide), hlong _ (by decide), fun hm => hslash ?_⟩, hlong _ (by decide)⟩
    rw [String.toList_ofList, List.mem_append] at hm
    rcases hm with hm | hm
    · exact List.mem_append_left _ hm
    · exact absurd hm (by decide)

theorem isPart_toLuau {name : String} (h : IsPart name) : IsPart (toLuau name) := by
  by_cases hup : name = ".."
  · subst hup
    decide
  · exact (isOrdinary_toLuau ⟨h, hup⟩).1

end PlaceMap.FileName
