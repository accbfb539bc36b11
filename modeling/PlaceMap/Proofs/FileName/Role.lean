/-
The role of a script and its name in the tree are both read off its file name, the one by suffixes
and the other by extensions. What the name loses is the ending that its role asks for, unless nothing
but dots stands before that ending: dots are enough for a suffix to follow, but an extension needs
another character before it.
-/
import Mathlib.Data.List.TakeWhile
import PlaceMap.Proofs.Path.Normal
import PlaceMap.ScriptKind

namespace PlaceMap

namespace FileName

/-! ## The extension -/

/-- Nothing but dots. -/
def AllDots (cs : List Char) : Prop := ∀ c ∈ cs, c = '.'

instance (cs : List Char) : Decidable (AllDots cs) := List.decidableBAll (· = '.') cs

theorem any_ne_dot {cs : List Char} : (cs.any (· ≠ '.')) = true ↔ ¬ AllDots cs := by
  simp [AllDots, List.any_eq_true]

theorem baseName_eq_self {cs : List Char} (h : '/' ∉ cs) : baseName cs = cs := by
  have hall : ∀ c ∈ cs.reverse, decide (c ≠ '/') = true := fun c hc =>
    decide_eq_true fun he => h (he ▸ List.mem_reverse.1 hc)
  rw [baseName, List.takeWhile_eq_self_iff.2 hall, List.reverse_reverse]

section

variable {before after : List Char} (hslash : '/' ∉ before ++ after) (hafter : '.' ∉ after)
include hslash hafter

/-- An extension begins at the last dot, if not all characters before it are dots. -/
theorem splitExtension_append (h : ¬ AllDots before) :
    splitExtension (before ++ '.' :: after) = (before, '.' :: after) := by
  rw [List.mem_append, not_or] at hslash
  unfold splitExtension
  rw [splitLastDot_append before hafter]
  dsimp only
  rw [baseName_eq_self hslash.1, if_pos ⟨hslash.2, any_ne_dot.2 h⟩]

/-- Dots in front belong to the name. -/
theorem splitExtension_allDots (h : AllDots before) :
    splitExtension (before ++ '.' :: after) = (before ++ '.' :: after, []) := by
  rw [List.mem_append, not_or] at hslash
  unfold splitExtension
  rw [splitLastDot_append before hafter]
  dsimp only
  rw [baseName_eq_self hslash.1, if_neg fun hany => any_ne_dot.1 hany.2 h]

end

/-- The extension is empty, or what stands from the last dot on, behind more than dots. -/
theorem splitExtension_cases {cs : List Char} (hslash : '/' ∉ cs) :
    splitExtension cs = (cs, []) ∨
    ∃ before after, ¬ AllDots before ∧ cs = before ++ '.' :: after ∧
      splitExtension cs = (before, '.' :: after) := by
  rcases h : splitLastDot cs with _ | ⟨before, after⟩
  · left
    unfold splitExtension
    rw [h]
  · obtain ⟨rfl, hafter⟩ := eq_of_splitLastDot h
    have hslash : '/' ∉ before ++ after := by
      simp only [List.mem_append, List.mem_cons, not_or] at hslash ⊢
      exact ⟨hslash.1, hslash.2.2⟩
    by_cases hdots : AllDots before
    · exact .inl (splitExtension_allDots hslash hafter hdots)
    · exact .inr ⟨before, after, hdots, rfl, splitExtension_append hslash hafter hdots⟩

/-! ## Roles -/

/-- The second extensions that say where a script runs. -/
def IsRole (ext : List Char) : Prop := ext = server ∨ ext = client

instance (ext : List Char) : Decidable (IsRole ext) :=
  inferInstanceAs (Decidable (ext = server ∨ ext = client))

theorem not_isRole_nil : ¬ IsRole [] := by decide

/-- The stem of a script without the suffix that says its role, if it has one. -/
def roleless (stem : List Char) : List Char :=
  if IsRole (splitSuffix stem).2 then (splitSuffix stem).1 else stem

/-- A script is known by its suffix. -/
theorem exists_eq_luau {name : String} (h : suffix name = ".luau") :
    ∃ front, front ≠ [] ∧ name = String.ofList (front ++ luau) := by
  rw [suffix, ← String.toList_inj, String.toList_ofList] at h
  rcases splitSuffix_cases name.toList with hsplit | ⟨front, after, hfront, hname, hsplit⟩
  · rw [hsplit] at h
    cases h
  · rw [hsplit] at h
    refine ⟨front, hfront, ?_⟩
    rw [← String.toList_inj, String.toList_ofList, hname]
    exact congrArg (front ++ ·) h

/-- The name of a script is nothing but dots before its extension, or before the second extension
that says its role. -/
def IsNameless (name : String) : Prop :=
  ∃ dots role, dots ≠ [] ∧ AllDots dots ∧ (role = [] ∨ IsRole role) ∧
    name.toList = dots ++ (role ++ luau)

section

variable {base role front : List Char}

theorem splitSuffix_role (hrole : IsRole role) (hbase : base ≠ []) :
    splitSuffix (base ++ role) = (base, role) := by
  rcases hrole with rfl | rfl
  · exact splitSuffix_append hbase (by decide) (by decide)
  · exact splitSuffix_append hbase (by decide) (by decide)

theorem roleless_role (hrole : IsRole role) (hbase : base ≠ []) : roleless (base ++ role) = base := by
  rw [roleless, splitSuffix_role hrole hbase, if_pos hrole]

/-- A stem is without a role, or ends in one. -/
theorem roleless_cases (front : List Char) :
    (¬ IsRole (splitSuffix front).2 ∧ roleless front = front) ∨
    ∃ base role, base ≠ [] ∧ IsRole role ∧ front = base ++ role := by
  by_cases hrole : IsRole (splitSuffix front).2
  · rcases splitSuffix_cases front with h | ⟨base, after, hbase, hfront, h⟩
    · rw [h] at hrole
      exact absurd hrole not_isRole_nil
    · rw [h] at hrole
      exact .inr ⟨base, _, hbase, hrole, hfront⟩
  · exact .inl ⟨hrole, if_neg hrole⟩

theorem IsRole.not_allDots (hrole : IsRole role) : ¬ AllDots (base ++ role) := by
  intro h
  have hdots : AllDots role := fun c hc => h c (List.mem_append_right _ hc)
  rcases hrole with rfl | rfl
  · exact absurd hdots (by decide)
  · exact absurd hdots (by decide)

theorem isNameless_iff (hfront : front ≠ []) :
    IsNameless (String.ofList (front ++ luau)) ↔ AllDots (roleless front) := by
  simp only [IsNameless, String.toList_ofList, ← List.append_assoc, List.append_cancel_right_eq]
  constructor
  · rintro ⟨dots, role, hne, hdots, rfl | hrole, rfl⟩
    · rw [List.append_nil] at *
      rcases roleless_cases dots with ⟨-, h⟩ | ⟨base, role, -, hrole, rfl⟩
      · rwa [h]
      · exact absurd hdots hrole.not_allDots
    · rwa [roleless_role hrole hne]
  · intro h
    rcases roleless_cases front with ⟨-, heq⟩ | ⟨base, role, hbase, hrole, rfl⟩
    · rw [heq] at h
      exact ⟨front, [], hfront, h, .inl rfl, (List.append_nil _).symm⟩
    · rw [roleless_role hrole hbase] at h
      exact ⟨base, role, hbase, h, .inr hrole, rfl⟩

/-! ## The name of a script without its extensions -/

theorem stripExtensions_allDots (hslash : '/' ∉ front) (h : AllDots front) :
    stripExtensions (String.ofList (front ++ luau)) = String.ofList (front ++ luau) := by
  have hext : splitExtension (front ++ luau) = (front ++ luau, []) :=
    splitExtension_allDots (by simp [hslash]) (by decide) h
  unfold stripExtensions
  rw [String.toList_ofList, hext]
  rfl

theorem stripExtensions_luau (hslash : '/' ∉ front) (h : ¬ AllDots front) :
    stripExtensions (String.ofList (front ++ luau)) =
      String.ofList (if IsRole (splitExtension front).2 then (splitExtension front).1 else front) := by
  have hext : splitExtension (front ++ luau) = (front, luau) :=
    splitExtension_append (by simp [hslash]) (by decide) h
  unfold stripExtensions
  rw [String.toList_ofList, hext]
  simp only [beq_self_eq_true, if_true, Bool.or_eq_true, beq_iff_eq]
  rfl

/-- A script loses its role and its extension, if more than dots is left. -/
theorem stripExtensions_eq_iff (hslash : '/' ∉ front) :
    stripExtensions (String.ofList (front ++ luau)) = String.ofList (roleless front) ↔
      ¬ AllDots (roleless front) := by
  have hshorter : ∀ {cs more : List Char}, more ≠ [] → String.ofList (cs ++ more) ≠ String.ofList cs :=
    fun hne h => hne (by simpa using h)
  rcases roleless_cases front with ⟨hnone, heq⟩ | ⟨base, role, hbase, hrole, rfl⟩
  · rw [heq]
    by_cases hdots : AllDots front
    · rw [stripExtensions_allDots hslash hdots]
      exact iff_of_false (hshorter (by decide)) (not_not_intro hdots)
    · refine iff_of_true ?_ hdots
      rw [stripExtensions_luau hslash hdots, if_neg]
      rcases splitExtension_cases hslash with hext | ⟨base, after, hbase, rfl, hext⟩
      · rw [hext]
        exact not_isRole_nil
      · -- An extension that says a role is a suffix that says it.
        rw [hext]
        intro hrole
        have hne : base ≠ [] := fun h => hbase (h ▸ fun c hc => nomatch hc)
        rw [splitSuffix_role hrole hne] at hnone
        exact hnone hrole
  · rw [List.mem_append, not_or] at hslash
    rw [roleless_role hrole hbase, stripExtensions_luau (by simp [hslash]) hrole.not_allDots]
    obtain ⟨after, hafter, rfl⟩ : ∃ after, '.' ∉ after ∧ role = '.' :: after := by
      rcases hrole with rfl | rfl
      · exact ⟨_, by decide, rfl⟩
      · exact ⟨_, by decide, rfl⟩
    have hslash : '/' ∉ base ++ after := by
      simpa [hslash.1] using fun h => hslash.2 (List.mem_cons_of_mem _ h)
    by_cases hdots : AllDots base
    · rw [splitExtension_allDots hslash hafter hdots, if_neg not_isRole_nil]
      exact iff_of_false (hshorter (List.cons_ne_nil _ _)) (not_not_intro hdots)
    · rw [splitExtension_append hslash hafter hdots, if_pos hrole]
      exact iff_of_true rfl hdots

end

end FileName

open FileName (IsNameless IsOrdinary IsRole luau roleless server client splitSuffix splitSuffix_luau
  stripExtensions)

namespace ScriptKind

/-! ## What is lost with a role -/

/-- What the name of a script of a kind loses: the extension, and the second extension that says the
kind, if one does. -/
def ending : ScriptKind → String
  | .script => ".server.luau"
  | .localScript => ".client.luau"
  | .moduleScript | .unknown => ".luau"

/-- The kind of a script and the name that is left of its own agree: what has been lost says the kind,
and nothing else has been lost. -/
structure Agrees (kind : ScriptKind) (name left : String) : Prop where
  script : kind = .script ↔ name = left ++ ".server.luau"
  localScript : kind = .localScript ↔ name = left ++ ".client.luau"
  other : kind = .moduleScript ∨ kind = .unknown → name = left ++ ".luau"

/-- No name is longer by the endings of two kinds. -/
theorem agrees_iff {kind : ScriptKind} {name left : String} :
    kind.Agrees name left ↔ name = left ++ kind.ending := by
  constructor
  · intro h
    cases kind with
    | script => exact h.script.1 rfl
    | localScript => exact h.localScript.1 rfl
    | moduleScript => exact h.other (.inl rfl)
    | unknown => exact h.other (.inr rfl)
  · rintro rfl
    have hcancel : ∀ e e' : String, left ++ e = left ++ e' ↔ e = e' := fun e e' => by
      simp [← String.toList_inj]
    constructor <;> rw [hcancel] <;> cases kind <;> decide

variable {p : Path} {front : List Char} (hname : p.toLuau.name = String.ofList (front ++ luau))
  (hfront : front ≠ [])
include hname hfront

/-- The kind of a script is read off the suffix of its stem. -/
theorem ofPath_script :
    ofPath p =
      if (splitSuffix front).2 = [] then .moduleScript
      else if (splitSuffix front).2 = server then .script
      else if (splitSuffix front).2 = client then .localScript
      else .unknown := by
  have hscript : p.toLuau.isScript = true := by
    unfold Path.isScript Path.suffix FileName.suffix
    rw [hname, String.toList_ofList, String.toList_ofList, splitSuffix_luau hfront]
    exact beq_self_eq_true luau
  have hstem : (FileName.stem p.toLuau.name).toList = front := by
    unfold FileName.stem
    rw [hname, String.toList_ofList, String.toList_ofList, splitSuffix_luau hfront]
  unfold ofPath
  dsimp only
  rw [hscript, hstem, if_pos rfl]
  simp only [beq_iff_eq]

/-- The stem without its role is the name without the ending of its kind. -/
theorem name_eq_roleless : p.toLuau.name = String.ofList (roleless front) ++ (ofPath p).ending := by
  rw [ofPath_script hname hfront, hname]
  rcases FileName.roleless_cases front with ⟨hnone, heq⟩ | ⟨base, role, hbase, hrole, rfl⟩
  · have hserver : (splitSuffix front).2 ≠ server := fun h => hnone (.inl h)
    have hclient : (splitSuffix front).2 ≠ client := fun h => hnone (.inr h)
    rw [heq, if_neg hserver, if_neg hclient, ← String.toList_inj]
    split <;> simp [ending, luau]
  · rw [FileName.roleless_role hrole hbase, FileName.splitSuffix_role hrole hbase, ← String.toList_inj]
    rcases hrole with rfl | rfl <;> simp [ending, luau, server, client]

end ScriptKind

/-- What the name of a script loses is the ending that its kind asks for, and nothing else, exactly if
more than dots stands before that ending. -/
theorem kind_agrees_iff {name : String} (hname : IsOrdinary name)
    (hscript : FileName.suffix (FileName.toLuau name) = ".luau") :
    (ScriptKind.ofPath (.ofString name)).Agrees (FileName.toLuau name)
        (stripExtensions (FileName.toLuau name)) ↔
      ¬ IsNameless (FileName.toLuau name) := by
  have hpath : (Path.ofString name).toLuau.name = FileName.toLuau name := by
    rw [Path.name_toLuau, Path.ofString_part hname.1]
    rfl
  obtain ⟨front, hfront, hluau⟩ := FileName.exists_eq_luau hscript
  have hslash : '/' ∉ front := by
    have h := (FileName.isOrdinary_toLuau hname).1.2.2
    rw [hluau, String.toList_ofList] at h
    exact fun hm => h (List.mem_append_left _ hm)
  rw [hluau] at hpath ⊢
  have hroleless := ScriptKind.name_eq_roleless hpath hfront
  rw [hpath] at hroleless
  rw [ScriptKind.agrees_iff, FileName.isNameless_iff hfront, ← FileName.stripExtensions_eq_iff hslash]
  constructor
  · intro h
    have hsame := h.symm.trans hroleless
    simpa [← String.toList_inj] using hsame
  · intro h
    rw [h]
    exact hroleless

/-- Dots in front do no harm if something else follows them. -/
theorem kind_agrees_iff_dotted :
    IsOrdinary "..boot.server.lua" ∧ FileName.suffix (FileName.toLuau "..boot.server.lua") = ".luau" ∧
      ¬ IsNameless (FileName.toLuau "..boot.server.lua") ∧
      ScriptKind.ofPath (.ofString "..boot.server.lua") = .script ∧
      (ScriptKind.ofPath (.ofString "..boot.server.lua")).Agrees (FileName.toLuau "..boot.server.lua")
        (stripExtensions (FileName.toLuau "..boot.server.lua")) ∧
      stripExtensions (FileName.toLuau "..boot.server.lua") = "..boot" := by
  have hname : ¬ IsNameless (FileName.toLuau "..boot.server.lua") := by
    rw [show FileName.toLuau "..boot.server.lua" = String.ofList ("..boot.server".toList ++ luau) by
      decide, FileName.isNameless_iff (by decide)]
    decide
  exact ⟨by decide, by decide, hname, by decide, (kind_agrees_iff (by decide) (by decide)).2 hname,
    by decide⟩

/-- A script whose name is a dot before its role is a server script that keeps its role in its name. -/
theorem not_kind_agrees :
    ¬ ∀ name, IsOrdinary name → FileName.suffix (FileName.toLuau name) = ".luau" →
      (ScriptKind.ofPath (.ofString name)).Agrees (FileName.toLuau name)
        (stripExtensions (FileName.toLuau name)) := by
  intro h
  have hscript := (h "..server.luau" (by decide) (by decide)).script.1 (by decide)
  exact absurd hscript (by decide)

end PlaceMap
