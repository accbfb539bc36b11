/-
Normal paths: absolute, and without `..`. Normalizing gives a normal path and leaves a normal path
as it is, a path is read back from its text, and the replacement of the former script extension
keeps a path normal. Also when a path lies below another one.
-/
import PlaceMap.FileSystem
import PlaceMap.Proofs.FileName.Luau
import PlaceMap.Proofs.Text.Split

namespace PlaceMap

open FileName (IsPart IsOrdinary)

namespace Path

/-- Every part is one that a text can spell. -/
def Proper (p : Path) : Prop := ∀ part ∈ p.parts, IsPart part

/-- Absolute, and every part names an entry of a directory. -/
def IsNormal (p : Path) : Prop := p.anchor ≠ .relative ∧ ∀ part ∈ p.parts, IsOrdinary part

instance (p : Path) : Decidable p.IsNormal :=
  inferInstanceAs (Decidable (p.anchor ≠ .relative ∧ ∀ part ∈ p.parts, IsOrdinary part))

theorem IsNormal.proper {p : Path} (h : p.IsNormal) : p.Proper := fun part hp => (h.2 part hp).1

/-! ## Proper paths -/

theorem ofString_proper (s : String) : (ofString s).Proper := by
  intro part hp
  obtain ⟨hmem, hne⟩ := List.mem_filter.1 hp
  obtain ⟨hempty, hdot⟩ := of_decide_eq_true hne
  obtain ⟨piece, hpiece, rfl⟩ := List.mem_map.1 hmem
  refine ⟨hempty, hdot, ?_⟩
  rw [String.toList_ofList]
  exact Text.not_mem_of_mem_split hpiece

theorem join_proper {base p : Path} (hb : base.Proper) (hp : p.Proper) : (base.join p).Proper := by
  unfold join
  split
  · intro part hm
    rcases List.mem_append.1 hm with hm | hm
    · exact hb part hm
    · exact hp part hm
  · exact hp

theorem child_proper {dir : Path} (h : dir.Proper) (name : String) : (dir.child name).Proper :=
  join_proper h (ofString_proper name)

theorem parent_proper {p : Path} (h : p.Proper) : p.parent.Proper :=
  fun part hm => h part (List.dropLast_subset _ hm)

/-! ## Normalizing -/

theorem mem_foldl_squashStep {part : String} :
    ∀ (parts stack : List String), part ∈ parts.foldl squashStep stack →
      part ∈ stack ∨ part ∈ parts ∧ part ≠ ".."
  | [], stack, h => .inl h
  | first :: parts, stack, h => by
    rw [List.foldl_cons] at h
    rcases mem_foldl_squashStep parts _ h with h | ⟨h, hne⟩
    · unfold squashStep at h
      split at h
      · exact .inl (List.mem_of_mem_tail h)
      · rename_i hfirst
        rcases List.mem_cons.1 h with rfl | h
        · exact .inr ⟨List.mem_cons_self, hfirst⟩
        · exact .inl h
    · exact .inr ⟨List.mem_cons_of_mem _ h, hne⟩

/-- What is left of a path is some of its parts, none of them `..`. -/
theorem mem_squash {part : String} {parts : List String} (h : part ∈ squash parts) :
    part ∈ parts ∧ part ≠ ".." := by
  rcases mem_foldl_squashStep parts [] (List.mem_reverse.1 h) with h | h
  · cases h
  · exact h

theorem foldl_squashStep {parts : List String} (h : ".." ∉ parts) (stack : List String) :
    parts.foldl squashStep stack = parts.reverse ++ stack := by
  induction parts generalizing stack with
  | nil => rfl
  | cons part parts ih =>
    have hpart : ¬ part = ".." := fun he => h (he ▸ List.mem_cons_self)
    rw [List.foldl_cons, ih fun hm => h (List.mem_cons_of_mem _ hm), squashStep, if_neg hpart,
      List.reverse_cons, List.append_assoc]
    rfl

/-- Parts that do not lead up are kept, whatever stands before them. -/
theorem squash_append (before : List String) {parts : List String} (h : ".." ∉ parts) :
    squash (before ++ parts) = squash before ++ parts := by
  unfold squash
  rw [List.foldl_append, foldl_squashStep h, List.reverse_append, List.reverse_reverse]

theorem squash_eq_self {parts : List String} (h : ".." ∉ parts) : squash parts = parts :=
  squash_append [] h

theorem isNormal_normalize {cwd : List String} {p : Path} (hcwd : ∀ part ∈ cwd, IsPart part)
    (hp : p.Proper) : (p.normalize cwd).IsNormal := by
  have habs : ∀ part ∈ squash p.parts, IsOrdinary part := fun part hm =>
    ⟨hp part (mem_squash hm).1, (mem_squash hm).2⟩
  unfold normalize
  split
  · refine ⟨Anchor.noConfusion, fun part hm => ⟨?_, (mem_squash hm).2⟩⟩
    rcases List.mem_append.1 (mem_squash hm).1 with hm | hm
    · exact hcwd part hm
    · exact hp part hm
  · rename_i hne
    exact ⟨hne, habs⟩

/-- A normal path is left alone, in whatever directory it is read. -/
theorem IsNormal.normalize_eq {p : Path} (h : p.IsNormal) (cwd : List String) :
    p.normalize cwd = p := by
  have hsquash : squash p.parts = p.parts := squash_eq_self fun hm => (h.2 _ hm).2 rfl
  obtain ⟨anchor, parts⟩ := p
  cases anchor with
  | relative => exact absurd rfl h.1
  | root => exact congrArg (Path.mk .root) hsquash
  | doubleRoot => exact congrArg (Path.mk .doubleRoot) hsquash

/-! ## Reading a path back from its text -/

theorem filter_splitText_intercalate {parts : List String} (h : ∀ part ∈ parts, IsPart part) :
    ((Text.splitText '/' (String.intercalate "/" parts)).filter fun part => part ≠ "" ∧ part ≠ ".") =
      parts := by
  by_cases hne : parts = []
  · subst hne
    decide
  · rw [show "/" = String.singleton '/' from rfl,
      Text.splitText_intercalate hne fun part hp => (h part hp).2.2]
    exact List.filter_eq_self.2 fun part hp => decide_eq_true ⟨(h part hp).1, (h part hp).2.1⟩

/-- The text of some parts begins with no slash. -/
theorem head_intercalate {parts : List String} (h : ∀ part ∈ parts, IsPart part) :
    ∀ rest, (String.intercalate "/" parts).toList ≠ '/' :: rest := by
  intro rest he
  cases parts with
  | nil => cases he
  | cons part parts =>
    obtain ⟨hempty, -, hslash⟩ := h part List.mem_cons_self
    rcases hp : part.toList with _ | ⟨c, cs⟩
    · exact hempty (String.toList_eq_nil_iff.1 hp)
    · have hc : c ≠ '/' := fun hc => hslash (by rw [hp, hc]; exact List.mem_cons_self)
      rw [String.toList_intercalate, List.map_cons, hp] at he
      cases parts with
      | nil =>
        rw [List.map_nil, List.intercalate_singleton] at he
        exact hc (List.cons.inj he).1
      | cons next parts =>
        rw [List.map_cons, List.intercalate_cons_cons, List.append_assoc, List.cons_append] at he
        exact hc (List.cons.inj he).1

theorem anchorOf_eq {cs : List Char} (h : ∀ rest, cs ≠ '/' :: rest) :
    anchorOf cs = .relative ∧ anchorOf ('/' :: cs) = .root ∧
      anchorOf ('/' :: '/' :: cs) = .doubleRoot := by
  cases cs with
  | nil => exact ⟨rfl, rfl, rfl⟩
  | cons c cs =>
    have hc : c ≠ '/' := fun hc => h cs (by rw [hc])
    refine ⟨?_, ?_, ?_⟩ <;> unfold anchorOf <;> split <;> grind

/-- A path that a text can spell is read back from its text. -/
theorem ofString_toText {p : Path} (h : p.Proper) : ofString p.toText = p := by
  obtain ⟨anchor, parts⟩ := p
  by_cases hdot : anchor = .relative ∧ parts = []
  · obtain ⟨rfl, rfl⟩ := hdot
    decide
  · obtain ⟨hrel, hroot, hdouble⟩ := anchorOf_eq (head_intercalate h)
    have hparts := filter_splitText_intercalate h
    unfold toText ofString
    rw [if_neg hdot]
    unfold Text.splitText at hparts ⊢
    rw [String.toList_append]
    dsimp only at hrel hroot hdouble hparts ⊢
    generalize (String.intercalate "/" parts).toList = cs at hrel hroot hdouble hparts ⊢
    cases anchor with
    | relative =>
      rw [show Anchor.relative.text.toList ++ cs = cs from rfl, hrel, hparts]
    | root =>
      rw [show Anchor.root.text.toList ++ cs = '/' :: cs from rfl, hroot,
        show Text.split '/' ('/' :: cs) = [] :: Text.split '/' cs from rfl, List.map_cons,
        List.filter_cons_of_neg (by decide), hparts]
    | doubleRoot =>
      rw [show Anchor.doubleRoot.text.toList ++ cs = '/' :: '/' :: cs from rfl, hdouble,
        show Text.split '/' ('/' :: '/' :: cs) = [] :: [] :: Text.split '/' cs from rfl, List.map_cons,
        List.map_cons, List.filter_cons_of_neg (by decide), List.filter_cons_of_neg (by decide),
        hparts]

/-- A part spells the path that consists of it. -/
theorem ofString_part {name : String} (h : IsPart name) : ofString name = ⟨.relative, [name]⟩ := by
  have htext : toText ⟨.relative, [name]⟩ = name := by
    simp [toText, Anchor.text]
  have hproper : Proper ⟨.relative, [name]⟩ := fun part hp => List.mem_singleton.1 hp ▸ h
  rw [← htext, ofString_toText hproper, htext]

theorem parts_child {dir : Path} {name : String} (h : IsPart name) :
    (dir.child name).parts = dir.parts ++ [name] := by
  unfold child join
  rw [ofString_part h, if_pos rfl]

theorem name_child {dir : Path} {name : String} (h : IsPart name) : (dir.child name).name = name := by
  rw [Path.name, parts_child h, List.getLast?_concat, Option.getD_some]

/-! ## The former script extension -/

theorem name_toLuau (p : Path) : p.toLuau.name = FileName.toLuau p.name := by
  unfold toLuau mapName name
  rcases h : p.parts.getLast? with _ | last
  · rw [h]
    decide
  · simp

/-- No path keeps the former suffix. -/
theorem suffix_toLuau_ne (p : Path) : p.toLuau.suffix ≠ ".lua" := by
  unfold suffix
  rw [name_toLuau]
  exact FileName.suffix_toLuau_ne p.name

theorem toLuau_of_suffix_ne {p : Path} (h : p.suffix ≠ ".lua") : p.toLuau = p := by
  unfold toLuau mapName
  rcases hl : p.parts.getLast? with _ | last
  · rfl
  · have hname : p.name = last := by unfold name; rw [hl]; rfl
    unfold suffix at h
    rw [hname] at h
    obtain ⟨front, hparts⟩ := List.getLast?_eq_some_iff.1 hl
    obtain ⟨anchor, parts⟩ := p
    dsimp only at hparts ⊢
    rw [FileName.toLuau_of_suffix_ne h, hparts, List.dropLast_concat]

theorem toLuau_proper {p : Path} (h : p.Proper) : p.toLuau.Proper := by
  unfold Path.toLuau mapName
  rcases hl : p.parts.getLast? with _ | last
  · exact h
  · intro part hm
    rcases List.mem_append.1 hm with hm | hm
    · exact h part (List.dropLast_subset _ hm)
    · rw [List.mem_singleton.1 hm]
      exact FileName.isPart_toLuau (h last (List.mem_of_getLast? hl))

theorem IsNormal.toLuau {p : Path} (h : p.IsNormal) : p.toLuau.IsNormal := by
  unfold Path.toLuau mapName
  rcases hl : p.parts.getLast? with _ | last
  · exact h
  · refine ⟨h.1, fun part hm => ?_⟩
    rcases List.mem_append.1 hm with hm | hm
    · exact h.2 part (List.dropLast_subset _ hm)
    · rw [List.mem_singleton.1 hm]
      exact FileName.isOrdinary_toLuau (h.2 last (List.mem_of_getLast? hl))

theorem isData_iff {p : Path} : p.isData = true ↔ p.suffix = ".json" ∨ p.suffix = ".toml" := by
  unfold isData FileName.isDataExtension
  rw [Bool.or_eq_true, beq_iff_eq, beq_iff_eq, ← String.toList_inj, ← String.toList_inj]
  rfl

/-! ## Paths below a directory -/

theorem below?_eq_some {p dir : Path} {parts : List String} :
    p.below? dir = some parts ↔ p.anchor = dir.anchor ∧ p.parts = dir.parts ++ parts := by
  unfold below?
  constructor
  · intro h
    split at h
    · rename_i hb
      cases h
      obtain ⟨rest, hrest⟩ := List.isPrefixOf_iff_prefix.1 hb.2
      exact ⟨hb.1, by rw [← hrest, List.drop_left]⟩
    · cases h
  · rintro ⟨hanchor, hparts⟩
    rw [if_pos ⟨hanchor, List.isPrefixOf_iff_prefix.2 ⟨parts, hparts.symm⟩⟩, hparts, List.drop_left]

theorem below?_self (p : Path) : p.below? p = some [] :=
  below?_eq_some.2 ⟨rfl, (List.append_nil _).symm⟩

theorem below?_trans {p dir root : Path} {parts front : List String}
    (hp : p.below? dir = some parts) (hd : dir.below? root = some front) :
    p.below? root = some (front ++ parts) := by
  obtain ⟨ha, hparts⟩ := below?_eq_some.1 hp
  obtain ⟨hb, hfront⟩ := below?_eq_some.1 hd
  exact below?_eq_some.2 ⟨ha.trans hb, by rw [hparts, hfront, List.append_assoc]⟩

end Path

namespace FileSystem

theorem isNormal_normalize (fs : FileSystem) {p : Path} (h : p.Proper) : (fs.normalize p).IsNormal :=
  Path.isNormal_normalize fs.workingDirectory_isPart h

end FileSystem

end PlaceMap
