/-
The many spellings of a list of containers. Between two containers stand one or several commas with
blanks around them, between two names of a container one or several slashes, and further blanks or
slashes may stand at the ends. Every spelling of a list of containers is read as that list, and the
text that is written for it is one of its spellings.

Both levels have the same shape: items one after the other with gaps between them (`Spread`). So what
reading does with gaps and with the ends of a text is proved for each level by itself, and that the
items come back in order is proved once (`Spread.read_eq`).
-/
import PlaceMap.Proofs.Config.Rereading

namespace PlaceMap

namespace Text

/-! ## Items with gaps between them -/

section

variable {α : Type} {spells : α → List Char → Prop} {gap ends : List Char → Prop}

/-- The text spells the items in their order: a gap stands between each two of them, and behind the
last one what may stand at an end. -/
inductive Trailing (spells : α → List Char → Prop) (gap ends : List Char → Prop) :
    List α → List Char → Prop
  | nil {back : List Char} : ends back → Trailing spells gap ends [] back
  | last {a : α} {piece back : List Char} :
      spells a piece → ends back → Trailing spells gap ends [a] (piece ++ back)
  | cons {a b : α} {items : List α} {piece between rest : List Char} :
      spells a piece → gap between → Trailing spells gap ends (b :: items) rest →
        Trailing spells gap ends (a :: b :: items) (piece ++ between ++ rest)

/-- The text spells the items in their order, with gaps between them and ends around them. -/
def Spread (spells : α → List Char → Prop) (gap ends : List Char → Prop) (items : List α)
    (cs : List Char) : Prop :=
  ∃ front rest, ends front ∧ Trailing spells gap ends items rest ∧ cs = front ++ rest

/-- A reader that skips an end before anything else, and that finds one item in what spells it,
whether an end or a gap and more follows, finds the items in every text that spells them. -/
theorem Spread.read_eq {read : List Char → List α} {items : List α} {cs : List Char}
    (hnil : read [] = [])
    (hfront : ∀ front rest, ends front → read (front ++ rest) = read rest)
    (hlast : ∀ a ∈ items, ∀ piece back, spells a piece → ends back → read (piece ++ back) = [a])
    (hgap : ∀ a ∈ items, ∀ piece between rest, spells a piece → gap between →
      read (piece ++ between ++ rest) = a :: read rest)
    (h : Spread spells gap ends items cs) : read cs = items := by
  obtain ⟨front, rest, hends, htrailing, rfl⟩ := h
  rw [hfront front rest hends]
  clear hends
  induction htrailing with
  | @nil back hback =>
    rw [← List.append_nil back, hfront back [] hback, hnil]
  | last hpiece hback => exact hlast _ List.mem_cons_self _ _ hpiece hback
  | cons hpiece hbetween _ ih =>
    rw [hgap _ List.mem_cons_self _ _ _ hpiece hbetween]
    rw [ih (fun a ha => hlast a (List.mem_cons_of_mem _ ha))
      fun a ha => hgap a (List.mem_cons_of_mem _ ha)]

/-- What holds of the characters of the items, the gaps and the ends holds of the whole text. -/
theorem Spread.forall_mem {P : Char → Prop} {items : List α} {cs : List Char}
    (hpiece : ∀ a ∈ items, ∀ piece, spells a piece → ∀ c ∈ piece, P c)
    (hgap : ∀ between, gap between → ∀ c ∈ between, P c)
    (hends : ∀ back, ends back → ∀ c ∈ back, P c)
    (h : Spread spells gap ends items cs) : ∀ c ∈ cs, P c := by
  obtain ⟨front, rest, hfront, htrailing, rfl⟩ := h
  have hrest : ∀ c ∈ rest, P c := by
    clear hfront
    induction htrailing with
    | nil hback => exact hends _ hback
    | last ha hback =>
      exact List.forall_mem_append.2 ⟨hpiece _ List.mem_cons_self _ ha, hends _ hback⟩
    | cons ha hbetween _ ih =>
      refine List.forall_mem_append.2 ⟨List.forall_mem_append.2
        ⟨hpiece _ List.mem_cons_self _ ha, hgap _ hbetween⟩, ih fun a ha => ?_⟩
      exact hpiece a (List.mem_cons_of_mem _ ha)
  exact List.forall_mem_append.2 ⟨hends _ hfront, hrest⟩

/-- Joined items are spelled by what they are joined to. -/
theorem spread_intercalate {write : α → List Char} {sep : List Char} {items : List α}
    (hpiece : ∀ a, spells a (write a)) (hsep : gap sep) (hends : ends []) :
    Spread spells gap ends items (sep.intercalate (items.map write)) := by
  refine ⟨[], sep.intercalate (items.map write), hends, ?_, rfl⟩
  induction items with
  | nil => exact .nil hends
  | cons a items ih =>
    cases items with
    | nil =>
      have hlast : Trailing spells gap ends [a] (write a ++ []) := .last (hpiece a) hends
      simpa using hlast
    | cons b items =>
      rw [List.map_cons, List.map_cons, List.intercalate_cons_cons]
      exact .cons (hpiece a) hsep ih

end

/-! ## Trimming at the ends -/

section

variable {p : Char → Bool}

theorem trim_cons_of_pos {c : Char} (h : p c = true) (cs : List Char) :
    trim p (c :: cs) = trim p cs := by
  rw [trim, trim, List.dropWhile_cons_of_pos h]

theorem trim_append_of_pos {back : List Char} (h : ∀ c ∈ back, p c = true) (cs : List Char) :
    trim p (cs ++ back) = trim p cs := by
  induction back using List.reverseRecOn with
  | nil => rw [List.append_nil]
  | append_singleton back c ih =>
    have hback : ∀ c ∈ back, p c = true := fun d hd => h d (List.mem_append_left _ hd)
    have hc : p c = true := h c (List.mem_append_right _ (List.mem_singleton_self c))
    rw [← ih hback, ← List.append_assoc, trim, trim, List.dropWhile_append]
    split
    · rename_i hnil
      rw [List.isEmpty_iff.1 hnil, List.dropWhile_cons_of_pos hc, List.dropWhile_nil]
    · exact List.rdropWhile_concat_pos p _ c hc

end

end Text

namespace Containers

/-! ## Texts that are read -/

/-- The names that a text with slashes holds. -/
def names (cs : List Char) : TreePath := ((Text.split '/' cs).filter (· ≠ [])).map String.ofList

/-- The containers that a text with commas holds. -/
def entries (cs : List Char) : List TreePath := ((Text.split ',' cs).map ofEntry).filter (· ≠ [])

theorem names_append_slash (before after : List Char) :
    names (before ++ '/' :: after) = names before ++ names after := by
  rw [names, Text.split_append_cons, List.filter_append, List.map_append]
  rfl

theorem entries_append_comma (before after : List Char) :
    entries (before ++ ',' :: after) = entries before ++ entries after := by
  rw [entries, Text.split_append_cons, List.map_append, List.filter_append]
  rfl

/-- A blank at the start of a text is trimmed with its first entry. -/
theorem entries_blank {c : Char} (h : Text.isBlank c = true) (cs : List Char) :
    entries (c :: cs) = entries cs := by
  have hc : c ≠ ',' := by
    rintro rfl
    exact absurd h (by decide)
  rw [entries, entries, Text.split, if_neg hc]
  rcases hs : Text.split ',' cs with _ | ⟨entry, rest⟩
  · rw [Text.split_eq_splitOn] at hs
    exact absurd hs (List.splitOn_ne_nil _ _)
  · have hentry : ofEntry (c :: entry) = ofEntry entry := by
      rw [ofEntry, Text.trim_cons_of_pos h, ofEntry]
    dsimp only
    rw [List.map_cons, List.map_cons, hentry]

/-! ## Spellings -/

/-- Slashes and nothing else. -/
def IsSlashes (cs : List Char) : Prop := ∀ c ∈ cs, c = '/'

/-- Blanks and nothing else. -/
def IsBlanks (cs : List Char) : Prop := ∀ c ∈ cs, Text.isBlank c = true

/-- Commas, at least one, with any blanks around each of them. -/
def IsCommas (cs : List Char) : Prop := ',' ∈ cs ∧ ∀ c ∈ cs, c = ',' ∨ Text.isBlank c = true

instance (cs : List Char) : Decidable (IsSlashes cs) := List.decidableBAll (· = '/') cs

instance (cs : List Char) : Decidable (IsBlanks cs) :=
  List.decidableBAll (fun c => Text.isBlank c = true) cs

instance (cs : List Char) : Decidable (IsCommas cs) :=
  haveI := List.decidableBAll (fun c => c = ',' ∨ Text.isBlank c = true) cs
  instDecidableAnd

instance (container : TreePath) : Decidable (IsTrimmed container) :=
  haveI (border : Option Char) : Decidable (∀ c ∈ border, Text.isBlank c = false) :=
    Option.decidableForallMem border
  decidable_of_iff
    ((∀ first ∈ container.head?, ∀ c ∈ first.toList.head?, Text.isBlank c = false) ∧
      ∀ last ∈ container.getLast?, ∀ c ∈ last.toList.getLast?, Text.isBlank c = false)
    ⟨fun h => ⟨h.1, h.2⟩, fun h => ⟨h.head, h.last⟩⟩

/-- The text spells a container: its names as they are, slashes between them, and any number of
further slashes before the first and behind the last name. -/
def SpellsContainer : TreePath → List Char → Prop :=
  Text.Spread (fun name piece => piece = name.toList) (fun cs => cs ≠ [] ∧ IsSlashes cs) IsSlashes

/-- The text spells some containers: each in one of its spellings, commas between them, and any blanks
at both ends. -/
def Spells : List TreePath → List Char → Prop := Text.Spread SpellsContainer IsCommas IsBlanks

/-! ## A container is read as it was spelled -/

section

variable {container : TreePath} {cs : List Char}

theorem names_slashes {front : List Char} (h : IsSlashes front) (rest : List Char) :
    names (front ++ rest) = names rest := by
  induction front with
  | nil => rfl
  | cons c front ih =>
    obtain rfl : c = '/' := h c List.mem_cons_self
    rw [List.cons_append]
    exact (names_append_slash [] _).trans (ih fun d hd => h d (List.mem_cons_of_mem _ hd))

theorem names_name {name : String} (hne : name ≠ "") (hslash : '/' ∉ name.toList) :
    names name.toList = [name] := by
  have hsplit : Text.split '/' name.toList = [name.toList] := by
    rw [Text.split_eq_splitOn, List.splitOn_eq_singleton hslash]
  rw [names, hsplit]
  simp [hne]

/-- The names of a container are read from each of its spellings. -/
theorem names_spelled (h : IsReadable container) (hcs : SpellsContainer container cs) :
    names cs = container := by
  refine hcs.read_eq rfl (fun _ rest hfront => names_slashes hfront rest) ?_ ?_
  · rintro name hn _ back rfl hback
    obtain ⟨hne, hslash, -⟩ := h.names name hn
    cases back with
    | nil => rw [List.append_nil, names_name hne hslash]
    | cons c back =>
      obtain rfl : c = '/' := hback c List.mem_cons_self
      have hrest : names back = [] := by
        rw [← List.append_nil back]
        exact names_slashes (fun d hd => hback d (List.mem_cons_of_mem _ hd)) []
      rw [names_append_slash, names_name hne hslash, hrest, List.append_nil]
  · rintro name hn _ between rest rfl ⟨hbetween, hslashes⟩
    obtain ⟨hne, hslash, -⟩ := h.names name hn
    obtain ⟨c, between, rfl⟩ := List.exists_cons_of_ne_nil hbetween
    obtain rfl : c = '/' := hslashes c List.mem_cons_self
    rw [List.append_assoc, List.cons_append, names_append_slash, names_name hne hslash,
      names_slashes fun d hd => hslashes d (List.mem_cons_of_mem _ hd)]
    rfl

/-! ## A spelled container is a trimmed text -/

theorem isBlank_slash : Text.isBlank '/' = false := by decide

theorem IsSlashes.getLast? {back : List Char} (h : IsSlashes back) :
    ∀ c ∈ back.getLast?, Text.isBlank c = false := by
  intro c hc
  rw [h c (List.mem_of_getLast? hc)]
  exact isBlank_slash

theorem head?_spelled (h : IsReadable container) (htrim : IsTrimmed container)
    (hcs : SpellsContainer container cs) : ∀ c ∈ cs.head?, Text.isBlank c = false := by
  obtain ⟨front, rest, hfront, htrailing, rfl⟩ := hcs
  cases front with
  | cons d front =>
    rintro c ⟨⟩
    rw [hfront d List.mem_cons_self]
    exact isBlank_slash
  | nil =>
    have hfirst : ∀ name rest, container.head? = some name →
        ∀ c ∈ (name.toList ++ rest).head?, Text.isBlank c = false := by
      intro name rest hname c hc
      have hne : name.toList ≠ [] := by
        simpa using (h.names name (List.mem_of_head? hname)).1
      rw [List.head?_append_of_ne_nil _ hne] at hc
      exact htrim.head name hname c hc
    cases htrailing with
    | nil => exact absurd rfl h.ne_nil
    | last hpiece _ =>
      subst hpiece
      exact hfirst _ _ rfl
    | cons hpiece _ _ =>
      subst hpiece
      rw [List.nil_append, List.append_assoc]
      exact hfirst _ _ rfl

/-- The induction runs over the names, so it keeps in mind that something stands at the end. -/
theorem getLast?_trailing {rest : List Char}
    (htrailing : Text.Trailing (fun (name : String) piece => piece = name.toList)
      (fun cs => cs ≠ [] ∧ IsSlashes cs) IsSlashes container rest)
    (hne : container ≠ []) (hnames : ∀ name ∈ container, name ≠ "")
    (hlast : ∀ last ∈ container.getLast?, ∀ c ∈ last.toList.getLast?, Text.isBlank c = false) :
    rest ≠ [] ∧ ∀ c ∈ rest.getLast?, Text.isBlank c = false := by
  induction htrailing with
  | nil => exact absurd rfl hne
  | @last name piece back hpiece hback =>
    subst hpiece
    have hname : name.toList ≠ [] := by
      simpa using hnames name List.mem_cons_self
    refine ⟨by simp [hname], fun c hc => ?_⟩
    rw [List.getLast?_append, Option.mem_def, Option.or_eq_some_iff] at hc
    rcases hc with hc | ⟨-, hc⟩
    · exact hback.getLast? c hc
    · exact hlast name rfl c hc
  | @cons first next names piece between rest _ _ _ ih =>
    obtain ⟨hrest, hend⟩ := ih (List.cons_ne_nil _ _)
      (fun name hn => hnames name (List.mem_cons_of_mem _ hn)) fun last hl => hlast last hl
    refine ⟨by simp [hrest], fun c hc => hend c ?_⟩
    rwa [List.getLast?_append_of_ne_nil _ hrest] at hc

/-- Nothing is trimmed from a spelling of a container that has no blank at its ends. -/
theorem trim_spelled (h : IsReadable container) (htrim : IsTrimmed container)
    (hcs : SpellsContainer container cs) : Text.trim Text.isBlank cs = cs := by
  refine Text.trim_eq_self_iff.2 ⟨head?_spelled h htrim hcs, ?_⟩
  obtain ⟨front, rest, -, htrailing, rfl⟩ := hcs
  obtain ⟨hrest, hend⟩ :=
    getLast?_trailing htrailing h.ne_nil (fun name hn => (h.names name hn).1) htrim.last
  rwa [List.getLast?_append_of_ne_nil _ hrest]

theorem comma_notMem_spelled (h : IsReadable container) (hcs : SpellsContainer container cs) :
    ',' ∉ cs := by
  have hcomma : ∀ c ∈ cs, c ≠ ',' := by
    refine hcs.forall_mem ?_ ?_ ?_
    · rintro name hn _ rfl c hc rfl
      exact (h.names name hn).2.2 hc
    · rintro between ⟨-, hslashes⟩ c hc rfl
      exact absurd (hslashes ',' hc) (by decide)
    · rintro back hslashes c hc rfl
      exact absurd (hslashes ',' hc) (by decide)
  exact fun hc => hcomma ',' hc rfl

/-- One spelled container with blanks behind it is the only entry of its text. -/
theorem entries_spelled (h : IsReadable container) (htrim : IsTrimmed container)
    (hcs : SpellsContainer container cs) {back : List Char} (hback : IsBlanks back) :
    entries (cs ++ back) = [container] := by
  have hcomma : ',' ∉ cs ++ back := by
    rw [List.mem_append, not_or]
    refine ⟨comma_notMem_spelled h hcs, fun hc => ?_⟩
    exact absurd (hback ',' hc) (by decide)
  have hentry : ofEntry (cs ++ back) = container := by
    calc ofEntry (cs ++ back) = names (Text.trim Text.isBlank (cs ++ back)) := rfl
      _ = names cs := by rw [Text.trim_append_of_pos hback, trim_spelled h htrim hcs]
      _ = container := names_spelled h hcs
  rw [entries, Text.split_eq_splitOn, List.splitOn_eq_singleton hcomma]
  simp [hentry, h.ne_nil]

end

/-! ## Lists of containers -/

/-- Blanks and commas in front of a text hold no container. -/
theorem entries_loose {front : List Char} (h : ∀ c ∈ front, c = ',' ∨ Text.isBlank c = true)
    (rest : List Char) : entries (front ++ rest) = entries rest := by
  induction front with
  | nil => rfl
  | cons c front ih =>
    have ih := ih fun d hd => h d (List.mem_cons_of_mem _ hd)
    rw [List.cons_append]
    rcases h c List.mem_cons_self with rfl | hblank
    · exact (entries_append_comma [] _).trans ih
    · rw [entries_blank hblank, ih]

/-- A gap between containers is cut at its first comma. -/
theorem IsCommas.exists_eq {cs : List Char} (h : IsCommas cs) :
    ∃ blanks rest, IsBlanks blanks ∧ (∀ c ∈ rest, c = ',' ∨ Text.isBlank c = true) ∧
      cs = blanks ++ ',' :: rest := by
  obtain ⟨hcomma, hloose⟩ := h
  obtain ⟨blanks, rest, rfl, hfree⟩ := List.eq_append_cons_of_mem hcomma
  refine ⟨blanks, rest, fun c hc => ?_, fun c hc => ?_, rfl⟩
  · rcases hloose c (List.mem_append_left _ hc) with rfl | hblank
    · exact absurd hc hfree
    · exact hblank
  · exact hloose c (List.mem_append_right _ (List.mem_cons_of_mem _ hc))

theorem spellsContainer_written (container : TreePath) :
    SpellsContainer container (written container) := by
  have hslash : ['/'] ≠ [] ∧ IsSlashes ['/'] := by decide
  have hends : IsSlashes [] := by decide
  rw [written_eq]
  exact Text.spread_intercalate (fun _ => rfl) hslash hends

/-- The text that is written for some containers spells them. -/
theorem spells_toText (containers : List TreePath) : Spells containers (toText containers).toList := by
  have htext : (toText containers).toList = [','].intercalate (containers.map written) := by
    rw [toText, String.toList_intercalate, List.map_map]
    rfl
  have hcomma : IsCommas [','] := by decide
  have hends : IsBlanks [] := by decide
  rw [htext]
  exact Text.spread_intercalate spellsContainer_written hcomma hends

/-- Containers without blanks at their ends are read from every text that spells them, in order and as
often as they are spelled. The text that is written for them is such a text. -/
theorem ofText_spelled {containers : List TreePath}
    (h : ∀ container ∈ containers, IsReadable container ∧ IsTrimmed container) :
    (∀ raw : String, Spells containers raw.toList → ofText raw = containers) ∧
      Spells containers (toText containers).toList := by
  refine ⟨fun raw hraw => ?_, spells_toText containers⟩
  change entries raw.toList = containers
  refine hraw.read_eq rfl (fun _ rest hfront => ?_) ?_ ?_
  · exact entries_loose (fun c hc => .inr (hfront c hc)) rest
  · intro container hc piece back hpiece hback
    exact entries_spelled (h container hc).1 (h container hc).2 hpiece hback
  · intro container hc piece between rest hpiece hbetween
    obtain ⟨blanks, loose, hblanks, hloose, rfl⟩ := hbetween.exists_eq
    rw [List.append_assoc, List.append_assoc, List.cons_append, ← List.append_assoc,
      entries_append_comma, entries_spelled (h container hc).1 (h container hc).2 hpiece hblanks,
      entries_loose hloose, List.singleton_append]

theorem ofText_spelled_untidy :
    let containers : List TreePath := [["A b", " c"], ["D"], ["D"]]
    (∀ container ∈ containers, IsReadable container ∧ IsTrimmed container) ∧
      Spells containers "\t//A b/// c/ ,\n, D,D// ".toList ∧
      ofText "\t//A b/// c/ ,\n, D,D// " = containers := by
  intro containers
  have hclean : ∀ container ∈ containers, IsReadable container ∧ IsTrimmed container := by
    intro container hc
    simp only [containers, List.mem_cons, List.not_mem_nil, or_false] at hc
    rcases hc with rfl | rfl | rfl <;>
      exact ⟨⟨by decide, by decide⟩, by decide⟩
  have hpair : SpellsContainer ["A b", " c"] "//A b/// c/".toList :=
    ⟨"//".toList, "A b".toList ++ "///".toList ++ (" c".toList ++ "/".toList), by decide,
      .cons rfl (by decide) (.last rfl (by decide)), by decide⟩
  have hplain : SpellsContainer ["D"] "D".toList :=
    ⟨[], "D".toList ++ [], by decide, .last rfl (by decide), by decide⟩
  have hslashed : SpellsContainer ["D"] "D//".toList :=
    ⟨[], "D".toList ++ "//".toList, by decide, .last rfl (by decide), by decide⟩
  have hspelled : Spells containers "\t//A b/// c/ ,\n, D,D// ".toList :=
    ⟨"\t".toList, "//A b/// c/".toList ++ " ,\n, ".toList ++
      ("D".toList ++ ",".toList ++ ("D//".toList ++ " ".toList)), by decide,
      .cons hpair (by decide) (.cons hplain (by decide) (.last hslashed (by decide))), by decide⟩
  exact ⟨hclean, hspelled, (ofText_spelled hclean).1 _ hspelled⟩

end Containers

end PlaceMap
