/-
Containers that are read, written and read again. Only the ends of a whole container are trimmed, so
a name may keep a blank that stands next to a slash. If it is the first or the last name of its
container, the blank is at an end once the container is written, and the second reading drops it. This
is the only thing that a second reading may change.
-/
import Mathlib.Data.List.DropRight
import PlaceMap.Config
import PlaceMap.Proofs.Text.Split

namespace PlaceMap

namespace Text

/-! ## Trimming -/

section

variable {p : Char → Bool} {cs : List Char}

theorem trim_sublist (p : Char → Bool) (cs : List Char) : (trim p cs).Sublist cs :=
  (List.rdropWhile_prefix p _).sublist.trans (List.dropWhile_sublist p)

/-- Nothing is trimmed from a text that neither begins nor ends with a character of the class. -/
theorem trim_eq_self_iff :
    trim p cs = cs ↔ (∀ c ∈ cs.head?, p c = false) ∧ ∀ c ∈ cs.getLast?, p c = false := by
  have hfront : cs.dropWhile p = cs ↔ ∀ c ∈ cs.head?, p c = false := by
    cases cs <;> simp
  have hend : cs.rdropWhile p = cs ↔ ∀ c ∈ cs.getLast?, p c = false := by
    rcases List.eq_nil_or_concat' cs with rfl | ⟨front, last, rfl⟩ <;> simp
  rw [← hfront, ← hend]
  constructor
  · intro h
    have hdrop : cs.dropWhile p = cs := by
      refine (List.dropWhile_sublist p).eq_of_length_le ?_
      calc cs.length = (trim p cs).length := by rw [h]
        _ ≤ (cs.dropWhile p).length := (List.rdropWhile_prefix p _).length_le
    refine ⟨hdrop, ?_⟩
    rwa [trim, hdrop] at h
  · rintro ⟨hdrop, hend⟩
    rw [trim, hdrop]
    exact hend

end

/-! ## Joined texts -/

section

variable (sep : List Char)

theorem head?_intercalate : ∀ {pieces : List (List Char)}, (∀ piece ∈ pieces, piece ≠ []) →
    (sep.intercalate pieces).head? = pieces.head?.bind List.head?
  | [], _ => rfl
  | [piece], _ => by simp
  | piece :: next :: pieces, h => by
    obtain ⟨c, cs, rfl⟩ := List.exists_cons_of_ne_nil (h piece List.mem_cons_self)
    simp

theorem getLast?_intercalate : ∀ {pieces : List (List Char)}, (∀ piece ∈ pieces, piece ≠ []) →
    (sep.intercalate pieces).getLast? = pieces.getLast?.bind List.getLast?
  | [], _ => rfl
  | [piece], _ => by simp
  | piece :: next :: pieces, h => by
    have hrest : ∀ p ∈ next :: pieces, p ≠ [] := fun p hp => h p (List.mem_cons_of_mem _ hp)
    have hlast : ((next :: pieces).getLast?.bind List.getLast?).isSome := by
      rw [List.getLast?_eq_some_getLast (List.cons_ne_nil _ _), Option.bind_some,
        List.getLast?_isSome]
      exact hrest _ (List.getLast_mem _)
    rw [List.intercalate_cons_cons, List.getLast?_append, getLast?_intercalate hrest,
      Option.or_of_isSome hlast, List.getLast?_cons_cons]

theorem mem_of_mem_intercalate {c : Char} : ∀ {pieces : List (List Char)},
    c ∈ sep.intercalate pieces → c ∈ sep ∨ ∃ piece ∈ pieces, c ∈ piece
  | [], h => nomatch h
  | [piece], h => .inr ⟨piece, List.mem_singleton_self _, by simpa using h⟩
  | piece :: next :: pieces, h => by
    rw [List.intercalate_cons_cons, List.append_assoc, List.mem_append, List.mem_append] at h
    rcases h with h | h | h
    · exact .inr ⟨piece, List.mem_cons_self, h⟩
    · exact .inl h
    · refine (mem_of_mem_intercalate h).imp_right fun ⟨q, hq, hc⟩ => ?_
      exact ⟨q, List.mem_cons_of_mem _ hq, hc⟩

/-- Empty pieces only make a joined text longer. -/
theorem length_intercalate_filter_le : ∀ pieces : List (List Char),
    (sep.intercalate (pieces.filter (· ≠ []))).length ≤ (sep.intercalate pieces).length
  | [] => le_rfl
  | [piece] => by
    by_cases h : piece = [] <;> simp [h]
  | piece :: next :: pieces => by
    have ih := length_intercalate_filter_le (next :: pieces)
    rw [List.intercalate_cons_cons, List.length_append, List.length_append]
    by_cases h : piece = []
    · rw [List.filter_cons_of_neg (by simpa using h)]
      omega
    · rw [List.filter_cons_of_pos (by simpa using h)]
      rcases hrest : (next :: pieces).filter (· ≠ []) with _ | ⟨first, rest⟩
      · simp
        omega
      · rw [hrest] at ih
        rw [List.intercalate_cons_cons, List.length_append, List.length_append]
        omega

end

end Text

namespace Containers

/-- The text of a container. -/
def written (container : TreePath) : List Char := (String.intercalate "/" container).toList

/-- Reads one container. -/
def ofEntry (entry : List Char) : TreePath :=
  ((Text.split '/' (Text.trim Text.isBlank entry)).filter (· ≠ [])).map String.ofList

theorem ofText_eq (raw : String) :
    ofText raw = ((Text.split ',' raw.toList).map ofEntry).filter (· ≠ []) := rfl

/-- A container that can be read: its names are not empty and hold neither slash nor comma. -/
structure IsReadable (container : TreePath) : Prop where
  ne_nil : container ≠ []
  names : ∀ name ∈ container, name ≠ "" ∧ '/' ∉ name.toList ∧ ',' ∉ name.toList

/-- The first name of a container does not begin with a blank, and the last one does not end with
one. -/
structure IsTrimmed (container : TreePath) : Prop where
  head : ∀ first ∈ container.head?, ∀ c ∈ first.toList.head?, Text.isBlank c = false
  last : ∀ last ∈ container.getLast?, ∀ c ∈ last.toList.getLast?, Text.isBlank c = false

theorem isReadable_of_mem_ofText {raw : String} {container : TreePath} (h : container ∈ ofText raw) :
    IsReadable container := by
  rw [ofText_eq] at h
  obtain ⟨h, hne⟩ := List.mem_filter.1 h
  obtain ⟨entry, hentry, rfl⟩ := List.mem_map.1 h
  refine ⟨of_decide_eq_true hne, fun name hname => ?_⟩
  obtain ⟨piece, hpiece, rfl⟩ := List.mem_map.1 hname
  obtain ⟨hpiece, hpne⟩ := List.mem_filter.1 hpiece
  rw [String.toList_ofList]
  refine ⟨?_, Text.not_mem_of_mem_split hpiece, fun hcomma => ?_⟩
  · exact fun he => of_decide_eq_true hpne (by simpa using he)
  · have hmem := (Text.trim_sublist _ _).mem (Text.mem_of_mem_split hpiece hcomma)
    exact Text.not_mem_of_mem_split hentry hmem

/-! ## A container that is written and read -/

section

variable {container : TreePath}

theorem written_eq (container : TreePath) :
    written container = ['/'].intercalate (container.map String.toList) := by
  rw [written, String.toList_intercalate]
  rfl

theorem IsReadable.pieces (h : IsReadable container) :
    ∀ piece ∈ container.map String.toList, piece ≠ [] := by
  intro piece hp
  obtain ⟨name, hn, rfl⟩ := List.mem_map.1 hp
  exact fun he => (h.names name hn).1 (String.toList_eq_nil_iff.1 he)

theorem IsReadable.comma_notMem_written (h : IsReadable container) : ',' ∉ written container := by
  intro hc
  rw [written_eq] at hc
  rcases Text.mem_of_mem_intercalate _ hc with hc | ⟨piece, hp, hc⟩
  · exact absurd hc (by decide)
  · obtain ⟨name, hn, rfl⟩ := List.mem_map.1 hp
    exact (h.names name hn).2.2 hc

/-- A written container is a trimmed text if there is no blank at the ends of the container. -/
theorem trim_written_iff (h : IsReadable container) :
    Text.trim Text.isBlank (written container) = written container ↔ IsTrimmed container := by
  have hbind : ∀ (o : Option String) (f : List Char → Option Char),
      (∀ c ∈ (o.map String.toList).bind f, Text.isBlank c = false) ↔
        ∀ name ∈ o, ∀ c ∈ f name.toList, Text.isBlank c = false := by
    intro o f
    cases o <;> simp
  rw [Text.trim_eq_self_iff, written_eq, Text.head?_intercalate _ h.pieces,
    Text.getLast?_intercalate _ h.pieces, List.head?_map, List.getLast?_map, hbind, hbind]
  exact ⟨fun h => ⟨h.1, h.2⟩, fun h => ⟨h.head, h.last⟩⟩

/-- Reading a container finds no more text than it is given. -/
theorem length_written_ofEntry_le (entry : List Char) :
    (written (ofEntry entry)).length ≤ (Text.trim Text.isBlank entry).length := by
  have hjoin : ['/'].intercalate (Text.split '/' (Text.trim Text.isBlank entry)) =
      Text.trim Text.isBlank entry := by
    rw [Text.split_eq_splitOn, List.intercalate_splitOn]
  rw [written_eq, ofEntry, List.map_map]
  simp only [Function.comp_def, String.toList_ofList, List.map_id']
  calc _ ≤ (['/'].intercalate (Text.split '/' (Text.trim Text.isBlank entry))).length :=
        Text.length_intercalate_filter_le _ _
    _ = _ := by rw [hjoin]

/-- A written container is read as it was exactly if it has no blank at its ends. -/
theorem ofEntry_written_iff (h : IsReadable container) :
    ofEntry (written container) = container ↔ IsTrimmed container := by
  rw [← trim_written_iff h]
  constructor
  · intro heq
    refine (Text.trim_sublist _ _).eq_of_length_le ?_
    calc (written container).length = (written (ofEntry (written container))).length := by rw [heq]
      _ ≤ _ := length_written_ofEntry_le _
  · intro htrim
    have hslash : ∀ name ∈ container, '/' ∉ name.toList := fun name hn => (h.names name hn).2.1
    have hsplit : Text.split '/' (written container) = container.map String.toList :=
      Text.split_intercalate h.ne_nil hslash
    rw [ofEntry, htrim, hsplit, List.filter_eq_self.2 fun p hp => decide_eq_true (h.pieces p hp),
      List.map_map]
    simp [Function.comp_def]

end

/-- Written containers are read one by one. -/
theorem ofText_toText {containers : List TreePath} (h : ∀ c ∈ containers, IsReadable c) :
    ofText (toText containers) =
      (containers.map fun c => ofEntry (written c)).filter (· ≠ []) := by
  by_cases hne : containers = []
  · rw [hne]
    decide
  · have hcomma : ∀ text ∈ containers.map (String.intercalate "/"), ',' ∉ text.toList := by
      intro text ht
      obtain ⟨container, hc, rfl⟩ := List.mem_map.1 ht
      exact (h container hc).comma_notMem_written
    have hsplit : Text.split ',' (toText containers).toList =
        (containers.map (String.intercalate "/")).map String.toList :=
      Text.split_intercalate (by simpa using hne) hcomma
    rw [ofText_eq, hsplit, List.map_map, List.map_map]
    rfl

/-- Containers that are written and read again are the same exactly if none of them begins or ends
with a blank. -/
theorem ofText_toText_iff (raw : String) :
    ofText (toText (ofText raw)) = ofText raw ↔ ∀ container ∈ ofText raw, IsTrimmed container := by
  have hreadable : ∀ c ∈ ofText raw, IsReadable c := fun c => isReadable_of_mem_ofText
  rw [ofText_toText hreadable]
  constructor
  · intro h container hc
    have hlength : (((ofText raw).map fun c => ofEntry (written c)).filter (· ≠ [])).length =
        ((ofText raw).map fun c => ofEntry (written c)).length := by
      rw [h, List.length_map]
    rw [List.filter_eq_self.2 (List.length_filter_eq_length_iff.1 hlength)] at h
    refine (ofEntry_written_iff (hreadable container hc)).1 ?_
    exact List.map_inj_left.1 (h.trans (List.map_id _).symm) container hc
  · intro h
    have hsame : ((ofText raw).map fun c => ofEntry (written c)) = ofText raw :=
      (List.map_congr_left fun c hc => (ofEntry_written_iff (hreadable c hc)).2 (h c hc)).trans
        (List.map_id _)
    rw [hsame]
    exact List.filter_eq_self.2 fun c hc => decide_eq_true (hreadable c hc).ne_nil

example : ofText (toText (ofText " A / B ,/, C/,D")) = [["A ", " B"], ["C"], ["D"]] := by decide

/-- A blank behind a leading slash is trimmed by the second reading only. -/
theorem not_ofText_toText : ¬ ∀ raw, ofText (toText (ofText raw)) = ofText raw :=
  fun h => absurd (h "/ a") (by decide)

end Containers

end PlaceMap
