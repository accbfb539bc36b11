/-
Cutting at a separator is the library's cutting of lists, so a joined text comes apart into the
pieces it was joined from.
-/
import PlaceMap.Text.Split

namespace PlaceMap.Text

theorem split_eq_splitOn (sep : Char) : ∀ cs : List Char, split sep cs = cs.splitOn sep
  | [] => List.splitOn_nil _ |>.symm
  | c :: cs => by
    rw [split, List.splitOn_cons_eq_if_modifyHead, split_eq_splitOn sep cs]
    by_cases h : c = sep
    · rw [if_pos h, if_pos (beq_iff_eq.2 h)]
    · rw [if_neg h, if_neg fun hb => h (beq_iff_eq.1 hb)]
      rcases hs : cs.splitOn sep with _ | ⟨piece, rest⟩
      · exact absurd hs (List.splitOn_ne_nil _ _)
      · rfl

/-- No piece holds the separator. -/
theorem not_mem_of_mem_split {sep : Char} :
    ∀ {cs piece : List Char}, piece ∈ split sep cs → sep ∉ piece
  | [], piece, h => by
    rw [List.mem_singleton.1 h]
    exact List.not_mem_nil
  | c :: cs, piece, h => by
    rw [split] at h
    by_cases hc : c = sep
    · rw [if_pos hc] at h
      rcases List.mem_cons.1 h with rfl | h
      · exact List.not_mem_nil
      · exact not_mem_of_mem_split h
    · rw [if_neg hc] at h
      have ih : ∀ p ∈ split sep cs, sep ∉ p := fun p hp => not_mem_of_mem_split hp
      rcases hs : split sep cs with _ | ⟨first, rest⟩
      · rw [hs] at h
        rw [List.mem_singleton.1 h, List.mem_singleton]
        exact fun he => hc he.symm
      · rw [hs] at h ih
        rcases List.mem_cons.1 h with rfl | h
        · intro hm
          rcases List.mem_cons.1 hm with he | hm
          · exact hc he.symm
          · exact ih first List.mem_cons_self hm
        · exact ih piece (List.mem_cons_of_mem _ h)

theorem mem_of_mem_split {sep c : Char} :
    ∀ {cs piece : List Char}, piece ∈ split sep cs → c ∈ piece → c ∈ cs
  | [], piece, h, hc => by
    rw [List.mem_singleton.1 h] at hc
    exact hc
  | d :: cs, piece, h, hc => by
    have ih : ∀ p ∈ split sep cs, c ∈ p → c ∈ d :: cs := fun p hp hc =>
      List.mem_cons_of_mem d (mem_of_mem_split hp hc)
    rw [split] at h
    split at h
    · rcases List.mem_cons.1 h with rfl | h
      · cases hc
      · exact ih piece h hc
    · rcases hs : split sep cs with _ | ⟨first, rest⟩
      · rw [hs] at h
        rw [List.mem_singleton.1 h] at hc
        exact List.mem_cons.2 (.inl (List.mem_singleton.1 hc))
      · rw [hs] at h ih
        rcases List.mem_cons.1 h with rfl | h
        · rcases List.mem_cons.1 hc with rfl | hc
          · exact List.mem_cons_self
          · exact ih first List.mem_cons_self hc
        · exact ih piece (List.mem_cons_of_mem _ h) hc

theorem split_append_cons (sep : Char) (rest : List Char) :
    ∀ cs : List Char, split sep (cs ++ sep :: rest) = split sep cs ++ split sep rest
  | [] => if_pos rfl
  | c :: cs => by
    rw [List.cons_append, split, split, split_append_cons sep rest cs]
    by_cases h : c = sep
    · rw [if_pos h, if_pos h, List.cons_append]
    · rw [if_neg h, if_neg h]
      rcases hs : split sep cs with _ | ⟨piece, pieces⟩
      · rw [split_eq_splitOn] at hs
        exact absurd hs (List.splitOn_ne_nil _ _)
      · rfl

/-- Pieces without the separator are the pieces of the text that they are joined to. -/
theorem split_intercalate {sep : Char} {pieces : List String} (hne : pieces ≠ [])
    (h : ∀ piece ∈ pieces, sep ∉ piece.toList) :
    split sep (String.intercalate (String.singleton sep) pieces).toList =
      pieces.map String.toList := by
  have hsep : ∀ l ∈ pieces.map String.toList, sep ∉ l := by
    intro l hl
    obtain ⟨piece, hp, rfl⟩ := List.mem_map.1 hl
    exact h piece hp
  rw [split_eq_splitOn, String.toList_intercalate, String.toList_singleton,
    List.splitOn_intercalate sep hsep (by simpa using hne)]

theorem splitText_intercalate {sep : Char} {pieces : List String} (hne : pieces ≠ [])
    (h : ∀ piece ∈ pieces, sep ∉ piece.toList) :
    splitText sep (String.intercalate (String.singleton sep) pieces) = pieces := by
  rw [splitText, split_intercalate hne h, List.map_map]
  simp

end PlaceMap.Text
