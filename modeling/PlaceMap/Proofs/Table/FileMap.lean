/-
Laws of the map of single files: looking a file up after it is mapped, the order of the files, and
that each file is mapped once.
-/
import PlaceMap.Table

namespace PlaceMap.FileMap

/-- The files of a map, in order. -/
def files (m : FileMap) : List Path := m.map (·.1)

theorem find?_nil (file : Path) : find? [] file = none := rfl

theorem find?_cons (e : Path × TreePath) (m : FileMap) (file : Path) :
    find? (e :: m) file = if e.1 = file then some e.2 else find? m file := by
  unfold find?
  rw [List.find?_cons]
  by_cases h : e.1 = file
  · rw [beq_iff_eq.2 h, if_pos h]; rfl
  · rw [beq_false_of_ne h, if_neg h]

/-- A file that was just mapped is found there, and every other one as before. -/
theorem find?_insert (file : Path) (place : TreePath) (other : Path) :
    ∀ m : FileMap, (m.insert file place).find? other =
      if file = other then some place else m.find? other
  | [] => by rw [insert, find?_cons]
  | (f, p) :: rest => by
    rw [insert]
    by_cases hf : f = file
    · subst hf
      rw [if_pos rfl, find?_cons, find?_cons]
      by_cases ho : f = other
      · simp only [ho, if_true]
      · simp only [ho, if_false]
    · rw [if_neg hf, find?_cons, find?_cons, find?_insert file place other rest]
      by_cases ho : f = other
      · have : ¬ file = other := fun h => hf (ho.trans h.symm)
        simp only [ho, this, if_true, if_false]
      · simp only [ho, if_false]

/-- Mapping a file keeps the order of the files; a new one comes last. -/
theorem files_insert (file : Path) (place : TreePath) :
    ∀ m : FileMap, (m.insert file place).files = if file ∈ m.files then m.files else m.files ++ [file]
  | [] => rfl
  | (f, p) :: rest => by
    have ih := files_insert file place rest
    rw [insert]
    by_cases hf : f = file
    · subst hf
      simp [files]
    · rw [if_neg hf]
      have hne : ¬ file = f := fun h => hf h.symm
      unfold files at ih ⊢
      rw [List.map_cons, ih]
      by_cases hm : file ∈ rest.map (·.1)
      · simp [hm]
      · simp [hm, hne]

theorem mem_insert {file : Path} {place : TreePath} {e : Path × TreePath} :
    ∀ {m : FileMap}, e ∈ m.insert file place → e = (file, place) ∨ e ∈ m
  | [], h => .inl (List.mem_singleton.1 h)
  | (f, p) :: rest, h => by
    rw [insert] at h
    split at h
    · rename_i hf
      subst hf
      rcases List.mem_cons.1 h with rfl | h
      · exact .inl rfl
      · exact .inr (List.mem_cons_of_mem _ h)
    · rcases List.mem_cons.1 h with rfl | h
      · exact .inr List.mem_cons_self
      · exact (mem_insert h).imp id (List.mem_cons_of_mem _)

theorem nodup_insert {m : FileMap} (h : m.files.Nodup) (file : Path) (place : TreePath) :
    (m.insert file place).files.Nodup := by
  rw [files_insert]
  split
  · exact h
  · rename_i hm
    refine List.nodup_append.2 ⟨h, by simp, fun a ha b hb => ?_⟩
    rintro rfl
    exact hm (List.mem_singleton.1 hb ▸ ha)

theorem find?_eq_none {m : FileMap} {file : Path} : m.find? file = none ↔ file ∉ m.files := by
  induction m with
  | nil => simp [find?_nil, files]
  | cons e m ih =>
    rw [find?_cons]
    unfold files at ih ⊢
    by_cases h : e.1 = file
    · simp [h]
    · have : ¬ file = e.1 := fun he => h he.symm
      simp [h, ih, this]

/-- Where each file is mapped once, an entry is what is found under its file. -/
theorem find?_of_mem {e : Path × TreePath} :
    ∀ {m : FileMap}, m.files.Nodup → e ∈ m → m.find? e.1 = some e.2
  | [], _, h => by cases h
  | a :: m, hnd, h => by
    obtain ⟨ha, hnd⟩ := List.nodup_cons.1 hnd
    rw [find?_cons]
    rcases List.mem_cons.1 h with rfl | h
    · rw [if_pos rfl]
    · have hne : a.1 ≠ e.1 := fun he => ha (List.mem_map.2 ⟨e, h, he.symm⟩)
      rw [if_neg hne, find?_of_mem hnd h]

/-- Files that are mapped once each, one after another, are found where they were mapped, and every
other file as before. -/
theorem find?_foldl_insert {file : Path} {place : TreePath} :
    ∀ {l : List (Path × TreePath)} {m : FileMap}, (l.map (·.1)).Nodup →
      ((l.foldl (fun m e => m.insert e.1 e.2) m).find? file = some place ↔
        (file, place) ∈ l ∨ file ∉ l.map (·.1) ∧ m.find? file = some place)
  | [], m, _ => by simp
  | (f, p) :: l, m, h => by
    obtain ⟨hf, h⟩ := List.nodup_cons.1 h
    rw [List.foldl_cons, find?_foldl_insert h, find?_insert]
    by_cases heq : f = file
    · subst heq
      have hnone : (f, place) ∉ l := fun hm => hf (List.mem_map.2 ⟨_, hm, rfl⟩)
      simp [hf, hnone, eq_comm]
    · have hne : ¬ file = f := fun h => heq h.symm
      simp [heq, hne]

end PlaceMap.FileMap
