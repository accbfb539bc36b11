/-
Listing directories of a file system held in memory: one that exists is listed, unless an entry says
otherwise, by names on the paths of the entries, and what is so named exists.
-/
import PlaceMap.FileSystem.Stored
import PlaceMap.Proofs.Path.Normal

namespace PlaceMap.Stored

theorem mem_names {s : Stored} {dir : Path} {n : String} (h : n ∈ s.names dir) :
    ∃ e ∈ s, n ∈ (Path.ofString e.1).parts := by
  unfold names at h
  rw [List.mem_mergeSort, List.mem_eraseDups] at h
  obtain ⟨⟨name, entry⟩, he, hn⟩ := List.mem_filterMap.1 h
  refine ⟨(name, entry), he, ?_⟩
  dsimp only at hn
  split at hn
  · rename_i first rest hbelow
    cases hn
    rw [(Path.below?_eq_some.1 hbelow).2]
    exact List.mem_append_right _ List.mem_cons_self
  · cases hn

theorem nodup_eraseDups : ∀ l : List String, l.eraseDups.Nodup
  | [] => List.nodup_nil
  | a :: l => by
    rw [List.eraseDups_cons, List.nodup_cons]
    refine ⟨fun h => ?_, nodup_eraseDups _⟩
    rw [List.mem_eraseDups] at h
    simp at h
termination_by l => l.length
decreasing_by exact Nat.lt_succ_of_le (List.length_filter_le _ _)

theorem nodup_names {s : Stored} {dir : Path} : (s.names dir).Nodup :=
  (List.mergeSort_perm _ _).nodup_iff.2 (nodup_eraseDups _)

theorem list_of_hasDirectory {s : Stored} {dir : Path}
    (hs : ∀ e ∈ s, (∀ found, e.2 ≠ .listing found) ∧ ∀ cause, e.2 ≠ .unlistable cause)
    (h : s.hasDirectory dir.toText = true) : s.list dir = .ok (s.names dir) := by
  have hentry : ∀ entry, s.entry? dir.toText = some entry →
      (∀ found, entry ≠ .listing found) ∧ ∀ cause, entry ≠ .unlistable cause := by
    intro entry he
    obtain ⟨e, hfind, rfl⟩ := Option.map_eq_some_iff.1 he
    exact hs e (List.mem_of_find?_eq_some hfind)
  unfold list
  dsimp only
  split
  · rename_i found he
    exact absurd rfl ((hentry _ he).1 found)
  · rename_i cause he
    exact absurd rfl ((hentry _ he).2 cause)
  · rw [if_pos h]

theorem has_entry {s : Stored} {e : String × Entry} (h : e ∈ s) : s.has e.1 = true := by
  unfold has entry?
  rw [Bool.or_eq_true_iff, Option.isSome_map, List.find?_isSome]
  exact .inl ⟨e, h, beq_self_eq_true e.1⟩

theorem hasDirectory_ancestor {s : Stored} {e : String × Entry} (h : e ∈ s) {key : String}
    (hkey : key ∈ ancestors (Path.ofString e.1)) : s.hasDirectory key = true := by
  unfold hasDirectory
  rw [Bool.or_eq_true_iff, List.any_eq_true]
  exact .inr ⟨e, h, Bool.or_eq_true_iff.2 (.inr (List.contains_iff_mem.2 hkey))⟩

/-- What a directory is listed by is an entry, or on the way to one. -/
theorem has_of_mem_names {s : Stored} (hs : ∀ e ∈ s, (Path.ofString e.1).toText = e.1) {dir : Path}
    {n : String} (h : n ∈ s.names dir) : s.has (dir.child n).toText = true := by
  unfold names at h
  rw [List.mem_mergeSort, List.mem_eraseDups] at h
  obtain ⟨e, he, hn⟩ := List.mem_filterMap.1 h
  dsimp only at hn
  split at hn
  case h_2 => cases hn
  rename_i rest hbelow
  cases hn
  obtain ⟨hanchor, hparts⟩ := Path.below?_eq_some.1 hbelow
  have hpart : FileName.IsPart n := Path.ofString_proper e.1 n (by rw [hparts]; simp)
  have hchild : dir.child n = ⟨(Path.ofString e.1).anchor, (Path.ofString e.1).parts.take
      (dir.parts.length + 1)⟩ := by
    rw [Path.child, Path.ofString_part hpart, hanchor, hparts, List.take_length_add_append]
    rfl
  rw [hchild]
  cases rest with
  | nil =>
    have hentry : (⟨(Path.ofString e.1).anchor, (Path.ofString e.1).parts.take
        (dir.parts.length + 1)⟩ : Path) = Path.ofString e.1 := by
      rw [hparts, ← List.length_singleton (a := n), ← List.length_append, List.take_length, ← hparts]
    rw [hentry, hs e he]
    exact has_entry he
  | cons part rest =>
    refine Bool.or_eq_true_iff.2 (.inr (hasDirectory_ancestor he ?_))
    refine List.mem_map.2 ⟨dir.parts.length + 1, List.mem_range.2 ?_, rfl⟩
    rw [hparts]
    simp

end PlaceMap.Stored
