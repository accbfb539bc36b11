/-
File systems without failures: every question about what stands where has an answer, every directory
can be listed, by the names of entries, and every regular file leads to something that can be read,
though perhaps not decoded. There are finitely many files and directories.

A steady file system may fail in two ways all the same: to list a directory, and to say where a path
leads.

Both are asked for only at the paths about which a file system is consulted. At other paths it may
fail as it likes, as a disk does at paths that are too long to be looked up.
-/
import PlaceMap.Proofs.FileSystem.Stored

namespace PlaceMap

/-- It is known what stands at a path. -/
structure FileSystem.KnownAt (fs : FileSystem) (p : Path) : Prop where
  has : ∃ found, fs.has p = .ok found
  isDirectory : ∃ b, fs.isDirectory p = .ok b
  isFile : ∃ b, fs.isFile p = .ok b

/-- A file system does not fail at a path. -/
structure FileSystem.HealthyAt (fs : FileSystem) (p : Path) : Prop extends fs.KnownAt p where
  list : fs.isDirectory p = .ok true → ∃ names, fs.list p = .ok names
  read : fs.isFile p = .ok true →
    ∃ target, fs.realPath p = .ok target ∧ ∀ e, fs.read target ≠ .error (.failed e)

/-- At a path, a listing may fail, with a failure of the system, and the path may not be resolved, but
nothing else fails. -/
structure FileSystem.SteadyAt (fs : FileSystem) (p : Path) : Prop extends fs.KnownAt p where
  list : ∀ e, fs.list p = .error e → e.isSystem = true
  read : ∀ target, fs.isFile p = .ok true → fs.realPath p = .ok target →
    ∀ e, fs.read target ≠ .error (.failed e)

/-- Directories list the names of entries, and there are finitely many files and directories. -/
structure FileSystem.Bounded (fs : FileSystem) : Prop where
  listed : ∀ dir names n, fs.list dir = .ok names → n ∈ names → FileName.IsOrdinary n
  finite : ∃ paths : List Path, ∀ p, p.Proper →
    fs.has p = .ok true ∨ fs.isDirectory p = .ok true → p ∈ paths

/-- A bounded file system that does not fail at the paths about which it is consulted. -/
structure FileSystem.Healthy (fs : FileSystem) (consulted : Path → Prop) : Prop where
  healthyAt : ∀ p, consulted p → fs.HealthyAt p
  bounded : fs.Bounded

/-- A bounded file system that is steady at the paths about which it is consulted. -/
structure FileSystem.Steady (fs : FileSystem) (consulted : Path → Prop) : Prop where
  steadyAt : ∀ p, consulted p → fs.SteadyAt p
  bounded : fs.Bounded

/-- A directory that can be listed lists the ordinary names under which something stands in it, and no
others. -/
def FileSystem.ListsExactly (fs : FileSystem) : Prop :=
  ∀ dir names, dir.Proper → fs.list dir = .ok names →
    ∀ n, n ∈ names ↔ FileName.IsOrdinary n ∧ fs.has (dir.child n) = .ok true

namespace Stored

/-- An entry that is neither special nor made to fail, and does not lead anywhere else. -/
def Entry.isPlain : Entry → Bool
  | .directory | .text _ | .octets _ => true
  | .listing names => names.all fun n => decide (FileName.IsOrdinary n)
  | _ => false

/-- The texts of the paths where something stands. -/
def keys (s : Stored) : List String :=
  "/" :: s.flatMap fun e => e.1 :: ancestors (Path.ofString e.1)

theorem mem_of_entry {s : Stored} {key : String} {entry : Entry} (h : s.entry? key = some entry) :
    (key, entry) ∈ s := by
  obtain ⟨⟨name, found⟩, hfind, rfl⟩ := Option.map_eq_some_iff.1 h
  have hkey : name = key := by simpa using List.find?_some hfind
  exact hkey ▸ List.mem_of_find?_eq_some hfind

theorem hasDirectory_of_entry {s : Stored} {key : String} {entry : Entry}
    (h : s.entry? key = some entry) (hentry : entry.isDirectory = true) :
    s.hasDirectory key = true := by
  refine Bool.or_eq_true_iff.2 (.inr (List.any_eq_true.2 ⟨_, mem_of_entry h, ?_⟩))
  simp [hentry]

/-- Nothing under a key of a file is a directory. -/
theorem exists_entry_of_hasFile {s : Stored} {key : String} (h : s.hasFile key = true) :
    ∃ entry, s.entry? key = some entry ∧ entry.isDirectory = false := by
  unfold hasFile has at h
  simp only [Bool.and_eq_true, Bool.or_eq_true, Bool.not_eq_true'] at h
  obtain ⟨⟨hhas, hdirectory⟩, -⟩ := h
  rw [hdirectory] at hhas
  obtain ⟨entry, he⟩ := Option.isSome_iff_exists.1 (hhas.resolve_right Bool.false_ne_true)
  refine ⟨entry, he, Bool.eq_false_iff.2 fun hentry => ?_⟩
  rw [hasDirectory_of_entry he hentry] at hdirectory
  cases hdirectory

theorem mem_keys_of_hasDirectory {s : Stored} {key : String} (h : s.hasDirectory key = true) :
    key ∈ s.keys := by
  rcases Bool.or_eq_true_iff.1 h with h | h
  · rw [beq_iff_eq.1 h]
    exact List.mem_cons_self
  · obtain ⟨e, he, hkey⟩ := List.any_eq_true.1 h
    refine List.mem_cons_of_mem _ (List.mem_flatMap.2 ⟨e, he, ?_⟩)
    rcases Bool.or_eq_true_iff.1 hkey with hkey | hkey
    · rw [beq_iff_eq.1 (Bool.and_eq_true_iff.1 hkey).1]
      exact List.mem_cons_self
    · exact List.mem_cons_of_mem _ (List.contains_iff_mem.1 hkey)

theorem mem_keys_of_has {s : Stored} {key : String} (h : s.has key = true) : key ∈ s.keys := by
  rcases Bool.or_eq_true_iff.1 h with h | h
  · obtain ⟨entry, he⟩ := Option.isSome_iff_exists.1 h
    exact List.mem_cons_of_mem _ (List.mem_flatMap.2 ⟨_, mem_of_entry he, List.mem_cons_self⟩)
  · exact mem_keys_of_hasDirectory h

theorem list_eq_names {s : Stored} {dir : Path} {names : List String} (h : s.list dir = .ok names) :
    names = s.names dir ∨ s.entry? dir.toText = some (.listing names) := by
  unfold list at h
  dsimp only at h
  split at h
  · rename_i found he
    cases h
    exact .inr he
  · cases h
  · split at h
    · cases h
      exact .inl rfl
    · split at h <;> cases h

/-- If no entry says what a directory lists, whatever is listed exists. -/
theorem has_of_listed {s : Stored} (hlisting : ∀ e ∈ s, ∀ names, e.2 ≠ .listing names)
    (hkeys : ∀ e ∈ s, (Path.ofString e.1).toText = e.1) {dir : Path} {names : List String} {n : String}
    (hl : s.fileSystem.list dir = .ok names) (hn : n ∈ names) :
    s.fileSystem.has (dir.child n) = .ok true := by
  rcases list_eq_names hl with rfl | he
  · exact congrArg Except.ok (has_of_mem_names hkeys hn)
  · exact absurd rfl (hlisting _ (mem_of_entry he) names)

/-- A path where something stands is the root, or on the way to an entry. -/
theorem exists_take_of_mem_keys {s : Stored} {p : Path} (hp : p.Proper) (h : p.toText ∈ s.keys) :
    p.parts = [] ∨ ∃ e ∈ s, ∃ i,
      p = ⟨(Path.ofString e.1).anchor, (Path.ofString e.1).parts.take i⟩ := by
  have hread : ∀ {key : String}, p.toText = key → p = Path.ofString key := fun h => by
    rw [← h, Path.ofString_toText hp]
  rcases List.mem_cons.1 h with h | h
  · exact .inl (congrArg Path.parts (hread h))
  · obtain ⟨e, he, h⟩ := List.mem_flatMap.1 h
    refine .inr ⟨e, he, ?_⟩
    rcases List.mem_cons.1 h with h | h
    · exact ⟨_, (hread h).trans (congrArg (Path.mk _) List.take_length.symm)⟩
    · obtain ⟨i, -, h⟩ := List.mem_map.1 h
      refine ⟨i, (hread h.symm).trans (Path.ofString_toText fun part hpart => ?_)⟩
      exact Path.ofString_proper e.1 part (List.mem_of_mem_take hpart)

/-- What stands in a directory is among its names. -/
theorem mem_names_of_has {s : Stored} {dir : Path} (hdir : dir.Proper) {n : String}
    (hn : FileName.IsPart n) (h : s.has (dir.child n).toText = true) : n ∈ s.names dir := by
  have hparts : (dir.child n).parts = dir.parts ++ [n] := Path.parts_child hn
  rcases exists_take_of_mem_keys (Path.child_proper hdir n) (mem_keys_of_has h) with
    hroot | ⟨e, he, i, hchild⟩
  · rw [hparts] at hroot
    exact absurd hroot (List.concat_ne_nil _ _)
  · have hbelow : (Path.ofString e.1).below? dir = some (n :: (Path.ofString e.1).parts.drop i) := by
      rw [hchild] at hparts
      refine Path.below?_eq_some.2 ⟨?_, ?_⟩
      · have hanchor := congrArg Path.anchor hchild
        rw [Path.child, Path.ofString_part hn] at hanchor
        exact hanchor.symm
      · have htake : (Path.ofString e.1).parts.take i = dir.parts ++ [n] := hparts
        have hsplit := List.take_append_drop i (Path.ofString e.1).parts
        rw [htake, List.append_assoc] at hsplit
        exact hsplit.symm
    unfold names
    rw [List.mem_mergeSort, List.mem_eraseDups]
    exact List.mem_filterMap.2 ⟨e, he, by dsimp only; rw [hbelow]⟩

/-- Listings are exact, if no entry says otherwise. -/
theorem listsExactly {s : Stored} (hlisting : ∀ e ∈ s, ∀ names, e.2 ≠ .listing names)
    (hkeys : ∀ e ∈ s, (Path.ofString e.1).toText = e.1)
    (hnormal : ∀ e ∈ s, (Path.ofString e.1).IsNormal) : s.fileSystem.ListsExactly := by
  intro dir names hdir hl n
  have hnames : names = s.names dir :=
    (list_eq_names hl).resolve_right fun he => hlisting _ (mem_of_entry he) names rfl
  refine ⟨fun hn => ⟨?_, has_of_listed hlisting hkeys hl hn⟩, fun ⟨hn, hhas⟩ => ?_⟩
  · obtain ⟨e, he, hpart⟩ := mem_names (hnames ▸ hn)
    exact (hnormal e he).2 n hpart
  · exact hnames ▸ mem_names_of_has hdir hn.1 (Except.ok.inj hhas)

/-- The names that an entry lists by itself. -/
def Entry.listed : Entry → List String
  | .listing names => names
  | _ => []

/-- If no entry lists a name twice, no directory does. -/
theorem nodup_of_listed {s : Stored} (hlisted : ∀ e ∈ s, e.2.listed.Nodup) {dir : Path}
    {names : List String} (hl : s.fileSystem.list dir = .ok names) : names.Nodup := by
  rcases list_eq_names hl with rfl | he
  · exact nodup_names
  · exact hlisted _ (mem_of_entry he)

theorem bounded {s : Stored}
    (hlisting : ∀ e ∈ s, ∀ names, e.2 = .listing names → ∀ n ∈ names, FileName.IsOrdinary n)
    (hnormal : ∀ e ∈ s, (Path.ofString e.1).IsNormal) : s.fileSystem.Bounded where
  listed dir names n hlist hn := by
    rcases list_eq_names hlist with rfl | he
    · obtain ⟨e, he, hpart⟩ := mem_names hn
      exact (hnormal e he).2 n hpart
    · exact hlisting _ (mem_of_entry he) names rfl n hn
  finite := by
    refine ⟨s.keys.map Path.ofString, fun p hp hfound => ?_⟩
    refine List.mem_map.2 ⟨p.toText, ?_, Path.ofString_toText hp⟩
    rcases hfound with hfound | hfound
    · exact mem_keys_of_has (Except.ok.inj hfound)
    · exact mem_keys_of_hasDirectory (Except.ok.inj hfound)

/-- What stands in the entry of a file can be read, though perhaps not decoded. -/
theorem read_ne_failed {s : Stored} {file : Path} {entry : Entry}
    (he : s.entry? file.toText = some entry)
    (h : (∃ content, entry = .text content) ∨ ∃ content, entry = .octets content) {e : FsError} :
    s.read file ≠ .error (.failed e) := by
  unfold read
  dsimp only
  rw [he]
  rcases h with ⟨content, rfl⟩ | ⟨content, rfl⟩
  · exact nofun
  · dsimp only
    cases Text.Utf8.decode content <;> exact nofun

theorem names_ordinary {names : List String}
    (h : (names.all fun n => decide (FileName.IsOrdinary n)) = true) :
    ∀ n ∈ names, FileName.IsOrdinary n :=
  fun n hn => of_decide_eq_true (List.all_eq_true.1 h n hn)

theorem knownAt (s : Stored) (p : Path) : s.fileSystem.KnownAt p := ⟨⟨_, rfl⟩, ⟨_, rfl⟩, ⟨_, rfl⟩⟩

/-- Plain entries under normal paths make a file system that does not fail anywhere. -/
theorem healthy {s : Stored} (h : ∀ e ∈ s, e.2.isPlain = true)
    (hnormal : ∀ e ∈ s, (Path.ofString e.1).IsNormal) (consulted : Path → Prop) :
    s.fileSystem.Healthy consulted where
  healthyAt p _ :=
    { s.knownAt p with
      list := by
        intro hdir
        have hdir : s.hasDirectory p.toText = true := Except.ok.inj hdir
        change ∃ names, s.list p = .ok names
        unfold list
        dsimp only
        split
        · exact ⟨_, rfl⟩
        · rename_i he
          exact nomatch h _ (mem_of_entry he)
        · exact ⟨_, if_pos hdir⟩
      read := by
        intro hfile
        obtain ⟨entry, he, hentry⟩ := exists_entry_of_hasFile (Except.ok.inj hfile)
        have hplain := h _ (mem_of_entry he)
        refine ⟨p, ?_, fun e => read_ne_failed he ?_⟩
        · change s.realPath p = .ok p
          unfold realPath
          rw [he]
          cases entry <;> first | rfl | cases hplain
        · cases entry with
          | text content => exact .inl ⟨content, rfl⟩
          | octets content => exact .inr ⟨content, rfl⟩
          | directory => cases hentry
          | listing names => cases hentry
          | _ => cases hplain }
  bounded := by
    refine bounded (fun e he names hlisting => names_ordinary ?_) hnormal
    have hplain := h e he
    rwa [hlisting] at hplain

/-- A plain entry, or a directory that is not listed because of a failure of the system, or a path
that is not resolved. -/
def Entry.isSteady : Entry → Bool
  | .unlistable e => e.isSystem
  | .unresolvable _ => true
  | entry => entry.isPlain

/-- Such entries under normal paths make a file system that is steady everywhere. -/
theorem steady {s : Stored} (h : ∀ e ∈ s, e.2.isSteady = true)
    (hnormal : ∀ e ∈ s, (Path.ofString e.1).IsNormal) (consulted : Path → Prop) :
    s.fileSystem.Steady consulted where
  steadyAt p _ :=
    { s.knownAt p with
      list := by
        intro e hl
        change s.list p = .error e at hl
        unfold list at hl
        dsimp only at hl
        split at hl
        · cases hl
        · rename_i he
          cases hl
          exact h _ (mem_of_entry he)
        · split at hl
          · cases hl
          · split at hl <;> cases hl <;> rfl
      read := by
        intro target hfile htarget
        obtain ⟨entry, he, hentry⟩ := exists_entry_of_hasFile (Except.ok.inj hfile)
        have hsteady := h _ (mem_of_entry he)
        change s.realPath p = .ok target at htarget
        unfold realPath at htarget
        rw [he] at htarget
        cases entry with
        | text content =>
          cases htarget
          exact fun e => read_ne_failed he (.inl ⟨content, rfl⟩)
        | octets content =>
          cases htarget
          exact fun e => read_ne_failed he (.inr ⟨content, rfl⟩)
        | unresolvable e => cases htarget
        | directory => cases hentry
        | listing names => cases hentry
        | unlistable e => cases hentry
        | _ => cases hsteady }
  bounded := by
    refine bounded (fun e he names hlisting => names_ordinary ?_) hnormal
    have hsteady := h e he
    rwa [hlisting] at hsteady

end Stored

end PlaceMap
