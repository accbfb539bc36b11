/-
What is found in the search of a directory, in words of names alone: how names lead down from the
directory, and which project files stand at their end (`Found`). The search may ask for a project file
in the directory, or go on to a directory in it, and what is found is one or the other: a project file
that it may ask for, or what is found below a directory that it goes on to.

The tree path of a default project is one name shorter than that of any other project file beside it,
which is the tree path of the directory.
-/
import PlaceMap.Proofs.Glob.Rules
import PlaceMap.Proofs.Path.Relocation
import PlaceMap.Proofs.Walk.Endless

namespace PlaceMap.Walk

open FileName (IsOrdinary)

variable {fs : FileSystem}

/-! ## What is found -/

/-- Names lead down from a directory: each of the directories on the way lists the next one, holds no
default project and is not covered by the rules. -/
def LeadsDown (fs : FileSystem) (ignored : List IgnoreRule) (dir : Path) (chain : List String) : Prop :=
  ∀ front n rest, chain = front ++ n :: rest →
    ∃ names, fs.list (dir.descend front) = .ok names ∧ n ∈ names ∧
      FileName.defaultProject ∉ names ∧ ¬ IgnoreRule.Covered ignored (dir.descend front) ∧
      fs.isDirectory (dir.descend (front ++ [n])) = .ok true

/-- The visits of the project files that are found in the search of a directory, whose own name is
added to the tree path as those of the directories below it are. A default project takes the place of
its directory's name; it hides everything else there, and the rules do not matter. -/
inductive Found (fs : FileSystem) (ignored : List IgnoreRule) (dir : Path) (place : TreePath)
    (name : Option String) : Visit → Prop
  | standard {chain names} :
    LeadsDown fs ignored dir chain → fs.list (dir.descend chain) = .ok names →
    FileName.defaultProject ∈ names →
    Found fs ignored dir place name
      (.project (dir.descend (chain ++ [FileName.defaultProject]))
        (place ++ (name.toList ++ chain).dropLast) false)
  | entry {chain names n} :
    LeadsDown fs ignored dir chain → fs.list (dir.descend chain) = .ok names →
    FileName.defaultProject ∉ names → ¬ IgnoreRule.Covered ignored (dir.descend chain) →
    n ∈ names → FileName.isProject n = true →
    fs.isFile (dir.descend (chain ++ [n])) = .ok true →
    Found fs ignored dir place name
      (.project (dir.descend (chain ++ [n])) (place ++ (name.toList ++ chain)) false)

section

variable {ignored : List IgnoreRule} {dir : Path} {place : TreePath} {name : Option String}
  {chain : List String} {n : String} {v : Visit}

theorem leadsDown_nil : LeadsDown fs ignored dir [] := by
  intro front n rest h
  cases front <;> cases h

theorem leadsDown_cons : LeadsDown fs ignored dir (n :: chain) ↔
    (∃ names, fs.list dir = .ok names ∧ n ∈ names ∧ FileName.defaultProject ∉ names ∧
      ¬ IgnoreRule.Covered ignored dir ∧ fs.isDirectory (dir.descend [n]) = .ok true) ∧
      LeadsDown fs ignored (dir.descend [n]) chain := by
  constructor
  · intro h
    refine ⟨?_, fun front m rest hchain => ?_⟩
    · have hfirst := h [] n chain rfl
      rwa [Path.descend_nil] at hfirst
    · rw [Path.descend_descend, Path.descend_descend]
      exact h (n :: front) m rest (congrArg (List.cons n) hchain)
  · rintro ⟨hfirst, hrest⟩ front m rest hchain
    cases front with
    | nil =>
      cases hchain
      rwa [Path.descend_nil]
    | cons _ front =>
      cases hchain
      have hnext := hrest front m rest rfl
      rwa [Path.descend_descend, Path.descend_descend] at hnext

theorem Found.directory?_eq_none (h : Found fs ignored dir place name v) : v.directory? = none := by
  cases h <;> rfl

/-- What is found stands below the directory. -/
theorem Found.exists_path (h : Found fs ignored dir place name v) :
    ∃ parts, parts ≠ [] ∧ v.path = dir.descend parts := by
  cases h with
  | standard => exact ⟨_, List.concat_ne_nil _ _, rfl⟩
  | entry => exact ⟨_, List.concat_ne_nil _ _, rfl⟩

end

/-! ## One level of a search -/

section

variable (place : TreePath) (name : Option String) (n : String) (chain : List String)

theorem place_below : place ++ name.toList ++ ((some n).toList ++ chain) =
    place ++ (name.toList ++ n :: chain) := List.append_assoc place name.toList _

theorem place_standardBelow : place ++ name.toList ++ ((some n).toList ++ chain).dropLast =
    place ++ (name.toList ++ n :: chain).dropLast := by
  rw [List.append_assoc, List.dropLast_append_of_ne_nil (List.cons_ne_nil n chain)]
  rfl

theorem place_standard : place ++ (name.toList ++ []).dropLast = place := by cases name <;> simp

end

section

variable {ignored ignored' : List IgnoreRule} {dir sub : Path} {place place' : TreePath}
  {name name' : Option String} {v : Visit}

variable (hfs : ∀ dir names n, fs.list dir = .ok names → n ∈ names → IsOrdinary n)
  (hrules : ∀ rule ∈ ignored, rule.Compiles)
include hfs hrules

/-- A project file that the search of a directory asks for is found. -/
theorem Found.of_asks {file : Path} {root : Bool}
    (h : Asks fs (.directory dir place name ignored) (.project file place' root)) :
    Found fs ignored dir place name (.project file place' root) := by
  cases h with
  | standard hs => exact absurd rfl hs.ne_directory
  | standardBelow hl hn =>
    have hfound : Found fs ignored dir place name
        (.project (dir.descend [FileName.defaultProject]) (place ++ (name.toList ++ []).dropLast)
          false) :=
      .standard leadsDown_nil (dir.descend_nil.symm ▸ hl) hn
    rwa [place_standard, ← Path.child_eq_descend (hfs _ _ _ hl hn).1] at hfound
  | entry hl hn hcovered hm hproject hfile =>
    rw [Path.child_eq_descend (hfs _ _ _ hl hm).1] at hfile ⊢
    rw [← List.append_nil name.toList]
    refine .entry leadsDown_nil (dir.descend_nil.symm ▸ hl) hn ?_ hm hproject hfile
    rw [dir.descend_nil]
    exact (IgnoreRule.anyCovers_eq_false_iff hrules).1 hcovered

/-- What is found below a directory that a search goes on to is found. -/
theorem Found.of_below
    (h : Asks fs (.directory dir place name ignored) (.directory sub place' name' ignored'))
    (hv : Found fs ignored' sub place' name' v) : Found fs ignored dir place name v := by
  cases h with
  | search hs => exact absurd rfl hs.ne_directory
  | @subdirectory _ _ _ _ names n hl hn hcovered hm hdir =>
    rw [Path.child_eq_descend (hfs _ _ _ hl hm).1] at hdir hv
    have hcovered := (IgnoreRule.anyCovers_eq_false_iff hrules).1 hcovered
    have hdown : ∀ {chain}, LeadsDown fs ignored (dir.descend [n]) chain →
        LeadsDown fs ignored dir (n :: chain) :=
      fun hchain => leadsDown_cons.2 ⟨⟨names, hl, hm, hn, hcovered, hdir⟩, hchain⟩
    cases hv with
    | standard hchain hlist hdefault =>
      rw [place_standardBelow, Path.descend_descend]
      rw [Path.descend_descend] at hlist
      exact .standard (hdown hchain) hlist hdefault
    | entry hchain hlist hdefault hcovered hm hproject hfile =>
      rw [place_below, Path.descend_descend]
      rw [Path.descend_descend] at hlist hcovered hfile
      exact .entry (hdown hchain) hlist hdefault hcovered hm hproject hfile

/-- What is found in a directory is in it, or is found below a directory that the search goes on to. -/
theorem Found.cases (h : Found fs ignored dir place name v) :
    Asks fs (.directory dir place name ignored) v ∨
      ∃ sub place' name',
        Asks fs (.directory dir place name ignored) (.directory sub place' name' ignored) ∧
        Found fs ignored sub place' name' v := by
  have hdown : ∀ {n chain}, LeadsDown fs ignored dir (n :: chain) →
      Asks fs (.directory dir place name ignored)
        (.directory (dir.descend [n]) (place ++ name.toList) (some n) ignored) ∧
        LeadsDown fs ignored (dir.descend [n]) chain := by
    intro n chain hchain
    obtain ⟨⟨names, hl, hm, hn, hcovered, hdir⟩, hrest⟩ := leadsDown_cons.1 hchain
    have hcovered := (IgnoreRule.anyCovers_eq_false_iff hrules).2 hcovered
    have hchild := Path.child_eq_descend (hfs _ _ _ hl hm).1 dir
    exact ⟨hchild ▸ .subdirectory hl hn hcovered hm (hchild ▸ hdir), hrest⟩
  cases h with
  | @standard chain _ hchain hlist hdefault =>
    cases chain with
    | nil =>
      rw [Path.descend_nil] at hlist
      rw [place_standard, List.nil_append, ← Path.child_eq_descend (hfs _ _ _ hlist hdefault).1]
      exact .inl (.standardBelow hlist hdefault)
    | cons n chain =>
      obtain ⟨hasks, hrest⟩ := hdown hchain
      have hfound := @Found.standard fs ignored (dir.descend [n]) (place ++ name.toList) (some n) _ _
        hrest (by rwa [Path.descend_descend]) hdefault
      rw [place_standardBelow, Path.descend_descend] at hfound
      exact .inr ⟨_, _, _, hasks, hfound⟩
  | @entry chain _ m hchain hlist hdefault hcovered hm hproject hfile =>
    cases chain with
    | nil =>
      rw [Path.descend_nil] at hlist hcovered
      rw [List.nil_append, ← Path.child_eq_descend (hfs _ _ _ hlist hm).1] at hfile ⊢
      rw [List.append_nil]
      have hcovered := (IgnoreRule.anyCovers_eq_false_iff hrules).2 hcovered
      exact .inl (.entry hlist hdefault hcovered hm hproject hfile)
    | cons n chain =>
      obtain ⟨hasks, hrest⟩ := hdown hchain
      have hfound := @Found.entry fs ignored (dir.descend [n]) (place ++ name.toList) (some n) _ _ m
        hrest (by rwa [Path.descend_descend]) hdefault (by rwa [Path.descend_descend]) hm hproject
        (by rwa [Path.descend_descend])
      rw [place_below, Path.descend_descend] at hfound
      exact .inr ⟨_, _, _, hasks, hfound⟩

end

end PlaceMap.Walk
