/-
What a visit can do, one way after another: ask for a further visit, stop, mark the tree as a game,
warn of a broken project, of a missing target or of a directory that cannot be listed, map a file and
register a partition. Each comes with the answers of the file system that it takes. Statements about
all warnings or all stops of a walk go through these cases and need not follow the lists of actions.
-/
import PlaceMap.Proofs.Walk.BrokenProjects

namespace PlaceMap

namespace Walk

/-- A visit lists a directory: the one that it searches, or a target. -/
inductive Listing (fs : FileSystem) : Visit → Path → Prop
  | target {v path place ignored} :
    Settles v path place ignored → path.isData = false → fs.has path = .ok true →
    fs.isDirectory path = .ok true → Listing fs v path
  | search {dir place name ignored} : Listing fs (.directory dir place name ignored) dir

/-- A visit may do something. -/
inductive Does (fs : FileSystem) : Visit → Action → Prop
  | visit {v v'} : Asks fs v v' → Does fs v (.visit v')
  | stop {v e} : Stops fs v e → Does fs v (.stop e)
  | game {file place root p} :
    Project.load fs file = .ok p → Does fs (.project file place root) .markGame
  | broken {file place root w} :
    Project.Broken fs file w → Does fs (.project file place root) (.warn w)
  | missing {path place ignored} :
    fs.has path.toLuau = .ok false →
    Does fs (.target path place ignored false) (.warn (.missing path.toLuau))
  | unreadable {v dir e} :
    Listing fs v dir → fs.list dir = .error e → e.isSystem = true →
    Does fs v (.warn (.unreadable dir e))
  | mapFile {v path place ignored} :
    Settles v path place ignored → path.isData = true → Does fs v (.mapFile path place)
  | register {v path place ignored} :
    Settles v path place ignored → path.isData = false →
    Does fs v (.register ⟨path, place, ignored⟩)

end Walk

namespace Action

open Walk (Settles Does Stops)

variable {fs : FileSystem} {v : Visit} {a : Action}

theorem mem_ofTree {base : Path} {ignored : List IgnoreRule} {n : TreeNode} {place : TreePath}
    (h : a ∈ ofTree fs base ignored n place) : (∃ v, a = .visit v) ∨ a = .markGame := by
  obtain ⟨e, -, h⟩ := List.mem_flatMap.1 h
  rcases List.mem_append.1 h with h | h
  · obtain ⟨b, -, h⟩ := List.mem_map.1 h
    exact .inl ⟨_, h.symm⟩
  · split at h
    · exact .inr (List.mem_singleton.1 h)
    · cases h

section

variable (ha : ∀ v', a ≠ .visit v')
include ha

theorem does_of_mem_ofProject {file : Path} {place : TreePath} {root : Bool}
    (h : a ∈ ofProject fs file place root) : Does fs (.project file place root) a := by
  unfold ofProject at h
  split at h
  · rename_i p hload
    rcases mem_ofTree h with ⟨v', rfl⟩ | rfl
    · exact absurd rfl (ha v')
    · exact .game hload
  · rename_i hload
    rw [List.mem_singleton.1 h]
    exact .broken (Project.broken_iff.2 ⟨_, hload, rfl⟩)
  · rename_i hload
    rw [List.mem_singleton.1 h]
    exact .broken (Project.broken_iff.2 ⟨_, hload, rfl⟩)
  · rename_i hload
    rw [List.mem_singleton.1 h]
    exact .stop (.load hload)
  · rename_i hload
    rw [List.mem_singleton.1 h]
    exact .stop (.oversized hload)

theorem does_of_mem_ofTargetDirectory {path : Path} {place : TreePath} {ignored : List IgnoreRule}
    (hs : Settles v path place ignored) (hdata : path.isData = false) (hhas : fs.has path = .ok true)
    (hdir : fs.isDirectory path = .ok true) (h : a ∈ ofTargetDirectory fs path place ignored) :
    Does fs v a := by
  rcases mem_listed h with ⟨names, -, h⟩ | ⟨e, hl, he, rfl⟩ | ⟨e, hl, he, rfl⟩
  · split at h
    · exact absurd (List.mem_singleton.1 h) (ha _)
    · rcases List.mem_cons.1 h with rfl | h
      · exact .register hs hdata
      · exact absurd (List.mem_singleton.1 h) (ha _)
  · exact .unreadable (.target hs hdata hhas hdir) hl he
  · exact .stop (.target hs hdata hdir hl he)

theorem does_of_mem_ofSettled {path : Path} {place : TreePath} {ignored : List IgnoreRule}
    {found : Bool} (hs : Settles v path place ignored) (hhas : fs.has path = .ok found)
    (h : a ∈ ofSettled fs path place ignored found) : Does fs v a := by
  unfold ofSettled at h
  split at h
  · rename_i hdata
    rw [List.mem_singleton.1 h]
    exact .mapFile hs hdata
  rename_i hdata
  have hdata : path.isData = false := Bool.eq_false_iff.2 hdata
  cases found with
  | false =>
    rw [List.mem_singleton.1 h]
    exact .register hs hdata
  | true =>
    rcases mem_asked h with ⟨isDirectory, hdir, h⟩ | ⟨e, hdir, rfl⟩
    · cases isDirectory with
      | false =>
        rw [List.mem_singleton.1 h]
        exact .register hs hdata
      | true => exact does_of_mem_ofTargetDirectory ha hs hdata hhas hdir h
    · exact .stop (.kind hs hdir)

theorem does_of_mem_ofTarget {path : Path} {place : TreePath} {ignored : List IgnoreRule}
    {optional : Bool} (h : a ∈ ofTarget fs path.toLuau place ignored optional) :
    Does fs (.target path place ignored optional) a := by
  rcases mem_compared h with ⟨covered, hc, h⟩ | ⟨fault, hc, rfl⟩
  case inr => exact .stop (.glob hc)
  cases covered with
  | true => cases h
  | false =>
    rcases mem_asked h with ⟨found, hhas, h⟩ | ⟨e, hhas, rfl⟩
    case inr => exact .stop (.existence hhas)
    split at h
    · split at h
      · exact absurd (List.mem_singleton.1 h) (ha _)
      · cases h
    · rename_i hp
      have hs : Settles (.target path place ignored optional) path.toLuau place ignored :=
        ⟨path, optional, rfl, rfl, hc, Bool.eq_false_iff.2 hp⟩
      rcases List.mem_append.1 h with hwarn | h
      · split at hwarn
        · cases hwarn
        · rename_i hmissing
          obtain ⟨rfl, rfl⟩ : found = false ∧ optional = false := by
            simpa only [Bool.or_eq_true, not_or, Bool.not_eq_true] using hmissing
          rw [List.mem_singleton.1 hwarn]
          exact .missing hhas
      · exact does_of_mem_ofSettled ha hs hhas h

theorem does_of_mem_ofEntries {dir : Path} {place place' : TreePath} {name : Option String}
    {ignored : List IgnoreRule} {names : List String} (hl : fs.list dir = .ok names)
    (h : a ∈ ofEntries fs dir place' ignored names) :
    Does fs (.directory dir place name ignored) a := by
  rcases List.mem_append.1 h with h | h
  · obtain ⟨n, hn, h⟩ := List.mem_flatMap.1 h
    unfold ofProjectEntry at h
    split at h
    · rename_i hp
      rcases mem_asked h with ⟨isFile, -, h⟩ | ⟨e, hfile, rfl⟩
      · split at h
        · exact absurd (List.mem_singleton.1 h) (ha _)
        · cases h
      · exact .stop (.entry hl hn hp hfile)
    · cases h
  · obtain ⟨n, hn, h⟩ := List.mem_flatMap.1 h
    rcases mem_asked h with ⟨isDirectory, -, h⟩ | ⟨e, hdir, rfl⟩
    · split at h
      · exact absurd (List.mem_singleton.1 h) (ha _)
      · cases h
    · exact .stop (.subdirectory hl hn hdir)

theorem does_of_mem_ofDirectory {dir : Path} {place : TreePath} {name : Option String}
    {ignored : List IgnoreRule} (h : a ∈ ofDirectory fs dir place name ignored) :
    Does fs (.directory dir place name ignored) a := by
  rcases mem_listed h with ⟨names, hl, h⟩ | ⟨e, hl, he, rfl⟩ | ⟨e, hl, he, rfl⟩
  · split at h
    · exact absurd (List.mem_singleton.1 h) (ha _)
    rcases mem_compared h with ⟨covered, -, h⟩ | ⟨fault, hc, rfl⟩
    · split at h
      · cases h
      · exact does_of_mem_ofEntries ha hl h
    · exact .stop (.globBelow hc)
  · exact .unreadable .search hl he
  · exact .stop (.directory hl he)

end

/-- All that a visit does is what it may do. -/
theorem does_of_mem (h : a ∈ v.actions fs) : Does fs v a := by
  by_cases hvisit : ∃ v', a = .visit v'
  · obtain ⟨v', rfl⟩ := hvisit
    exact .visit (asks_of_mem h)
  · have ha : ∀ v', a ≠ .visit v' := fun v' he => hvisit ⟨v', he⟩
    cases v with
    | project file place root => exact does_of_mem_ofProject ha h
    | target path place ignored optional => exact does_of_mem_ofTarget ha h
    | directory dir place name ignored => exact does_of_mem_ofDirectory ha h

end Action

end PlaceMap
