/-
Project files that are no projects: missing, not text, not JSON, or not of the right shape. To visit
one, by whatever way a walk comes to it, is to add one warning and to do nothing else, however much
of the file was in order.

An integer of too many digits is no such fault: it stops the walk, also in a text that is not JSON.
-/
import PlaceMap.Proofs.Walk.Actions

namespace PlaceMap

/-! ## Broken project files -/

/-- A file exists, and reading it where its path leads gives `contents`. -/
def FileSystem.Holds (fs : FileSystem) (file : Path) (contents : Except ReadError String) : Prop :=
  fs.has file = .ok true ∧ ∃ target, fs.realPath file = .ok target ∧ fs.read target = contents

/-- A file is missing or holds no project, which is worth a warning. -/
inductive Project.Broken (fs : FileSystem) (file : Path) : Warning → Prop
  | missing : fs.has file = .ok false → Broken fs file (.missing file)
  | undecodable {fault} :
    fs.Holds file (.error (.undecodable fault)) →
    Broken fs file (.invalid file (.undecodable file fault))
  | malformed {text fault} :
    fs.Holds file (.ok text) → Json.read text = .error fault → fault.oversized? = none →
    Broken fs file (.invalid file (.malformed file fault))
  | schema {text v report} :
    fs.Holds file (.ok text) → Json.read text = .ok v → Project.ofJson v = .error report →
    Broken fs file (.invalid file (.schema report))

namespace Project

variable {fs : FileSystem} {file : Path} {w : Warning}

theorem load_of_has (h : fs.has file = .ok true) : load fs file = ofFile fs file := by
  unfold load
  rw [h]
  rfl

theorem has_of_load {p : Project} (h : load fs file = .ok p) : fs.has file = .ok true := by
  unfold load at h
  split at h
  · cases h
  · rename_i found hfound
    cases found with
    | false => cases h
    | true => exact hfound

theorem load_of_text {text : String} (h : fs.Holds file (.ok text)) :
    load fs file = ofText file text := by
  obtain ⟨hhas, target, htarget, hread⟩ := h
  rw [load_of_has hhas, ofFile, htarget]
  dsimp only
  rw [hread]

/-- A project that is loaded is what the text of its file says. -/
theorem exists_text_of_load {p : Project} (h : load fs file = .ok p) :
    ∃ text, fs.Holds file (.ok text) ∧ ofText file text = .ok p := by
  have hhas := has_of_load h
  rw [load_of_has hhas] at h
  unfold ofFile at h
  split at h
  · cases h
  · rename_i target htarget
    split at h
    · rename_i text htext
      exact ⟨text, ⟨hhas, target, htarget, htext⟩, h⟩
    · cases h
    · cases h

/-- What a text says does not depend on where its file stands. -/
theorem ofText_congr {text : String} {p : Project} (h : ofText file text = .ok p) (file' : Path) :
    ofText file' text = .ok p := by
  unfold ofText at h ⊢
  split at h
  · split at h <;> cases h
  · exact h

theorem load_of_undecodable {fault : Text.Utf8.Fault}
    (h : fs.Holds file (.error (.undecodable fault))) :
    load fs file = .error (.invalid (.undecodable file fault)) := by
  obtain ⟨hhas, target, htarget, hread⟩ := h
  rw [load_of_has hhas, ofFile, htarget]
  dsimp only
  rw [hread]

theorem load_of_unresolved {e : FsError} (hhas : fs.has file = .ok true)
    (hreal : fs.realPath file = .error e) : load fs file = .error (.failed e) := by
  rw [load_of_has hhas, ofFile, hreal]

/-- A project file cannot be looked at if it is not known whether it exists, if it cannot be
resolved, or if what it leads to cannot be read. -/
theorem load_eq_failed {e : FsError} (h : load fs file = .error (.failed e)) :
    fs.has file = .error e ∨ fs.has file = .ok true ∧ (fs.realPath file = .error e ∨
      ∃ target, fs.realPath file = .ok target ∧ fs.read target = .error (.failed e)) := by
  rcases hhas : fs.has file with e' | _ | _
  · unfold load at h
    rw [hhas] at h
    cases h
    exact .inl rfl
  · unfold load at h
    rw [hhas] at h
    cases h
  · rw [load_of_has hhas, ofFile] at h
    refine .inr ⟨rfl, ?_⟩
    rcases htarget : fs.realPath file with e' | target
    · rw [htarget] at h
      cases h
      exact .inl rfl
    rw [htarget] at h
    dsimp only at h
    rcases hread : fs.read target with (e' | fault) | text
    · rw [hread] at h
      cases h
      exact .inr ⟨target, rfl, hread⟩
    · rw [hread] at h
      cases h
    · rw [hread] at h
      dsimp only [ofText] at h
      split at h
      · split at h <;> cases h
      · split at h <;> cases h

/-- The warning that a project is worth that cannot be loaded, if that does not stop the walk. -/
def warning? (file : Path) : LoadError → Option Warning
  | .missing _ => some (.missing file)
  | .invalid cause => some (.invalid file cause)
  | .failed _ => none
  | .oversized _ => none

theorem Broken.load_eq (h : Broken fs file w) :
    ∃ e, load fs file = .error e ∧ warning? file e = some w := by
  cases h with
  | missing hhas =>
    refine ⟨.missing file, ?_, rfl⟩
    unfold load
    rw [hhas]
    rfl
  | undecodable hholds => exact ⟨_, load_of_undecodable hholds, rfl⟩
  | malformed hholds hread hdigits =>
    refine ⟨.invalid _, ?_, rfl⟩
    rw [load_of_text hholds, ofText, hread]
    dsimp only
    rw [hdigits]
  | schema hholds hread hreport =>
    refine ⟨.invalid _, ?_, rfl⟩
    rw [load_of_text hholds, ofText, hread]
    dsimp only
    rw [hreport]

theorem broken_of_text {text : String} (hholds : fs.Holds file (.ok text)) {e : LoadError}
    (h : ofText file text = .error e) (hw : warning? file e = some w) : Broken fs file w := by
  unfold ofText at h
  rcases hjson : Json.read text with fault | v
  · rcases hdigits : fault.oversized? with _ | digits
    · simp only [hjson, hdigits] at h
      cases h
      cases hw
      exact .malformed hholds hjson hdigits
    · simp only [hjson, hdigits] at h
      cases h
      cases hw
  · rcases hreport : ofJson v with report | p
    · simp only [hjson, hreport] at h
      cases h
      cases hw
      exact .schema hholds hjson hreport
    · simp only [hjson, hreport] at h
      cases h

/-- A project file is broken exactly if loading it fails in a way that is worth a warning. -/
theorem broken_iff : Broken fs file w ↔ ∃ e, load fs file = .error e ∧ warning? file e = some w := by
  refine ⟨Broken.load_eq, fun ⟨e, h, hw⟩ => ?_⟩
  unfold load at h
  rcases hhas : fs.has file with e' | _ | _
  · rw [hhas] at h
    cases h
    cases hw
  · rw [hhas] at h
    cases h
    cases hw
    exact .missing hhas
  · simp only [hhas, if_true, ofFile] at h
    rcases htarget : fs.realPath file with e' | target
    · rw [htarget] at h
      cases h
      cases hw
    rcases hread : fs.read target with (e' | fault) | text
    · simp only [htarget, hread] at h
      cases h
      cases hw
    · simp only [htarget, hread] at h
      cases h
      cases hw
      exact .undecodable ⟨hhas, target, htarget, hread⟩
    · simp only [htarget, hread] at h
      exact broken_of_text ⟨hhas, target, htarget, hread⟩ h hw

/-- The warning says that the file is missing exactly if it is, and else that it is invalid. -/
theorem Broken.missing_or_invalid (h : Broken fs file w) :
    (fs.has file = .ok false ∧ w = .missing file) ∨
      (fs.has file = .ok true ∧ ∃ cause, w = .invalid file cause) := by
  cases h with
  | missing hhas => exact .inl ⟨hhas, rfl⟩
  | undecodable hholds => exact .inr ⟨hholds.1, _, rfl⟩
  | malformed hholds => exact .inr ⟨hholds.1, _, rfl⟩
  | schema hholds => exact .inr ⟨hholds.1, _, rfl⟩

/-- All that a broken project file does to a walk is one warning. -/
theorem Broken.actions_eq (h : Broken fs file w) (place : TreePath) (root : Bool) :
    (Visit.project file place root).actions fs = [.warn w] := by
  obtain ⟨e, hload, hw⟩ := broken_iff.1 h
  show Action.ofProject fs file place root = _
  unfold Action.ofProject
  rw [hload]
  cases e <;> cases hw <;> rfl

theorem Broken.visit_eq (h : Broken fs file w) (depth : Nat) (place : TreePath) (root : Bool) :
    Walk.visit fs (depth + 1) (.project file place root) = Walk.warn w := by
  rw [Walk.visit, Action.enter_eq, h.actions_eq, Action.performAll_singleton, Action.perform]

end Project

/-! ## Bindings to broken projects -/

/-- A binding leads to a broken project: its target is not ignored, and is such a file, which has to
exist if the binding is optional, or a directory whose default project is broken. -/
inductive Binding.Broken (fs : FileSystem) (base : Path) (ignored : List IgnoreRule) (b : Binding) :
    Warning → Prop
  | project {w} :
    IgnoreRule.anyCovers ignored (b.target fs base).toLuau = .ok false →
    FileName.isProject (b.target fs base).toLuau.name = true →
    (b.isOptional = true → fs.has (b.target fs base).toLuau = .ok true) →
    Project.Broken fs (b.target fs base).toLuau w → Broken fs base ignored b w
  | directory {names w} :
    IgnoreRule.anyCovers ignored (b.target fs base).toLuau = .ok false →
    FileName.isProject (b.target fs base).toLuau.name = false →
    (b.target fs base).toLuau.isData = false →
    fs.has (b.target fs base).toLuau = .ok true →
    fs.isDirectory (b.target fs base).toLuau = .ok true →
    fs.list (b.target fs base).toLuau = .ok names → FileName.defaultProject ∈ names →
    Project.Broken fs ((b.target fs base).toLuau.child FileName.defaultProject) w →
    Broken fs base ignored b w

namespace Binding.Broken

variable {fs : FileSystem} {base : Path} {ignored : List IgnoreRule} {b : Binding} {w : Warning}

/-- All that is done for a binding to a broken project is to visit the project. -/
theorem exists_actions_eq (h : b.Broken fs base ignored w) (place : TreePath) :
    ∃ file, Project.Broken fs file w ∧
      (Visit.ofBinding fs base ignored (place, b)).actions fs = [.visit (.project file place true)] := by
  unfold Visit.ofBinding Visit.actions Action.ofTarget Action.compared
  cases h with
  | project hcovers hproject hoptional hbroken =>
    refine ⟨_, hbroken, ?_⟩
    have hvisited : ∃ found, fs.has (b.target fs base).toLuau = .ok found ∧
        (found || !b.isOptional) = true := by
      rcases hbroken.missing_or_invalid with ⟨hhas, -⟩ | ⟨hhas, -⟩
      · cases hb : b.isOptional with
        | true =>
          rw [hoptional hb] at hhas
          cases hhas
        | false => exact ⟨false, hhas, rfl⟩
      · exact ⟨true, hhas, rfl⟩
    obtain ⟨found, hhas, hvisited⟩ := hvisited
    simp only [hcovers, hhas, Action.asked, hproject, hvisited, Bool.false_eq_true, if_false, if_true]
  | directory hcovers hproject hdata hhas hdir hl hn hbroken =>
    refine ⟨_, hbroken, ?_⟩
    simp only [hcovers, hhas, hproject, Action.asked, Action.ofSettled, hdata, hdir,
      Action.ofTargetDirectory, Action.listed, hl, hn, Bool.true_or, Bool.false_eq_true, if_false,
      if_true, List.nil_append]

/-- To visit a binding to a broken project is to warn, if two levels are allowed. -/
theorem visit_eq (h : b.Broken fs base ignored w) (depth : Nat) (place : TreePath) :
    Walk.visit fs (depth + 2) (.ofBinding fs base ignored (place, b)) = Walk.warn w := by
  obtain ⟨file, hbroken, hactions⟩ := h.exists_actions_eq place
  rw [Walk.visit, Action.enter_eq, hactions, Action.performAll_singleton, Action.perform,
    hbroken.visit_eq]

/-- A visit of a binding to a broken project warns or is too deep. -/
theorem visit_cases (h : b.Broken fs base ignored w) :
    ∀ (depth : Nat) (place : TreePath),
      Walk.visit fs depth (.ofBinding fs base ignored (place, b)) = Walk.warn w ∨
        Walk.visit fs depth (.ofBinding fs base ignored (place, b)) = throw .tooDeep
  | 0, _ => .inr rfl
  | 1, place => by
    obtain ⟨file, -, hactions⟩ := h.exists_actions_eq place
    right
    rw [Walk.visit, Action.enter_eq, hactions, Action.performAll_singleton, Action.perform,
      Walk.visit]
  | depth + 2, place => .inl (h.visit_eq depth place)

end Binding.Broken

end PlaceMap
