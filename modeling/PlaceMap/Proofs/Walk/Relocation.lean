/-
Visits of two directories in which two file systems hold the same. One level of a visit does the
same in both, one thing after another, each told of one directory or of the other; so the visits
below are related again, and induction on the depth relates whole walks. What has to be known for
that is where the bindings of a project lead: not out of the directory, and not to the directory
itself, of which nothing is known.
-/
import PlaceMap.Proofs.Table.Relocation
import PlaceMap.Proofs.Walk.Actions
import PlaceMap.Proofs.Walk.Related

namespace PlaceMap

open List (Forall₂)
open Walk (Asks Reached Related)

variable {A B : Path}

/-! ## Two file systems -/

/-- The same reason why a file cannot be read, told of paths in `B` instead of `A`. -/
inductive ReadError.Moved (A B : Path) : ReadError → ReadError → Prop
  | failed {e e' : FsError} : e.Moved A B e' → Moved A B (.failed e) (.failed e')
  | undecodable (fault : Text.Utf8.Fault) : Moved A B (.undecodable fault) (.undecodable fault)

/-- `fs'` answers below `B` as `fs` does below `A`, and paths there lead to themselves. -/
structure FileSystem.Moved (A B : Path) (fs fs' : FileSystem) : Prop where
  has : ∀ p p', Path.MovedBelow A B p p' → Answers (FsError.Moved A B) (fs.has p) (fs'.has p')
  isDirectory : ∀ p p', Path.MovedBelow A B p p' →
    Answers (FsError.Moved A B) (fs.isDirectory p) (fs'.isDirectory p')
  isFile : ∀ p p', Path.MovedBelow A B p p' →
    Answers (FsError.Moved A B) (fs.isFile p) (fs'.isFile p')
  list : ∀ p p', Path.MovedBelow A B p p' → Answers (FsError.Moved A B) (fs.list p) (fs'.list p')
  realPath : ∀ p p', Path.MovedBelow A B p p' → fs.realPath p = .ok p ∧ fs'.realPath p' = .ok p'
  read : ∀ p p', Path.MovedBelow A B p p' → Answers (ReadError.Moved A B) (fs.read p) (fs'.read p')

/-- No name that is listed below a directory is an absolute path. -/
def FileSystem.ListsRelative (fs : FileSystem) (A : Path) : Prop :=
  ∀ parts names, parts ≠ [] → fs.list (A.descend parts) = .ok names →
    ∀ n ∈ names, (Path.ofString n).anchor = .relative

/-- Where a binding of a project leads from the directory `A`, unless its path is absolute or leads
further up. -/
def Binding.landing? (A file : Path) (b : Binding) : Option (List String) :=
  match file.parent.below? A with
  | some before =>
    let path := Path.ofString b.path
    if path.anchor = .relative then Path.resolve? (before ++ path.parts) else none
  | none => none

/-- A binding of a project leads to something below the directory `A`. -/
def Binding.LandsBelow (A file : Path) (b : Binding) : Prop :=
  ∃ parts, parts ≠ [] ∧ b.landing? A file = some parts

instance (A file : Path) (b : Binding) : Decidable (b.LandsBelow A file) :=
  match h : b.landing? A file with
  | some (part :: parts) => .isTrue ⟨part :: parts, List.cons_ne_nil _ _, h⟩
  | some [] => .isFalse fun ⟨_, hne, hparts⟩ => hne (Option.some.inj (hparts.symm.trans h))
  | none => .isFalse fun ⟨_, _, hparts⟩ => nomatch h.symm.trans hparts

/-- The bindings of every project that a build comes to lead to something below `A`. -/
def Walk.StaysBelow (A : Path) (fs : FileSystem) (s : Resolver.Source) : Prop :=
  ∀ file place root p e, Reached fs s (.project file place root) → Project.load fs file = .ok p →
    e ∈ p.tree.bindings (Walk.placeOf root p.name place) → e.2.LandsBelow A file

/-- The same visit, in the other directory. -/
inductive Visit.Moved (A B : Path) : Visit → Visit → Prop
  | project {file file' place root} : Path.MovedBelow A B file file' →
    Moved A B (.project file place root) (.project file' place root)
  | target {path path' place ignored ignored' optional} : Path.MovedBelow A B path path' →
    Forall₂ (IgnoreRule.Moved A B) ignored ignored' →
    Moved A B (.target path place ignored optional) (.target path' place ignored' optional)
  | directory {dir dir' place name ignored ignored'} : Path.MovedBelow A B dir dir' →
    Forall₂ (IgnoreRule.Moved A B) ignored ignored' →
    Moved A B (.directory dir place name ignored) (.directory dir' place name ignored')

/-- The same thing done, in the other directory. -/
inductive Action.Moved (A B : Path) : Action → Action → Prop
  | warn {w w' : Warning} : w.Moved A B w' → Moved A B (.warn w) (.warn w')
  | markGame : Moved A B .markGame .markGame
  | mapFile {file file' place} : Path.MovedBelow A B file file' →
    Moved A B (.mapFile file place) (.mapFile file' place)
  | register {p p' : Partition} : p.Moved A B p' → Moved A B (.register p) (.register p')
  | visit {v v' : Visit} : v.Moved A B v' → Moved A B (.visit v) (.visit v')
  | stop {e e' : Stop} : e.Moved A B e' → Moved A B (.stop e) (.stop e')

/-! ## Loading a project -/

/-- The same reason why a project cannot be loaded, told of paths in `B` instead of `A`. -/
inductive LoadError.Moved (A B : Path) : LoadError → LoadError → Prop
  | missing {file file' : Path} : Moved A B (.missing file) (.missing file')
  | invalid {cause cause' : Invalid} : cause.Moved A B cause' →
    Moved A B (.invalid cause) (.invalid cause')
  | failed {e e' : FsError} : e.Moved A B e' → Moved A B (.failed e) (.failed e')
  | oversized (digits : Nat) : Moved A B (.oversized digits) (.oversized digits)

theorem Project.ofText_moved {file file' : Path} (h : Path.Moved A B file file') (text : String) :
    Answers (LoadError.Moved A B) (Project.ofText file text) (Project.ofText file' text) := by
  unfold Project.ofText
  split
  · split
    · exact .error (.oversized _)
    · exact .error (.invalid (.malformed h _))
  · split
    · exact .ok _
    · exact .error (.invalid ⟨.same _, fun _ => .same _⟩)

theorem Project.load_moved {fs fs' : FileSystem} (hfs : fs.Moved A B fs') {file file' : Path}
    (h : Path.MovedBelow A B file file') :
    Answers (LoadError.Moved A B) (Project.load fs file) (Project.load fs' file') := by
  have hhas := hfs.has file file' h
  have hread := hfs.read file file' h
  obtain ⟨hreal, hreal'⟩ := hfs.realPath file file' h
  unfold Project.load Project.ofFile
  rw [hreal, hreal']
  dsimp only
  generalize fs.has file = found, fs'.has file' = found' at hhas
  cases hhas with
  | error he => exact .error (.failed he)
  | ok found =>
    cases found with
    | false => exact .error .missing
    | true =>
      dsimp only [if_true]
      generalize fs.read file = content, fs'.read file' = content' at hread
      cases hread with
      | ok text => exact Project.ofText_moved h.moved text
      | error he =>
        cases he with
        | failed he => exact .error (.failed he)
        | undecodable fault => exact .error (.invalid (.undecodable h.moved fault))

/-! ## One level of a visit -/

theorem forall₂_flatMap {α β γ : Type} {R : β → γ → Prop} {f : α → List β} {g : α → List γ} :
    ∀ (l : List α), (∀ a ∈ l, Forall₂ R (f a) (g a)) → Forall₂ R (l.flatMap f) (l.flatMap g)
  | [], _ => .nil
  | a :: l, h => by
    rw [List.flatMap_cons, List.flatMap_cons]
    exact List.rel_append (h a List.mem_cons_self)
      (forall₂_flatMap l fun b hb => h b (List.mem_cons_of_mem a hb))

namespace Action

theorem asked_moved {answer answer' : Except FsError Bool} {next next' : Bool → List Action}
    (h : Answers (FsError.Moved A B) answer answer')
    (hnext : ∀ b, answer = .ok b → Forall₂ (Moved A B) (next b) (next' b)) :
    Forall₂ (Moved A B) (asked answer next) (asked answer' next') := by
  cases h with
  | ok b => exact hnext b rfl
  | error he => exact .cons (.stop (.failed he)) .nil

theorem compared_moved {rules rules' : List IgnoreRule} {p p' : Path}
    {next next' : Bool → List Action} (hrules : Forall₂ (IgnoreRule.Moved A B) rules rules')
    (hp : Path.Moved A B p p') (hnext : ∀ b, Forall₂ (Moved A B) (next b) (next' b)) :
    Forall₂ (Moved A B) (compared rules p next) (compared rules' p' next') := by
  unfold compared
  rw [IgnoreRule.anyCovers_moved hrules hp]
  split
  · exact hnext _
  · exact .cons (.stop (.glob _)) .nil

theorem listed_moved {fs fs' : FileSystem} (hfs : fs.Moved A B fs') {dir dir' : Path}
    {next next' : List String → List Action} (hdir : Path.MovedBelow A B dir dir')
    (hnext : ∀ names, fs.list dir = .ok names → Forall₂ (Moved A B) (next names) (next' names)) :
    Forall₂ (Moved A B) (listed fs dir next) (listed fs' dir' next') := by
  have hlist := hfs.list dir dir' hdir
  unfold listed
  generalize fs.list dir = found, fs'.list dir' = found' at hlist hnext
  cases hlist with
  | ok names => exact hnext names rfl
  | error he =>
    dsimp only
    rw [he.isSystem_eq]
    split
    · exact .cons (.warn (.unreadable hdir.moved he)) .nil
    · exact .cons (.stop (.failed he)) .nil

theorem ofTree_moved {fs fs' : FileSystem} {base base' : Path} {ignored ignored' : List IgnoreRule}
    (hrules : Forall₂ (IgnoreRule.Moved A B) ignored ignored') (n : TreeNode) (place : TreePath)
    (htarget : ∀ e ∈ n.bindings place,
      Path.MovedBelow A B (e.2.target fs base) (e.2.target fs' base')) :
    Forall₂ (Moved A B) (ofTree fs base ignored n place) (ofTree fs' base' ignored' n place) := by
  refine forall₂_flatMap _ fun e he => List.rel_append ?_ ?_
  · rcases hb : e.2.binding with _ | b
    · exact .nil
    · have hmem : (e.1, b) ∈ n.bindings place := TreeNode.mem_bindings.2 ⟨e.2, he, hb⟩
      exact .cons (.visit (.target (htarget _ hmem) hrules)) .nil
  · split
    · exact .cons .markGame .nil
    · exact .nil

theorem ofTargetDirectory_moved {fs fs' : FileSystem} (hfs : fs.Moved A B fs') {path path' : Path}
    (hpath : Path.MovedBelow A B path path') (place : TreePath) {ignored ignored' : List IgnoreRule}
    (hrules : Forall₂ (IgnoreRule.Moved A B) ignored ignored') :
    Forall₂ (Moved A B) (ofTargetDirectory fs path place ignored)
      (ofTargetDirectory fs' path' place ignored') := by
  refine listed_moved hfs hpath fun names _ => ?_
  split
  · exact .cons (.visit (.project (hpath.child (by decide)))) .nil
  · exact .cons (.register ⟨hpath, rfl, hrules⟩) (.cons (.visit (.directory hpath hrules)) .nil)

theorem ofSettled_moved {fs fs' : FileSystem} (hfs : fs.Moved A B fs') {path path' : Path}
    (hpath : Path.MovedBelow A B path path') (place : TreePath) {ignored ignored' : List IgnoreRule}
    (hrules : Forall₂ (IgnoreRule.Moved A B) ignored ignored') (found : Bool) :
    Forall₂ (Moved A B) (ofSettled fs path place ignored found)
      (ofSettled fs' path' place ignored' found) := by
  unfold ofSettled
  rw [hpath.isData_eq]
  split
  · exact .cons (.mapFile hpath) .nil
  · refine asked_moved ?_ fun isDirectory _ => ?_
    · cases found with
      | false => exact .ok false
      | true => exact hfs.isDirectory path path' hpath
    · split
      · exact ofTargetDirectory_moved hfs hpath place hrules
      · exact .cons (.register ⟨hpath, rfl, hrules⟩) .nil

theorem ofTarget_moved {fs fs' : FileSystem} (hfs : fs.Moved A B fs') {path path' : Path}
    (hpath : Path.MovedBelow A B path path') (place : TreePath) {ignored ignored' : List IgnoreRule}
    (hrules : Forall₂ (IgnoreRule.Moved A B) ignored ignored') (optional : Bool) :
    Forall₂ (Moved A B) (ofTarget fs path place ignored optional)
      (ofTarget fs' path' place ignored' optional) := by
  refine compared_moved hrules hpath.moved fun covered => ?_
  split
  · exact .nil
  refine asked_moved (hfs.has path path' hpath) fun found _ => ?_
  rw [hpath.name_eq]
  split
  · split
    · exact .cons (.visit (.project hpath)) .nil
    · exact .nil
  · refine List.rel_append ?_ (ofSettled_moved hfs hpath place hrules found)
    split
    · exact .nil
    · exact .cons (.warn (.missing hpath.moved)) .nil

theorem ofEntries_moved {fs fs' : FileSystem} (hfs : fs.Moved A B fs') {dir dir' : Path}
    (hdir : Path.MovedBelow A B dir dir') (place : TreePath) {ignored ignored' : List IgnoreRule}
    (hrules : Forall₂ (IgnoreRule.Moved A B) ignored ignored') {names : List String}
    (hnames : ∀ n ∈ names, (Path.ofString n).anchor = .relative) :
    Forall₂ (Moved A B) (ofEntries fs dir place ignored names)
      (ofEntries fs' dir' place ignored' names) := by
  refine List.rel_append (forall₂_flatMap _ fun n hn => ?_) (forall₂_flatMap _ fun n hn => ?_)
  all_goals have hchild := hdir.child (hnames n hn)
  · unfold ofProjectEntry
    split
    · refine asked_moved (hfs.isFile _ _ hchild) fun isFile _ => ?_
      split
      · exact .cons (.visit (.project hchild)) .nil
      · exact .nil
    · exact .nil
  · refine asked_moved (hfs.isDirectory _ _ hchild) fun isDirectory _ => ?_
    split
    · exact .cons (.visit (.directory hchild hrules)) .nil
    · exact .nil

theorem ofDirectory_moved {fs fs' : FileSystem} (hfs : fs.Moved A B fs')
    (hrelative : fs.ListsRelative A) {dir dir' : Path} (hdir : Path.MovedBelow A B dir dir')
    (place : TreePath) (name : Option String) {ignored ignored' : List IgnoreRule}
    (hrules : Forall₂ (IgnoreRule.Moved A B) ignored ignored') :
    Forall₂ (Moved A B) (ofDirectory fs dir place name ignored)
      (ofDirectory fs' dir' place name ignored') := by
  refine listed_moved hfs hdir fun names hl => ?_
  split
  · exact .cons (.visit (.project (hdir.child (by decide)))) .nil
  refine compared_moved hrules hdir.moved fun covered => ?_
  split
  · exact .nil
  · refine ofEntries_moved hfs hdir _ hrules ?_
    obtain ⟨parts, hne, -, rfl, -⟩ := hdir
    exact hrelative parts names hne hl

end Action

/-- A binding that leads to something below `A` leads to the same place below `B`. -/
theorem Binding.target_moved (hA : A.IsNormal) (hB : B.IsNormal) {file file' : Path}
    (hfile : Path.MovedBelow A B file file') {b : Binding} (h : b.LandsBelow A file)
    (fs fs' : FileSystem) :
    Path.MovedBelow A B (b.target fs file.parent) (b.target fs' file'.parent) := by
  obtain ⟨parts, hne, hlanding⟩ := h
  obtain ⟨before, hbefore, hparent, hparent'⟩ := hfile.parent
  unfold landing? at hlanding
  rw [hparent, Path.below?_descend] at hlanding
  dsimp only at hlanding
  split at hlanding
  · rename_i hrelative
    refine ⟨parts, hne, fun part hp => ?_, ?_, ?_⟩
    · rcases List.mem_append.1 (Path.mem_of_resolve hlanding hp).1 with hp | hp
      · exact hbefore part hp
      · exact Path.ofString_proper b.path part hp
    · rw [hparent, ← Path.normalize_descend hA fs.workingDirectory hlanding]
      simp only [Binding.target, FileSystem.normalize, Path.join, if_pos hrelative, Path.descend,
        List.append_assoc]
    · rw [hparent', ← Path.normalize_descend hB fs'.workingDirectory hlanding]
      simp only [Binding.target, FileSystem.normalize, Path.join, if_pos hrelative, Path.descend,
        List.append_assoc]
  · cases hlanding

theorem Project.rules_moved {file file' : Path} (h : Path.Moved A B file.parent file'.parent)
    (p : Project) : Forall₂ (IgnoreRule.Moved A B) (p.rules file) (p.rules file') := by
  unfold Project.rules
  rw [List.forall₂_map_left_iff, List.forall₂_map_right_iff, List.forall₂_same]
  exact fun _ _ => ⟨h, rfl⟩

section

variable (hA : A.IsNormal) (hB : B.IsNormal) {fs fs' : FileSystem} (hfs : fs.Moved A B fs')
  (hrelative : fs.ListsRelative A) {s : Resolver.Source} (hstay : Walk.StaysBelow A fs s)
include hA hB hfs hrelative hstay

/-- One level of a visit does the same in both directories. -/
theorem Visit.actions_moved {v v' : Visit} (hv : Reached fs s v) (h : v.Moved A B v') :
    Forall₂ (Action.Moved A B) (v.actions fs) (v'.actions fs') := by
  cases h with
  | @project file file' place root hfile =>
    have hanswers := Project.load_moved hfs hfile
    unfold Visit.actions Action.ofProject
    dsimp only
    generalize hload : Project.load fs file = loaded, Project.load fs' file' = loaded' at hanswers
    cases hanswers with
    | ok p =>
      exact Action.ofTree_moved (p.rules_moved hfile.parent) p.tree _ fun e he =>
        Binding.target_moved hA hB hfile (hstay file place root p e hv hload he) fs fs'
    | error he =>
      cases he with
      | missing => exact .cons (.warn (.missing hfile.moved)) .nil
      | invalid hcause => exact .cons (.warn (.invalid hfile.moved hcause)) .nil
      | failed he => exact .cons (.stop (.failed he)) .nil
      | oversized digits => exact .cons (.stop (.oversized digits)) .nil
  | target hpath hrules => exact Action.ofTarget_moved hfs hpath.toLuau _ hrules _
  | directory hdir hrules => exact Action.ofDirectory_moved hfs hrelative hdir _ _ hrules

end

/-! ## Whole visits -/

/-- What is done alike, with visits that are related, leaves tables that are related. -/
theorem Action.performAll_related {visit visit' : Visit → Walk Unit} {l l' : List Action}
    (h : Forall₂ (Action.Moved A B) l l')
    (hvisit : ∀ v v', .visit v ∈ l → v.Moved A B v' →
      Related (Stop.Moved A B) (Table.Moved A B) (visit v) (visit' v')) :
    Related (Stop.Moved A B) (Table.Moved A B) (performAll visit l) (performAll visit' l') := by
  induction h with
  | nil => exact .pure ()
  | @cons a a' l l' ha _ ih =>
    rw [performAll_cons, performAll_cons]
    refine .bind ?_ fun _ => ih fun v v' hv => hvisit v v' (List.mem_cons_of_mem a hv)
    cases ha with
    | warn hw => exact .change fun _ _ ht => ht.warn hw
    | markGame => exact .change fun _ _ ht => ht.markGame
    | mapFile hfile => exact .change fun _ _ ht => ht.mapFile hfile _
    | register hp => exact .change fun _ _ ht => ht.register hp
    | visit hv => exact hvisit _ _ List.mem_cons_self hv
    | stop he => exact .throw he

/-- A visit that a build comes to does the same in the other directory, at any depth. -/
theorem Walk.visit_moved (hA : A.IsNormal) (hB : B.IsNormal) {fs fs' : FileSystem}
    (hfs : fs.Moved A B fs') (hrelative : fs.ListsRelative A) {s : Resolver.Source}
    (hstay : Walk.StaysBelow A fs s) :
    ∀ (depth : Nat) {v v' : Visit}, Reached fs s v → v.Moved A B v' →
      Related (Stop.Moved A B) (Table.Moved A B) (Walk.visit fs depth v) (Walk.visit fs' depth v')
  | 0, _, _, _, _ => .throw .tooDeep
  | depth + 1, v, v', hv, h => by
    unfold Walk.visit
    rw [Action.enter_eq, Action.enter_eq]
    refine Action.performAll_related (Visit.actions_moved hA hB hfs hrelative hstay hv h) ?_
    exact fun w w' hw hmoved =>
      visit_moved hA hB hfs hrelative hstay depth (hv.ask (Action.asks_of_mem hw)) hmoved

end PlaceMap
