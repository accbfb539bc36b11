/-
Projects can be moved to another directory. If a file system holds below `B` what another one holds
below `A`, and no binding leads out of `A`, then the resolvers of a project file in `A` and of the
same file in `B` are the same up to the directories, and they answer every query alike; or neither
is built, for the same reason.

Two things are not moved: what stands at the directory itself, and what a directory lists under an
absolute name.
-/
import PlaceMap.Proofs.Resolver.Query
import PlaceMap.Proofs.Walk.Depth
import PlaceMap.Proofs.Walk.Relocation

namespace PlaceMap

open List (Forall₂)
open Walk (Related)

variable {A B : Path}

namespace Resolver

/-- The same resolver, for the other directory, or the same stop. -/
inductive Moved (A B : Path) : Except Stop Resolver → Except Stop Resolver → Prop
  | ok {table table' : Table} (config : Config) : table.Moved A B table' →
    Moved A B (.ok ⟨table, config⟩) (.ok ⟨table', config⟩)
  | error {e e' : Stop} : e.Moved A B e' → Moved A B (.error e) (.error e')

theorem Moved.isOk_eq {x y : Except Stop Resolver} (h : Moved A B x y) : x.isOk = y.isOk := by
  cases h <;> rfl

theorem ofWalk_moved {w w' : Walk Unit} (h : Related (Stop.Moved A B) (Table.Moved A B) w w')
    (config : Config) : Moved A B (ofWalk config w) (ofWalk config w') := by
  obtain ⟨hend, htable⟩ := h ⟨.empty, []⟩ ⟨.empty, []⟩ (.empty A B)
  unfold ofWalk Walk.runOn
  rcases hw : w.follow ⟨.empty, []⟩ with ⟨e | u, d⟩
  all_goals
    rcases hw' : w'.follow ⟨.empty, []⟩ with ⟨e' | u', d'⟩ <;> rw [hw, hw'] at hend htable
  · exact .error hend
  · cases hend
  · cases hend
  · exact .ok config htable

/-! ## Queries -/

theorem inPartitions_moved {ps ps' : List Partition} (h : Forall₂ (Partition.Moved A B) ps ps')
    {file file' : Path} (hfile : Path.MovedBelow A B file file') :
    inPartitions file ps = inPartitions file' ps' := by
  induction h with
  | nil => rfl
  | cons hp _ ih =>
    rw [inPartitions_cons, inPartitions_cons, hfile.moved.below?_eq hp.target.moved, ih,
      IgnoreRule.anyCovers_moved hp.ignored hfile.moved, hp.place, hfile.isScript_eq]

/-- Resolvers that are the same up to the directories answer queries alike. -/
theorem treePath_moved (hA : A.IsNormal) (hB : B.IsNormal) {r r' : Resolver}
    (h : r.table.Moved A B r'.table) {parts : List String} (hne : parts ≠ [])
    (hparts : ∀ part ∈ parts, FileName.IsOrdinary part) (cwd cwd' : List String) :
    r.treePath cwd (A.descend parts) = r'.treePath cwd' (B.descend parts) := by
  have hfile : Path.MovedBelow A B (A.descend parts).toLuau (B.descend parts).toLuau :=
    Path.MovedBelow.toLuau ⟨parts, hne, fun part hp => (hparts part hp).1, rfl, rfl⟩
  unfold treePath
  rw [(hA.descend hparts).normalize_eq, (hB.descend hparts).normalize_eq]
  dsimp only
  rw [FileMap.find?_moved h.fileMap hfile.moved, inPartitions_moved h.partitions hfile]

/-! ## Builds -/

/-- A project file in a directory, given by its path. -/
def Source.within (dir : Path) (parts : List String) : Source := .project (dir.descend parts).toText

theorem normalize_within {dir : Path} (hdir : dir.IsNormal) {parts found : List String}
    (hparts : ∀ part ∈ parts, FileName.IsPart part) (hfound : Path.resolve? parts = some found)
    (fs : FileSystem) :
    fs.normalize (.ofString (dir.descend parts).toText) = dir.descend found := by
  have hproper : (dir.descend parts).Proper := by
    intro part hp
    rcases List.mem_append.1 hp with hp | hp
    · exact (hdir.2 part hp).1
    · exact hparts part hp
  rw [Path.ofString_toText hproper]
  exact Path.normalize_descend hdir fs.workingDirectory hfound

/-- Builds of the same project file in two directories have the same outcome, up to the directories,
and the resolvers answer queries for the same file alike. -/
theorem build_moved (hA : A.IsNormal) (hB : B.IsNormal) {fs fs' : FileSystem}
    (hfs : fs.Moved A B fs') (hrelative : fs.ListsRelative A) {file found : List String}
    (hfile : ∀ part ∈ file, FileName.IsPart part) (hfound : Path.resolve? file = some found)
    (hne : found ≠ []) (hstay : Walk.StaysBelow A fs (.within A file)) (depth : Nat)
    (config : Config) :
    Moved A B (build fs depth config (.within A file)) (build fs' depth config (.within B file)) ∧
      ∀ r r', build fs depth config (.within A file) = .ok r →
        build fs' depth config (.within B file) = .ok r' →
          ∀ parts, parts ≠ [] → (∀ part ∈ parts, FileName.IsOrdinary part) → ∀ cwd cwd',
            r.treePath cwd (.ofString (A.descend parts).toText) =
              r'.treePath cwd' (.ofString (B.descend parts).toText) := by
  have hstart : Visit.Moved A B (.project (fs.normalize (.ofString (A.descend file).toText)) [] true)
      (.project (fs'.normalize (.ofString (B.descend file).toText)) [] true) := by
    rw [normalize_within hA hfile hfound, normalize_within hB hfile hfound]
    exact .project ⟨found, hne, fun part hp => hfile part (Path.mem_of_resolve hfound hp).1, rfl, rfl⟩
  have hmoved : Moved A B (build fs depth config (.within A file))
      (build fs' depth config (.within B file)) := by
    rw [build_eq_ofWalk, build_eq_ofWalk]
    exact ofWalk_moved
      (Walk.visit_moved hA hB hfs hrelative hstay depth (.start rfl) hstart) config
  refine ⟨hmoved, fun r r' hr hr' parts hparts hordinary cwd cwd' => ?_⟩
  rw [hr, hr'] at hmoved
  cases hmoved with
  | ok config htable =>
    rw [Path.ofString_toText (hA.descend hordinary).proper,
      Path.ofString_toText (hB.descend hordinary).proper]
    exact treePath_moved hA hB htable hparts hordinary cwd cwd'

/-- Whether the bindings of a project file that is visited lead to something below `A`. -/
def landsBelow (A : Path) (fs : FileSystem) : Visit → Bool
  | .project file place root =>
    match Project.load fs file with
    | .ok p => (p.tree.bindings (Walk.placeOf root p.name place)).all fun e =>
        decide (e.2.LandsBelow A file)
    | .error _ => true
  | _ => true

theorem staysBelow_of_generations {fs : FileSystem} {s : Source} {n : Nat}
    (hnil : s.generation fs n = [])
    (h : ∀ m < n, ∀ v ∈ s.generation fs m, landsBelow A fs v = true) : Walk.StaysBelow A fs s := by
  intro file place root p e hreached hload he
  have hall := reached_of_generations hnil h hreached
  simp only [landsBelow, hload] at hall
  exact of_decide_eq_true (List.all_eq_true.1 hall e he)

/-- A project in a directory, whose sources stand next to it and are listed under the given names.
What is outside of the directory may be taken for directories that cannot be listed. -/
def installed (dir : Path) (names : List String) (outside : Bool) : FileSystem where
  workingDirectory := []
  workingDirectory_isPart := List.forall_mem_nil FileName.IsPart
  has _ := .ok true
  isDirectory p := .ok <|
    match p.below? dir with
    | some parts => parts == ["src"] || parts == ["src", "locked"]
    | none => outside
  isFile _ := .ok true
  list p :=
    match p.below? dir with
    | some parts =>
      if parts = ["src"] then .ok names else .error ⟨.denied, "Permission denied: " ++ p.toText⟩
    | none => .error ⟨.unusable, "outside"⟩
  realPath p := .ok p
  read p := .ok <|
    match p.below? dir with
    | some ["app.project.json"] =>
      "\x7b\"name\":\"app\",\"globIgnorePaths\":[\"out\"],\"tree\":\x7b\"$path\":\"./x/../src\"\x7d\x7d"
    | _ => ""

theorem installed_moved (A B : Path) (names : List String) (outside outside' : Bool) :
    (installed A names outside).Moved A B (installed B names outside') := by
  refine ⟨fun _ _ _ => .ok true, ?_, fun _ _ _ => .ok true, ?_, fun _ _ _ => ⟨rfl, rfl⟩, ?_⟩
  all_goals
    intro p p' h
    have hmoved := h.moved
    obtain ⟨parts, -, -, rfl, rfl⟩ := h
    unfold installed
    dsimp only
    rw [Path.below?_descend, Path.below?_descend]
  · exact .ok _
  · dsimp only
    split
    · exact .ok names
    · exact .error ⟨rfl, .append (.same _) (.path hmoved)⟩
  · exact .ok _

theorem listsRelative_installed (dir : Path) {names : List String}
    (h : ∀ n ∈ names, (Path.ofString n).anchor = .relative) (outside : Bool) :
    (installed dir names outside).ListsRelative dir := by
  intro parts found _ hl n hn
  unfold installed at hl
  dsimp only at hl
  rw [Path.below?_descend] at hl
  dsimp only at hl
  split at hl
  · cases hl
    exact h n hn
  · cases hl

/-- A project with a directory that cannot be read is moved. -/
theorem build_moved_installed :
    (installed ⟨.root, ["a"]⟩ ["locked"] true).Moved ⟨.root, ["a"]⟩ ⟨.root, ["b", "c"]⟩
        (installed ⟨.root, ["b", "c"]⟩ ["locked"] false) ∧
      (installed ⟨.root, ["a"]⟩ ["locked"] true).ListsRelative ⟨.root, ["a"]⟩ ∧
      Walk.StaysBelow ⟨.root, ["a"]⟩ (installed ⟨.root, ["a"]⟩ ["locked"] true)
        (.within ⟨.root, ["a"]⟩ ["app.project.json"]) ∧
      Moved ⟨.root, ["a"]⟩ ⟨.root, ["b", "c"]⟩
        (build (installed ⟨.root, ["a"]⟩ ["locked"] true) 5 .standard
          (.within ⟨.root, ["a"]⟩ ["app.project.json"]))
        (build (installed ⟨.root, ["b", "c"]⟩ ["locked"] false) 5 .standard
          (.within ⟨.root, ["b", "c"]⟩ ["app.project.json"])) := by
  have hmoved := installed_moved ⟨.root, ["a"]⟩ ⟨.root, ["b", "c"]⟩ ["locked"] true false
  have hrelative : (installed ⟨.root, ["a"]⟩ ["locked"] true).ListsRelative ⟨.root, ["a"]⟩ :=
    listsRelative_installed _ (by decide) true
  have hnil : (Source.within ⟨.root, ["a"]⟩ ["app.project.json"]).generation
      (installed ⟨.root, ["a"]⟩ ["locked"] true) 4 = [] := by
    decide +kernel
  have hstay := staysBelow_of_generations hnil (A := ⟨.root, ["a"]⟩) (by decide +kernel)
  have hresolve : Path.resolve? ["app.project.json"] = some ["app.project.json"] := by decide
  refine ⟨hmoved, hrelative, hstay, ?_⟩
  exact (build_moved (by decide) (by decide) hmoved hrelative (by decide) hresolve (by decide) hstay 5
    .standard).1

/-- It is not enough that nothing else is known to stand in the directories: a name that is listed
there may lead out of them. -/
theorem not_build_moved :
    ¬ ∀ (A B : Path) (fs fs' : FileSystem) (file found : List String), A.IsNormal → B.IsNormal →
      fs.Moved A B fs' → (∀ part ∈ file, FileName.IsPart part) → Path.resolve? file = some found →
        found ≠ [] → Walk.StaysBelow A fs (.within A file) → ∀ (depth : Nat) (config : Config),
          Moved A B (build fs depth config (.within A file)) (build fs' depth config (.within B file)) := by
  intro h
  have hnil : (Source.within ⟨.root, ["a"]⟩ ["app.project.json"]).generation
      (installed ⟨.root, ["a"]⟩ ["/x"] true) 4 = [] := by
    decide +kernel
  have hresolve : Path.resolve? ["app.project.json"] = some ["app.project.json"] := by decide
  have hmoved := h ⟨.root, ["a"]⟩ ⟨.root, ["b"]⟩ _ _ ["app.project.json"] _ (by decide) (by decide)
    (installed_moved _ _ ["/x"] true false) (by decide) hresolve (by decide)
    (staysBelow_of_generations hnil (by decide +kernel)) 5 .standard
  have hstop : (build (installed ⟨.root, ["a"]⟩ ["/x"] true) 5 .standard
      (.within ⟨.root, ["a"]⟩ ["app.project.json"])).isOk = false := by
    decide +kernel
  have hends : (build (installed ⟨.root, ["b"]⟩ ["/x"] false) 5 .standard
      (.within ⟨.root, ["b"]⟩ ["app.project.json"])).isOk = true := by
    decide +kernel
  exact absurd (hmoved.isOk_eq.symm.trans hstop) (by rw [hends]; exact Bool.noConfusion)

end Resolver

end PlaceMap
