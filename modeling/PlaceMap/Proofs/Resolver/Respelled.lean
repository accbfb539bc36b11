/-
The former script extension is never seen. Bindings and questions may spell a script with the former
extension or with the present one: either spelling leads to the same path as soon as the extension is
replaced, and nothing looks at a path before that.
-/
import PlaceMap.FileSystem.Stored
import PlaceMap.Proofs.Path.Relocation
import PlaceMap.Resolver

namespace PlaceMap

open FileName (IsOrdinary IsPart)

namespace Path

/-! ## Texts with either extension -/

/-- Nothing, or a text up to a slash: what may stand before the last part of a path. -/
def IsFront (s : String) : Prop := s = "" ∨ ∃ dir, s = dir ++ "/"

/-- Nothing, or a slash and then only slashes and single dots: what may stand behind the last part of
a path. -/
def IsBack (s : String) : Prop := s = "" ∨ ∃ rest, s = "/" ++ rest ∧ (ofString rest).parts = []

/-- Two texts spell a script, the first with the former extension and the second with the present one;
they have all else in common. -/
def Respelled (s s' : String) : Prop :=
  ∃ front stem back, IsFront front ∧ stem ≠ "" ∧ '/' ∉ stem.toList ∧ IsBack back ∧
    s = front ++ (stem ++ ".lua") ++ back ∧ s' = front ++ (stem ++ ".luau") ++ back

theorem parts_append_slash (s t : String) :
    (ofString (s ++ "/" ++ t)).parts = (ofString s).parts ++ (ofString t).parts := by
  unfold ofString Text.splitText
  rw [String.toList_append, String.toList_append, show "/".toList = ['/'] from rfl, List.append_assoc,
    List.singleton_append, Text.split_append_cons, List.map_append, List.filter_append]

theorem IsFront.parts_append {front : String} (h : IsFront front) (s : String) :
    (ofString (front ++ s)).parts = (ofString front).parts ++ (ofString s).parts := by
  rcases h with rfl | ⟨dir, rfl⟩
  · rw [String.empty_append]
    rfl
  · have hdir := parts_append_slash dir ""
    rw [String.append_empty] at hdir
    rw [parts_append_slash, hdir, List.append_assoc]
    rfl

theorem IsBack.parts_append {back : String} (h : IsBack back) (s : String) :
    (ofString (s ++ back)).parts = (ofString s).parts := by
  rcases h with rfl | ⟨rest, rfl, hrest⟩
  · rw [String.append_empty]
  · rw [← String.append_assoc, parts_append_slash, hrest, List.append_nil]

theorem anchorOf_append_cons {c : Char} (hc : c ≠ '/') (front rest : List Char) :
    anchorOf (front ++ c :: rest) = anchorOf front := by
  -- The first three characters decide.
  rcases front with _ | ⟨a, _ | ⟨b, _ | ⟨d, front⟩⟩⟩
  · simp [anchorOf, hc]
  · by_cases ha : a = '/' <;> simp [anchorOf, ha, hc]
  · by_cases ha : a = '/' <;> by_cases hb : b = '/' <;> simp [anchorOf, ha, hb, hc]
  · by_cases ha : a = '/' <;> by_cases hb : b = '/' <;> by_cases hd : d = '/' <;>
      simp [anchorOf, ha, hb, hd]

/-- A part between a front and a back is the last part of a path. -/
theorem ofString_framed {front back name : String} (hfront : IsFront front) (hname : IsPart name)
    (hback : IsBack back) : ofString (front ++ name ++ back) = (ofString front).descend [name] := by
  have hanchor : anchorOf (front ++ name ++ back).toList = anchorOf front.toList := by
    rcases hcs : name.toList with _ | ⟨c, cs⟩
    · exact absurd (String.toList_eq_nil_iff.1 hcs) hname.1
    · have hc : c ≠ '/' := fun he => hname.2.2 (by rw [hcs, he]; exact List.mem_cons_self)
      rw [String.toList_append, String.toList_append, hcs, List.append_assoc, List.cons_append,
        anchorOf_append_cons hc]
  have hparts : (ofString (front ++ name ++ back)).parts = (ofString front).parts ++ [name] := by
    rw [hback.parts_append, hfront.parts_append, ofString_part hname]
  exact congrArg₂ Path.mk hanchor hparts

/-! ## Paths with either extension -/

/-- Two paths of one script, the first with the former extension and the second with the present
one. -/
def Renamed (p p' : Path) : Prop :=
  ∃ dir stem, stem ≠ "" ∧ '/' ∉ stem.toList ∧
    p = descend dir [stem ++ ".lua"] ∧ p' = descend dir [stem ++ ".luau"]

theorem Respelled.renamed {s s' : String} (h : Respelled s s') : Renamed (ofString s) (ofString s') := by
  obtain ⟨front, stem, back, hfront, hstem, hslash, hback, rfl, rfl⟩ := h
  exact ⟨ofString front, stem, hstem, hslash,
    ofString_framed hfront (FileName.isOrdinary_append hslash (by decide) (by decide)).1 hback,
    ofString_framed hfront (FileName.isOrdinary_append hslash (by decide) (by decide)).1 hback⟩

namespace Renamed

variable {p p' : Path} (h : Renamed p p')
include h

theorem join (base : Path) : Renamed (base.join p) (base.join p') := by
  obtain ⟨dir, stem, hstem, hslash, rfl, rfl⟩ := h
  exact ⟨base.join dir, stem, hstem, hslash, join_descend _ _ _, join_descend _ _ _⟩

theorem normalize (cwd : List String) : Renamed (p.normalize cwd) (p'.normalize cwd) := by
  obtain ⟨dir, stem, hstem, hslash, rfl, rfl⟩ := h
  have hnormal : ∀ {name}, IsOrdinary name →
      (dir.descend [name]).normalize cwd = (dir.normalize cwd).descend [name] := by
    intro name hname
    exact normalize_join (fun hup => hname.2 (List.mem_singleton.1 hup).symm) cwd dir
  exact ⟨dir.normalize cwd, stem, hstem, hslash,
    hnormal (FileName.isOrdinary_append hslash (by decide) (by decide)),
    hnormal (FileName.isOrdinary_append hslash (by decide) (by decide))⟩

/-- Both paths are the same once the extension is replaced. -/
theorem toLuau_eq : p.toLuau = p'.toLuau := by
  obtain ⟨dir, stem, hstem, -, rfl, rfl⟩ := h
  simp [Path.toLuau, mapName, descend, FileName.toLuau_former hstem, FileName.toLuau_present hstem]

end Renamed

end Path

/-! ## Trees with other bindings -/

namespace TreeNode

mutual

/-- The same tree but for its bindings, each of which is replaced by a related one. -/
inductive Rebound (R : Binding → Binding → Prop) : TreeNode → TreeNode → Prop
  | node {className binding binding' properties ignoreUnknown children children'} :
    Option.Rel R binding binding' → ReboundAll R children children' →
    Rebound R ⟨className, binding, properties, ignoreUnknown, children⟩
      ⟨className, binding', properties, ignoreUnknown, children'⟩

/-- The same children of a node but for the bindings of their trees. -/
inductive ReboundAll (R : Binding → Binding → Prop) :
    List (String × TreeNode) → List (String × TreeNode) → Prop
  | nil : ReboundAll R [] []
  | cons {name n n' l l'} :
    Rebound R n n' → ReboundAll R l l' → ReboundAll R ((name, n) :: l) ((name, n') :: l')

end

end TreeNode

/-- Two bindings of one kind whose paths are the same text, or spell a script with the former and with
the present extension. -/
inductive Binding.Respelled : Binding → Binding → Prop
  | same (b : Binding) : Respelled b b
  | required {s s' : String} : Path.Respelled s s' → Respelled (.required s) (.required s')
  | optional {s s' : String} : Path.Respelled s s' → Respelled (.optional s) (.optional s')

namespace Walk

/-- Two bindings are visited alike, whatever tree path they stand for. -/
def BoundAlike (fs : FileSystem) (visit : Visit → Walk Unit) (base : Path) (ignored : List IgnoreRule)
    (b b' : Binding) : Prop :=
  ∀ place, bound fs visit base ignored (some b) place = bound fs visit base ignored (some b') place

variable {fs : FileSystem} {visit : Visit → Walk Unit} {base : Path} {ignored : List IgnoreRule}

section

variable {R : Binding → Binding → Prop}

theorem bound_rebound (hR : ∀ b b', R b b' → BoundAlike fs visit base ignored b b')
    {o o' : Option Binding} (h : Option.Rel R o o') (place : TreePath) :
    bound fs visit base ignored o place = bound fs visit base ignored o' place := by
  cases h with
  | none => rfl
  | some hb => exact hR _ _ hb place

mutual

/-- If related bindings are visited alike, so are trees with related bindings. -/
theorem nodes_rebound (hR : ∀ b b', R b b' → BoundAlike fs visit base ignored b b') :
    ∀ {n n' : TreeNode}, n.Rebound R n' → ∀ place,
      nodes fs visit base ignored n place = nodes fs visit base ignored n' place
  | _, _, .node hbinding hchildren, place => by
    rw [nodes, nodes, bound_rebound hR hbinding, childNodes_rebound hR hchildren]

theorem childNodes_rebound (hR : ∀ b b', R b b' → BoundAlike fs visit base ignored b b') :
    ∀ {l l' : List (String × TreeNode)}, TreeNode.ReboundAll R l l' → ∀ place,
      childNodes fs visit base ignored l place = childNodes fs visit base ignored l' place
  | _, _, .nil, _ => rfl
  | _, _, .cons hn hl, place => by
    rw [childNodes, childNodes, nodes_rebound hR hn, childNodes_rebound hR hl]

end

end

/-- The visit of a target only knows it with the present extension. -/
theorem visit_target_congr {p p' : Path} (h : p.toLuau = p'.toLuau) (depth : Nat) (place : TreePath)
    (optional : Bool) : Walk.visit fs depth (.target p place ignored optional) =
      Walk.visit fs depth (.target p' place ignored optional) := by
  cases depth with
  | zero => rfl
  | succ depth =>
    show target fs _ p place ignored optional = target fs _ p' place ignored optional
    unfold target
    rw [h]

theorem boundAlike_respelled {b b' : Binding} (h : b.Respelled b') (depth : Nat) :
    BoundAlike fs (Walk.visit fs depth) base ignored b b' := by
  intro place
  have htarget : ∀ {s s' : String}, Path.Respelled s s' →
      (fs.normalize (base.join (.ofString s))).toLuau =
        (fs.normalize (base.join (.ofString s'))).toLuau :=
    fun hs => ((hs.renamed.join base).normalize _).toLuau_eq
  cases h with
  | same => rfl
  | required hs => exact visit_target_congr (htarget hs) depth place false
  | optional hs => exact visit_target_congr (htarget hs) depth place true

end Walk

namespace Resolver

/-- Whichever bindings of a tree spell a script with the former extension, and whichever with the
present one, the tree gives the same resolver or the same stop. Questions to any resolver have the same
answer with either extension, or the same fault. -/
theorem former_extension_unobservable :
    (∀ fs depth config base (n n' : TreeNode), n.Rebound Binding.Respelled n' →
      build fs depth config (.tree base n) = build fs depth config (.tree base n')) ∧
    ∀ s s', Path.Respelled s s' →
      (∀ (r : Resolver) cwd, r.treePath cwd (.ofString s) = r.treePath cwd (.ofString s')) ∧
      ScriptKind.ofPath (.ofString s) = ScriptKind.ofPath (.ofString s') := by
  refine ⟨fun fs depth config base n n' h => ?_, fun s s' h => ⟨fun r cwd => ?_, ?_⟩⟩
  · have hwalk : Walk.ofTree fs depth (.ofString base) n = Walk.ofTree fs depth (.ofString base) n' :=
      Walk.nodes_rebound (fun _ _ hb => Walk.boundAlike_respelled hb depth) h []
    exact congrArg (ofWalk config) hwalk
  · unfold treePath
    rw [(h.renamed.normalize cwd).toLuau_eq]
  · unfold ScriptKind.ofPath
    rw [h.renamed.toLuau_eq]

/-- A directory with a script in it. -/
def bootSources : Stored := [("/p/src/boot.server.luau", .text "")]

/-- Bindings to the script, to the same script in another way, and to a missing one. -/
def bootTree (ending : String) : TreeNode :=
  ⟨none, some (.required ("src/boot.server" ++ ending)), none, none,
    [("a", ⟨none, some (.optional ("/p/./src//boot.server" ++ ending ++ "/.")), none, none, []⟩),
      ("b", ⟨none, some (.required ("gone" ++ ending)), none, none, []⟩)]⟩

theorem rebound_bootTree : (bootTree ".lua").Rebound Binding.Respelled (bootTree ".luau") := by
  refine .node (.some (.required ?_)) (.cons (.node (.some (.optional ?_)) .nil)
    (.cons (.node (.some (.required ?_)) .nil) .nil))
  · exact ⟨"src/", "boot.server", "", .inr ⟨"src", by decide⟩, by decide, by decide, .inl rfl,
      by decide, by decide⟩
  · exact ⟨"/p/./src//", "boot.server", "/.", .inr ⟨"/p/./src/", by decide⟩, by decide, by decide,
      .inr ⟨".", by decide, by decide⟩, by decide, by decide⟩
  · exact ⟨"", "gone", "", .inl rfl, by decide, by decide, .inl rfl, by decide, by decide⟩

/-- The bindings give three partitions with either extension, and with either one the script is found
in the newer of its two. -/
theorem former_extension_unobservable_boot :
    let run := fun ending => build bootSources.fileSystem 3 .standard (.tree "/p" (bootTree ending))
    let summary := fun (r : Resolver) => r.table.partitions.map fun p => (p.target.toText, p.place)
    let ask := fun name (r : Resolver) => (r.treePath ["p"] (.ofString name)).toOption
    (bootTree ".lua").Rebound Binding.Respelled (bootTree ".luau") ∧
      run ".lua" = run ".luau" ∧
      (run ".lua").toOption.map summary =
        some [("/p/gone.luau", ["b"]), ("/p/src/boot.server.luau", ["a"]),
          ("/p/src/boot.server.luau", [])] ∧
      Path.Respelled "src/boot.server.lua" "src/boot.server.luau" ∧
      (run ".lua").toOption.map (ask "src/boot.server.lua") = some (some (some ["a"])) ∧
      (run ".lua").toOption.map (ask "src/boot.server.luau") = some (some (some ["a"])) ∧
      ScriptKind.ofPath (.ofString "src/boot.server.lua") = .script ∧
      ScriptKind.ofPath (.ofString "src/boot.server.luau") = .script := by
  intro run summary ask
  obtain ⟨htree, hask⟩ := former_extension_unobservable
  have hspelled : Path.Respelled "src/boot.server.lua" "src/boot.server.luau" :=
    ⟨"src/", "boot.server", "", .inr ⟨"src", by decide⟩, by decide, by decide, .inl rfl, by decide,
      by decide⟩
  have hfound : (run ".lua").toOption.map (ask "src/boot.server.lua") = some (some (some ["a"])) := by
    decide +kernel
  have hkind : ScriptKind.ofPath (.ofString "src/boot.server.lua") = .script := by decide
  obtain ⟨hplace, hkinds⟩ := hask _ _ hspelled
  refine ⟨rebound_bootTree, htree _ _ _ _ _ _ rebound_bootTree, by decide +kernel, hspelled, hfound,
    ?_, hkind, hkinds ▸ hkind⟩
  have hsame : ask "src/boot.server.luau" = ask "src/boot.server.lua" :=
    funext fun r => congrArg Except.toOption (hplace r ["p"]).symm
  rw [hsame]
  exact hfound

end Resolver

end PlaceMap
