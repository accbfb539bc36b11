/-
A disk as a file system. Whether something stands at a path and of which kind it is are one question,
which has an answer unless the path, or a name on the way, is too long. A directory that is reached
can be listed. What is too long cannot be looked up at all, so that, in spite of links that lead in
circles, something stands at finitely many paths only.

A path ends in the name of a node, through whatever links it leads. So if all nodes of a name are
files, every path with that name leads to a file or nowhere.
-/
import Mathlib.Data.Set.Finite.List
import PlaceMap.FileSystem.Disk
import PlaceMap.Proofs.FileSystem.Healthy

namespace PlaceMap

/-! ## Texts of bounded size -/

theorem finite_char : Finite Char := by
  refine Finite.of_injective (fun c : Char => c.val.toFin) fun c d h => ?_
  exact Char.ext (UInt32.toFin_inj.1 h)

theorem length_le_utf8ByteSize (s : String) : s.toList.length ≤ s.utf8ByteSize := by
  obtain ⟨cs, rfl⟩ : ∃ cs, s = String.ofList cs := ⟨s.toList, String.ofList_toList.symm⟩
  induction cs with
  | nil => exact Nat.zero_le _
  | cons c cs ih =>
    have hc := c.utf8Size_pos
    rw [String.ofList_cons, String.utf8ByteSize_append, String.utf8ByteSize_singleton]
    simp only [String.toList_append, String.toList_singleton, String.toList_ofList,
      List.length_append, List.length_singleton] at ih ⊢
    omega

theorem exists_texts (size : Nat) : ∃ texts : List String, ∀ s, s.utf8ByteSize ≤ size → s ∈ texts := by
  have := finite_char
  obtain ⟨short, hshort⟩ := (List.finite_length_le Char size).exists_finset_coe
  refine ⟨short.toList.map String.ofList, fun s hs => List.mem_map.2 ⟨s.toList, ?_, ?_⟩⟩
  · have hmem : s.toList ∈ (short : Set (List Char)) := by
      rw [hshort]
      exact (length_le_utf8ByteSize s).trans hs
    exact Finset.mem_toList.2 hmem
  · exact String.ofList_toList

namespace Disk

variable {d : Disk} {p : Path}

/-! ## What a path leads to -/

theorem exists_node_of_leadsTo {kind : Node → Bool} (h : d.leadsTo p kind = .ok true) :
    ∃ node, d.nodeAt p = .ok node ∧ kind node = true := by
  unfold leadsTo at h
  split at h
  · rename_i node hnode
    exact ⟨node, hnode, Except.ok.inj h⟩
  · cases h
  · cases h

theorem exists_place_of_nodeAt {node : Node} (h : d.nodeAt p = .ok node) :
    ∃ place, d.locate p = .ok place ∧ d.node? place = some node := by
  unfold nodeAt at h
  rcases hplace : d.locate p with fault | place
  · rw [hplace] at h
    cases h
  · rw [hplace] at h
    refine ⟨place, rfl, ?_⟩
    rcases hfound : d.node? place with _ | found
    · simp [hfound, bind, Except.bind] at h
    · simp only [hfound, bind, Except.bind, Except.ok.injEq] at h
      rw [h]

/-- All kinds are asked for alike. -/
theorem exists_leadsTo {kind : Node → Bool} (h : ∃ found, d.leadsTo p kind = .ok found)
    (other : Node → Bool) : ∃ found, d.leadsTo p other = .ok found := by
  obtain ⟨found, h⟩ := h
  unfold leadsTo at h ⊢
  split at h
  · exact ⟨_, rfl⟩
  · cases h
  · exact ⟨_, rfl⟩

theorem knownAt (h : ∃ found, d.fileSystem.has p = .ok found) : d.fileSystem.KnownAt p :=
  ⟨h, exists_leadsTo h _, exists_leadsTo h _⟩

theorem exists_list (h : d.fileSystem.isDirectory p = .ok true) :
    ∃ names, d.fileSystem.list p = .ok names := by
  obtain ⟨node, hnode, hkind⟩ := exists_node_of_leadsTo h
  obtain ⟨place, hplace, hfound⟩ := exists_place_of_nodeAt hnode
  refine ⟨d.names place, ?_⟩
  have hdirectory : d.isDirectoryAt place = true := by
    rw [isDirectoryAt, hfound, beq_iff_eq.1 hkind]
    rfl
  change d.list p = _
  unfold list
  rw [hplace]
  dsimp only
  rw [if_pos hdirectory]

/-! ## Finitely many files and directories -/

theorem size_le_of_leadsTo {kind : Node → Bool} (h : d.leadsTo p kind = .ok true) :
    p.toText.utf8ByteSize ≤ maxPath := by
  obtain ⟨node, hnode, -⟩ := exists_node_of_leadsTo h
  obtain ⟨place, hplace, -⟩ := exists_place_of_nodeAt hnode
  by_contra hlong
  unfold locate at hplace
  rw [if_pos (Nat.lt_of_not_le hlong)] at hplace
  cases hplace

theorem mem_nodes_of_mem_names {place : List String} {n : String} (h : n ∈ d.names place) :
    ∃ e ∈ d.nodes, n ∈ e.1 := by
  unfold names at h
  dsimp only at h
  rw [List.mem_mergeSort] at h
  obtain ⟨e, he, hlast⟩ := List.mem_filterMap.1 h
  split at hlast
  · exact ⟨e, he, List.mem_of_getLast? hlast⟩
  · cases hlast

/-- If the places of a disk have ordinary names, it is bounded. -/
theorem bounded (h : ∀ e ∈ d.nodes, ∀ part ∈ e.1, FileName.IsOrdinary part) :
    d.fileSystem.Bounded where
  listed dir names n hlist hn := by
    change d.list dir = .ok names at hlist
    unfold list at hlist
    split at hlist
    · cases hlist
    · split at hlist
      · cases hlist
        obtain ⟨e, he, hpart⟩ := mem_nodes_of_mem_names hn
        exact h e he n hpart
      · cases hlist
  finite := by
    -- Links that lead in circles give one place many paths, but few of them are short enough.
    obtain ⟨texts, htexts⟩ := exists_texts maxPath
    refine ⟨texts.map Path.ofString, fun p hp hfound => ?_⟩
    refine List.mem_map.2 ⟨p.toText, htexts _ ?_, Path.ofString_toText hp⟩
    exact hfound.elim size_le_of_leadsTo size_le_of_leadsTo

/-! ## Disks that do not fail -/

/-- Whether a file can be read, though perhaps not decoded, where its path leads. -/
def isReadable (d : Disk) (p : Path) : Bool :=
  match d.realPath p with
  | .error _ => false
  | .ok target =>
    match d.read target with
    | .error (.failed _) => false
    | _ => true

/-- Whether a path is short enough to be looked up, and can be read if it leads to a file. -/
def isHealthyAt (d : Disk) (p : Path) : Bool :=
  match d.leadsTo p Node.isFile with
  | .error _ => false
  | .ok isFile => !isFile || d.isReadable p

theorem healthyAt (h : d.isHealthyAt p = true) : d.fileSystem.HealthyAt p := by
  unfold isHealthyAt at h
  rcases hfile : d.leadsTo p Node.isFile with e | isFile
  · rw [hfile] at h
    cases h
  rw [hfile] at h
  refine { knownAt (exists_leadsTo ⟨isFile, hfile⟩ _) with
    list := exists_list
    read := fun hfile' => ?_ }
  cases hfile.symm.trans hfile'
  change d.isReadable p = true at h
  unfold isReadable at h
  rcases htarget : d.realPath p with e | target
  · rw [htarget] at h
    cases h
  · rw [htarget] at h
    refine ⟨target, htarget, fun e he => ?_⟩
    change d.read target = .error (.failed e) at he
    dsimp only at h
    rw [he] at h
    cases h

/-- A disk fails for reasons of the system only. -/
theorem toError_isSystem (fault : Fault) (p : Path) : (fault.toError p).isSystem = true := by
  cases fault <;> rfl

theorem isSystem_of_list {e : FsError} (h : d.fileSystem.list p = .error e) : e.isSystem = true := by
  change d.list p = .error e at h
  unfold list at h
  split at h
  · cases h
    exact toError_isSystem _ p
  · split at h
    · cases h
    · cases h
      rfl

theorem steadyAt (h : d.isHealthyAt p = true) : d.fileSystem.SteadyAt p :=
  { (healthyAt h).toKnownAt with
    list := fun _ => isSystem_of_list
    read := fun target hfile htarget => by
      obtain ⟨target', htarget', hread⟩ := (healthyAt h).read hfile
      cases htarget.symm.trans htarget'
      exact hread }

/-! ## Where all nodes of a name are files -/

/-- Whatever stands under a name is a file. -/
def HoldsFiles (d : Disk) (n : String) : Prop :=
  ∀ dir node, d.node? (dir ++ [n]) = some node → node.isFile = true

theorem holdsFiles {n : String} (h : ∀ e ∈ d.nodes, e.1.getLast? = some n → e.2.isFile = true) :
    d.HoldsFiles n := by
  intro dir node hnode
  rw [node?, if_neg (List.concat_ne_nil _ _)] at hnode
  obtain ⟨e, he, rfl⟩ := Option.map_eq_some_iff.1 hnode
  have hplace : e.1 = dir ++ [n] := by simpa using List.find?_some he
  refine h e (List.mem_of_find?_eq_some he) ?_
  rw [hplace, List.getLast?_concat]

/-- A file stands at a place. -/
def FileAt (d : Disk) (place : List String) : Prop :=
  ∃ node, d.node? place = some node ∧ node.isFile = true

theorem node?_of_lookUp {dir : List String} {n : String} {node : Node}
    (h : d.lookUp dir n = .ok node) : d.node? (dir ++ [n]) = some node := by
  unfold lookUp at h
  split at h
  · cases h
  · split at h
    · cases h
    · split at h
      · rename_i found hfound
        rw [hfound, Except.ok.inj h]
      · cases h

section

variable {n : String} (hn : n ∉ ["", ".", ".."]) (hfiles : d.HoldsFiles n)
include hn hfiles

/-- The last part is looked up as it is, or is handed on by a link. -/
theorem fileAt_of_walk {strict : Bool} {jump : List String → List String → Except Fault (List String)}
    (hjump : ∀ start rest place, jump start (rest ++ [n]) = .ok place → d.FileAt place) :
    ∀ {parts start place}, d.walk strict jump start (parts ++ [n]) = .ok place → d.FileAt place
  | [], start, place, h => by
    rw [List.nil_append, walk, if_neg hn] at h
    rcases hlook : d.lookUp start n with fault | node
    · rw [hlook] at h
      cases h
    · have hfound := node?_of_lookUp hlook
      have hfile := hfiles start node hfound
      rw [hlook] at h
      cases node with
      | file octets =>
        cases h
        exact ⟨_, hfound, hfile⟩
      | directory => cases hfile
      | link target => cases hfile
  | part :: parts, start, place, h => by
    rw [List.cons_append, walk] at h
    split at h
    · split at h
      · cases h
      · exact fileAt_of_walk hjump h
    · split at h
      · cases h
      · -- A link leads on with what remains, and that still ends in the name.
        dsimp only at h
        rw [← List.append_assoc] at h
        exact hjump _ _ _ h
      · exact fileAt_of_walk hjump h

theorem fileAt_of_follow {strict : Bool} :
    ∀ {links : Nat} {parts start place : List String},
      d.follow strict links start (parts ++ [n]) = .ok place → d.FileAt place
  | 0, _, _, _, h => fileAt_of_walk hn hfiles (fun _ _ _ h => by cases h) h
  | _ + 1, _, _, _, h => fileAt_of_walk hn hfiles (fun _ _ _ => fileAt_of_follow) h

/-- A path that ends in such a name leads to a file, if it leads anywhere. -/
theorem isFile_of_has (hname : p.name = n) (hhas : d.fileSystem.has p = .ok true) :
    d.fileSystem.isFile p = .ok true := by
  obtain ⟨node, hnode, -⟩ := exists_node_of_leadsTo hhas
  obtain ⟨place, hplace, hfound⟩ := exists_place_of_nodeAt hnode
  have hparts : p.parts = p.parts.dropLast ++ [n] := by
    rcases hlast : p.parts.getLast? with _ | last
    · rw [Path.name, hlast] at hname
      exact absurd (hname ▸ List.mem_cons_self) hn
    · rw [Path.name, hlast] at hname
      cases hname
      exact (List.dropLast_append_getLast? _ hlast).symm
  unfold locate at hplace
  split at hplace
  · cases hplace
  · rw [hparts] at hplace
    obtain ⟨found, hfound', hfile⟩ := fileAt_of_follow hn hfiles hplace
    cases hfound.symm.trans hfound'
    change d.leadsTo p Node.isFile = .ok true
    rw [leadsTo, hnode]
    exact congrArg Except.ok hfile

end

/-- The texts of the files. -/
def texts (d : Disk) : List String :=
  d.nodes.filterMap fun e =>
    match e.2 with
    | .file octets => (Text.Utf8.decode octets).toOption.map fun text =>
        String.ofList (unifyNewlines text.toList)
    | _ => none

theorem mem_texts_of_read {text : String} (h : d.read p = .ok text) : text ∈ d.texts := by
  unfold read at h
  split at h
  · cases h
  · rename_i octets hnode
    obtain ⟨place, -, hfound⟩ := exists_place_of_nodeAt hnode
    unfold node? at hfound
    split at hfound
    · cases hfound
    · obtain ⟨e, he, hfile⟩ := Option.map_eq_some_iff.1 hfound
      split at h
      · rename_i decoded hdecoded
        refine List.mem_filterMap.2 ⟨e, List.mem_of_find?_eq_some he, ?_⟩
        rw [hfile]
        dsimp only
        rw [hdecoded]
        exact congrArg some (Except.ok.inj h)
      · cases h
  · cases h

end Disk

end PlaceMap
