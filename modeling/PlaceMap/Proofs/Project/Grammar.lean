/-
The grammar of project trees, and that reading a tree accepts exactly this grammar, down to the
greatest depth. What is read is what the fields say: of the keys that start with `$` the one field
of the node that each stands for, and of every other key a child of that name, in the order of the
object, read as a tree of its own.

The depth enters as the room that is left below a node. Whether a tree is accepted depends on the
room only through its depth, and what is read does not depend on it at all.
-/
import PlaceMap.Project.Schema
import PlaceMap.Proofs.Schema.Accepting

namespace PlaceMap

open Schema

/-! ## What the fields of a node say -/

/-- A value is a text. -/
inductive Json.Spells : Json → String → Prop
  | str (s) : Spells (.str s) s

/-- A binding is a text, or an object with the single key `optional` and a text under it. -/
inductive Binding.Describes : Json → Binding → Prop
  | required (path) : Describes (.str path) (.required path)
  | optional {fields path} : Json.Fields.find? fields "optional" = some (.str path) →
    (∀ field ∈ fields, field.1 = "optional") → Describes (.obj fields) (.optional path)

/-- A listed property is an object whose type may be absent or null, and else is a text. -/
inductive Property.Describes : Json → Property → Prop
  | mk {fields type} : Json.Fields.Says fields "Type" Json.Spells type →
    Describes (.obj fields) ⟨type, (Json.Fields.find? fields "Value").getD .null,
      fields.filter fun field => field.1 ≠ "Type" ∧ field.1 ≠ "Value"⟩

/-- Properties are an object, or a list of properties. -/
inductive Properties.Describes : Json → Properties → Prop
  | keyed (fields) : Describes (.obj fields) (.keyed fields)
  | listed {items properties} : List.Forall₂ Property.Describes items properties →
    Describes (.arr items) (.listed properties)

/-- The fields that name the children of a node. -/
def Json.Fields.named (fields : Json.Fields) : Json.Fields :=
  fields.filter fun field => !isMetadata field.1

/-- A value is a project tree. -/
inductive Json.IsTree : Json → Prop
  | node {fields : Json.Fields} {className binding properties ignoreUnknown} :
    (∀ field ∈ fields, isMetadata field.1 = true →
      field.1 ∈ [classKey, pathKey, propertiesKey, ignoreUnknownKey]) →
    fields.Says classKey Json.Spells className →
    fields.Says pathKey Binding.Describes binding →
    fields.Says propertiesKey Properties.Describes properties →
    fields.Says ignoreUnknownKey Schema.Spells ignoreUnknown →
    (∀ field ∈ fields.named, IsTree field.2) →
    IsTree (.obj fields)

/-- A value stands so many levels below the root of a tree, under keys that name children. -/
inductive Json.Below : Nat → Json → Json → Prop
  | child {fields : Json.Fields} {field} : field ∈ fields.named → Below 1 (.obj fields) field.2
  | deeper {fields : Json.Fields} {field level w} :
    field ∈ fields.named → Below level field.2 w → Below (level + 1) (.obj fields) w

/-- A node is what the fields of an object say, and its children are the trees under the other
keys. -/
structure TreeNode.ReadFrom (fields : Json.Fields) (n : TreeNode) : Prop where
  className : fields.Says classKey Json.Spells n.className
  binding : fields.Says pathKey Binding.Describes n.binding
  properties : fields.Says propertiesKey Properties.Describes n.properties
  ignoreUnknown : fields.Says ignoreUnknownKey Schema.Spells n.ignoreUnknown
  children : List.Forall₂
    (fun field child => child.1 = field.1 ∧ TreeNode.ofJson field.2 = .ok child.2)
    fields.named n.children

/-! ## Checks of the fields -/

theorem Json.spells_iff {v : Json} {s : String} : string v = .ok s ↔ v.Spells s := by
  rw [string_eq_ok]
  constructor
  · rintro rfl
    exact .str s
  · rintro ⟨⟩
    rfl

theorem Json.Fields.says_text_iff {fields : Json.Fields} {key : String} {o : Option String} :
    optional fields key none (nullable string) = .ok o ↔ fields.Says key Json.Spells o :=
  optional_nullable_eq_ok (fun _ h => nomatch h) fun _ _ => Json.spells_iff

theorem Binding.checkOptional_eq_ok {v : Json} {b : Binding} :
    Binding.checkOptional v = .ok b ↔ ∃ path fields, b = .optional path ∧ v = .obj fields ∧
      Json.Fields.find? fields "optional" = some (.str path) ∧
      ∀ field ∈ fields, field.1 = "optional" := by
  cases v with
  | obj fields =>
    rw [checkOptional, Checked.guarded_eq_ok, Checked.map_eq_ok, unknown_eq_nil]
    simp only [required_eq_ok, string_eq_ok, beq_iff_eq]
    constructor
    · rintro ⟨⟨path, ⟨v, hfind, rfl⟩, rfl⟩, hkeys⟩
      exact ⟨path, fields, rfl, rfl, hfind, hkeys⟩
    · rintro ⟨path, _, rfl, ⟨⟩, hfind, hkeys⟩
      exact ⟨⟨path, ⟨_, hfind, rfl⟩, rfl⟩, hkeys⟩
  | _ => exact ⟨nofun, fun ⟨_, _, _, h, _⟩ => nomatch h⟩

theorem Binding.check_eq_ok {v : Json} {b : Binding} :
    Binding.check v = .ok b ↔ Binding.Describes v b := by
  rw [check, either_eq_ok, Checked.map_eq_ok, checkOptional_eq_ok]
  simp only [string_eq_ok]
  constructor
  · rintro (⟨path, rfl, rfl⟩ | ⟨-, path, fields, rfl, rfl, hfind, hkeys⟩)
    · exact .required path
    · exact .optional hfind hkeys
  · intro h
    cases h with
    | required path => exact .inl ⟨path, rfl, rfl⟩
    | optional hfind hkeys => exact .inr ⟨⟨_, rfl⟩, _, _, rfl, rfl, hfind, hkeys⟩

theorem Json.Fields.says_binding_iff {fields : Json.Fields} {o : Option Binding} :
    optional fields pathKey none (nullable Binding.check) = .ok o ↔
      fields.Says pathKey Binding.Describes o :=
  optional_nullable_eq_ok (fun _ h => nomatch h) fun _ _ => Binding.check_eq_ok

theorem Property.check_eq_ok {v : Json} {p : Property} :
    Property.check v = .ok p ↔ Property.Describes v p := by
  cases v with
  | obj fields =>
    rw [check, Checked.map_eq_ok]
    simp only [Json.Fields.says_text_iff]
    constructor
    · rintro ⟨type, htype, rfl⟩
      exact .mk htype
    · rintro ⟨htype⟩
      exact ⟨_, htype, rfl⟩
  | _ => exact ⟨nofun, nofun⟩

theorem Properties.check_eq_ok {v : Json} {p : Properties} :
    Properties.check v = .ok p ↔ Properties.Describes v p := by
  rw [check, either_eq_ok, Checked.map_eq_ok]
  simp only [list_eq_ok, Property.check_eq_ok]
  constructor
  · rintro (⟨items, ⟨vs, rfl, hitems⟩, rfl⟩ | ⟨-, h⟩)
    · exact .listed hitems
    · cases v <;> cases h
      exact .keyed _
  · intro h
    cases h with
    | keyed fields => exact .inr ⟨⟨_, rfl⟩, rfl⟩
    | listed hitems => exact .inl ⟨_, ⟨_, rfl, hitems⟩, rfl⟩

theorem Json.Fields.says_properties_iff {fields : Json.Fields} {o : Option Properties} :
    optional fields propertiesKey none (nullable Properties.check) = .ok o ↔
      fields.Says propertiesKey Properties.Describes o :=
  optional_nullable_eq_ok (fun _ h => nomatch h) fun _ _ => Properties.check_eq_ok

theorem Json.Fields.says_boolean_iff {fields : Json.Fields} {o : Option Bool} :
    optional fields ignoreUnknownKey none (nullable boolean) = .ok o ↔
      fields.Says ignoreUnknownKey Schema.Spells o :=
  optional_nullable_eq_ok (fun _ h => nomatch h) fun _ _ => boolean_eq_ok

theorem isKnownKey_iff {key : String} :
    isKnownKey key = true ↔ (isMetadata key = true →
      key ∈ [classKey, pathKey, propertiesKey, ignoreUnknownKey]) := by
  unfold isKnownKey
  rw [Bool.or_eq_true, Bool.not_eq_true', decide_eq_true_iff]
  cases isMetadata key <;> simp

/-! ## Checks of trees -/

namespace TreeNode

/-- Reads a value that stands where a child may, if there is room for a level. -/
def checkBelow : Nat → Json → Checked TreeNode
  | 0, v => .refuse .tooDeep v
  | room + 1, v => checkAt room v

theorem checkChildren_eq_ok {room : Nat} :
    ∀ {fields : Json.Fields} {children : List (String × TreeNode)},
      checkChildren room fields = .ok children ↔
        List.Forall₂ (fun field child => child.1 = field.1 ∧ checkBelow room field.2 = .ok child.2)
          fields.named children
  | [], children => by
    rw [checkChildren]
    exact ⟨fun h => Except.ok.inj h ▸ .nil, fun h => by cases h; rfl⟩
  | (key, v) :: rest, children => by
    have ih : ∀ children, checkChildren room rest = .ok children ↔
        List.Forall₂ (fun field child => child.1 = field.1 ∧ checkBelow room field.2 = .ok child.2)
          (Json.Fields.named rest) children := fun _ => checkChildren_eq_ok
    have hbelow : checkChildren room ((key, v) :: rest) =
        if isMetadata key then checkChildren room rest
        else Checked.both (fun node nodes => (key, node) :: nodes)
          (Checked.within [key] (checkBelow room v)) (checkChildren room rest) := by
      cases room <;> rw [checkChildren] <;> rfl
    rw [hbelow]
    unfold Json.Fields.named at ih ⊢
    cases hkey : isMetadata key with
    | true =>
      rw [if_pos rfl, List.filter_cons_of_neg (by simp [hkey])]
      exact ih children
    | false =>
      rw [if_neg Bool.false_ne_true, List.filter_cons_of_pos (by simp [hkey]), Checked.both_eq_ok,
        List.forall₂_cons_left_iff]
      simp only [Checked.within_eq_ok, ih]
      constructor
      · rintro ⟨node, nodes, hnode, hnodes, rfl⟩
        exact ⟨(key, node), nodes, ⟨rfl, hnode⟩, hnodes, rfl⟩
      · rintro ⟨⟨name, node⟩, nodes, ⟨rfl, hnode⟩, hnodes, rfl⟩
        exact ⟨node, nodes, hnode, hnodes, rfl⟩

/-- The fields of an object say what a node is, its children apart. -/
structure StatedBy (fields : Json.Fields) (n : TreeNode) : Prop where
  keys : ∀ field ∈ fields, isMetadata field.1 = true →
    field.1 ∈ [classKey, pathKey, propertiesKey, ignoreUnknownKey]
  className : fields.Says classKey Json.Spells n.className
  binding : fields.Says pathKey Binding.Describes n.binding
  properties : fields.Says propertiesKey Properties.Describes n.properties
  ignoreUnknown : fields.Says ignoreUnknownKey Schema.Spells n.ignoreUnknown

/-- A node is read from an object whose fields say what it is, if its children can be read. -/
theorem checkAt_eq_ok {room : Nat} {v : Json} {n : TreeNode} :
    checkAt room v = .ok n ↔ ∃ fields : Json.Fields, v = .obj fields ∧ n.StatedBy fields ∧
      List.Forall₂ (fun field child => child.1 = field.1 ∧ checkBelow room field.2 = .ok child.2)
        fields.named n.children := by
  cases v with
  | obj fields =>
    rw [checkAt, Checked.guarded_eq_ok, unknown_eq_nil]
    simp only [Checked.apply_eq_ok, Checked.both_eq_ok, Checked.within_eq_ok, checkChildren_eq_ok,
      isKnownKey_iff, Json.Fields.says_text_iff, Json.Fields.says_binding_iff,
      Json.Fields.says_properties_iff, Json.Fields.says_boolean_iff]
    constructor
    · rintro ⟨⟨_, children, ⟨_, ignore, ⟨_, properties, ⟨className, binding, hclass, hbinding, rfl⟩,
        hproperties, rfl⟩, hignore, rfl⟩, hchildren, rfl⟩, hkeys⟩
      exact ⟨fields, rfl, ⟨hkeys, hclass, hbinding, hproperties, hignore⟩, hchildren⟩
    · obtain ⟨className, binding, properties, ignoreUnknown, children⟩ := n
      rintro ⟨_, ⟨⟩, ⟨hkeys, hclass, hbinding, hproperties, hignore⟩, hchildren⟩
      exact ⟨⟨_, _, ⟨_, _, ⟨_, _, ⟨_, _, hclass, hbinding, rfl⟩, hproperties, rfl⟩, hignore, rfl⟩,
        hchildren, rfl⟩, hkeys⟩
  | _ => exact ⟨nofun, fun ⟨_, h, _⟩ => nomatch h⟩

/-! ## The room below a node -/

theorem exists_forall₂_iff {α β : Type} {R : α → β → Prop} :
    ∀ {l : List α}, (∃ l', List.Forall₂ R l l') ↔ ∀ a ∈ l, ∃ b, R a b
  | [] => ⟨fun _ _ ha => absurd ha List.not_mem_nil, fun _ => ⟨[], .nil⟩⟩
  | a :: l => by
    rw [List.forall_mem_cons, ← exists_forall₂_iff (l := l)]
    constructor
    · rintro ⟨l', h⟩
      obtain ⟨b, l', hb, hl, rfl⟩ := List.forall₂_cons_left_iff.1 h
      exact ⟨⟨b, hb⟩, l', hl⟩
    · rintro ⟨⟨b, hb⟩, l', hl⟩
      exact ⟨b :: l', .cons hb hl⟩

/-- More room makes no difference to what is read. -/
theorem checkAt_mono {room more : Nat} (hmore : room ≤ more) {v : Json} {n : TreeNode}
    (h : checkAt room v = .ok n) : checkAt more v = .ok n := by
  induction room generalizing more v n with
  | zero =>
    obtain ⟨fields, rfl, hn, hchildren⟩ := checkAt_eq_ok.1 h
    refine checkAt_eq_ok.2 ⟨fields, rfl, hn, ?_⟩
    -- There is no room for children, so there are none.
    exact hchildren.imp fun field child hchild => nomatch hchild.2
  | succ room ih =>
    obtain ⟨more, rfl⟩ := Nat.exists_eq_add_of_le' (Nat.le_trans (Nat.succ_pos room) hmore)
    obtain ⟨fields, rfl, hn, hchildren⟩ := checkAt_eq_ok.1 h
    refine checkAt_eq_ok.2 ⟨fields, rfl, hn, ?_⟩
    exact hchildren.imp fun field child hchild =>
      ⟨hchild.1, ih (Nat.le_of_succ_le_succ hmore) hchild.2⟩

/-- A child is read alike as a tree of its own. -/
theorem checkAt_of_checkBelow {room : Nat} {v : Json} {n : TreeNode}
    (h : checkBelow room v = .ok n) : checkAt room v = .ok n := by
  cases room with
  | zero => cases h
  | succ room => exact checkAt_mono (Nat.le_succ room) h

theorem exists_checkBelow_iff {room : Nat} {v : Json} :
    (∃ n, checkBelow room v = .ok n) ↔ ∃ less, room = less + 1 ∧ ∃ n, checkAt less v = .ok n := by
  cases room with
  | zero => exact ⟨nofun, nofun⟩
  | succ room => exact ⟨fun h => ⟨room, rfl, h⟩, fun ⟨_, h, hn⟩ => Nat.succ.inj h ▸ hn⟩

/-- A node can be read if its fields say what it is and the values that name children can be read
with one level less. -/
theorem exists_checkAt_node_iff {room : Nat} {v : Json} :
    (∃ n, checkAt room v = .ok n) ↔ ∃ fields : Json.Fields, v = .obj fields ∧
      (∃ n : TreeNode, n.StatedBy fields) ∧
      ∀ field ∈ fields.named, ∃ n, checkBelow room field.2 = .ok n := by
  simp only [checkAt_eq_ok]
  constructor
  · rintro ⟨n, fields, rfl, hn, hchildren⟩
    refine ⟨fields, rfl, ⟨n, hn⟩, fun field hfield => ?_⟩
    obtain ⟨child, -, hchild⟩ := exists_forall₂_iff.1 ⟨_, hchildren⟩ field hfield
    exact ⟨_, hchild⟩
  · rintro ⟨fields, rfl, ⟨n, hkeys, hclass, hbinding, hproperties, hignore⟩, hchildren⟩
    obtain ⟨children, hall⟩ : ∃ children, List.Forall₂ (fun field (child : String × TreeNode) =>
        child.1 = field.1 ∧ checkBelow room field.2 = .ok child.2) fields.named children := by
      refine exists_forall₂_iff.2 fun field hfield => ?_
      obtain ⟨n, hn⟩ := hchildren field hfield
      exact ⟨(field.1, n), rfl, hn⟩
    exact ⟨⟨n.className, n.binding, n.properties, n.ignoreUnknown, children⟩, fields, rfl,
      ⟨hkeys, hclass, hbinding, hproperties, hignore⟩, hall⟩

/-- A value can be read exactly if it is a tree that is no deeper than there is room. -/
theorem exists_checkAt_iff {room : Nat} {v : Json} :
    (∃ n, checkAt room v = .ok n) ↔
      v.IsTree ∧ ∀ level w, Json.Below level v w → level ≤ room := by
  -- By induction on the room, which is what becomes less from a node to its children.
  induction room using Nat.strongRecOn generalizing v with
  | ind room ih =>
    rw [exists_checkAt_node_iff]
    simp only [exists_checkBelow_iff]
    constructor
    · rintro ⟨fields, rfl, ⟨n, hn⟩, hchildren⟩
      have hbelow : ∀ field ∈ fields.named, ∃ less, room = less + 1 ∧ Json.IsTree field.2 ∧
          ∀ level w, Json.Below level field.2 w → level ≤ less := by
        intro field hfield
        obtain ⟨less, rfl, hread⟩ := hchildren field hfield
        exact ⟨less, rfl, (ih less (Nat.lt_succ_self less)).1 hread⟩
      refine ⟨.node hn.keys hn.className hn.binding hn.properties hn.ignoreUnknown
        fun field hfield => ?_, ?_⟩
      · obtain ⟨-, -, htree, -⟩ := hbelow field hfield
        exact htree
      · -- What stands below the node is a child, or stands one level less below one.
        rintro level w (hfield | ⟨hfield, hdeeper⟩)
        · obtain ⟨less, rfl, -⟩ := hbelow _ hfield
          exact Nat.succ_pos less
        · obtain ⟨less, rfl, -, hlevel⟩ := hbelow _ hfield
          exact Nat.succ_le_succ (hlevel _ _ hdeeper)
    · rintro ⟨htree, hroom⟩
      cases htree with
      | @node fields _ _ _ _ hkeys hclass hbinding hproperties hignore hchildren =>
        refine ⟨fields, rfl, ⟨⟨_, _, _, _, []⟩, hkeys, hclass, hbinding, hproperties, hignore⟩, ?_⟩
        intro field hfield
        obtain ⟨less, rfl⟩ := Nat.exists_eq_add_of_le' (hroom 1 _ (.child hfield))
        refine ⟨less, rfl, (ih less (Nat.lt_succ_self less)).2 ⟨hchildren field hfield, ?_⟩⟩
        exact fun level w hbelow => Nat.le_of_succ_le_succ (hroom _ w (.deeper hfield hbelow))

/-! ## Reading a tree -/

theorem ofJson_eq_ok {v : Json} {n : TreeNode} :
    TreeNode.ofJson v = .ok n ↔ checkAt maxDepth v = .ok n := Checked.report_eq_ok

/-- What is read says what the object says, and its children are read each on its own. -/
theorem readFrom_of_checkAt {v : Json} {n : TreeNode} (h : checkAt maxDepth v = .ok n) :
    ∃ fields, v = .obj fields ∧ n.ReadFrom fields := by
  obtain ⟨fields, rfl, ⟨-, hclass, hbinding, hproperties, hignore⟩, hchildren⟩ := checkAt_eq_ok.1 h
  refine ⟨fields, rfl, hclass, hbinding, hproperties, hignore, hchildren.imp fun field child hchild => ?_⟩
  exact ⟨hchild.1, ofJson_eq_ok.2 (checkAt_of_checkBelow hchild.2)⟩

/-- A value is read exactly if it is a project tree with no child further below the root than the
greatest depth, and is refused otherwise. The node that is read says what the fields of the object
say, and its children are exactly the keys that do not start with `$`, in the order of the object,
each of them what its value is read as. -/
theorem ofJson_grammar (v : Json) :
    ((∃ n, TreeNode.ofJson v = .ok n) ↔
      v.IsTree ∧ ∀ level child, Json.Below level v child → level ≤ maxDepth) ∧
    ((∃ report, TreeNode.ofJson v = .error report) ↔
      ¬ (v.IsTree ∧ ∀ level child, Json.Below level v child → level ≤ maxDepth)) ∧
    ∀ n, TreeNode.ofJson v = .ok n → ∃ fields, v = .obj fields ∧ n.ReadFrom fields := by
  have hread : (∃ n, TreeNode.ofJson v = .ok n) ↔
      v.IsTree ∧ ∀ level child, Json.Below level v child → level ≤ maxDepth := by
    simp only [ofJson_eq_ok]
    exact exists_checkAt_iff
  refine ⟨hread, ?_, fun n hn => readFrom_of_checkAt (ofJson_eq_ok.1 hn)⟩
  rw [← hread]
  cases TreeNode.ofJson v <;> simp

end TreeNode

end PlaceMap
