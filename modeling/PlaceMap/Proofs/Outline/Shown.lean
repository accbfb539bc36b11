/-
What an outline shows: a segment for every name on the way to something registered, each under the
segment of the name before it and none of them twice, and every mapped file and every partition once,
right under the name at which its tree path ends. Files stand before partitions and both before the
segments, which are ordered by their names.

No item is lost or doubled in whatever order items are inserted (`leaves_insert`). That the segments
of a name are ordered, and stand behind what is registered at the name itself, comes from the order
of the entries: a tree path precedes those that continue it, so that an insertion changes nothing but
the last segment on its way or adds one behind it (`Shows.insert`).
-/
import Mathlib.Data.List.Induction
import Mathlib.Data.List.Nodup
import Mathlib.Data.String.Basic
import PlaceMap.Outline

namespace PlaceMap.Outline

/-! ## What stands in an outline -/

/-- The name of a segment. Files and partitions have none. -/
def Item.name? : Item → Option String
  | .file _ => none
  | .partition _ => none
  | .segment name _ => some name

/-- The segment of a name, with the items under it. -/
def Item.ofPair (s : String × List Item) : Item := .segment s.1 s.2

/-- What is found at a tree path, as seen from one name above. -/
def under {α : Type} (name : String) (e : TreePath × α) : TreePath × α := (name :: e.1, e.2)

mutual

/-- The segments in an item, with the names that lead to each and the items under it. -/
def Item.nodes : Item → List (TreePath × List Item)
  | .file _ => []
  | .partition _ => []
  | .segment name items => (([], items) :: nodes items).map (under name)

/-- The segments in some items, with the names that lead to each and the items under it. -/
def nodes : List Item → List (TreePath × List Item)
  | [] => []
  | item :: rest => item.nodes ++ nodes rest

end

mutual

/-- The files and partitions in an item, with the names that lead to each. -/
def Item.leaves : Item → List (TreePath × Item)
  | .file path => [([], .file path)]
  | .partition path => [([], .partition path)]
  | .segment name items => (leaves items).map (under name)

/-- The files and partitions in some items, with the names that lead to each. -/
def leaves : List Item → List (TreePath × Item)
  | [] => []
  | item :: rest => item.leaves ++ leaves rest

end

theorem nodes_append (front rest : List Item) : nodes (front ++ rest) = nodes front ++ nodes rest := by
  induction front with
  | nil => rfl
  | cons item front ih => rw [List.cons_append, nodes, nodes, ih, List.append_assoc]

theorem leaves_append (front rest : List Item) :
    leaves (front ++ rest) = leaves front ++ leaves rest := by
  induction front with
  | nil => rfl
  | cons item front ih => rw [List.cons_append, leaves, leaves, ih, List.append_assoc]

theorem Item.nodes_of_name? {item : Item} (h : item.name? = none) : item.nodes = [] := by
  cases item <;> first | rfl | cases h

theorem Item.leaves_of_name? {item : Item} (h : item.name? = none) : item.leaves = [([], item)] := by
  cases item <;> first | rfl | cases h

theorem nodes_of_name? {items : List Item} (h : ∀ item ∈ items, item.name? = none) :
    nodes items = [] := by
  induction items with
  | nil => rfl
  | cons item items ih =>
    rw [nodes, Item.nodes_of_name? (h item List.mem_cons_self),
      ih fun i hi => h i (List.mem_cons_of_mem _ hi)]
    rfl

theorem nodes_segments (segments : List (String × List Item)) :
    nodes (segments.map Item.ofPair) =
      segments.flatMap fun s => (([], s.2) :: nodes s.2).map (under s.1) := by
  induction segments with
  | nil => rfl
  | cons s segments ih => rw [List.map_cons, nodes, ih, List.flatMap_cons, Item.ofPair, Item.nodes]

/-! ## Insertion keeps what stands in an outline -/

section

variable {place : TreePath} {item : Item}

theorem leaves_modifyName {f : List Item → List Item} (name : String)
    (hf : ∀ items, (leaves (f items)).Perm (leaves items ++ [(place, item)])) :
    ∀ items, (leaves (modifyName name f items)).Perm (leaves items ++ [(name :: place, item)])
  | [] => by
    have h := (hf []).map (under name)
    simpa [modifyName, leaves, Item.leaves, under] using h
  | .segment n items :: rest => by
    rw [modifyName]
    by_cases hn : n = name
    · subst hn
      rw [if_pos rfl, leaves, leaves, Item.leaves, Item.leaves]
      refine (((hf items).map (under n)).append_right (leaves rest)).trans ?_
      rw [List.map_append, List.append_assoc, List.append_assoc]
      exact List.perm_append_comm.append_left _
    · rw [if_neg hn, leaves, leaves, List.append_assoc]
      exact (leaves_modifyName name hf rest).append_left _
  | .file path :: rest => (leaves_modifyName name hf rest).append_left _
  | .partition path :: rest => (leaves_modifyName name hf rest).append_left _

/-- An insertion adds its item at its tree path and keeps all others where they are. -/
theorem leaves_insert (h : item.name? = none) : ∀ (place : TreePath) (items : List Item),
    (leaves (insert place item items)).Perm (leaves items ++ [(place, item)])
  | [], items => by rw [insert, leaves_append, leaves, Item.leaves_of_name? h, leaves, List.append_nil]
  | name :: place, items => leaves_modifyName name (leaves_insert h place) items

/-- Inserting one by one adds every item at its tree path. -/
theorem leaves_foldl {es : List (TreePath × Item)} (h : ∀ e ∈ es, e.2.name? = none)
    (items : List Item) :
    (leaves (es.foldl (fun items e => insert e.1 e.2 items) items)).Perm (leaves items ++ es) := by
  induction es generalizing items with
  | nil => rw [List.foldl_nil, List.append_nil]
  | cons e es ih =>
    rw [List.foldl_cons, ← List.singleton_append, ← List.append_assoc]
    refine (ih (fun d hd => h d (List.mem_cons_of_mem _ hd)) _).trans ?_
    exact (leaves_insert (h e List.mem_cons_self) e.1 items).append_right es

end

/-! ## The order of tree paths -/

theorem precedes_cons_cons {x y : String} {a b : TreePath} :
    precedes (x :: a) (y :: b) = true ↔ x < y ∨ x = y ∧ precedes a b = true := by
  rw [precedes]
  by_cases h : x = y
  · subst h
    simp
  · simp [h]

theorem precedes_trans : ∀ {a b c : TreePath},
    precedes a b = true → precedes b c = true → precedes a c = true
  | [], _, _, _, _ => rfl
  | _ :: _, [], _, hab, _ => by cases hab
  | _ :: _, _ :: _, [], _, hbc => by cases hbc
  | x :: a, y :: b, z :: c, hab, hbc => by
    rw [precedes_cons_cons] at hab hbc ⊢
    rcases hab with hxy | ⟨rfl, hab⟩ <;> rcases hbc with hyz | ⟨rfl, hbc⟩
    · exact .inl (hxy.trans hyz)
    · exact .inl hxy
    · exact .inl hyz
    · exact .inr ⟨rfl, precedes_trans hab hbc⟩

theorem precedes_total : ∀ a b : TreePath, precedes a b = true ∨ precedes b a = true
  | [], _ => .inl rfl
  | _ :: _, [] => .inr rfl
  | x :: a, y :: b => by
    rw [precedes_cons_cons, precedes_cons_cons]
    rcases lt_trichotomy x y with h | rfl | h
    · exact .inl (.inl h)
    · exact (precedes_total a b).imp (fun h => .inr ⟨rfl, h⟩) fun h => .inr ⟨rfl, h⟩
    · exact .inr (.inl h)

/-- Sorting keeps the order of elements that stand in order already. -/
theorem filter_mergeSort {α : Type} {le : α → α → Bool} (htrans : ∀ a b c, le a b → le b c → le a c)
    (htotal : ∀ a b, le a b || le b a) {p : α → Bool} {l : List α}
    (h : (l.filter p).Pairwise fun a b => le a b) : (l.mergeSort le).filter p = l.filter p := by
  have hsub : (l.filter p).Sublist (l.mergeSort le) :=
    List.sublist_mergeSort htrans htotal h List.filter_sublist
  have hfilter := hsub.filter p
  rw [List.filter_filter] at hfilter
  simp only [Bool.and_self] at hfilter
  exact (hfilter.eq_of_length ((List.mergeSort_perm l le).filter p).length_eq.symm).symm

/-! ## The entries that an outline shows -/

/-- The entries below a name, as seen from there. -/
def inside (name : String) (es : List (TreePath × Item)) : List (TreePath × Item) :=
  es.filterMap fun e =>
    match e.1 with
    | [] => none
    | n :: rest => if n = name then some (rest, e.2) else none

/-- The entries at a tree path. -/
def itemsAt (place : TreePath) (es : List (TreePath × Item)) : List Item :=
  (es.filter fun e => e.1 = place).map (·.2)

theorem mem_inside {name : String} {es : List (TreePath × Item)} {rest : TreePath} {item : Item} :
    (rest, item) ∈ inside name es ↔ (name :: rest, item) ∈ es := by
  unfold inside
  rw [List.mem_filterMap]
  constructor
  · rintro ⟨⟨place, i⟩, he, heq⟩
    cases place with
    | nil => cases heq
    | cons n place =>
      by_cases hn : n = name
      · simp only [hn, if_true, Option.some.injEq, Prod.mk.injEq] at heq
        obtain ⟨rfl, rfl⟩ := heq
        exact hn ▸ he
      · simp [hn] at heq
  · intro he
    exact ⟨_, he, by simp⟩

theorem leaf_inside {name : String} {es : List (TreePath × Item)} (h : ∀ e ∈ es, e.2.name? = none) :
    ∀ e ∈ inside name es, e.2.name? = none := fun e he => h (name :: e.1, e.2) (mem_inside.1 he)

theorem inside_append (name : String) (es : List (TreePath × Item)) (e : TreePath × Item) :
    inside name (es ++ [e]) = inside name es ++ inside name [e] := List.filterMap_append

theorem inside_concat (n name : String) (place : TreePath) (item : Item)
    (es : List (TreePath × Item)) :
    inside n (es ++ [(name :: place, item)]) =
      if name = n then inside n es ++ [(place, item)] else inside n es := by
  rw [inside_append]
  by_cases h : name = n <;> simp [inside, h]

theorem exists_of_inside_ne_nil {name : String} {es : List (TreePath × Item)}
    (h : inside name es ≠ []) : ∃ rest item, (name :: rest, item) ∈ es := by
  obtain ⟨⟨rest, item⟩, hmem⟩ := List.exists_mem_of_ne_nil _ h
  exact ⟨rest, item, mem_inside.1 hmem⟩

theorem itemsAt_append (place : TreePath) (es : List (TreePath × Item)) (e : TreePath × Item) :
    itemsAt place (es ++ [e]) = itemsAt place es ++ itemsAt place [e] := by
  rw [itemsAt, List.filter_append, List.map_append]
  rfl

theorem itemsAt_inside (name : String) (place : TreePath) (es : List (TreePath × Item)) :
    itemsAt place (inside name es) = itemsAt (name :: place) es := by
  induction es with
  | nil => rfl
  | cons e es ih =>
    obtain ⟨place', item⟩ := e
    cases place' with
    | nil => simpa [inside, itemsAt] using ih
    | cons n rest =>
      by_cases hn : n = name
      · by_cases hr : rest = place
        · simpa [inside, itemsAt, hn, hr] using ih
        · simpa [inside, itemsAt, hn, hr] using ih
      · simpa [inside, itemsAt, hn] using ih

/-- The items show the entries: first those that are registered here, in their order, then a segment
for every name with which an entry goes on. The names increase, and under each segment the entries
below its name are shown. -/
inductive Shows : List (TreePath × Item) → List Item → Prop
  | intro {es : List (TreePath × Item)} {segments : List (String × List Item)} :
      (segments.map (·.1)).Pairwise (· < ·) →
      (∀ name, name ∈ segments.map (·.1) ↔ inside name es ≠ []) →
      (∀ s ∈ segments, Shows (inside s.1 es) s.2) →
      Shows es (itemsAt [] es ++ segments.map Item.ofPair)

theorem shows_nil : Shows [] [] :=
  @Shows.intro [] [] .nil (fun name => by simp [inside]) fun s hs => nomatch hs

/-! ## One insertion in order -/

theorem modifyName_append {name : String} {f : List Item → List Item} {front : List Item}
    (h : ∀ item ∈ front, item.name? ≠ some name) (rest : List Item) :
    modifyName name f (front ++ rest) = front ++ modifyName name f rest := by
  induction front with
  | nil => rfl
  | cons item front ih =>
    have ih := ih fun i hi => h i (List.mem_cons_of_mem _ hi)
    have hitem := h item List.mem_cons_self
    rw [List.cons_append, List.cons_append]
    cases item with
    | file path => exact congrArg _ ih
    | partition path => exact congrArg _ ih
    | segment n items =>
      have hn : n ≠ name := by simpa [Item.name?] using hitem
      rw [modifyName, if_neg hn, ih]

theorem name?_itemsAt {es : List (TreePath × Item)} (h : ∀ e ∈ es, e.2.name? = none)
    {place : TreePath} : ∀ item ∈ itemsAt place es, item.name? = none := by
  intro item hi
  obtain ⟨e, he, rfl⟩ := List.mem_map.1 hi
  exact h e (List.mem_of_mem_filter he)

/-- Segments whose names do not exceed a name: either the last one has that name, or none has. The
items under the name are then those of the last segment, or there are none yet, and a change at the
name leaves the other segments alone. -/
theorem exists_last {name : String} {segments : List (String × List Item)}
    (hsorted : (segments.map (·.1)).Pairwise (· < ·))
    (hle : ∀ s ∈ segments, s.1 < name ∨ s.1 = name) :
    ∃ front items, (∀ s ∈ front, s.1 < name) ∧
      (segments = front ++ [(name, items)] ∨ segments = front ∧ items = []) ∧
      ∀ f, modifyName name f (segments.map Item.ofPair) =
        front.map Item.ofPair ++ [.segment name (f items)] := by
  have hchange : ∀ front : List (String × List Item), (∀ s ∈ front, s.1 < name) →
      ∀ f rest, modifyName name f (front.map Item.ofPair ++ rest) =
        front.map Item.ofPair ++ modifyName name f rest := by
    intro front hlt f rest
    refine modifyName_append (fun item hi => ?_) rest
    obtain ⟨s, hs, rfl⟩ := List.mem_map.1 hi
    intro hname
    exact (hlt s hs).ne (Option.some.inj hname)
  rcases List.eq_nil_or_concat' segments with rfl | ⟨front, s, rfl⟩
  · exact ⟨[], [], nofun, .inr ⟨rfl, rfl⟩, fun f => rfl⟩
  · rw [List.map_append, List.pairwise_append] at hsorted
    have hfront : ∀ r ∈ front, r.1 < s.1 := fun r hr =>
      hsorted.2.2 r.1 (List.mem_map_of_mem hr) s.1 (List.mem_singleton_self _)
    rcases hle s (List.mem_append_right _ (List.mem_singleton_self s)) with hlt | rfl
    · have hall : ∀ r ∈ front ++ [s], r.1 < name := by
        intro r hr
        rcases List.mem_append.1 hr with hr | hr
        · exact (hfront r hr).trans hlt
        · rw [List.mem_singleton.1 hr]
          exact hlt
      refine ⟨front ++ [s], [], hall, .inr ⟨rfl, rfl⟩, fun f => ?_⟩
      have h := hchange _ hall f []
      rwa [List.append_nil] at h
    · refine ⟨front, s.2, hfront, .inl rfl, fun f => ?_⟩
      rw [List.map_append, hchange _ hfront]
      simp [Item.ofPair, modifyName]

/-- Where no entry goes on, there are no segments, and an entry that is registered here comes last. -/
theorem Shows.insert_here {es : List (TreePath × Item)} {items : List Item} {item : Item}
    (h : Shows es items) (hle : ∀ e ∈ es, precedes e.1 [] = true) :
    Shows (es ++ [([], item)]) (items ++ [item]) := by
  cases h with
  | @intro _ segments hsorted hnames hshows =>
  -- Nothing that goes on from here precedes what is registered here.
  have hnone : ∀ name, inside name es = [] := by
    intro name
    by_contra hne
    obtain ⟨rest, i, hmem⟩ := exists_of_inside_ne_nil hne
    exact absurd (hle _ hmem) (by simp [precedes])
  have hsegments : segments = [] := by
    refine List.eq_nil_iff_forall_not_mem.2 fun s hs => ?_
    exact (hnames s.1).1 (List.mem_map_of_mem hs) (hnone s.1)
  subst hsegments
  have hinside : ∀ name, inside name (es ++ [([], item)]) = [] := by
    intro name
    rw [inside_append, hnone]
    rfl
  have hshown := @Shows.intro (es ++ [([], item)]) [] .nil
    (fun name => by simp [hinside]) fun s hs => nomatch hs
  rw [itemsAt_append] at hshown
  simpa [itemsAt] using hshown

/-- An entry that goes on with the greatest name changes what is shown under that name, which is new
or stands last. -/
theorem Shows.insert_below {es : List (TreePath × Item)} {segments front : List (String × List Item)}
    {name : String} {items : List Item} {place : TreePath} {item : Item}
    (hsorted : (segments.map (·.1)).Pairwise (· < ·))
    (hnames : ∀ name, name ∈ segments.map (·.1) ↔ inside name es ≠ [])
    (hshows : ∀ s ∈ segments, Shows (inside s.1 es) s.2)
    (hlt : ∀ s ∈ front, s.1 < name)
    (hsegments : (∃ before, segments = front ++ [(name, before)]) ∨ segments = front)
    (hbelow : Shows (inside name es ++ [(place, item)]) items) :
    Shows (es ++ [(name :: place, item)])
      (itemsAt [] es ++ (front.map Item.ofPair ++ [.segment name items])) := by
  have hfront : front.Sublist segments := by
    rcases hsegments with ⟨before, rfl⟩ | rfl
    · exact List.sublist_append_left _ _
    · exact List.Sublist.refl _
  have hshown := @Shows.intro (es ++ [(name :: place, item)]) (front ++ [(name, items)]) ?_ ?_ ?_
  · have hhere : itemsAt [] (es ++ [(name :: place, item)]) = itemsAt [] es := by
      simp [itemsAt]
    rw [hhere, List.map_append] at hshown
    exact hshown
  · rw [List.map_append, List.pairwise_append]
    refine ⟨hsorted.sublist (hfront.map _), List.pairwise_singleton _ _, ?_⟩
    intro a ha b hb
    obtain ⟨s, hs, rfl⟩ := List.mem_map.1 ha
    rw [List.mem_singleton.1 hb]
    exact hlt s hs
  · intro n
    rw [inside_concat, List.map_append, List.mem_append]
    by_cases hn : name = n
    · simp [hn]
    · rw [if_neg hn, ← hnames n]
      rcases hsegments with ⟨before, rfl⟩ | rfl <;> simp [Ne.symm hn]
  · intro s hs
    rw [inside_concat]
    rcases List.mem_append.1 hs with hs | hs
    · rw [if_neg (hlt s hs).ne']
      exact hshows s (hfront.subset hs)
    · rw [List.mem_singleton.1 hs, if_pos rfl]
      exact hbelow

/-- An entry that every other precedes is shown behind what is there already. -/
theorem Shows.insert {item : Item} : ∀ {place : TreePath} {es : List (TreePath × Item)}
    {items : List Item}, Shows es items → (∀ e ∈ es, e.2.name? = none) →
      (∀ e ∈ es, precedes e.1 place = true) →
      Shows (es ++ [(place, item)]) (insert place item items)
  | [], _, _, h, _, hle => h.insert_here hle
  | name :: place, es, _, h, hleaf, hle => by
    cases h with
    | @intro _ segments hsorted hnames hshows =>
    have hle' : ∀ s ∈ segments, s.1 < name ∨ s.1 = name := by
      intro s hs
      obtain ⟨rest, i, hmem⟩ := exists_of_inside_ne_nil ((hnames s.1).1 (List.mem_map_of_mem hs))
      exact (precedes_cons_cons.1 (hle _ hmem)).imp_right And.left
    obtain ⟨front, items, hlt, hsegments, hchange⟩ := exists_last hsorted hle'
    have hitems : Shows (inside name es) items := by
      rcases hsegments with rfl | ⟨rfl, rfl⟩
      · exact hshows _ (List.mem_append_right _ (List.mem_singleton_self _))
      · have hnil : inside name es = [] := by
          by_contra hne
          obtain ⟨s, hs, hname⟩ := List.mem_map.1 ((hnames name).2 hne)
          exact (hlt s hs).ne hname
        rw [hnil]
        exact shows_nil
    have hbelow : Shows (inside name es ++ [(place, item)]) (Outline.insert place item items) := by
      refine hitems.insert (leaf_inside hleaf) fun e he => ?_
      rcases precedes_cons_cons.1 (hle _ (mem_inside.1 he)) with h | ⟨-, h⟩
      · exact absurd h (lt_irrefl name)
      · exact h
    have hleaves : ∀ i ∈ itemsAt [] es, i.name? ≠ some name := by
      intro i hi
      simp [name?_itemsAt hleaf i hi]
    rw [Outline.insert, modifyName_append hleaves, hchange]
    exact Shows.insert_below hsorted hnames hshows hlt
      (hsegments.imp (fun h => ⟨items, h⟩) And.left) hbelow

/-! ## The whole outline -/

/-- Inserted in the order of their tree paths, all entries are shown. -/
theorem shows_foldl {es : List (TreePath × Item)} (hleaf : ∀ e ∈ es, e.2.name? = none)
    (hsorted : es.Pairwise fun a b => precedes a.1 b.1 = true) :
    Shows es (es.foldl (fun items e => insert e.1 e.2 items) []) := by
  induction es using List.reverseRecOn with
  | nil => exact shows_nil
  | append_singleton es e ih =>
    rw [List.pairwise_append] at hsorted
    have hes : ∀ d ∈ es, d.2.name? = none := fun d hd => hleaf d (List.mem_append_left _ hd)
    rw [List.foldl_append]
    exact (ih hes hsorted.1).insert hes fun d hd =>
      hsorted.2.2 d hd e (List.mem_singleton_self e)

section

variable {es : List (TreePath × Item)} {items : List Item}

theorem nodes_shown {segments : List (String × List Item)} (h : ∀ e ∈ es, e.2.name? = none) :
    nodes (itemsAt [] es ++ segments.map Item.ofPair) =
      segments.flatMap fun s => (([], s.2) :: nodes s.2).map (under s.1) := by
  rw [nodes_append, nodes_of_name? (name?_itemsAt h), List.nil_append, nodes_segments]

theorem places_shown {segments : List (String × List Item)} (h : ∀ e ∈ es, e.2.name? = none) :
    (nodes (itemsAt [] es ++ segments.map Item.ofPair)).map (·.1) =
      segments.flatMap fun s => ([] :: (nodes s.2).map (·.1)).map (s.1 :: ·) := by
  rw [nodes_shown h, List.map_flatMap]
  refine List.flatMap_congr fun s _ => ?_
  simp [under]

theorem prefix_inside {name : String} {place : TreePath} :
    (∃ e ∈ inside name es, place <+: e.1) ↔ ∃ e ∈ es, name :: place <+: e.1 := by
  constructor
  · rintro ⟨⟨rest, item⟩, he, hprefix⟩
    exact ⟨_, mem_inside.1 he, List.cons_prefix_cons.2 ⟨rfl, hprefix⟩⟩
  · rintro ⟨⟨full, item⟩, he, rest, rfl⟩
    exact ⟨(place ++ rest, item), mem_inside.2 he, List.prefix_append _ _⟩

/-- There is a segment for every name on the way to an entry. -/
theorem Shows.mem_nodes (h : Shows es items) (hleaf : ∀ e ∈ es, e.2.name? = none)
    (place : TreePath) :
    place ∈ (nodes items).map (·.1) ↔ place ≠ [] ∧ ∃ e ∈ es, place <+: e.1 := by
  induction h generalizing place with
  | @intro es segments hsorted hnames hshows ih =>
  rw [places_shown hleaf]
  cases place with
  | nil => simp
  | cons name place =>
    have hiff : (name :: place ∈ segments.flatMap fun s => ([] :: (nodes s.2).map (·.1)).map (s.1 :: ·)) ↔
        ∃ s ∈ segments, s.1 = name ∧ (place = [] ∨ place ∈ (nodes s.2).map (·.1)) := by
      rw [List.mem_flatMap]
      refine exists_congr fun s => and_congr_right fun _ => ?_
      rw [List.mem_map]
      constructor
      · rintro ⟨q, hq, heq⟩
        obtain ⟨rfl, rfl⟩ := List.cons.inj heq
        exact ⟨rfl, List.mem_cons.1 hq⟩
      · rintro ⟨rfl, hplace⟩
        exact ⟨place, List.mem_cons.2 hplace, rfl⟩
    rw [hiff, ← prefix_inside]
    constructor
    · rintro ⟨s, hs, rfl, rfl | hplace⟩
      · obtain ⟨e, he⟩ := List.exists_mem_of_ne_nil _ ((hnames s.1).1 (List.mem_map_of_mem hs))
        exact ⟨List.cons_ne_nil _ _, e, he, List.nil_prefix⟩
      · exact ⟨List.cons_ne_nil _ _, ((ih s hs (leaf_inside hleaf) place).1 hplace).2⟩
    · rintro ⟨-, e, he, hprefix⟩
      obtain ⟨s, hs, rfl⟩ := List.mem_map.1 ((hnames name).2 (List.ne_nil_of_mem he))
      refine ⟨s, hs, rfl, ?_⟩
      by_cases hplace : place = []
      · exact .inl hplace
      · exact .inr ((ih s hs (leaf_inside hleaf) place).2 ⟨hplace, e, he, hprefix⟩)

/-- No name on the way to an entry has two segments. -/
theorem Shows.nodup_nodes (h : Shows es items) (hleaf : ∀ e ∈ es, e.2.name? = none) :
    ((nodes items).map (·.1)).Nodup := by
  induction h with
  | @intro es segments hsorted hnames hshows ih =>
  rw [places_shown hleaf, List.nodup_flatMap]
  constructor
  · intro s hs
    have hroot : [] ∉ (nodes s.2).map (·.1) := fun h =>
      (((hshows s hs).mem_nodes (leaf_inside hleaf) []).1 h).1 rfl
    have hnodup : ([] :: (nodes s.2).map (·.1)).Nodup :=
      List.nodup_cons.2 ⟨hroot, ih s hs (leaf_inside hleaf)⟩
    exact hnodup.map (List.cons_injective)
  · refine (List.pairwise_map.1 hsorted).imp fun {s s'} hlt => ?_
    intro place hs hs'
    obtain ⟨q, -, rfl⟩ := List.mem_map.1 hs
    obtain ⟨q', -, heq⟩ := List.mem_map.1 hs'
    exact hlt.ne (List.cons.inj heq).1.symm

/-- At every tree path stand the entries of this tree path, and behind them the segments, ordered by
their names. -/
theorem Shows.items_eq (h : Shows es items) (hleaf : ∀ e ∈ es, e.2.name? = none) :
    ∀ n ∈ ([], items) :: nodes items, ∃ segments : List (String × List Item),
      n.2 = itemsAt n.1 es ++ segments.map Item.ofPair ∧ (segments.map (·.1)).Pairwise (· < ·) := by
  induction h with
  | @intro es segments hsorted hnames hshows ih =>
  intro n hn
  rcases List.mem_cons.1 hn with rfl | hn
  · exact ⟨segments, rfl, hsorted⟩
  · rw [nodes_shown hleaf] at hn
    obtain ⟨s, hs, hn⟩ := List.mem_flatMap.1 hn
    obtain ⟨m, hm, rfl⟩ := List.mem_map.1 hn
    obtain ⟨segments', hitems, hsorted'⟩ := ih s hs (leaf_inside hleaf) m hm
    refine ⟨segments', ?_, hsorted'⟩
    rw [under, ← itemsAt_inside]
    exact hitems

end

/-- What a table registers, in the order of the table: the mapped files before the partitions. -/
def registrations (t : Table) : List (TreePath × Item) :=
  (t.fileMap.map fun e => (e.2, .file e.1)) ++ t.partitions.map fun p => (p.place, .partition p.target)

section

variable (t : Table)

theorem entries_eq : entries t = (registrations t).mergeSort fun a b => precedes a.1 b.1 := rfl

theorem entries_perm : (entries t).Perm (registrations t) := List.mergeSort_perm _ _

theorem leaf_registrations : ∀ e ∈ registrations t, e.2.name? = none := by
  intro e he
  rcases List.mem_append.1 he with he | he
  · obtain ⟨f, -, rfl⟩ := List.mem_map.1 he
    rfl
  · obtain ⟨p, -, rfl⟩ := List.mem_map.1 he
    rfl

theorem leaf_entries : ∀ e ∈ entries t, e.2.name? = none := fun e he =>
  leaf_registrations t e ((entries_perm t).mem_iff.1 he)

theorem entry_trans (a b c : TreePath × Item) :
    precedes a.1 b.1 = true → precedes b.1 c.1 = true → precedes a.1 c.1 = true := precedes_trans

theorem entry_total (a b : TreePath × Item) : (precedes a.1 b.1 || precedes b.1 a.1) = true := by
  rw [Bool.or_eq_true]
  exact precedes_total a.1 b.1

theorem shows_ofTable : Shows (entries t) (ofTable t) :=
  shows_foldl (leaf_entries t) (List.pairwise_mergeSort entry_trans entry_total _)

/-- Entries with one tree path stay in the order of the table. -/
theorem itemsAt_entries (place : TreePath) :
    itemsAt place (entries t) = itemsAt place (registrations t) := by
  have hsorted : ((registrations t).filter fun e => e.1 = place).Pairwise fun a b =>
      precedes a.1 b.1 = true := by
    refine List.pairwise_of_forall_mem_list fun a ha b hb => ?_
    rw [of_decide_eq_true (List.mem_filter.1 ha).2, of_decide_eq_true (List.mem_filter.1 hb).2]
    exact (precedes_total place place).elim id id
  rw [itemsAt, entries_eq, filter_mergeSort entry_trans entry_total hsorted, itemsAt]

theorem itemsAt_registrations (place : TreePath) :
    itemsAt place (registrations t) =
      ((t.fileMap.filter fun e => e.2 = place).map fun e => .file e.1) ++
        (t.partitions.filter fun p => p.place = place).map fun p => .partition p.target := by
  simp [itemsAt, registrations, List.filter_map, Function.comp_def]

theorem prefix_registrations (place : TreePath) :
    (∃ e ∈ registrations t, place <+: e.1) ↔
      (∃ e ∈ t.fileMap, place <+: e.2) ∨ ∃ p ∈ t.partitions, place <+: p.place := by
  simp [registrations, or_and_right, exists_or]

end

/-- The outline of a table has one segment for every name on the way to something registered and no
other, shows every mapped file and every partition once, where its tree path ends, and at every tree
path first the files and then the partitions that are registered there, in the order of the table,
and behind them the segments, by increasing names. -/
theorem ofTable_shown (t : Table) :
    ((nodes (ofTable t)).map (·.1)).Nodup ∧
    (∀ place, place ∈ (nodes (ofTable t)).map (·.1) ↔ place ≠ [] ∧
      ((∃ e ∈ t.fileMap, place <+: e.2) ∨ ∃ p ∈ t.partitions, place <+: p.place)) ∧
    (leaves (ofTable t)).Perm ((t.fileMap.map fun e => (e.2, .file e.1)) ++
      t.partitions.map fun p => (p.place, .partition p.target)) ∧
    ∀ n ∈ ([], ofTable t) :: nodes (ofTable t), ∃ segments : List (String × List Item),
      n.2 = ((t.fileMap.filter fun e => e.2 = n.1).map fun e => .file e.1) ++
        ((t.partitions.filter fun p => p.place = n.1).map fun p => .partition p.target) ++
        (segments.map fun s => .segment s.1 s.2) ∧
      (segments.map (·.1)).Pairwise (· < ·) := by
  have hshown := shows_ofTable t
  have hleaf := leaf_entries t
  refine ⟨hshown.nodup_nodes hleaf, fun place => ?_, ?_, fun n hn => ?_⟩
  · rw [hshown.mem_nodes hleaf, ← prefix_registrations]
    refine and_congr_right fun _ => exists_congr fun e => and_congr_left fun _ => ?_
    exact (entries_perm t).mem_iff
  · exact (leaves_foldl hleaf []).trans (entries_perm t)
  · obtain ⟨segments, hitems, hsorted⟩ := hshown.items_eq hleaf n hn
    rw [itemsAt_entries, itemsAt_registrations] at hitems
    exact ⟨segments, hitems, hsorted⟩

example : leaves (ofTable ⟨[(⟨.root, ["d.json"]⟩, ["b", "d"])],
      [⟨⟨.root, ["s"]⟩, ["b"], []⟩, ⟨⟨.root, ["c"]⟩, ["a"], []⟩], false, []⟩) =
    [(["a"], .partition ⟨.root, ["c"]⟩), (["b"], .partition ⟨.root, ["s"]⟩),
      (["b", "d"], .file ⟨.root, ["d.json"]⟩)] := by cbv

end PlaceMap.Outline
