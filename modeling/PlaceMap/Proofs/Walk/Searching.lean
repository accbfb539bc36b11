/-
The search of directories in which there are no project files. It registers nothing: it goes from
directory to directory, and all that it leaves in the table is a warning for each directory that
cannot be listed.
-/
import PlaceMap.Proofs.FileSystem.Healthy
import PlaceMap.Proofs.Walk.Actions

namespace PlaceMap

/-! ## Walks that only warn -/

/-- The same table with more warnings. -/
def Table.warnAll (ws : List Warning) (t : Table) : Table := { t with warnings := t.warnings ++ ws }

theorem Table.warnAll_nil (t : Table) : t.warnAll [] = t := by
  unfold warnAll
  rw [List.append_nil]

theorem Table.warnAll_append (ws ws' : List Warning) (t : Table) :
    t.warnAll (ws ++ ws') = (t.warnAll ws).warnAll ws' := by
  unfold warnAll
  rw [List.append_assoc]

namespace Walk

/-- A walk changes nothing but the warnings, and every new one is of a kind. -/
def OnlyWarns (P : Warning → Prop) : Walk Unit → Prop :=
  Ensures fun c _ d => ∃ ws, (∀ w ∈ ws, P w) ∧ d.now = c.now.warnAll ws

namespace OnlyWarns

variable {P : Warning → Prop}

theorem refl (t : Table) : ∃ ws, (∀ w ∈ ws, P w) ∧ t = t.warnAll ws :=
  ⟨[], fun _ hw => absurd hw List.not_mem_nil, t.warnAll_nil.symm⟩

theorem pure : OnlyWarns P (pure ()) := Ensures.pure fun c => refl c.now

theorem throw (e : Stop) : OnlyWarns P (throw e) := Ensures.throw fun c => refl c.now

theorem warn {w : Warning} (h : P w) : OnlyWarns P (warn w) :=
  Ensures.change fun _ => ⟨[w], fun _ hw => List.mem_singleton.1 hw ▸ h, rfl⟩

theorem bind {w w' : Walk Unit} (h : OnlyWarns P w) (h' : OnlyWarns P w') :
    OnlyWarns P (do w; w') := by
  refine Ensures.bind (fun _ _ _ hw => hw) ?_ h h'
  rintro c d r e ⟨ws, hws, hd⟩ ⟨ws', hws', he⟩
  refine ⟨ws ++ ws', fun w hw => ?_, by rw [he, hd, Table.warnAll_append]⟩
  rcases List.mem_append.1 hw with hw | hw
  · exact hws w hw
  · exact hws' w hw

theorem performAll {visit : Visit → Walk Unit} :
    ∀ l : List Action, (∀ a ∈ l, OnlyWarns P (a.perform visit)) →
      OnlyWarns P (Action.performAll visit l)
  | [], _ => pure
  | a :: l, h => by
    rw [Action.performAll_cons]
    exact (h a List.mem_cons_self).bind (performAll l fun b hb => h b (List.mem_cons_of_mem a hb))

end OnlyWarns

/-! ## Directories without project files -/

/-- No directory that a build lists has an entry named like a project file. -/
def NoProjects (fs : FileSystem) (s : Resolver.Source) : Prop :=
  ∀ dir names n, Lists fs s dir → fs.list dir = .ok names → n ∈ names → FileName.isProject n = false

variable {fs : FileSystem} {s : Resolver.Source}

theorem NoProjects.no_default (h : NoProjects fs s) {dir : Path} {names : List String}
    (hdir : Lists fs s dir) (hl : fs.list dir = .ok names) : FileName.defaultProject ∉ names := by
  intro hn
  have hproject := h dir names _ hdir hl hn
  exact absurd hproject (by decide)

/-- A search without project files may warn of a directory, may stop, and else goes on below. -/
theorem NoProjects.action_cases (h : NoProjects fs s) {dir : Path} {place : TreePath}
    {name : Option String} {ignored : List IgnoreRule} (hdir : Lists fs s dir) {a : Action}
    (ha : a ∈ (Visit.directory dir place name ignored).actions fs) :
    (∃ e, a = .warn (.unreadable dir e)) ∨ (∃ e, a = .stop e) ∨
      ∃ n, a = .visit (.directory (dir.child n) (place ++ name.toList) (some n) ignored) := by
  rcases Action.mem_listed ha with ⟨names, hl, ha⟩ | ⟨e, -, -, hwarn⟩ | ⟨e, -, -, hstop⟩
  · rw [if_neg (h.no_default hdir hl)] at ha
    rcases Action.mem_compared ha with ⟨covered, -, ha⟩ | ⟨fault, -, hstop⟩
    · split at ha
      · cases ha
      rcases List.mem_append.1 ha with ha | ha
      · -- No entry is named like a project file.
        obtain ⟨n, hn, ha⟩ := List.mem_flatMap.1 ha
        rw [Action.ofProjectEntry, h dir names n hdir hl hn, if_neg Bool.false_ne_true] at ha
        cases ha
      · obtain ⟨n, -, ha⟩ := List.mem_flatMap.1 ha
        rcases Action.mem_asked ha with ⟨isDirectory, -, ha⟩ | ⟨e, -, hstop⟩
        · split at ha
          · exact .inr (.inr ⟨n, List.mem_singleton.1 ha⟩)
          · cases ha
        · exact .inr (.inl ⟨_, hstop⟩)
    · exact .inr (.inl ⟨_, hstop⟩)
  · exact .inl ⟨e, hwarn⟩
  · exact .inr (.inl ⟨_, hstop⟩)

/-- A search without project files only warns of directories that cannot be listed. -/
theorem NoProjects.search_onlyWarns (h : NoProjects fs s) :
    ∀ (depth : Nat) {dir : Path} {place : TreePath} {name : Option String}
      {ignored : List IgnoreRule}, Reached fs s (.directory dir place name ignored) →
      OnlyWarns (fun w => ∃ d e, w = .unreadable d e)
        (Walk.visit fs depth (.directory dir place name ignored))
  | 0, _, _, _, _, _ => .throw _
  | depth + 1, dir, place, name, ignored, hv => by
    rw [Walk.visit, Action.enter_eq]
    refine .performAll _ fun a ha => ?_
    rcases h.action_cases (.directory hv) ha with ⟨e, rfl⟩ | ⟨e, rfl⟩ | ⟨n, rfl⟩
    · exact .warn ⟨dir, e, rfl⟩
    · exact .throw e
    · exact h.search_onlyWarns depth (hv.ask (Action.asks_of_mem ha))

end Walk

/-- A file system held in memory has no project files if no path of an entry spells one's name. -/
theorem Stored.noProjects {s : Stored} (hlisting : ∀ e ∈ s, ∀ names, e.2 ≠ .listing names)
    (hnames : ∀ e ∈ s, ∀ n ∈ (Path.ofString e.1).parts, FileName.isProject n = false)
    (source : Resolver.Source) : Walk.NoProjects s.fileSystem source := by
  intro dir names n _ hl hn
  rcases list_eq_names hl with rfl | hentry
  · obtain ⟨e, he, hpart⟩ := mem_names hn
    exact hnames e he n hpart
  · exact absurd rfl (hlisting _ (mem_of_entry hentry) names)

end PlaceMap
