/-
Listings and resolutions that fail on the way of a walk. A directory that cannot be listed is worth
one warning, and for the rest the walk goes on as if that visit were not there: it ends alike, and
leaves the same table but for these warnings. A project file that cannot be resolved is no such
case. It stops the walk, like a project file with an integer of too many digits.

The walk past the failing listings is compared with the walk itself by their logs: the one log is the
other without the warnings of failing listings. That there is one such warning for each failing
listing, and that the walk ends at the first project file that stops it, holds because a visit that
fails does nothing else.
-/
import PlaceMap.Proofs.Resolver.Returning
import PlaceMap.Proofs.Walk.Doing
import PlaceMap.Proofs.Walk.Isolation
import PlaceMap.Proofs.Walk.Log

namespace PlaceMap

/-! ## Visits that fail -/

/-- The warning that a directory is worth that cannot be listed. -/
def FileSystem.unlisted? (fs : FileSystem) (dir : Path) : Option Warning :=
  match fs.list dir with
  | .ok _ => none
  | .error e => if e.isSystem then some (.unreadable dir e) else none

/-- The warning that a visit is worth whose directory cannot be listed: a directory that is searched,
or a target that is not covered and neither a project nor a data file. -/
def Visit.unlisted? (fs : FileSystem) : Visit → Option Warning
  | .project _ _ _ => none
  | .target path _ ignored _ =>
    let path := path.toLuau
    match IgnoreRule.anyCovers ignored path, fs.has path, fs.isDirectory path with
    | .ok false, .ok true, .ok true =>
      if FileName.isProject path.name || path.isData then none else fs.unlisted? path
    | _, _, _ => none
  | .directory dir _ _ _ => fs.unlisted? dir

/-- Why a project file stops a walk: it exists and cannot be resolved, or it holds an integer of too
many digits. -/
def Project.fault? (fs : FileSystem) (file : Path) : Option Stop :=
  match fs.has file, fs.realPath file, Project.load fs file with
  | .ok true, .error e, _ => some (.failed e)
  | _, _, .error (.oversized digits) => some (.oversized digits)
  | _, _, _ => none

/-- Why the project file of a visit stops a walk, if it does. -/
def Visit.fault? (fs : FileSystem) (v : Visit) : Option Stop := v.file?.bind (Project.fault? fs)

/-- Whether a warning is about a directory that cannot be listed. -/
def Warning.isUnreadable : Warning → Bool
  | .unreadable _ _ => true
  | _ => false

/-- The warning of a failing listing that an action adds. -/
def Action.unlisted? (a : Action) : Option Warning := a.warning?.filter Warning.isUnreadable

/-- A visit that finds no failures but those of listings and of resolutions, and does not lead on and
on: its path can be spelled, what is named like a project file is a regular file, all globs compile,
and no project includes itself. -/
structure Visit.Orderly (fs : FileSystem) (v : Visit) : Prop where
  proper : v.path.Proper
  named : ∀ file, v.file? = some file → FileName.isProject file.name = true
  files : ∀ file : Path, file.Proper → FileName.isProject file.name = true →
    fs.has file = .ok true → fs.isFile file = .ok true
  rules : ∀ rule ∈ v.rules, rule.Compiles
  projects : ∀ file : Path, file.Proper → ∀ p, Project.load fs file = .ok p →
    ∀ rule ∈ p.rules file, rule.Compiles
  acyclic : ¬ Walk.Recurs fs v

/-- A visit leads to another one, over the visits that are asked for. -/
def Walk.LeadsTo (fs : FileSystem) (v w : Visit) : Prop := ∃ n, Walk.AsksIn fs n v w

/-- The walk of a visit consults a file system about a path. -/
def Visit.Consults (fs : FileSystem) (v : Visit) : Path → Prop :=
  Walk.Consults fs (Walk.LeadsTo fs v)

/-- A visit of at most `depth` levels that passes over some visits. -/
def Walk.visitPast (fs : FileSystem) (skip : Visit → Bool) : Nat → Visit → Walk Unit
  | 0, _ => throw .tooDeep
  | depth + 1, v => if skip v then pure () else enter fs (visitPast fs skip depth) v

namespace Visit

variable {fs : FileSystem} {v v' : Visit}

/-! ## The visits that an orderly one leads to -/

theorem steadyAt_of_consulted (hfs : fs.Steady (v.Consults fs)) :
    ∀ p ∈ v.consulted fs, fs.SteadyAt p :=
  fun p hp => hfs.steadyAt p ⟨v, ⟨0, .here⟩, hp⟩

/-- What is asked for leads to fewer visits, so that a file system is steady for it, too. -/
theorem steady_of_asks (hfs : fs.Steady (v.Consults fs)) (ha : Walk.Asks fs v v') :
    fs.Steady (v'.Consults fs) where
  steadyAt := by
    rintro p ⟨w, ⟨n, hw⟩, hp⟩
    exact hfs.steadyAt p ⟨w, ⟨n + 1, .step ha hw⟩, hp⟩
  bounded := hfs.bounded

/-- An orderly visit asks for orderly ones. -/
theorem Orderly.ask (hfs : fs.Bounded) (h : v.Orderly fs) (ha : Walk.Asks fs v v') : v'.Orderly fs where
  proper := ha.proper h.proper
  files := h.files
  projects := h.projects
  acyclic := by
    rintro ⟨w, w', file, m, n, hw, hw', hfile, hfile'⟩
    exact h.acyclic ⟨w, w', file, m + 1, n, .step ha hw, hw', hfile, hfile'⟩
  named _ hfile := ha.isProject h.proper (fun _ _ _ _ hl hn => (hfs.listed _ _ _ hl hn).1) hfile
  rules := by
    cases ha with
    | binding hload => exact h.projects _ h.proper _ hload
    | included => exact fun _ hr => absurd hr List.not_mem_nil
    | standard => exact fun _ hr => absurd hr List.not_mem_nil
    | search hs =>
      obtain ⟨raw, optional, rfl, -⟩ := hs
      exact h.rules
    | standardBelow => exact fun _ hr => absurd hr List.not_mem_nil
    | entry => exact fun _ hr => absurd hr List.not_mem_nil
    | subdirectory => exact h.rules

/-! ## Failing listings -/

theorem unlisted?_of_error {dir : Path} {e : FsError} (hl : fs.list dir = .error e)
    (he : e.isSystem = true) : fs.unlisted? dir = some (.unreadable dir e) := by
  unfold FileSystem.unlisted?
  rw [hl]
  exact if_pos he

theorem exists_of_unlisted? {dir : Path} {w : Warning} (h : fs.unlisted? dir = some w) :
    ∃ e, fs.list dir = .error e ∧ e.isSystem = true ∧ w = .unreadable dir e := by
  unfold FileSystem.unlisted? at h
  split at h
  · cases h
  · rename_i e hl
    split at h
    · rename_i he
      exact ⟨e, hl, he, (Option.some.inj h).symm⟩
    · cases h

theorem unlisted?_of_listing {dir : Path} (h : Walk.Listing fs v dir) :
    v.unlisted? fs = fs.unlisted? dir := by
  cases h with
  | target hs hdata hhas hdir =>
    obtain ⟨raw, optional, rfl, rfl, hc, hp⟩ := hs
    simp [unlisted?, hc, hhas, hdir, hp, hdata]
  | search => rfl

theorem listing_of_unlisted? {w : Warning} (h : v.unlisted? fs = some w) :
    ∃ dir, Walk.Listing fs v dir ∧ fs.unlisted? dir = some w := by
  cases v with
  | project => cases h
  | directory dir => exact ⟨dir, .search, h⟩
  | target path place ignored optional =>
    unfold unlisted? at h
    dsimp only at h
    split at h
    · rename_i hc hhas hdir
      split at h
      · cases h
      · rename_i hplain
        obtain ⟨hp, hdata⟩ : FileName.isProject path.toLuau.name = false ∧
            path.toLuau.isData = false := by
          simpa only [Bool.or_eq_true, not_or, Bool.not_eq_true] using hplain
        exact ⟨_, .target ⟨path, optional, rfl, rfl, hc, hp⟩ hdata hhas hdir, h⟩
    · cases h

/-- A visit whose directory cannot be listed adds the warning, and that is all. -/
theorem actions_of_unlisted? {w : Warning} (h : v.unlisted? fs = some w) :
    v.actions fs = [.warn w] ∧ w.isUnreadable = true := by
  obtain ⟨dir, hlisting, h⟩ := listing_of_unlisted? h
  obtain ⟨e, hl, he, rfl⟩ := exists_of_unlisted? h
  refine ⟨?_, rfl⟩
  cases hlisting with
  | target hs hdata hhas hdir =>
    obtain ⟨raw, optional, rfl, rfl, hc, hp⟩ := hs
    simp [actions, Action.ofTarget, Action.compared, hc, Action.asked, hhas, hp, Action.ofSettled,
      hdata, hdir, Action.ofTargetDirectory, Action.listed, hl, he]
  | search => simp [actions, Action.ofDirectory, Action.listed, hl, he]

/-- What is warned of as a directory that cannot be listed is one. -/
theorem unlisted?_of_mem {a : Action} {w : Warning} (h : a ∈ v.actions fs)
    (ha : a.unlisted? = some w) : v.unlisted? fs = some w := by
  obtain ⟨hw, hunreadable⟩ := Option.filter_eq_some_iff.1 ha
  cases a <;> cases hw
  cases Action.does_of_mem h with
  | broken hbroken =>
    rcases hbroken.missing_or_invalid with ⟨-, rfl⟩ | ⟨-, cause, rfl⟩
    · cases hunreadable
    · cases hunreadable
  | missing => cases hunreadable
  | unreadable hlisting hl he => rw [unlisted?_of_listing hlisting, unlisted?_of_error hl he]

/-! ## Failing project files -/

theorem fault?_of_unresolved {file : Path} {e : FsError} (hhas : fs.has file = .ok true)
    (hreal : fs.realPath file = .error e) : Project.fault? fs file = some (.failed e) := by
  unfold Project.fault?
  rw [hhas, hreal]

theorem fault?_of_oversized {file : Path} {digits : Nat}
    (h : Project.load fs file = .error (.oversized digits)) :
    Project.fault? fs file = some (.oversized digits) := by
  unfold Project.fault?
  split
  next hhas hreal =>
    rw [Project.load_of_unresolved hhas hreal] at h
    cases h
  next hload _ =>
    cases h.symm.trans hload
    rfl
  next _ hnone => exact absurd h (hnone digits)

/-- A visit at a fault stops, and does nothing else. -/
theorem actions_of_fault? {e : Stop} (h : v.fault? fs = some e) : v.actions fs = [.stop e] := by
  obtain ⟨file, hfile, hfault⟩ := Option.bind_eq_some_iff.1 h
  cases v <;> cases hfile
  show Action.ofProject fs file _ _ = _
  unfold Action.ofProject
  unfold Project.fault? at hfault
  split at hfault
  next hhas hreal =>
    cases hfault
    rw [Project.load_of_unresolved hhas hreal]
  next hload _ =>
    cases hfault
    rw [hload]
  next => cases hfault

/-- Where the file system is steady, an orderly visit stops at a fault only. -/
theorem Orderly.fault?_of_stops (h : v.Orderly fs) (hfs : ∀ p ∈ v.consulted fs, fs.SteadyAt p)
    {e : Stop} (hstop : Walk.Stops fs v e) : v.fault? fs = some e := by
  -- All failures but those of project files are excluded: the tests answer, and a listing that fails
  -- is no reason to stop.
  cases hstop with
  | load hload =>
    have hsteady := hfs _ (List.mem_singleton_self _)
    rcases Project.load_eq_failed hload with hhas | ⟨hhas, hreal | ⟨target, hreal, hread⟩⟩
    · exact absurd hhas (ne_error_of_exists hsteady.has)
    · exact fault?_of_unresolved hhas hreal
    · have hfile := h.files _ h.proper (h.named _ rfl) hhas
      exact absurd hread (hsteady.read _ hfile hreal _)
  | oversized hload => exact fault?_of_oversized hload
  | glob hc => exact absurd hc (Walk.anyCovers_ne_error h.rules)
  | globBelow hc => exact absurd hc (Walk.anyCovers_ne_error h.rules)
  | existence he =>
    exact absurd he (ne_error_of_exists (hfs _ (List.mem_singleton_self _)).has)
  | kind hs he => exact absurd he (ne_error_of_exists (hfs _ hs.mem_consulted).isDirectory)
  | target hs _ _ hl he =>
    rw [(hfs _ hs.mem_consulted).list _ hl] at he
    cases he
  | directory hl he =>
    rw [(hfs _ (mem_consulted_directory ..)).list _ hl] at he
    cases he
  | entry hl hn _ he =>
    exact absurd he (ne_error_of_exists (hfs _ (mem_consulted_entry hl hn ..)).isFile)
  | subdirectory hl hn he =>
    exact absurd he (ne_error_of_exists (hfs _ (mem_consulted_entry hl hn ..)).isDirectory)

theorem Orderly.fault?_of_mem (h : v.Orderly fs) (hfs : ∀ p ∈ v.consulted fs, fs.SteadyAt p)
    {a : Action} {e : Stop} (ha : a ∈ v.actions fs) (hstop : a.stop? = some e) :
    v.fault? fs = some e := by
  cases a <;> cases hstop
  cases Action.does_of_mem ha with
  | stop hstops => exact h.fault?_of_stops hfs hstops

end Visit

/-! ## The walk past failing listings -/

namespace Action

/-- Whether an action is something else than the warning of a failing listing. -/
def isKept (a : Action) : Bool := a.unlisted?.isNone

theorem isKept_warn (w : Warning) : (warn w).isKept = !w.isUnreadable := by
  cases h : w.isUnreadable <;> simp [isKept, unlisted?, warning?, h]

variable {fs : FileSystem}

theorem filter_expand {log : Visit → List Action} {l : List Action} (h : ∀ a ∈ l, a.isKept = true) :
    (l.flatMap (expand log)).filter isKept = l.flatMap (expand fun v => (log v).filter isKept) := by
  rw [List.filter_flatMap]
  refine List.flatMap_congr fun a ha => ?_
  cases a with
  | visit v => rfl
  | _ => exact List.filter_cons_of_pos (h _ ha)

/-- The log of a walk past failing listings lacks their warnings, and nothing else. -/
theorem visitPast_eq_log : ∀ (depth : Nat) (v : Visit),
    Walk.visitPast fs (fun v => (v.unlisted? fs).isSome) depth v =
      performAll (fun _ => pure ()) ((v.log fs depth).filter isKept)
  | 0, _ => (performAll_singleton (.stop .tooDeep)).symm
  | depth + 1, v => by
    rw [Walk.visitPast, Visit.log]
    rcases hw : v.unlisted? fs with _ | w
    · have hkept : ∀ a ∈ v.actions fs, a.isKept = true := by
        intro a ha
        rcases hu : a.unlisted? with _ | w
        · rw [isKept, hu]
          rfl
        · rw [Visit.unlisted?_of_mem ha hu] at hw
          cases hw
      rw [filter_expand hkept, Option.isSome_none, if_neg Bool.false_ne_true, enter_eq]
      exact performAll_expand (visitPast_eq_log depth) _
    · -- All that this visit does is dropped.
      obtain ⟨hactions, hunreadable⟩ := Visit.actions_of_unlisted? hw
      rw [hactions, List.flatMap_singleton, expand,
        List.filter_cons_of_neg (by simp [isKept_warn, hunreadable])]
      rfl

/-- Without the warnings of failing listings, a log ends alike and leaves the same table but for
these warnings. -/
theorem replay_filter : ∀ (l : List Action) {t t' : Table}, t.Agree t' →
    (replay (l.filter isKept) t').1 = (replay l t).1 ∧
      (replay l t).2.Agree (replay (l.filter isKept) t').2 ∧
      ∃ ws, (replay l t).2.warnings = t.warnings ++ ws ∧
        (replay (l.filter isKept) t').2.warnings =
          t'.warnings ++ ws.filter fun w => !w.isUnreadable
  | [], t, t', h => ⟨rfl, h, [], (List.append_nil _).symm, (List.append_nil _).symm⟩
  | .warn w :: l, t, t', h => by
    have hwarned : (t.warn w).Agree t' := ⟨h.fileMap, h.partitions, h.isGame⟩
    cases hw : w.isUnreadable with
    | true =>
      rw [List.filter_cons_of_neg (by simp [isKept_warn, hw])]
      obtain ⟨hend, hagree, ws, hws, hrest⟩ := replay_filter l hwarned
      refine ⟨hend, hagree, w :: ws, ?_, ?_⟩
      · rw [replay, hws, Table.warn, List.append_assoc]
        rfl
      · rw [hrest, List.filter_cons_of_neg (by simp [hw])]
    | false =>
      rw [List.filter_cons_of_pos (by simp [isKept_warn, hw])]
      obtain ⟨hend, hagree, ws, hws, hrest⟩ := replay_filter l (Table.Agree.kept.warn w _ _ h)
      refine ⟨hend, hagree, w :: ws, ?_, ?_⟩
      · rw [replay, hws, Table.warn, List.append_assoc]
        rfl
      · rw [replay, hrest, List.filter_cons_of_pos (by simp [hw]), Table.warn, List.append_assoc]
        rfl
  | .markGame :: l, _, _, h => replay_filter l (Table.Agree.kept.markGame _ _ h)
  | .mapFile file place :: l, _, _, h => replay_filter l (Table.Agree.kept.mapFile file place _ _ h)
  | .register p :: l, _, _, h => replay_filter l (Table.Agree.kept.register p _ _ h)
  | .visit _ :: l, _, _, h => replay_filter l h
  | .stop e :: l, t, t', h => ⟨rfl, h, [], (List.append_nil _).symm, (List.append_nil _).symm⟩

end Action

namespace Walk

variable {fs : FileSystem} {v : Visit}

/-- On a file system that is steady where it is consulted, the walk of an orderly visit comes to an
end. It stops at the first project file that cannot be resolved or holds an integer of too many
digits, and otherwise returns. Failing listings change nothing else than that the visits concerned
are passed over: without these visits the walk ends alike and leaves the same table, but for the
warnings, of which there is one for each failing listing, among the others in the order of the
visits. -/
theorem visit_passes_failing_listings (hfs : fs.Steady (v.Consults fs)) (hv : v.Orderly fs) :
    ∃ depth, ∀ more, depth ≤ more → ∀ t,
      let run := (visit fs more v).runOn t
      let rest := (visitPast fs (fun w => (w.unlisted? fs).isSome) more v).runOn t
      failure? run.1 = (v.visits fs more).findSome? (Visit.fault? fs) ∧
      rest.1 = run.1 ∧ run.2.Agree rest.2 ∧
      ∃ ws, run.2.warnings = t.warnings ++ ws ∧
        rest.2.warnings = t.warnings ++ ws.filter (fun w => !w.isUnreadable) ∧
        (run.1 = .ok () →
          ws.filter Warning.isUnreadable = (v.visits fs more).filterMap (Visit.unlisted? fs)) := by
  obtain ⟨depth, hdepth⟩ := exists_shallow_of_not_recurs hfs.bounded hv.proper hv.acyclic
  refine ⟨depth, fun more hmore t => ?_⟩
  have hshallow := hdepth.mono hmore
  -- In the log, each stop stands for a project file that stops the walk, and each warning of an
  -- unreadable directory for a listing that fails.
  have hask : ∀ v v' : Visit, v.Orderly fs ∧ fs.Steady (v.Consults fs) → .visit v' ∈ v.actions fs →
      v'.Orderly fs ∧ fs.Steady (v'.Consults fs) :=
    fun _ _ ⟨h, hfs⟩ ha =>
      ⟨h.ask hfs.bounded (Action.asks_of_mem ha), Visit.steady_of_asks hfs (Action.asks_of_mem ha)⟩
  have hfaults : (v.log fs more).filterMap Action.stop? =
      (v.visits fs more).filterMap (Visit.fault? fs) :=
    Visit.filterMap_log hask (fun _ => rfl) (fun v e _ h => ⟨_, Visit.actions_of_fault? h, rfl⟩)
      (fun v a e ⟨h, hfs⟩ => h.fault?_of_mem (Visit.steadyAt_of_consulted hfs))
      ⟨hv, hfs⟩ hshallow
  have hlistings : (v.log fs more).filterMap Action.unlisted? =
      (v.visits fs more).filterMap (Visit.unlisted? fs) := by
    refine Visit.filterMap_log hask (fun _ => rfl) (fun v w _ h => ?_)
      (fun v a w _ => Visit.unlisted?_of_mem) ⟨hv, hfs⟩ hshallow
    obtain ⟨hactions, hunreadable⟩ := Visit.actions_of_unlisted? h
    exact ⟨_, hactions, by simp [Action.unlisted?, Action.warning?, hunreadable]⟩
  have hrest : (visitPast fs (fun w => (w.unlisted? fs).isSome) more v).runOn t =
      Action.replay ((v.log fs more).filter Action.isKept) t := by
    rw [Action.visitPast_eq_log]
    exact Action.follow_performAll _ _
  obtain ⟨hend, hagree, ws, hws, hkept⟩ := Action.replay_filter (v.log fs more) (Table.Agree.refl t)
  dsimp only
  rw [Action.runOn_visit, hrest]
  refine ⟨?_, hend, hagree, ws, hws, hkept, fun hok => ?_⟩
  · rw [Action.failure?_replay, ← List.head?_filterMap, hfaults, List.head?_filterMap]
  · rw [Action.replay_snd t (Action.replay_eq_ok.1 hok)] at hws
    rw [← List.append_cancel_left hws, List.filter_filterMap]
    exact hlistings

/-- The visit of a required target without rules. -/
def searched : Visit := .target ⟨.root, ["s"]⟩ [] [] false

/-- On a file system held in memory, the target is an orderly visit if no project includes itself, no
directory is named like a project file, and all globs of projects compile. -/
theorem orderly_searched {s : Stored}
    (hacyclic : ¬ IncludesItself s.fileSystem (.tree "/" (.bound "s")))
    (hfiles : ∀ key ∈ s.keys, FileName.isProject (Path.ofString key).name = true →
      s.hasFile key = true)
    (hglobs : ∀ key ∈ s.keys, Project.isUsable (.ofString key)
      (Project.load s.fileSystem (.ofString key)) = true) : searched.Orderly s.fileSystem where
  proper := by
    intro part hp
    rw [List.mem_singleton.1 hp]
    decide
  named := nofun
  files file hproper hname hhas := by
    have hkey := Stored.mem_keys_of_has (Except.ok.inj hhas)
    refine congrArg Except.ok (hfiles _ hkey ?_)
    rw [Path.ofString_toText hproper]
    exact hname
  rules := fun _ hr => absurd hr List.not_mem_nil
  projects file hproper p hload := by
    have hkey := Stored.mem_keys_of_has (Except.ok.inj (Project.has_of_load hload))
    have husable := hglobs _ hkey
    rw [Path.ofString_toText hproper] at husable
    exact (Project.isUsable_iff.1 husable).2 p hload
  acyclic h := hacyclic (h.includesItself ⟨([], .required "s"), by decide, rfl⟩)

/-- On a disk, the visit of a target without rules is orderly if it does not lead to a project that
includes itself, only files are named like project files, and all globs of projects compile. -/
theorem orderly_target {d : Disk} {path : Path} {place : TreePath} (hproper : path.Proper)
    (hfiles : ∀ e ∈ d.nodes, ∀ n, e.1.getLast? = some n → FileName.isProject n = true →
      e.2.isFile = true)
    (hglobs : ∀ text ∈ d.texts, Project.isUsable ⟨.root, []⟩ (Project.ofText ⟨.root, []⟩ text) = true)
    (hacyclic : ¬ Recurs d.fileSystem (.target path place [] false)) :
    (Visit.target path place [] false).Orderly d.fileSystem where
  proper := hproper
  named := nofun
  files file _ hname hhas := by
    have hn : file.name ∉ ["", ".", ".."] := by
      intro hn
      simp only [List.mem_cons, List.not_mem_nil, or_false] at hn
      rcases hn with hn | hn | hn <;> rw [hn] at hname <;> exact absurd hname (by decide)
    exact Disk.isFile_of_has hn (Disk.holdsFiles fun e he hlast => hfiles e he _ hlast hname) rfl hhas
  rules := fun _ hr => absurd hr List.not_mem_nil
  projects file _ p hload := by
    -- Wherever the path leads, the text is that of a file on the disk.
    obtain ⟨text, ⟨-, target, -, hread⟩, hp⟩ := Project.exists_text_of_load hload
    have husable := hglobs text (Disk.mem_texts_of_read hread)
    have hrules := (Project.isUsable_iff.1 husable).2 p (Project.ofText_congr hp _)
    exact Project.rules_compile_congr hrules file
  acyclic := hacyclic

/-- A directory in which there is one that cannot be listed, and one with a project. -/
def locked : Stored :=
  [("/s", .listing ["locked", "pkg"]),
   ("/s/locked", .unlistable ⟨.denied, "denied"⟩),
   ("/s/pkg", .listing ["default.project.json"]),
   ("/s/pkg/default.project.json",
      .text "\x7b\"name\":\"pkg\",\"tree\":\x7b\"$path\":\"main.luau\"\x7d\x7d"),
   ("/s/pkg/main.luau", .text "")]

/-- Where a build starts with a visit, it consults what the walk of the visit does. -/
theorem consults_of_starts {s : Resolver.Source} (hstart : Starts fs s v) {p : Path}
    (hp : v.Consults fs p) : s.Consults fs p := by
  obtain ⟨w, ⟨n, hw⟩, hp⟩ := hp
  exact ⟨w, (Reached.start hstart).asksIn hw, hp⟩

/-- The visit of the directory whose package is a link. -/
def packagedSources : Visit := .target ⟨.root, ["p", "src"]⟩ [] [] false

theorem visit_passes_failing_listings_locked :
    (locked.fileSystem.Steady (searched.Consults locked.fileSystem) ∧
      searched.Orderly locked.fileSystem ∧
      ∃ depth, ∀ more, depth ≤ more → ∀ t,
        ((visit locked.fileSystem more searched).runOn t).2.Agree
          ((visitPast locked.fileSystem (fun w => (w.unlisted? locked.fileSystem).isSome)
            more searched).runOn t).2) ∧
    let fs := Resolver.packaged.fileSystem
    fs.Steady (packagedSources.Consults fs) ∧ packagedSources.Orderly fs ∧
      ∃ depth, ∀ more, depth ≤ more → ∀ t,
        failure? ((visit fs more packagedSources).runOn t).1 =
          (packagedSources.visits fs more).findSome? (Visit.fault? fs) := by
  constructor
  · have hfs := Stored.steady (s := locked) (by decide) (by decide +kernel)
      (searched.Consults locked.fileSystem)
    have hnil : (Resolver.Source.tree "/" (.bound "s")).generation locked.fileSystem 5 = [] := by
      decide +kernel
    have hv : searched.Orderly locked.fileSystem :=
      orderly_searched (not_includesItself_of_generations hnil (by decide +kernel))
        (by decide +kernel) (by decide +kernel)
    obtain ⟨depth, hdepth⟩ := visit_passes_failing_listings hfs hv
    refine ⟨hfs, hv, depth, fun more hmore t => ?_⟩
    obtain ⟨-, -, hagree, -⟩ := hdepth more hmore t
    exact hagree
  · intro fs
    have hstart : Starts fs (.tree "/" (.bound "p/src")) packagedSources :=
      ⟨([], .required "p/src"), by decide, rfl⟩
    have hnil : (Resolver.Source.tree "/" (.bound "p/src")).generation fs 5 = [] := by
      decide +kernel
    have hfs : fs.Steady (packagedSources.Consults fs) :=
      ⟨fun _ hp => Disk.steadyAt <|
          Resolver.isHealthyAt_of_generations hnil (by decide +kernel) (consults_of_starts hstart hp),
        Disk.bounded (by decide +kernel)⟩
    have hproper : Path.Proper ⟨.root, ["p", "src"]⟩ :=
      (by decide : ∀ part ∈ ["p", "src"], FileName.IsPart part)
    have hacyclic : ¬ Recurs fs packagedSources := fun h =>
      not_includesItself_of_generations hnil (by decide +kernel) (h.includesItself hstart)
    have hv : packagedSources.Orderly fs :=
      orderly_target hproper (by decide +kernel) (by decide +kernel) hacyclic
    obtain ⟨depth, hdepth⟩ := visit_passes_failing_listings hfs hv
    refine ⟨hfs, hv, depth, fun more hmore t => ?_⟩
    obtain ⟨hend, -⟩ := hdepth more hmore t
    exact hend

/-- A directory with a project file that cannot be resolved. -/
def unresolved : Stored :=
  [("/s", .listing ["x.project.json"]), ("/s/x.project.json", .unresolvable ⟨.denied, "denied"⟩)]

theorem visit_unresolved :
    ((visit unresolved.fileSystem 3 searched).runOn .empty).1 = .error (.failed ⟨.denied, "denied"⟩) := by
  refine failure?_eq_some.1 ?_
  decide +kernel

/-- A project file that cannot be resolved is no warning. -/
theorem not_visit_returns :
    ¬ ∀ (fs : FileSystem) (v : Visit), fs.Steady (fun _ => True) → v.Orderly fs → v.file? = none →
      ∃ depth, ∀ more, depth ≤ more → ∀ t, ((visit fs more v).runOn t).1 = .ok () := by
  intro h
  have hnil : (Resolver.Source.tree "/" (.bound "s")).generation unresolved.fileSystem 5 = [] := by
    decide +kernel
  obtain ⟨depth, hdepth⟩ := h unresolved.fileSystem searched
    (Stored.steady (by decide) (by decide +kernel) _)
    (orderly_searched (not_includesItself_of_generations hnil (by decide +kernel))
      (by decide +kernel) (by decide +kernel)) rfl
  have hok := hdepth (max depth 3) (Nat.le_max_left depth 3) .empty
  have hdeeper := visit_deeper unresolved.fileSystem (Nat.le_max_right depth 3) searched ⟨.empty, []⟩
  have hstop : ((visit unresolved.fileSystem 3 searched).follow ⟨.empty, []⟩).1 =
      .error (.failed ⟨.denied, "denied"⟩) := visit_unresolved
  change ((visit unresolved.fileSystem (max depth 3) searched).follow ⟨.empty, []⟩).1 = .ok () at hok
  rw [hdeeper (by rw [hstop]; exact nofun), hstop] at hok
  cases hok

end Walk

end PlaceMap
