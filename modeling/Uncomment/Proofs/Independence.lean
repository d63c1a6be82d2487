import Mathlib
import Uncomment.Process
import Uncomment.Proofs.Distinct

/-! Runs of tasks that do not disturb each other. A task that nobody has changed the sources of does
what it does alone on the first disk, and so a run leaves the changes of its tasks and nothing else. -/
namespace Uncomment

/-! ## What a task reads -/

namespace Disk
variable {d d' : Disk}

theorem stat_outline (d : Disk) (p : Path) : d.outline.stat p = (d.stat p).map Node.outline := by
  simp only [stat, resolve_outline]
  cases d.resolve true p with
  | error fault => rfl
  | ok loc =>
    simp only [bind, Except.bind, node?_outline]
    cases d.node? loc <;> rfl

theorem pathExists_outline (d : Disk) (p : Path) : d.outline.pathExists p = d.pathExists p := by
  simp only [pathExists, stat_outline]
  cases d.stat p <;> rfl

/-- What is read of a path is what the location has that it leads to. -/
theorem read_congr (houtline : d'.outline = d.outline) {p : Path}
    (h : ∀ loc, d.resolve true p = .ok loc → d'.node? loc = d.node? loc) : d'.read p = d.read p := by
  have hresolve : d'.resolve true p = d.resolve true p := by
    rw [← resolve_outline, houtline, resolve_outline]
  have hstat : d'.stat p = d.stat p := by
    simp only [stat, hresolve]
    cases hr : d.resolve true p with
    | error fault => rfl
    | ok loc => simp only [bind, Except.bind, h loc hr]
  rw [read, read, hstat]

end Disk

theorem SiblingRules.forFile_congr [IgnoreRules] {d d' : Disk} {path : Path} {gitIgnore : Bool}
    (h : ∀ name ∈ names gitIgnore, d'.read (path.directory.join (Path.ofText name)) =
      d.read (path.directory.join (Path.ofText name))) :
    forFile d' path gitIgnore = forFile d path gitIgnore := by
  have hfiles : files d' path.directory gitIgnore = files d path.directory gitIgnore :=
    List.filterMap_congr fun name hname => by simp only [h name hname]
  rw [forFile, forFile, hfiles]

/-- Without a limit on the time, or with one that is exceeded at once, the clock makes no difference. -/
theorem Strip.expiry?_eq {options : StripOptions} (h : options.timeout.all Duration.isZero)
    (clock clock' : Clock) (path : Path) (ss : List Segment) :
    @expiry? clock options path ss = @expiry? clock' options path ss := by
  unfold expiry?
  cases htimeout : options.timeout with
  | none => rfl
  | some limit =>
    have hzero : limit.nanoseconds = 0 := by simpa [htimeout, Duration.isZero] using h
    simp [hzero]

theorem processFile_clock [Device] {settings : Settings} (h : settings.timeout.all Duration.isZero)
    (clock clock' : Clock) (d : Disk) (write : Bool) (path : Path) :
    @processFile clock _ d settings write path = @processFile clock' _ d settings write path := by
  have hexpiry := @Strip.expiry?_eq settings.stripOptions h clock clock' path
  have hstrip : ∀ lang input, @stripFile clock lang settings.stripOptions path input =
      @stripFile clock' lang settings.stripOptions path input := by
    intro lang input
    unfold stripFile Strip.timed
    rw [hexpiry]
  have hglued : ∀ lang ss, @Strip.gluedInTime clock lang settings.stripOptions path ss =
      @Strip.gluedInTime clock' lang settings.stripOptions path ss := by
    intro lang ss
    unfold Strip.gluedInTime
    rw [hexpiry]
  unfold processFile stripStored
  simp only [hstrip, hglued]

namespace Task

/-- The ignore files that are looked at for a task. -/
def ruleFiles (settings : Settings) : Task → List Path
  | .item _ => []
  | .target path => (SiblingRules.names settings.walk.gitIgnore).map fun name =>
    path.directory.join (Path.ofText name)

section
variable [host : Host] {d d' : Disk} {settings : Settings} {write : Bool} {task : Task}

/-- A task leaves its file alone or processes it. -/
theorem perform_cases (d : Disk) (settings : Settings) (write : Bool) (task : Task) :
    ((task.perform d settings write).disk = d ∧
        ∀ result, task.Yields d settings write result →
          result.path = task.path ∧ result.isSuccess = false ∧ result.persisted = false) ∨
      task.isFault = false ∧
        (task.perform d settings write).value = .ok (processFile d settings write task.path).value ∧
        (task.perform d settings write).disk = (processFile d settings write task.path).disk := by
  cases task with
  | item i =>
    cases i with
    | file p => exact .inr ⟨rfl, rfl, rfl⟩
    | failed p details =>
      refine .inl ⟨rfl, fun result hresult => ?_⟩
      obtain rfl := Except.ok.inj hresult
      exact ⟨rfl, rfl, rfl⟩
  | target p =>
    simp only [Yields, perform, processTarget]
    split
    · refine .inl ⟨rfl, fun result hresult => ?_⟩
      cases hresult
    · split_ifs
      · refine .inl ⟨rfl, fun result hresult => ?_⟩
        obtain rfl := Except.ok.inj hresult
        exact ⟨rfl, rfl, rfl⟩
      · refine .inl ⟨rfl, fun result hresult => ?_⟩
        obtain rfl := Except.ok.inj hresult
        exact ⟨rfl, rfl, rfl⟩
      · exact .inr ⟨rfl, rfl, rfl⟩

theorem perform_outline (wf : d.WellFormed) (settings : Settings) (write : Bool) (task : Task) :
    (task.perform d settings write).disk.outline = d.outline := by
  rcases perform_cases d settings write task with ⟨hdisk, -⟩ | ⟨-, -, hdisk⟩
  · rw [hdisk]
  · rw [hdisk, processFile_outline wf]

/-- The path of a result is that of its task. -/
theorem Yields.path_eq (wf : d.WellFormed) {result : FileResult}
    (h : task.Yields d settings write result) : result.path = task.path := by
  rcases perform_cases d settings write task with ⟨-, hresult⟩ | ⟨-, hvalue, -⟩
  · exact (hresult result h).1
  · obtain rfl := Except.ok.inj (hvalue.symm.trans h)
    rw [(processFile_spec wf settings write task.path).1, path_judge]

/-- Whether a task gives the location new content. -/
def Changes (d : Disk) (settings : Settings) (write : Bool) (task : Task) (loc : Location) : Prop :=
  (task.perform d settings write).disk.node? loc ≠ d.node? loc

theorem Changes.resolve (wf : d.WellFormed) {loc : Location} (h : task.Changes d settings write loc) :
    task.isFault = false ∧ d.resolve true task.path = .ok loc := by
  rw [Changes] at h
  rcases perform_cases d settings write task with ⟨hdisk, -⟩ | ⟨hfault, -, hdisk⟩
  · simp [hdisk] at h
  · rw [hdisk] at h
    exact ⟨hfault, resolve_of_processFile_ne wf h⟩

/-- A task whose result is no success changes nothing. -/
theorem Yields.not_changes (wf : d.WellFormed) {result : FileResult}
    (h : task.Yields d settings write result) (hresult : result.isSuccess = false)
    (loc : Location) : ¬ task.Changes d settings write loc := by
  rw [Changes, not_not]
  rcases perform_cases d settings write task with ⟨hdisk, -⟩ | ⟨-, hvalue, hdisk⟩
  · rw [hdisk]
  · obtain rfl := Except.ok.inj (hvalue.symm.trans h)
    obtain ⟨-, ⟨-, hsame⟩ | ⟨-, hsuccess, -⟩⟩ := processFile_spec wf settings write task.path
    · rw [hdisk, hsame]
    · simp [hsuccess] at hresult

theorem perform_withClock (h : settings.timeout.all Duration.isZero) (clock : Clock) (d : Disk)
    (write : Bool) (task : Task) :
    @perform (host.withClock clock) d settings write task = @perform host d settings write task := by
  have hfile := processFile_clock h clock host.toClock d write
  cases task with
  | item i =>
    cases i with
    | file p => exact congrArg (Effect.map Except.ok) (hfile p)
    | failed p details => rfl
  | target p =>
    unfold perform processTarget
    simp only [hfile]

/-- On a disk of the same outline, from the same sources, a task is performed alike. -/
theorem perform_congr (wf : d.WellFormed) (houtline : d'.outline = d.outline)
    (hread : task.isFault = false → d'.read task.path = d.read task.path)
    (hrules : ∀ file ∈ task.ruleFiles settings, d'.read file = d.read file) (write : Bool) :
    Effect.Alike d d' (task.perform d settings write) (task.perform d' settings write) := by
  cases task with
  | item i =>
    cases i with
    | file p =>
      obtain ⟨hvalue, hnode⟩ := processFile_congr wf houtline (hread rfl) settings write
      exact ⟨congrArg Except.ok hvalue, hnode⟩
    | failed p details => exact .idle d d' _ _ _
  | target p =>
    rw [perform, perform, processTarget, processTarget]
    cases Exclusion.ofPatterns settings.walk.exclude with
    | error failure => exact .idle d d' _ _ _
    | ok exclusion =>
      dsimp only
      rw [SiblingRules.forFile_congr fun name hname =>
        hrules _ (List.mem_map_of_mem hname)]
      split_ifs
      · exact .idle d d' _ _ _
      · exact .idle d d' _ _ _
      · obtain ⟨hvalue, hnode⟩ := processFile_congr wf houtline (hread rfl) settings write
        exact ⟨congrArg Except.ok hvalue, hnode⟩

/-! ## Runs -/

/-- What `done` leaves of the disk `d`: its tasks have changed what each of them changes alone. -/
structure Leaves (d : Disk) (settings : Settings) (write : Bool) (done : List Task) (d' : Disk) :
    Prop where
  outline : d'.outline = d.outline
  node : ∀ loc,
    (∃ task ∈ done, task.Changes d settings write loc ∧
      d'.node? loc = (task.perform d settings write).disk.node? loc) ∨
    (∀ task ∈ done, ¬ task.Changes d settings write loc) ∧ d'.node? loc = d.node? loc

/-- No ignore file that is looked at for `t` is a file that `s` changes. -/
def SparesRules (d : Disk) (settings : Settings) (write : Bool) (s t : Task) : Prop :=
  ∀ file ∈ t.ruleFiles settings, ∀ loc, s.Changes d settings write loc → d.resolve true file ≠ .ok loc

/-- A task spares the ignore files that do not lead to its own file. -/
theorem sparesRules_of_resolve (wf : d.WellFormed) {s t : Task}
    (h : ∀ file ∈ t.ruleFiles settings, ∀ loc, d.resolve true file = .ok loc →
      d.resolve true s.path ≠ .ok loc) : s.SparesRules d settings write t :=
  fun file hfile loc hchanges hresolve => h file hfile loc hresolve (hchanges.resolve wf).2

/-- A task does not change what another one reads. -/
structure Spares (d : Disk) (settings : Settings) (write : Bool) (s t : Task) : Prop where
  file : t.isFault = false → ∀ loc, s.Changes d settings write loc → d.resolve true t.path ≠ .ok loc
  rules : s.SparesRules d settings write t

/-- Of two tasks about different files only ignore files can stand in the way. -/
theorem Apart.spares (wf : d.WellFormed) {s t : Task} (h : Apart d s t)
    (hrules : s ≠ t → s.SparesRules d settings write t) : s.Spares d settings write t := by
  by_cases hst : s = t
  · -- A task can only be there twice when it is a fault, and then it changes nothing.
    subst hst
    have hfault := or_self_iff.1 (h.paths rfl)
    have hno : ∀ loc, ¬ s.Changes d settings write loc := by
      intro loc hchanges
      simp [(hchanges.resolve wf).1] at hfault
    exact ⟨fun _ loc hchanges => absurd hchanges (hno loc),
      fun _ _ loc hchanges => absurd hchanges (hno loc)⟩
  · refine ⟨fun ht loc hchanges hresolve => ?_, hrules hst⟩
    obtain ⟨hs, hs'⟩ := hchanges.resolve wf
    exact h.files hs ht loc (Disk.reach_of_resolve hs') (Disk.reach_of_resolve hresolve)

/-- Tasks about different files do not change the same. -/
theorem eq_of_changes (wf : d.WellFormed) {tasks : List Task} (h : tasks.Pairwise (Apart d))
    {s t : Task} (hs : s ∈ tasks) (ht : t ∈ tasks) {loc : Location}
    (hchanges : s.Changes d settings write loc) (hchanges' : t.Changes d settings write loc) : s = t := by
  by_contra hst
  have hsymm : Std.Symm (Apart d) := ⟨fun _ _ => Apart.symm⟩
  obtain ⟨hs', hresolve⟩ := hchanges.resolve wf
  obtain ⟨ht', hresolve'⟩ := hchanges'.resolve wf
  exact (h.forall hs ht hst).files hs' ht' loc (Disk.reach_of_resolve hresolve)
    (Disk.reach_of_resolve hresolve')

namespace Leaves
variable {done : List Task}

theorem refl (d : Disk) (settings : Settings) (write : Bool) : Leaves d settings write [] d :=
  ⟨rfl, fun _ => .inr ⟨by simp, rfl⟩⟩

theorem read (h : Leaves d settings write done d') {p : Path}
    (hp : ∀ task ∈ done, ∀ loc, task.Changes d settings write loc → d.resolve true p ≠ .ok loc) :
    d'.read p = d.read p := by
  refine Disk.read_congr h.outline fun loc hloc => ?_
  rcases h.node loc with ⟨task, htask, hchanges, -⟩ | ⟨-, hnode⟩
  · exact absurd hloc (hp task htask loc hchanges)
  · exact hnode

/-- One more task, which reads nothing that was changed. -/
theorem step (wf : d.WellFormed) (h : Leaves d settings write done d')
    (hspares : ∀ s ∈ done, s.Spares d settings write task) :
    (task.perform d' settings write).value = (task.perform d settings write).value ∧
      Leaves d settings write (done ++ [task]) (task.perform d' settings write).disk := by
  obtain ⟨hvalue, hnode⟩ := perform_congr wf h.outline
    (fun hfault => h.read fun s hs => (hspares s hs).file hfault)
    (fun file hfile => h.read fun s hs => (hspares s hs).rules file hfile) write
  refine ⟨hvalue, (perform_outline (wf.of_outline h.outline) settings write task).trans h.outline,
    fun loc => ?_⟩
  by_cases hchanges : task.Changes d settings write loc
  · exact .inl ⟨task, by simp, hchanges, (hnode loc).trans (if_neg hchanges)⟩
  · have hkeep := (hnode loc).trans (if_pos (not_not.1 hchanges))
    rcases h.node loc with ⟨s, hs, hs', hsame⟩ | ⟨hnone, hsame⟩
    · exact .inl ⟨s, by simp [hs], hs', hkeep.trans hsame⟩
    · refine .inr ⟨fun s hs => ?_, hkeep.trans hsame⟩
      rcases List.mem_append.1 hs with hs | hs
      · exact hnone s hs
      · rwa [List.mem_singleton.1 hs]

/-- What is left depends on the tasks that change something alone, not on their order. -/
theorem unique (wf : d.WellFormed) {done' : List Task} {d'' : Disk}
    (h : Leaves d settings write done d') (h' : Leaves d settings write done' d'')
    (hmem : ∀ task loc, task.Changes d settings write loc → (task ∈ done ↔ task ∈ done'))
    (hone : ∀ s ∈ done, ∀ t ∈ done, ∀ loc, s.Changes d settings write loc →
      t.Changes d settings write loc → s = t) : d' = d'' := by
  refine (wf.of_outline h.outline).ext (wf.of_outline h'.outline)
    (h.outline.trans h'.outline.symm) fun loc => ?_
  rcases h.node loc with ⟨s, hs, hchanges, hnode⟩ | ⟨hnone, hnode⟩
  · rcases h'.node loc with ⟨t, ht, hchanges', hnode'⟩ | ⟨hnone', -⟩
    · obtain rfl := hone s hs t ((hmem t loc hchanges').2 ht) loc hchanges hchanges'
      rw [hnode, hnode']
    · exact absurd hchanges (hnone' s ((hmem s loc hchanges).1 hs))
  · rcases h'.node loc with ⟨t, ht, hchanges', -⟩ | ⟨-, hnode'⟩
    · exact absurd hchanges' (hnone t ((hmem t loc hchanges').2 ht))
    · rw [hnode, hnode']

end Leaves

/-- A run in which no task disturbs a later one: every result is that of the task alone on the first
disk. -/
theorem performAll_of_spares (wf : d.WellFormed) {done order : List Task}
    (hdone : Leaves d settings write done d')
    (hspares : (done ++ order).Pairwise (Spares d settings write))
    (hadmitted : ∀ task ∈ order, task.refusal? settings = none) :
    ∃ results, (performAll d' settings write order).value = .ok results ∧
      List.Forall₂ (Yields d settings write) order results ∧
      Leaves d settings write (done ++ order) (performAll d' settings write order).disk := by
  induction order generalizing done d' with
  | nil =>
    refine ⟨[], rfl, .nil, ?_⟩
    rw [List.append_nil]
    exact hdone
  | cons task order ih =>
    rw [List.append_cons] at hspares
    have hbefore : ∀ s ∈ done, s.Spares d settings write task := by
      intro s hs
      rw [List.append_assoc, List.pairwise_append] at hspares
      exact hspares.2.2 s hs task (by simp)
    obtain ⟨hvalue, hleaves⟩ := hdone.step wf hbefore
    obtain ⟨result, hresult⟩ :=
      perform_of_no_refusal (hadmitted task List.mem_cons_self) d write
    obtain ⟨hall, hdisk⟩ := performAll_cons_of_ok (hvalue.trans hresult) order
    obtain ⟨results, hresults, hforall, hend⟩ :=
      ih hleaves hspares fun t ht => hadmitted t (List.mem_cons_of_mem _ ht)
    refine ⟨result :: results, ?_, .cons hresult hforall, ?_⟩
    · rw [hall, hresults]
      rfl
    · rw [hdisk, List.append_cons]
      exact hend

/-- A run over tasks about different files, with no ignore file in the way. -/
theorem performAll_of_apart (wf : d.WellFormed) {tasks : List Task} (hapart : tasks.Pairwise (Apart d))
    (hrules : ∀ s ∈ tasks, ∀ t ∈ tasks, s ≠ t → s.SparesRules d settings write t)
    (hadmitted : ∀ task ∈ tasks, task.refusal? settings = none) :
    ∃ results, (performAll d settings write tasks).value = .ok results ∧
      List.Forall₂ (Yields d settings write) tasks results ∧
      Leaves d settings write tasks (performAll d settings write tasks).disk :=
  performAll_of_spares wf (.refl d settings write)
    (hapart.imp_of_mem fun hs ht h => h.spares wf (hrules _ hs _ ht)) hadmitted

end

end Task

end Uncomment
