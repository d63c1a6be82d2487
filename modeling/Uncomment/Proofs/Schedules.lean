import Mathlib
import Uncomment.Process
import Uncomment.Proofs.Runs
import Uncomment.Proofs.Sources
import Uncomment.Proofs.Spellings
import Uncomment.Proofs.Totals

/-! The order in which a batch goes on. However the walk and the workers take turns, all tasks have the
results that they have alone, and the disk is the one that the batch leaves. -/
namespace Uncomment

/-! ## Tasks and their results -/

namespace Task
variable [Host] {d : Disk} {settings : Settings} {write : Bool} {tasks order : List Task}

theorem map_path_of_yields (wf : d.WellFormed) {results : List FileResult}
    (h : List.Forall₂ (Yields d settings write) tasks results) :
    results.map FileResult.path = tasks.map path := by
  induction h with
  | nil => rfl
  | cons hresult _ ih => rw [List.map_cons, List.map_cons, hresult.path_eq wf, ih]

theorem perm_of_yields {results results' : List FileResult} (horder : order.Perm tasks)
    (h : List.Forall₂ (Yields d settings write) order results)
    (h' : List.Forall₂ (Yields d settings write) tasks results') : results.Perm results' :=
  List.rel_perm_imp Yields.unique h h' horder

/-- Different paths of the tasks are different paths of the results. -/
theorem pairwise_of_yields (wf : d.WellFormed) {results : List FileResult}
    (h : List.Forall₂ (Yields d settings write) tasks results) (hapart : tasks.Pairwise (Apart d))
    (hfaults : tasks.Pairwise fun s t =>
      s.isFault ∨ t.isFault → s.path.components ≠ t.path.components) :
    results.Pairwise fun a b => a.path.components ≠ b.path.components := by
  have hpaths : (tasks.map path).Pairwise fun p q => p.components ≠ q.components := by
    rw [List.pairwise_map]
    exact hapart.imp₂ (fun s t hst hno heq => hno (hst.paths heq) heq) hfaults
  rw [← map_path_of_yields wf h, List.pairwise_map] at hpaths
  exact hpaths

/-- Tasks that are not refused have results. -/
theorem exists_results {done : List (Task × Except Failure FileResult)}
    (hvalues : ∀ e ∈ done, e.2 = (e.1.perform d settings write).value)
    (hadmitted : ∀ e ∈ done, e.1.refusal? settings = none) :
    ∃ results, done.map Prod.snd = results.map .ok ∧
      List.Forall₂ (Yields d settings write) (done.map Prod.fst) results := by
  induction done with
  | nil => exact ⟨[], rfl, .nil⟩
  | cons e done ih =>
    obtain ⟨results, hresults, hforall⟩ := ih (fun e' he => hvalues e' (List.mem_cons_of_mem _ he))
      fun e' he => hadmitted e' (List.mem_cons_of_mem _ he)
    obtain ⟨result, hresult⟩ := perform_of_no_refusal (hadmitted e List.mem_cons_self) d write
    have hvalue : e.2 = .ok result := (hvalues e List.mem_cons_self).trans hresult
    exact ⟨result :: results, by simp [hvalue, hresults], .cons hresult hforall⟩

end Task

/-! ## Runs of a batch -/

namespace Stage
variable [Host] {d : Disk} {settings : Settings} {write : Bool} {sources : Path → List Path}
  {tasks : List Task} {opened : List Path}

theorem Undisturbed.subset (h : Undisturbed d settings write sources tasks opened) {part : List Task}
    (hpart : part ⊆ tasks) : Undisturbed d settings write sources part [] where
  targets s hs t ht := h.targets s (hpart hs) t (hpart ht)
  directories _ _ _ hnone := by cases hnone

/-- The items of a walk look at no ignore files of their own. -/
theorem undisturbed_of_walk {plan : Walk.Plan} {levels : Nat}
    (h : ∀ task ∈ (ofPlan d plan levels).tasks, ∀ directory ∈ (ofPlan d plan levels).opened,
      ∀ file ∈ sources directory, ∀ loc, task.Changes d settings write loc →
      d.resolve true file ≠ .ok loc) :
    Undisturbed d settings write sources (ofPlan d plan levels).tasks (ofPlan d plan levels).opened where
  targets s _ t ht _ file hfile := by
    rw [tasks_ofPlan] at ht
    obtain ⟨i, -, rfl⟩ := List.mem_map.1 ht
    cases hfile
  directories := h

/-- Targets alone open no directory. -/
theorem undisturbed_of_targets {paths : List Path}
    (h : ∀ p ∈ paths, ∀ q ∈ paths, p ≠ q → (Task.target p).SparesRules d settings write (.target q)) :
    Undisturbed d settings write sources ({ disk := d, sent := paths.map .target } : Stage).tasks
      ({ disk := d, sent := paths.map .target } : Stage).opened where
  targets s hs t ht hne := by
    rw [tasks_ofTargets] at hs ht
    obtain ⟨p, hp, rfl⟩ := List.mem_map.1 hs
    obtain ⟨q, hq, rfl⟩ := List.mem_map.1 ht
    exact h p hp q hq fun heq => hne (congrArg _ heq)
  directories _ _ _ hnone := by cases hnone

/-- Two ends have the same disk when they have the same tasks but for idle ones. -/
theorem Reached.disk_eq (wf : d.WellFormed) (hapart : tasks.Pairwise (Task.Apart d)) {s s' : Stage}
    {part : List Task} {opened' : List Path} (h : Reached d settings write tasks opened s)
    (hover : s.IsOver) (h' : Reached d settings write part opened' s') (hover' : s'.IsOver)
    (hpart : part ⊆ tasks)
    (hidle : ∀ task ∈ tasks, task ∉ part → ∀ loc, ¬ task.Changes d settings write loc) :
    s'.disk = s.disk := by
  have hmem : ∀ task, task ∈ s.done.map Prod.fst ↔ task ∈ tasks := fun _ =>
    (h.perm_of_isOver hover).mem_iff
  have hmem' : ∀ task, task ∈ s'.done.map Prod.fst ↔ task ∈ part := fun _ =>
    (h'.perm_of_isOver hover').mem_iff
  refine (h.leaves.unique wf h'.leaves (fun task loc hchanges => ?_) ?_).symm
  · rw [hmem, hmem']
    refine ⟨fun htask => ?_, fun htask => hpart htask⟩
    by_contra hnot
    exact hidle task htask hnot loc hchanges
  · intro t ht t' ht' loc hchanges hchanges'
    exact Task.eq_of_changes wf hapart ((hmem t).1 ht) ((hmem t').1 ht') hchanges hchanges'

/-- The disk at an end is that after the tasks in their order. -/
theorem Reached.disk_eq_performAll (wf : d.WellFormed) (hapart : tasks.Pairwise (Task.Apart d))
    (hrules : Undisturbed d settings write sources tasks opened)
    (hadmitted : ∀ task ∈ tasks, task.refusal? settings = none) {s : Stage}
    (h : Reached d settings write tasks opened s) (hover : s.IsOver) :
    s.disk = (Task.performAll d settings write tasks).disk := by
  have hperm := h.perm_of_isOver hover
  obtain ⟨_, -, -, hleaves⟩ := Task.performAll_of_apart wf hapart hrules.targets hadmitted
  refine h.leaves.unique wf hleaves (fun task _ _ => hperm.mem_iff) ?_
  intro t ht t' ht' loc hchanges hchanges'
  exact Task.eq_of_changes wf hapart (hperm.subset ht) (hperm.subset ht') hchanges hchanges'

/-- Tasks that are refused leave the disk as it is. -/
theorem Reached.disk_of_refused (wf : d.WellFormed) {failure : Failure}
    (hrefused : ∀ task ∈ tasks, task.refusal? settings = some failure) {s : Stage}
    (h : Reached d settings write tasks opened s) : s.disk = d := by
  have hidle : ∀ task ∈ s.done.map Prod.fst, ∀ loc, ¬ task.Changes d settings write loc := by
    intro task htask loc
    rw [Task.Changes, not_not,
      (Task.perform_of_refusal (hrefused task (h.mem_of_done htask)) d write).2]
  refine h.leaves.unique wf (.refl d settings write) (fun task loc hchanges => ?_)
    fun t ht _ _ loc hchanges => absurd hchanges (hidle t ht loc)
  exact ⟨fun htask => absurd hchanges (hidle task htask loc), fun hnone => by cases hnone⟩

/-- A task that fails can be left out. -/
theorem Reached.leave_out (wf : d.WellFormed) (htimeout : settings.timeout.all Duration.isZero)
    (hapart : tasks.Pairwise (Task.Apart d)) (hreads : IgnoreRules.ReadFrom d sources)
    (hrules : Undisturbed d settings write sources tasks opened) {s s' : Stage}
    (h : Reached d settings write tasks opened s) (hover : s.IsOver) {task : Task} {result : FileResult}
    (hresult : task.Yields d settings write result) (herror : result.isError)
    (hrun : Run settings write { disk := d, sent := (s.done.map Prod.fst).erase task } s')
    (hover' : s'.IsOver) :
    s'.disk = s.disk ∧ ∀ e ∈ s'.done, e.2 = (e.1.perform d settings write).value := by
  have hperm := h.perm_of_isOver hover
  have hsub : (s.done.map Prod.fst).erase task ⊆ tasks :=
    List.Subset.trans List.erase_subset hperm.subset
  have hsent : ({ disk := d, sent := (s.done.map Prod.fst).erase task } : Stage).tasks =
      (s.done.map Prod.fst).erase task := List.append_nil _
  have hapart' : ((s.done.map Prod.fst).erase task).Pairwise (Task.Apart d) :=
    ((hperm.pairwise_iff fun h => h.symm).2 hapart).sublist List.erase_sublist
  have h' : Reached d settings write ((s.done.map Prod.fst).erase task) [] s' := by
    have hreached := hrun.reached wf htimeout rfl (by rwa [hsent]) hreads
      (by rw [hsent]; exact hrules.subset hsub)
    rwa [hsent] at hreached
  refine ⟨h.disk_eq wf hapart hover h' hover' hsub fun t ht hnot => ?_, h'.values⟩
  obtain rfl : t = task := by
    by_contra hne
    exact hnot ((List.mem_erase_of_ne hne).2 (hperm.symm.subset ht))
  exact hresult.not_changes wf (FileResult.not_isSuccess_of_isError herror)

end Stage

/-- However a batch goes on, it ends as the batch with the walk first. Every task is done once and has
the result that it has alone, and one that fails can be left out. -/
theorem processBatch_anyOrder [Host] {d : Disk} (wf : d.WellFormed) {settings : Settings}
    (htimeout : settings.timeout.all Duration.isZero) {recursive write : Bool} {root : Path}
    {start : Stage} (hstart : Stage.start d settings recursive root = .ok start)
    {sources : Path → List Path} (hreads : IgnoreRules.ReadFrom d sources)
    (hrules : Stage.Undisturbed d settings write sources start.tasks start.opened) {finish : Stage}
    (hrun : Stage.Run settings write start finish) (hover : finish.IsOver) :
    (finish.done.map Prod.fst).Perm start.tasks ∧
      (∀ e ∈ finish.done, e.2 = (e.1.perform d settings write).value) ∧
      finish.disk = (processBatch d settings recursive write root).disk ∧
      ((∃ failure, finish.done ≠ [] ∧ (∀ e ∈ finish.done, e.2 = .error failure) ∧
          (processBatch d settings recursive write root).value = .error failure) ∨
        ∃ results batch, finish.done.map Prod.snd = results.map .ok ∧
          (processBatch d settings recursive write root).value = .ok batch ∧
          (∀ collected, collected.Perm results →
            (Batch.ofResults collected).totals = batch.totals ∧
            (Batch.ofResults collected).files.Perm batch.files ∧
            (start.tasks.Pairwise (fun s t => s.isFault ∨ t.isFault →
                s.path.components ≠ t.path.components) → Batch.ofResults collected = batch)) ∧
          ∀ e ∈ finish.done, ∀ result, e.2 = .ok result → result.isError → ∀ finish' : Stage,
            Stage.Run settings write { disk := d, sent := (finish.done.map Prod.fst).erase e.1 }
              finish' → finish'.IsOver →
            finish'.disk = finish.disk ∧
              ∀ e' ∈ finish'.done, e'.2 = (e'.1.perform d settings write).value) := by
  obtain rfl := Stage.disk_of_start hstart
  have hapart := Stage.apart_of_start wf hstart
  have hdone := Stage.done_of_start hstart
  have hreached := hrun.reached wf htimeout hdone hapart hreads hrules
  have hperm := hreached.perm_of_isOver hover
  obtain ⟨hbatch, hdisk⟩ := processBatch_of_start hstart write
  refine ⟨hperm, hreached.values, ?_⟩
  rw [hbatch, hdisk]
  obtain ⟨hne, failure, hrefused⟩ | hadmitted := Stage.refused_or_admitted hstart
  · obtain ⟨hvalue, hafter⟩ := Task.performAll_of_refusal hne hrefused start.disk write
    refine ⟨(hreached.disk_of_refused wf hrefused).trans hafter.symm,
      .inl ⟨failure, fun hnil => ?_, fun e he => ?_, by rw [hvalue]; rfl⟩⟩
    · rw [hnil] at hperm
      exact hne hperm.nil_eq.symm
    · rw [hreached.values e he]
      have htask := hreached.mem_of_done (List.mem_map_of_mem he)
      exact (Task.perform_of_refusal (hrefused e.1 htask) start.disk write).1
  · obtain ⟨results, hresults, hyields⟩ := Task.exists_results hreached.values
      fun e he => hadmitted e.1 (hreached.mem_of_done (List.mem_map_of_mem he))
    obtain ⟨results', hvalue', hyields', -⟩ :=
      Task.performAll_of_apart wf hapart hrules.targets hadmitted
    refine ⟨hreached.disk_eq_performAll wf hapart hrules hadmitted hover,
      .inr ⟨results, Batch.ofResults results', hresults, by rw [hvalue']; rfl,
        fun collected hcollected => ?_, fun e he result hresult herror finish' hrun' hover' => ?_⟩⟩
    · have hsame := hcollected.trans (Task.perm_of_yields hperm hyields hyields')
      refine ⟨Batch.totals_ofResults_perm hsame, ?_, fun hfaults => ?_⟩
      · exact ((Batch.files_ofResults_perm collected).trans hsame).trans
          (Batch.files_ofResults_perm results').symm
      · exact (Batch.ofResults_perm hsame.symm
          (Task.pairwise_of_yields wf hyields' hapart hfaults)).symm
    · exact hreached.leave_out wf htimeout hapart hreads hrules hover
        ((hreached.values e he).symm.trans hresult) herror hrun' hover'

/-- A source, and two beside an ignore file that rules one of them out. -/
def ruledTree : Disk :=
  { entries :=
      [([Bytes.ofText "a.ts"], .file (Bytes.ofText "x // y\n") 0o644),
        ([Bytes.ofText "s"], .directory),
        ([Bytes.ofText "s", Bytes.ofText "b.ts"], .file (Bytes.ofText "z // y\n") 0o644),
        ([Bytes.ofText "s", Bytes.ofText "c.ts"], .file (Bytes.ofText "c // y\n") 0o644),
        ([Bytes.ofText "s", Bytes.ofText ".gitignore"], .file (Bytes.ofText "c.ts") 0o644)]
    home := [] }

theorem wellFormed_ruledTree : ruledTree.WellFormed := by decide

/-- What a walk of the working directory with the default options goes by. -/
def herePlan : Walk.Plan := { root := Path.here, ignoring := ⟨true, true⟩, exclusion := {} }

theorem start_ruledTree : Stage.start ruledTree { jobs := 1 } true Path.here =
    .ok (Stage.ofPlan ruledTree herePlan 5) := by
  have hstat : ruledTree.stat Path.here = .ok .directory := by cbv
  rw [Stage.start, GlobTarget.not_isPattern_of_stat hstat, hstat]
  rfl

theorem tasks_ruledTree : (Stage.ofPlan ruledTree herePlan 5).tasks =
    [.item (.file (Path.ofText "./a.ts")), .item (.file (Path.ofText "./s/b.ts"))] := by
  cbv

theorem opened_ruledTree : (Stage.ofPlan ruledTree herePlan 5).opened =
    [Path.here, Path.ofText "./s"] := by
  cbv

/-- No ignore file leads to one of the sources. -/
theorem undisturbed_ruledTree : Stage.Undisturbed ruledTree { jobs := 1 } true
    (DirectoryRules.sources ruledTree) (Stage.ofPlan ruledTree herePlan 5).tasks
    (Stage.ofPlan ruledTree herePlan 5).opened := by
  have hsources : ∀ directory ∈ [Path.here, Path.ofText "./s"],
      ∀ file ∈ DirectoryRules.sources ruledTree directory,
      ruledTree.resolve true file = .error .noEntry ∨
        ruledTree.resolve true file = .ok [Bytes.ofText "s", Bytes.ofText ".gitignore"] := by
    have hall : [Path.here, Path.ofText "./s"].all fun directory =>
        (DirectoryRules.sources ruledTree directory).all fun file =>
          ruledTree.resolve true file == .error .noEntry ||
          ruledTree.resolve true file == .ok [Bytes.ofText "s", Bytes.ofText ".gitignore"] := by
      cbv
    simpa using hall
  have hpaths : ∀ task ∈ [Task.item (.file (Path.ofText "./a.ts")),
      .item (.file (Path.ofText "./s/b.ts"))],
      ruledTree.resolve true task.path ≠ .ok [Bytes.ofText "s", Bytes.ofText ".gitignore"] := by
    have hall : [Task.item (.file (Path.ofText "./a.ts")), .item (.file (Path.ofText "./s/b.ts"))].all
        fun task => ruledTree.resolve true task.path !=
          .ok [Bytes.ofText "s", Bytes.ofText ".gitignore"] := by
      cbv
    simpa using hall
  refine Stage.undisturbed_of_walk fun task htask directory hdirectory file hfile loc hchanges => ?_
  rw [opened_ruledTree] at hdirectory
  rw [tasks_ruledTree] at htask
  have hresolve := (hchanges.resolve wellFormed_ruledTree).2
  rcases hsources directory hdirectory file hfile with hnone | hrules
  · simp [hnone]
  · rw [hrules]
    rintro ⟨rfl⟩
    exact hpaths task htask hresolve

/-- Two sources beside an ignore file. -/
def ruledSources : Disk :=
  { entries :=
      [([Bytes.ofText "a.ts"], .file (Bytes.ofText "x // y\n") 0o644),
        ([Bytes.ofText "b.ts"], .file (Bytes.ofText "z // y\n") 0o644),
        ([Bytes.ofText ".gitignore"], .file (Bytes.ofText "b.ts") 0o644)]
    home := [] }

theorem wellFormed_ruledSources : ruledSources.WellFormed := by decide

theorem start_ruledSources : Stage.start ruledSources { jobs := 1 } true (Path.ofText "*") =
    .ok { disk := ruledSources, sent := [Path.ofText "a.ts", Path.ofText "b.ts"].map .target } := by
  cbv

theorem sparesRules_ruledSources {s t : Task}
    (hs : s ∈ [.target (Path.ofText "a.ts"), .target (Path.ofText "b.ts")])
    (ht : t ∈ [.target (Path.ofText "a.ts"), .target (Path.ofText "b.ts")]) :
    s.SparesRules ruledSources { jobs := 1 } true t := by
  have hfiles : t.ruleFiles { jobs := 1 } =
      [Path.ofText "./.gitignore", Path.ofText "./.commenterignore"] := by
    simp only [List.mem_cons, List.not_mem_nil, or_false] at ht
    rcases ht with rfl | rfl <;> decide
  have hgit : ruledSources.resolve true (Path.ofText "./.gitignore") =
      .ok [Bytes.ofText ".gitignore"] := by cbv
  have hown : ruledSources.resolve true (Path.ofText "./.commenterignore") = .error .noEntry := by cbv
  have hpath : ruledSources.resolve true s.path ≠ .ok [Bytes.ofText ".gitignore"] := by
    simp only [List.mem_cons, List.not_mem_nil, or_false] at hs
    have hresolve : ruledSources.resolve true s.path = .ok [s.path.bytes] := by
      rcases hs with rfl | rfl <;> cbv
    have hbytes : s.path.bytes ≠ Bytes.ofText ".gitignore" := by
      rcases hs with rfl | rfl <;> exact of_decide_eq_true (by cbv)
    simp [hresolve, hbytes]
  refine Task.sparesRules_of_resolve wellFormed_ruledSources fun file hfile loc hresolve => ?_
  simp only [hfiles, List.mem_cons, List.not_mem_nil, or_false] at hfile
  rcases hfile with rfl | rfl
  · obtain rfl := Except.ok.inj (hgit.symm.trans hresolve)
    exact hpath
  · simp [hown] at hresolve

theorem undisturbed_ruledSources : Stage.Undisturbed ruledSources { jobs := 1 } true
    (DirectoryRules.sources ruledSources)
    ({ disk := ruledSources, sent := [Path.ofText "a.ts", Path.ofText "b.ts"].map .target } : Stage).tasks
    ({ disk := ruledSources, sent := [Path.ofText "a.ts", Path.ofText "b.ts"].map .target } :
      Stage).opened :=
  Stage.undisturbed_of_targets fun _ hp _ hq _ =>
    sparesRules_ruledSources (List.mem_map_of_mem hp) (List.mem_map_of_mem hq)

theorem processBatch_anyOrder_reverse :
    (∃ finish, Stage.Run { jobs := 1 } true (Stage.ofPlan ruledTree herePlan 5) finish ∧
        finish.IsOver ∧ finish.done.map Prod.fst =
          [.item (.file (Path.ofText "./s/b.ts")), .item (.file (Path.ofText "./a.ts"))] ∧
        finish.disk = (processBatch ruledTree { jobs := 1 } true true Path.here).disk) ∧
      ∃ finish, Stage.Run { jobs := 1 } true
          { disk := ruledSources, sent := [Path.ofText "a.ts", Path.ofText "b.ts"].map .target } finish ∧
        finish.IsOver ∧
        finish.done.map Prod.fst = [.target (Path.ofText "b.ts"), .target (Path.ofText "a.ts")] ∧
        finish.disk = (processBatch ruledSources { jobs := 1 } true true (Path.ofText "*")).disk := by
  constructor
  · have horder : [Task.item (.file (Path.ofText "./s/b.ts")), .item (.file (Path.ofText "./a.ts"))].Perm
        (Stage.ofPlan ruledTree herePlan 5).tasks := by
      rw [tasks_ruledTree]
      exact .swap _ _ []
    obtain ⟨finish, hrun, hover, hdone, -⟩ := Stage.exists_run { jobs := 1 } true rfl horder
    exact ⟨finish, hrun, hover, hdone, (processBatch_anyOrder wellFormed_ruledTree rfl start_ruledTree
      (readFrom_sources ruledTree) undisturbed_ruledTree hrun hover).2.2.1⟩
  · have horder : [Task.target (Path.ofText "b.ts"), .target (Path.ofText "a.ts")].Perm
        ({ disk := ruledSources, sent := [Path.ofText "a.ts", Path.ofText "b.ts"].map .target } :
          Stage).tasks := .swap _ _ []
    obtain ⟨finish, hrun, hover, hdone, -⟩ := Stage.exists_run { jobs := 1 } true rfl horder
    exact ⟨finish, hrun, hover, hdone, (processBatch_anyOrder wellFormed_ruledSources rfl
      start_ruledSources (readFrom_sources ruledSources) undisturbed_ruledSources hrun hover).2.2.1⟩

/-! ## Runs that end differently -/

namespace Stage
variable [host : Host]

/-- A run from the root can end with other results than those of the batch. -/
def Strays (d : Disk) (settings : Settings) (write : Bool) (root : Path) : Prop :=
  ∃ (start finish : Stage) (results : List FileResult), Stage.start d settings true root = .ok start ∧
    Run settings write start finish ∧ finish.IsOver ∧ finish.done.map Prod.snd = results.map .ok ∧
    (processBatch d settings true write root).value ≠ .ok (Batch.ofResults results)

/-- A run strays when its tasks in another order have other results. -/
theorem strays_of_order {d : Disk} {settings : Settings} {write : Bool} {root : Path} {s : Stage}
    (hstart : Stage.start d settings true root = .ok s) {order : List Task} (horder : order.Perm s.tasks)
    (hother : (Task.performAll d settings write order).value.map Batch.ofResults ≠
      (processBatch d settings true write root).value)
    {results : List FileResult} (hresults : (Task.performAll d settings write order).value = .ok results) :
    Strays d settings write root := by
  obtain rfl := disk_of_start hstart
  obtain ⟨finish, hrun, hover, -, hdone⟩ := exists_run settings write (done_of_start hstart) horder
  refine ⟨s, finish, results, hstart, hrun, hover, (hdone results hresults).1, fun hsame => hother ?_⟩
  rw [hresults, hsame]
  rfl

/-- The next directory is read. -/
def readNext (s : Stage) : Stage :=
  match s.ahead with
  | [] => s
  | p :: rest => { s with ahead := p.next s.disk ++ rest, sent := s.sent ++ p.tasks s.disk }

/-- The next task is performed. -/
def performNext (settings : Settings) (write : Bool) (s : Stage) : Stage :=
  match s.sent with
  | [] => s
  | task :: rest =>
    { s with
      disk := (task.perform s.disk settings write).disk
      sent := rest
      done := s.done ++ [(task, (task.perform s.disk settings write).value)] }

theorem run_readNext (settings : Settings) (write : Bool) (s : Stage) : Run settings write s s.readNext := by
  rw [readNext]
  split
  · exact .refl
  · next p rest hahead => exact .single (.read (.of_eq hahead))

theorem run_performNext (settings : Settings) (write : Bool) (s : Stage) :
    Run settings write s (s.performNext settings write) := by
  rw [performNext]
  split
  · exact .refl
  · next task rest hsent => exact .single (.perform (.of_eq hsent) host.toClock)

end Stage

/-- Two sources. One of them is also the ignore file, whose rule comes out only when it is stripped. -/
def hiddenRules : Disk :=
  { entries :=
      [([Bytes.ofText "a.sql"], .file (Bytes.ofText "--" ++ 0xFF :: Bytes.ofText "\nb.ts") 0o644),
        ([Bytes.ofText ".gitignore"], .link (Path.ofText "a.sql")),
        ([Bytes.ofText "b.ts"], .file (Bytes.ofText "x//") 0o644)]
    home := [] }

theorem processBatch_hiddenRules :
    (processBatch hiddenRules { jobs := 1 } true true (Path.ofText "*")).value.map
      (fun b => (b.totals.skipped, b.files.all (·.errorKind?.isNone))) = .ok (1, true) := by
  cbv

theorem performAll_hiddenRules_reverse :
    ((Task.performAll hiddenRules { jobs := 1 } true
        [.target (Path.ofText "b.ts"), .target (Path.ofText "a.sql")]).value.map Batch.ofResults).map
      (fun b => (b.totals.skipped, b.files.all (·.errorKind?.isNone))) = .ok (0, true) := by
  cbv

/-- The ignore file beside the second source is there before the first one is stripped. -/
theorem strays_hiddenRules : Stage.Strays hiddenRules { jobs := 1 } true (Path.ofText "*") := by
  have hstart : Stage.start hiddenRules { jobs := 1 } true (Path.ofText "*") =
      .ok { disk := hiddenRules, sent := [Path.ofText "a.sql", Path.ofText "b.ts"].map .target } := by
    cbv
  have horder : [Task.target (Path.ofText "b.ts"), .target (Path.ofText "a.sql")].Perm
      ({ disk := hiddenRules, sent := [Path.ofText "a.sql", Path.ofText "b.ts"].map .target } :
        Stage).tasks := .swap _ _ []
  have hskipped := performAll_hiddenRules_reverse
  cases hresults : (Task.performAll hiddenRules { jobs := 1 } true
      [.target (Path.ofText "b.ts"), .target (Path.ofText "a.sql")]).value with
  | error failure => simp [hresults, Except.map] at hskipped
  | ok results =>
    refine Stage.strays_of_order hstart horder (fun hsame => ?_) hresults
    rw [hsame, processBatch_hiddenRules] at hskipped
    simp at hskipped

/-- Faults of one path are reported in the order in which they came. -/
theorem Task.paths_of_faults (d : Disk) (settings : Settings) (write : Bool) {p q : Path}
    (h : p.components = q.components) (details details' : String) :
    ((performAll d settings write [.item (.failed p details), .item (.failed q details')]).value.map
      Batch.ofResults).map (·.files.map FileResult.path) = .ok [p, q] := by
  have hvalue : (performAll d settings write
      [.item (.failed p details), .item (.failed q details')]).value =
        .ok [.failed p none (.walk p details), .failed q none (.walk q details')] := rfl
  rw [hvalue, Except.map, Except.map, Batch.files_ofResults_pair h]
  rfl

theorem strays_strayTree : Stage.Strays strayTree { jobs := 1 } true strayRoot := by
  have hbatch := (processBatch_of_start start_strayTree true).1
  have horder := List.Perm.swap (Task.item (.failed (Path.ofText "s/commondir")
    (IgnoreFault.reference (Path.ofText "s/commondir") .isDirectory).message))
    (.item (Walk.faultItem (strayRoot.join ⟨Bytes.ofText "commondir"⟩) .nameTooLong)) []
  rw [← tasks_strayTree] at horder
  refine Stage.strays_of_order start_strayTree horder (fun hsame => ?_) rfl
  rw [hbatch, tasks_strayTree] at hsame
  have hpaths := congrArg (Except.map fun b : Batch => b.files.map FileResult.path) hsame
  rw [Walk.faultItem, Task.paths_of_faults _ _ _ components_commondir,
    Task.paths_of_faults _ _ _ components_commondir.symm] at hpaths
  have hlength := congrArg (·.bytes.length) (List.cons.inj (Except.ok.inj hpaths)).1
  rw [length_commondir] at hlength
  exact absurd hlength (of_decide_eq_true (by cbv))

/-- A source that is also an ignore file further down, with a rule in a comment. -/
def raceTree : Disk :=
  { entries :=
      [([Bytes.ofText "a.sql"], .file (Bytes.ofText "x/*\nb.ts\n*/") 0o644),
        ([Bytes.ofText "s"], .directory),
        ([Bytes.ofText "s", Bytes.ofText ".gitignore"], .link (Path.ofText "../a.sql")),
        ([Bytes.ofText "s", Bytes.ofText "b.ts"], .file (Bytes.ofText "y") 0o644)]
    home := [] }

/-- A run in which the source is stripped before the walk goes further down. -/
def raceEnd : Stage :=
  ((((Stage.ofPlan raceTree herePlan 4).readNext.performNext { jobs := 1 } true).readNext).performNext
    { jobs := 1 } true)

theorem run_raceEnd : Stage.Run { jobs := 1 } true (Stage.ofPlan raceTree herePlan 4) raceEnd :=
  (((Stage.run_readNext _ _ _).trans (Stage.run_performNext _ _ _)).trans
    (Stage.run_readNext _ _ _)).trans (Stage.run_performNext _ _ _)

theorem isOver_raceEnd : raceEnd.IsOver := by
  have hend : (raceEnd.ahead.isEmpty, raceEnd.sent.isEmpty) = (true, true) := by cbv
  exact ⟨List.isEmpty_iff.1 (Prod.mk.inj hend).1, List.isEmpty_iff.1 (Prod.mk.inj hend).2⟩

theorem done_raceEnd : raceEnd.done.map (fun e => e.2.map FileResult.isSuccess) = [.ok true, .ok true] := by
  cbv

theorem results_raceEnd : ∃ r s : FileResult,
    raceEnd.done.map Prod.snd = [.ok r, .ok s] ∧ r.isSuccess ∧ s.isSuccess := by
  obtain ⟨e, rest, hlist, he, hrest⟩ := List.map_eq_cons_iff.1 done_raceEnd
  obtain ⟨e', rest', rfl, he', hrest'⟩ := List.map_eq_cons_iff.1 hrest
  obtain rfl := List.map_eq_nil_iff.1 hrest'
  cases hfirst : e.2 with
  | error failure => simp [hfirst, Except.map] at he
  | ok r =>
    cases hsecond : e'.2 with
    | error failure => simp [hsecond, Except.map] at he'
    | ok s =>
      refine ⟨r, s, by simp [hlist, hfirst, hsecond], ?_, ?_⟩
      · simpa [hfirst, Except.map] using he
      · simpa [hsecond, Except.map] using he'

theorem start_raceTree : Stage.start raceTree { jobs := 1 } true Path.here =
    .ok (Stage.ofPlan raceTree herePlan 4) := by
  have hstat : raceTree.stat Path.here = .ok .directory := by cbv
  rw [Stage.start, GlobTarget.not_isPattern_of_stat hstat, hstat]
  rfl

theorem processBatch_raceTree :
    (processBatch raceTree { jobs := 1 } true true Path.here).value.map (·.files.length) = .ok 1 := by
  cbv

theorem strays_raceTree : Stage.Strays raceTree { jobs := 1 } true Path.here := by
  obtain ⟨r, s, hresults, -⟩ := results_raceEnd
  refine ⟨_, raceEnd, [r, s], start_raceTree, run_raceEnd, isOver_raceEnd, hresults, fun hsame => ?_⟩
  have hbatch := processBatch_raceTree
  rw [hsame] at hbatch
  have hone : 2 = 1 :=
    (Batch.files_ofResults_perm [r, s]).length_eq.symm.trans (Except.ok.inj hbatch)
  omega

theorem processBatch_order_matters :
    (hiddenRules.WellFormed ∧ Stage.Strays hiddenRules { jobs := 1 } true (Path.ofText "*")) ∧
      (raceTree.WellFormed ∧ Stage.Strays raceTree { jobs := 1 } true Path.here) ∧
      strayTree.WellFormed ∧ Stage.Strays strayTree { jobs := 1 } true strayRoot :=
  ⟨⟨of_decide_eq_true (by cbv), strays_hiddenRules⟩, ⟨of_decide_eq_true (by cbv), strays_raceTree⟩,
    of_decide_eq_true (by cbv), strays_strayTree⟩

end Uncomment
