import Mathlib
import Uncomment.Process
import Uncomment.Proofs.Schedules

/-! A run without writing predicts the run with writing. -/
namespace Uncomment

/-! ## Results without the note of writing -/

def FileResult.unwritten (r : FileResult) : FileResult := { r with persisted := false }

def Totals.unwritten (t : Totals) : Totals := { t with filesWritten := 0 }

def Batch.unwritten (b : Batch) : Batch := ⟨b.files.map FileResult.unwritten, b.totals.unwritten⟩

theorem Totals.add_unwritten (t : Totals) (r : FileResult) :
    t.unwritten.add r.unwritten = (t.add r).unwritten := by
  have hsuccess : r.unwritten.isSuccess = r.isSuccess := rfl
  have herror : r.unwritten.isError = r.isError := rfl
  have hwritten : r.unwritten.persisted = false := rfl
  simp only [add, hsuccess, herror, hwritten, Bool.false_eq_true, if_false]
  split_ifs <;> rfl

theorem Totals.foldl_unwritten (t : Totals) (rs : List FileResult) :
    (rs.map FileResult.unwritten).foldl add t.unwritten = (rs.foldl add t).unwritten := by
  induction rs generalizing t with
  | nil => rfl
  | cons r rs ih => rw [List.map_cons, List.foldl_cons, List.foldl_cons, add_unwritten, ih]

theorem Batch.ofResults_unwritten (rs : List FileResult) :
    ofResults (rs.map FileResult.unwritten) = (ofResults rs).unwritten := by
  have hsort : sortByPath (rs.map FileResult.unwritten) = (sortByPath rs).map FileResult.unwritten := by
    rw [sortByPath, sortByPath, List.map_mergeSort]
    exact fun _ _ _ _ => rfl
  rw [ofResults, hsort]
  exact congrArg (Batch.mk _) (Totals.foldl_unwritten {} (sortByPath rs))

theorem Batch.no_writeFailure {b : Batch} (h : b.files.all (·.errorKind?.isNone) = true) :
    ∀ r ∈ b.files, r.errorKind? ≠ some .writeFailure := by
  intro r hr
  have hnone := List.all_eq_true.1 h r hr
  simp [Option.isNone_iff_eq_none.1 hnone]

/-- Without a write failure the results differ in the note of writing alone. -/
theorem judge_unwritten [Clock] {settings : Settings} {path : Path} {content : Except IoFault Bytes}
    {admission : Except IoFault Unit}
    (h : (judge settings true path content admission).errorKind? ≠ some .writeFailure) :
    judge settings false path content admission =
      (judge settings true path content admission).unwritten := by
  revert h
  unfold judge
  cases path.language? with
  | none => exact fun _ => rfl
  | some lang =>
    cases content with
    | error fault => exact fun _ => rfl
    | ok input =>
      dsimp only
      cases stripFile lang settings.stripOptions path input with
      | error failure => exact fun _ => rfl
      | ok o =>
        intro h
        by_cases hsame : input = o.output
        · simp [hsame, FileResult.unwritten, FileResult.success]
        · cases admission with
          | error fault => simp [hsame, FileResult.errorKind?, FileResult.failed, Failure.kind] at h
          | ok _ => simp [hsame, FileResult.unwritten, FileResult.success]

namespace Task
variable [Host] {d : Disk} {settings : Settings} {task : Task}

theorem Yields.unwritten (wf : d.WellFormed) {result : FileResult}
    (h : task.Yields d settings true result) (hresult : result.errorKind? ≠ some .writeFailure) :
    task.Yields d settings false result.unwritten := by
  have hfile : ∀ path, (processFile d settings true path).value = result →
      (processFile d settings false path).value = result.unwritten := by
    rintro path rfl
    rw [(processFile_spec wf settings true path).1] at hresult ⊢
    rw [(processFile_spec wf settings false path).1, judge_unwritten hresult]
  cases task with
  | item i =>
    cases i with
    | file p => exact congrArg Except.ok (hfile p (Except.ok.inj h))
    | failed p details =>
      obtain rfl := Except.ok.inj h
      rfl
  | target p =>
    rw [Yields, perform, processTarget] at h ⊢
    split at h
    · cases h
    · dsimp only at h ⊢
      split_ifs at h ⊢
      · obtain rfl := Except.ok.inj h
        rfl
      · obtain rfl := Except.ok.inj h
        rfl
      · exact congrArg Except.ok (hfile p (Except.ok.inj h))

theorem not_changes_unwritten (wf : d.WellFormed) (loc : Location) :
    ¬ task.Changes d settings false loc := by
  rw [Changes, not_not]
  rcases perform_cases d settings false task with ⟨hdisk, -⟩ | ⟨-, -, hdisk⟩
  · rw [hdisk]
  · obtain ⟨-, ⟨-, hsame⟩ | ⟨hwrite, -⟩⟩ := processFile_spec wf settings false task.path
    · rw [hdisk, hsame]
    · simp at hwrite

/-- A success comes from processing the file. -/
theorem Yields.processFile_eq {write : Bool} {result : FileResult}
    (h : task.Yields d settings write result) (hsuccess : result.isSuccess) :
    task.isFault = false ∧ (processFile d settings write task.path).value = result ∧
      (task.perform d settings write).disk = (processFile d settings write task.path).disk := by
  rcases perform_cases d settings write task with ⟨-, hleft⟩ | ⟨hfault, hvalue, hdisk⟩
  · simp [(hleft result h).2.1] at hsuccess
  · exact ⟨hfault, Except.ok.inj (hvalue.symm.trans h), hdisk⟩

/-- A file is written exactly when stripping changes it. -/
theorem Yields.persisted_eq (wf : d.WellFormed) {result : FileResult}
    (h : task.Yields d settings true result) :
    result.persisted = (result.isSuccess &&
      strippedContent? d settings result.path != (d.read result.path).toOption) := by
  rw [h.path_eq wf]
  by_cases hsuccess : result.isSuccess
  · obtain ⟨-, rfl, -⟩ := h.processFile_eq hsuccess
    obtain ⟨input, output, hread, hstripped, hpersisted, -⟩ := processFile_success wf hsuccess
    rw [hpersisted, hsuccess, hstripped, hread]
    simp [Except.toOption, bne, eq_comm]
  · have hkept : result.persisted = false := by
      rcases perform_cases d settings true task with ⟨-, hleft⟩ | ⟨-, hvalue, -⟩
      · exact (hleft result h).2.2
      · obtain rfl := Except.ok.inj (hvalue.symm.trans h)
        obtain ⟨-, ⟨hkept, -⟩ | ⟨-, hdone, -⟩⟩ := processFile_spec wf settings true task.path
        · exact hkept
        · exact absurd hdone hsuccess
    simp [hkept, hsuccess]

theorem Leaves.read_path (wf : d.WellFormed) {tasks : List Task} {d' : Disk} {write : Bool}
    (h : Leaves d settings write tasks d') (hapart : tasks.Pairwise (Apart d)) (htask : task ∈ tasks)
    (hfault : task.isFault = false) :
    d'.read task.path = (task.perform d settings write).disk.read task.path := by
  have houtline := perform_outline wf settings write task
  refine Disk.read_congr (h.outline.trans houtline.symm) fun loc hloc => ?_
  rw [← Disk.resolve_outline, houtline, Disk.resolve_outline] at hloc
  rcases h.node loc with ⟨s, hs, hchanges, hnode⟩ | ⟨hnone, hnode⟩
  · obtain rfl : s = task := by
      by_contra hne
      have hsymm : Std.Symm (Apart d) := ⟨fun _ _ => Apart.symm⟩
      obtain ⟨hs', hresolve⟩ := hchanges.resolve wf
      exact (hapart.forall hs htask hne).files hs' hfault loc (Disk.reach_of_resolve hresolve)
        (Disk.reach_of_resolve hloc)
    exact hnode
  · rw [hnode]
    exact (not_not.1 (hnone task htask)).symm

/-- After a run with writing, a file that was processed with success has its stripped content. -/
theorem read_of_success (wf : d.WellFormed) {tasks : List Task} {d' : Disk}
    (hapart : tasks.Pairwise (Apart d)) (h : Leaves d settings true tasks d') (htask : task ∈ tasks)
    {result : FileResult} (hyield : task.Yields d settings true result)
    (hsuccess : result.isSuccess) :
    ∃ output, strippedContent? d settings task.path = some output ∧
      d'.read task.path = .ok output := by
  obtain ⟨hfault, rfl, hperform⟩ := hyield.processFile_eq hsuccess
  obtain ⟨input, output, -, hstripped, -, hread⟩ := processFile_success wf hsuccess
  refine ⟨output, hstripped, ?_⟩
  rw [h.read_path wf hapart htask hfault, hperform]
  exact hread rfl

theorem exists_of_mem_results {write : Bool} {tasks : List Task} {results : List FileResult}
    (h : List.Forall₂ (Yields d settings write) tasks results) {r : FileResult} (hr : r ∈ results) :
    ∃ task ∈ tasks, task.Yields d settings write r := by
  induction h with
  | nil => simp at hr
  | cons hresult _ ih =>
    rcases List.mem_cons.1 hr with rfl | hr
    · exact ⟨_, List.mem_cons_self, hresult⟩
    · obtain ⟨task, htask, hyield⟩ := ih hr
      exact ⟨task, List.mem_cons_of_mem _ htask, hyield⟩

/-- A task of a batch has its result among those of the batch. -/
theorem mem_results {write : Bool} {tasks : List Task} {results : List FileResult}
    (h : List.Forall₂ (Yields d settings write) tasks results) {r : FileResult} (htask : task ∈ tasks)
    (hr : task.Yields d settings write r) : r ∈ results := by
  induction h with
  | nil => cases htask
  | cons hresult _ ih =>
    rcases List.mem_cons.1 htask with rfl | htask
    · exact List.mem_cons.2 (.inl (Yields.unique hr hresult))
    · exact List.mem_cons_of_mem _ (ih htask)

/-- The files written are those that stripping changes. -/
theorem filesWritten_ofResults (wf : d.WellFormed) {tasks : List Task} {results : List FileResult}
    (h : List.Forall₂ (Yields d settings true) tasks results) :
    (Batch.ofResults results).totals.filesWritten = (Batch.ofResults results).files.countP fun r =>
      r.isSuccess && strippedContent? d settings r.path != (d.read r.path).toOption := by
  have hcount := congrArg Totals.filesWritten (Totals.foldl_add (Batch.ofResults results).files)
  refine hcount.trans (List.countP_congr fun r hr => ?_)
  obtain ⟨task, -, hyield⟩ := exists_of_mem_results h ((Batch.files_ofResults_perm results).subset hr)
  rw [hyield.persisted_eq wf]

theorem forall₂_unwritten (wf : d.WellFormed) {tasks : List Task} {results : List FileResult}
    (h : List.Forall₂ (Yields d settings true) tasks results)
    (hwrites : ∀ r ∈ results, r.errorKind? ≠ some .writeFailure) :
    List.Forall₂ (Yields d settings false) tasks (results.map FileResult.unwritten) := by
  induction h with
  | nil => exact .nil
  | cons hresult _ ih =>
    exact .cons (hresult.unwritten wf (hwrites _ List.mem_cons_self))
      (ih fun r hr => hwrites r (List.mem_cons_of_mem _ hr))

/-- The results of a run in which no write fails, without writing. -/
theorem performAll_unwritten (wf : d.WellFormed) {tasks : List Task}
    (hapart : tasks.Pairwise (Apart d)) (hadmitted : ∀ task ∈ tasks, task.refusal? settings = none)
    {results : List FileResult} (h : List.Forall₂ (Yields d settings true) tasks results)
    (hwrites : ∀ r ∈ results, r.errorKind? ≠ some .writeFailure) :
    (performAll d settings false tasks).value = .ok (results.map FileResult.unwritten) := by
  have hrules : ∀ s ∈ tasks, ∀ t ∈ tasks, s ≠ t → s.SparesRules d settings false t :=
    fun s _ t _ _ _ _ loc hchanges => absurd hchanges (not_changes_unwritten wf loc)
  obtain ⟨results', hvalue, h', -⟩ := performAll_of_apart wf hapart hrules hadmitted
  rw [hvalue, Yields.unique.forall₂ h' (forall₂_unwritten wf h hwrites)]

theorem unwritten_value (wf : d.WellFormed)
    (hwrites : ∀ result, task.Yields d settings true result → result.errorKind? ≠ some .writeFailure) :
    (task.perform d settings false).value =
      (task.perform d settings true).value.map FileResult.unwritten := by
  cases hrefusal : task.refusal? settings with
  | some failure =>
    rw [(perform_of_refusal hrefusal d false).1, (perform_of_refusal hrefusal d true).1]
    rfl
  | none =>
    obtain ⟨result, hresult⟩ := perform_of_no_refusal hrefusal d true
    have hvalue : (task.perform d settings true).value = .ok result := hresult
    rw [hvalue]
    exact hresult.unwritten wf (hwrites result hresult)

end Task

namespace Stage
variable [Host] {d : Disk} {settings : Settings}

/-- Without writing nothing is disturbed. -/
theorem undisturbed_unwritten (wf : d.WellFormed) (sources : Path → List Path) (tasks : List Task)
    (opened : List Path) : Undisturbed d settings false sources tasks opened where
  targets _ _ _ _ _ _ _ loc hchanges := absurd hchanges (Task.not_changes_unwritten wf loc)
  directories _ _ _ _ _ _ loc hchanges := absurd hchanges (Task.not_changes_unwritten wf loc)

theorem Reached.disk_unwritten (wf : d.WellFormed) {tasks : List Task} {opened : List Path} {s : Stage}
    (h : Reached d settings false tasks opened s) : s.disk = d :=
  h.leaves.unique wf (.refl d settings false)
    (fun _ loc hchanges => absurd hchanges (Task.not_changes_unwritten wf loc))
    fun _ _ _ _ loc hchanges => absurd hchanges (Task.not_changes_unwritten wf loc)

/-- The end of a run without writing. -/
theorem Run.unwritten (wf : d.WellFormed) (htimeout : settings.timeout.all Duration.isZero)
    {recursive : Bool} {root : Path} {start : Stage}
    (hstart : Stage.start d settings recursive root = .ok start) {sources : Path → List Path}
    (hreads : IgnoreRules.ReadFrom d sources)
    (hwrites : ∀ task ∈ start.tasks, ∀ result, task.Yields d settings true result →
      result.errorKind? ≠ some .writeFailure) {finish : Stage}
    (hrun : Run settings false start finish) (hover : finish.IsOver) :
    (finish.done.map Prod.fst).Perm start.tasks ∧ finish.disk = d ∧
      ∀ e ∈ finish.done, e.2 = (e.1.perform d settings true).value.map FileResult.unwritten := by
  obtain rfl := disk_of_start hstart
  have hreached := hrun.reached wf htimeout (done_of_start hstart) (apart_of_start wf hstart) hreads
    (undisturbed_unwritten wf _ _ _)
  refine ⟨hreached.perm_of_isOver hover, hreached.disk_unwritten wf, fun e he => ?_⟩
  rw [hreached.values e he, Task.unwritten_value wf]
  exact hwrites e.1 (hreached.mem_of_done (List.mem_map_of_mem he))

end Stage

/-- A batch without writing gives the results of the batch with writing, but for the notes of writing.
A file counts as written when stripping changes it, and a successful file has its stripped content
afterwards. However the two go on, with writing or without, their tasks have these results. -/
theorem processBatch_preview [Host] {d : Disk} (wf : d.WellFormed) {settings : Settings}
    (htimeout : settings.timeout.all Duration.isZero) {recursive : Bool} {root : Path}
    {sources : Path → List Path} (hreads : IgnoreRules.ReadFrom d sources)
    (hrules : ∀ start, Stage.start d settings recursive root = .ok start →
      Stage.Undisturbed d settings true sources start.tasks start.opened)
    (hwrites : ∀ batch, (processBatch d settings recursive true root).value = .ok batch →
      ∀ r ∈ batch.files, r.errorKind? ≠ some .writeFailure) :
    (processBatch d settings recursive false root).value =
        (processBatch d settings recursive true root).value.map Batch.unwritten ∧
      (∀ batch, (processBatch d settings recursive true root).value = .ok batch →
        batch.totals.filesWritten = batch.files.countP (fun r => r.isSuccess &&
            strippedContent? d settings r.path != (d.read r.path).toOption) ∧
          ∀ r ∈ batch.files, r.isSuccess →
            ∃ output, strippedContent? d settings r.path = some output ∧
              (processBatch d settings recursive true root).disk.read r.path = .ok output) ∧
      ∀ start, Stage.start d settings recursive root = .ok start →
        (∀ finish, Stage.Run settings true start finish → finish.IsOver →
          (finish.done.map Prod.fst).Perm start.tasks ∧
            finish.disk = (processBatch d settings recursive true root).disk ∧
            ∀ e ∈ finish.done, e.2 = (e.1.perform d settings true).value) ∧
        ∀ finish, Stage.Run settings false start finish → finish.IsOver →
          (finish.done.map Prod.fst).Perm start.tasks ∧ finish.disk = d ∧
            ∀ e ∈ finish.done, e.2 = (e.1.perform d settings true).value.map FileResult.unwritten := by
  cases hstart : Stage.start d settings recursive root with
  | error failure =>
    have hvalue := processBatch_of_start_error hstart
    exact ⟨by rw [hvalue, hvalue]; rfl, fun batch hbatch => by simp [hvalue] at hbatch,
      fun start hok => by cases hok⟩
  | ok start =>
    obtain rfl := Stage.disk_of_start hstart
    have hapart := Stage.apart_of_start wf hstart
    have hrules := hrules start hstart
    obtain ⟨hvalue, hdisk⟩ := processBatch_of_start hstart true
    obtain ⟨hvalue', -⟩ := processBatch_of_start hstart false
    have hwritten : ∀ finish, Stage.Run settings true start finish → finish.IsOver →
        (finish.done.map Prod.fst).Perm start.tasks ∧
          finish.disk = (processBatch start.disk settings recursive true root).disk ∧
          ∀ e ∈ finish.done, e.2 = (e.1.perform start.disk settings true).value := by
      intro finish hrun hover
      obtain ⟨hperm, hvalues, hlast, -⟩ :=
        processBatch_anyOrder wf htimeout hstart hreads hrules hrun hover
      exact ⟨hperm, hlast, hvalues⟩
    obtain ⟨hne, failure, hrefused⟩ | hadmitted := Stage.refused_or_admitted hstart
    · rw [(Task.performAll_of_refusal hne hrefused start.disk true).1] at hvalue
      rw [(Task.performAll_of_refusal hne hrefused start.disk false).1] at hvalue'
      refine ⟨by rw [hvalue, hvalue']; rfl, fun batch hbatch => by simp [hvalue, Except.map] at hbatch, ?_⟩
      rintro _ ⟨rfl⟩
      refine ⟨hwritten, fun finish =>
        Stage.Run.unwritten wf htimeout hstart hreads fun task htask result hresult => ?_⟩
      have hnone := (Task.perform_of_refusal (hrefused task htask) start.disk true).1
      cases hnone.symm.trans hresult
    · obtain ⟨results, hresults, hyields, hleaves⟩ :=
        Task.performAll_of_apart wf hapart hrules.targets hadmitted
      rw [hresults] at hvalue
      have hfiles := Batch.files_ofResults_perm results
      have hwrites' : ∀ r ∈ results, r.errorKind? ≠ some .writeFailure :=
        fun r hr => hwrites _ hvalue r (hfiles.symm.subset hr)
      have hpreview := Task.performAll_unwritten wf hapart hadmitted hyields hwrites'
      refine ⟨?_, fun batch hbatch => ?_, ?_⟩
      · rw [hvalue', hvalue, hpreview]
        exact congrArg Except.ok (Batch.ofResults_unwritten results)
      · obtain rfl := Except.ok.inj (hvalue.symm.trans hbatch)
        refine ⟨Task.filesWritten_ofResults wf hyields, fun r hr hsuccess => ?_⟩
        obtain ⟨task, htask, hyield⟩ := Task.exists_of_mem_results hyields (hfiles.subset hr)
        obtain ⟨output, hstripped, hread⟩ :=
          Task.read_of_success wf hapart hleaves htask hyield hsuccess
        rw [hdisk, hyield.path_eq wf]
        exact ⟨output, hstripped, hread⟩
      · rintro _ ⟨rfl⟩
        exact ⟨hwritten, fun finish => Stage.Run.unwritten wf htimeout hstart hreads
          fun task htask result hresult => hwrites' result (Task.mem_results hyields htask hresult)⟩

theorem no_writeFailure_of_all {d : Disk} {recursive : Bool} {root : Path}
    (hall : (processBatch d { jobs := 1 } recursive true root).value.map
      (·.files.all (·.errorKind?.isNone)) = .ok true) :
    ∀ batch, (processBatch d { jobs := 1 } recursive true root).value = .ok batch →
      ∀ r ∈ batch.files, r.errorKind? ≠ some .writeFailure := by
  intro batch hbatch
  rw [hbatch] at hall
  exact Batch.no_writeFailure (Except.ok.inj hall)

theorem processBatch_preview_rules :
    (processBatch ruledSources { jobs := 1 } true false (Path.ofText "*")).value =
        (processBatch ruledSources { jobs := 1 } true true (Path.ofText "*")).value.map
          Batch.unwritten ∧
      (processBatch ruledTree { jobs := 1 } true false Path.here).value =
        (processBatch ruledTree { jobs := 1 } true true Path.here).value.map Batch.unwritten := by
  constructor
  · refine (processBatch_preview wellFormed_ruledSources rfl (readFrom_sources ruledSources)
      (fun start hstart => ?_) (no_writeFailure_of_all (by cbv))).1
    obtain rfl := Except.ok.inj (start_ruledSources.symm.trans hstart)
    exact undisturbed_ruledSources
  · refine (processBatch_preview wellFormed_ruledTree rfl (readFrom_sources ruledTree)
      (fun start hstart => ?_) (no_writeFailure_of_all (by cbv))).1
    obtain rfl := Except.ok.inj (start_ruledTree.symm.trans hstart)
    exact undisturbed_ruledTree

/-- A source that is the ignore file beside another one gives other results once it is stripped. -/
theorem preview_hiddenRules :
    (∀ batch, (processBatch hiddenRules { jobs := 1 } true true (Path.ofText "*")).value = .ok batch →
        ∀ r ∈ batch.files, r.errorKind? ≠ some .writeFailure) ∧
      (processBatch hiddenRules { jobs := 1 } true false (Path.ofText "*")).value ≠
        (processBatch hiddenRules { jobs := 1 } true true (Path.ofText "*")).value.map
          Batch.unwritten := by
  have hwritten := processBatch_hiddenRules
  refine ⟨fun batch hbatch => ?_, fun hsame => ?_⟩
  · rw [hbatch] at hwritten
    exact Batch.no_writeFailure (Prod.mk.inj (Except.ok.inj hwritten)).2
  · have hpreview : (processBatch hiddenRules { jobs := 1 } true false (Path.ofText "*")).value.map
        (·.totals.skipped) = .ok 0 := by
      cbv
    rw [hsame] at hpreview
    cases hvalue : (processBatch hiddenRules { jobs := 1 } true true (Path.ofText "*")).value with
    | error failure => simp [hvalue, Except.map] at hwritten
    | ok batch =>
      rw [hvalue] at hpreview hwritten
      have hskipped := (Prod.mk.inj (Except.ok.inj hwritten)).1
      have hnone : batch.totals.skipped = 0 := Except.ok.inj hpreview
      omega

/-- A run with writing comes upon a source that the run without writing passes over. -/
theorem preview_raceTree : ∃ results : List FileResult,
    raceEnd.done.map Prod.snd = results.map .ok ∧ (∀ r ∈ results, r.isSuccess) ∧
      (processBatch raceTree { jobs := 1 } true false Path.here).value ≠
        .ok (Batch.ofResults results).unwritten := by
  obtain ⟨r, s, hresults, hr, hs⟩ := results_raceEnd
  refine ⟨[r, s], hresults, by simp [hr, hs], fun hsame => ?_⟩
  have hpreview : (processBatch raceTree { jobs := 1 } true false Path.here).value.map
      (·.files.length) = .ok 1 := by
    cbv
  rw [hsame] at hpreview
  have hfiles := (Batch.files_ofResults_perm [r, s]).length_eq
  have hone : ((Batch.ofResults [r, s]).files.map FileResult.unwritten).length = 1 :=
    Except.ok.inj hpreview
  rw [List.length_map, hfiles] at hone
  simp at hone

theorem processBatch_preview_fails :
    (hiddenRules.WellFormed ∧
        (∀ batch, (processBatch hiddenRules { jobs := 1 } true true (Path.ofText "*")).value = .ok batch →
          ∀ r ∈ batch.files, r.errorKind? ≠ some .writeFailure) ∧
        (processBatch hiddenRules { jobs := 1 } true false (Path.ofText "*")).value ≠
          (processBatch hiddenRules { jobs := 1 } true true (Path.ofText "*")).value.map
            Batch.unwritten) ∧
      raceTree.WellFormed ∧ ∃ (start finish : Stage) (results : List FileResult),
        Stage.start raceTree { jobs := 1 } true Path.here = .ok start ∧
          Stage.Run { jobs := 1 } true start finish ∧ finish.IsOver ∧
          finish.done.map Prod.snd = results.map .ok ∧ (∀ r ∈ results, r.isSuccess) ∧
          (processBatch raceTree { jobs := 1 } true false Path.here).value ≠
            .ok (Batch.ofResults results).unwritten := by
  obtain ⟨results, hresults, hsuccess, hother⟩ := preview_raceTree
  exact ⟨⟨of_decide_eq_true (by cbv), preview_hiddenRules⟩, of_decide_eq_true (by cbv), _, raceEnd, results,
    start_raceTree, run_raceEnd, isOver_raceEnd, hresults, hsuccess, hother⟩

end Uncomment
