import Mathlib
import Uncomment.Execution
import Uncomment.Proofs.Stages
import Uncomment.Proofs.Totals

/-! How a run ends. The totals of a batch, its failure flag, what an invocation returns and the exit
status are all read off one list of results. -/
namespace Uncomment

/-! ## Comments that are listed -/

/-- The comments counted for a file are those listed for it. Only a success has any. -/
def FileResult.Accounted (r : FileResult) : Prop :=
  r.removed.length = if r.isSuccess then r.commentsRemoved else 0

theorem Totals.commentsRemoved_count {rs : List FileResult} (h : ∀ r ∈ rs, r.Accounted) :
    (count rs).commentsRemoved = (rs.map fun r => r.removed.length).sum := by
  induction rs with
  | nil => rfl
  | cons r rs ih =>
    have hr : r.removed.length = if r.isSuccess then r.commentsRemoved else 0 := h r List.mem_cons_self
    have hrs := ih fun s hs => h s (List.mem_cons_of_mem _ hs)
    rw [List.map_cons, List.sum_cons, hr, ← hrs, count, count]
    by_cases hsuccess : r.isSuccess <;> simp [hsuccess]

theorem accounted_stripStored [Clock] [Device] {d : Disk} {lang : Language} {settings : Settings} {write : Bool}
    {path : Path} {r : FileResult} (h : (stripStored d lang settings write path).value = .ok r) :
    r.Accounted := by
  rw [stripStored] at h
  split at h
  · cases h
  · next input _ =>
    split at h
    · cases h
    · next o _ =>
      cases happly : (apply d path input o.output write).value with
      | error failure =>
        rw [Effect.andThen_of_error (by rw [Effect.value_after, happly])] at h
        cases h
      | ok persisted =>
        rw [Effect.andThen_of_ok (by rw [Effect.value_after, happly])] at h
        obtain rfl := Except.ok.inj h
        rfl

theorem accounted_processFile [Clock] [Device] (d : Disk) (settings : Settings) (write : Bool) (path : Path) :
    (processFile d settings write path).value.Accounted := by
  rw [processFile]
  split
  · rfl
  · next lang _ =>
    dsimp only
    cases hvalue : (stripStored d lang settings write path).value with
    | error failure => rfl
    | ok result => exact accounted_stripStored hvalue

theorem Task.Yields.accounted [Host] {d : Disk} {settings : Settings} {write : Bool} {task : Task}
    {r : FileResult} (h : task.Yields d settings write r) : r.Accounted := by
  cases task with
  | item i =>
    obtain rfl := Except.ok.inj h
    cases i with
    | file path => exact accounted_processFile d settings write path
    | failed path details => rfl
  | target path =>
    simp only [Yields, perform, processTarget] at h
    split at h
    · cases h
    · split_ifs at h
      · obtain rfl := Except.ok.inj h
        rfl
      · obtain rfl := Except.ok.inj h
        rfl
      · obtain rfl := Except.ok.inj h
        exact accounted_processFile d settings write path

/-! ## Results of a run -/

/-- Every answer of a run over items is that to one of the items, on some disk of the run. -/
theorem Effect.exists_of_forEach {ε α β : Type} {step : Disk → α → Effect (Except ε β)} {d : Disk}
    {as : List α} {bs : List β} (h : (forEach step d as).value = .ok bs) :
    ∀ b ∈ bs, ∃ a ∈ as, ∃ d', (step d' a).value = .ok b := by
  induction as generalizing d bs with
  | nil =>
    obtain rfl := Except.ok.inj h
    simp
  | cons a as ih =>
    rw [forEach] at h
    cases hfirst : (step d a).value with
    | error fault =>
      rw [andThen_of_error hfirst] at h
      cases h
    | ok b =>
      rw [andThen_of_ok hfirst, value_after, value_map] at h
      cases hrest : (forEach step (step d a).disk as).value with
      | error fault =>
        rw [hrest] at h
        cases h
      | ok rest =>
        rw [hrest] at h
        obtain rfl := Except.ok.inj h
        intro c hc
        rcases List.mem_cons.1 hc with rfl | hc
        · exact ⟨a, List.mem_cons_self, d, hfirst⟩
        · obtain ⟨a', ha', hstep⟩ := ih hrest c hc
          exact ⟨a', List.mem_cons_of_mem _ ha', hstep⟩

theorem accounted_processBatch [Host] {d : Disk} {settings : Settings} {recursive write : Bool} {root : Path}
    {batch : Batch} (h : (processBatch d settings recursive write root).value = .ok batch) :
    ∀ r ∈ batch.files, r.Accounted := by
  obtain ⟨failure, -, hvalue, -⟩ | ⟨s, -, hvalue, -⟩ :=
    processBatch_cases d settings recursive write root
  · rw [hvalue] at h
    cases h
  · rw [hvalue] at h
    cases hresults : (Task.performAll d settings write s.tasks).value with
    | error failure =>
      rw [hresults] at h
      cases h
    | ok results =>
      rw [hresults] at h
      obtain rfl := Except.ok.inj h
      intro r hr
      obtain ⟨task, -, d', hyields⟩ :=
        Effect.exists_of_forEach hresults r ((Batch.files_ofResults_perm results).subset hr)
      exact Task.Yields.accounted hyields

/-- The batch of a run is made from the results of its roots. -/
theorem exists_of_run [Host] {d : Disk} {settings : Settings} {batch : Batch}
    (h : (run d settings).value = .ok batch) :
    ∃ rs, batch = .ofResults rs ∧ ∀ r ∈ rs, r.Accounted := by
  rw [run] at h
  split at h
  · cases h
  · cases hbatches : (Effect.forEach (fun d root =>
        processBatch d settings settings.walk.recursive settings.write root) d settings.roots).value with
    | error failure =>
      rw [Effect.andThen_of_error hbatches] at h
      cases h
    | ok batches =>
      rw [Effect.andThen_of_ok hbatches] at h
      obtain rfl := Except.ok.inj h
      refine ⟨_, rfl, fun r hr => ?_⟩
      obtain ⟨b, hb, hr⟩ := List.mem_flatMap.1 hr
      obtain ⟨root, -, d', hroot⟩ := Effect.exists_of_forEach hbatches b hb
      exact accounted_processBatch hroot r hr

/-! ## The end of an invocation -/

theorem execute_of_error [Host] {d : Disk} {inv : Invocation} {failure : Failure}
    (h : (run d inv.settings).value = .error failure) :
    (execute d inv).value = .error (.processing inv.target failure) := by
  rw [execute, Effect.value_map, h]

theorem execute_of_ok [Host] {d : Disk} {inv : Invocation} {batch : Batch}
    (h : (run d inv.settings).value = .ok batch) :
    (execute d inv).value = Execution.ofBatch inv.target (d.isFile inv.target) batch := by
  rw [execute, Effect.value_map, h]

theorem Execution.ofBatch_of_skipped {b : Batch} (h : ∀ r ∈ b.files, r.isSkipped) (target : Path)
    (single : Bool) : ofBatch target single b = .error (.nothingFound target) := by
  rw [ofBatch, if_pos (List.all_eq_true.2 h)]

theorem Execution.ofBatch_of_not_skipped {b : Batch} {r : FileResult} (hr : r ∈ b.files)
    (h : r.isSkipped = false) (target : Path) (single : Bool) :
    ofBatch target single b = .ok ⟨b, single⟩ := by
  rw [ofBatch, if_neg]
  intro hall
  have hskipped := List.all_eq_true.1 hall r hr
  simp [h] at hskipped

theorem Exit.status_ofExecution (settings : Settings) (result : Except ExecutionFault Execution)
    (millis : String) : (ofExecution settings result millis).status = success ↔
      result.map Execution.succeeded = .ok true := by
  cases result with
  | error fault => simp [ofExecution, ofMessages, success, failure, Except.map]
  | ok e => cases h : e.succeeded <;> simp [ofExecution, success, failure, Except.map, h]

/-- What an invocation returns, by the results of its run: whether all went well when something was
processed, and a fault otherwise. -/
structure Ending [Host] (d : Disk) (inv : Invocation) : Prop where
  well : (execute d inv).value.map Execution.succeeded = .ok true ↔
    ∃ batch, (run d inv.settings).value = .ok batch ∧ (∃ r ∈ batch.files, r.isSuccess) ∧
      ∀ r ∈ batch.files, r.isError = false
  badly : (execute d inv).value.map Execution.succeeded = .ok false ↔
    ∃ batch, (run d inv.settings).value = .ok batch ∧ ∃ r ∈ batch.files, r.isError
  fault : (∃ fault, (execute d inv).value = .error fault) ↔
    (∃ failure, (run d inv.settings).value = .error failure) ∨
      ∃ batch, (run d inv.settings).value = .ok batch ∧ ∀ r ∈ batch.files, r.isSkipped
  status : ∀ millis, (Exit.ofExecution inv.settings (execute d inv).value millis).status = Exit.success ↔
    (execute d inv).value.map Execution.succeeded = .ok true

theorem ending [Host] (d : Disk) (inv : Invocation) : Ending d inv := by
  have hstatus := Exit.status_ofExecution inv.settings (execute d inv).value
  cases hrun : (run d inv.settings).value with
  | error failure =>
    have hvalue := execute_of_error hrun
    refine ⟨?_, ?_, ?_, hstatus⟩
    · simp [hvalue, hrun, Except.map]
    · simp [hvalue, hrun, Except.map]
    · simp [hvalue, hrun]
  | ok batch =>
    obtain ⟨rs, rfl, -⟩ := exists_of_run hrun
    have hvalue := execute_of_ok hrun
    by_cases hskipped : ∀ r ∈ (Batch.ofResults rs).files, r.isSkipped
    · rw [Execution.ofBatch_of_skipped hskipped] at hvalue
      have hnone : ∀ r ∈ (Batch.ofResults rs).files, r.isSuccess = false ∧ r.isError = false :=
        fun r hr => FileResult.of_isSkipped (hskipped r hr)
      refine ⟨?_, ?_, ?_, hstatus⟩
      · simpa [hvalue, hrun, Except.map] using fun r hr hsuccess => by simp [hnone r hr] at hsuccess
      · simpa [hvalue, hrun, Except.map] using fun r hr => (hnone r hr).2
      · simpa [hvalue, hrun] using hskipped
    · obtain ⟨r, hr, hno⟩ : ∃ r ∈ (Batch.ofResults rs).files, r.isSkipped = false := by
        simpa using hskipped
      rw [Execution.ofBatch_of_not_skipped hr hno] at hvalue
      have hsucceeded : (execute d inv).value.map Execution.succeeded =
          .ok (!(Batch.ofResults rs).failed) := by
        rw [hvalue]
        rfl
      refine ⟨?_, ?_, ?_, hstatus⟩
      · rw [hsucceeded, Except.ok.injEq, Bool.not_eq_true', ← Bool.not_eq_true, Batch.failed_iff_files]
        constructor
        · intro hnoError
          have herror : ∀ s ∈ (Batch.ofResults rs).files, s.isError = false := by simpa using hnoError
          exact ⟨_, hrun, ⟨r, hr, FileResult.isSuccess_of_not hno (herror r hr)⟩, herror⟩
        · rintro ⟨batch, hbatch, -, herror⟩
          obtain rfl := Except.ok.inj (hrun.symm.trans hbatch)
          simpa using herror
      · rw [hsucceeded, Except.ok.injEq, Bool.not_eq_false', Batch.failed_iff_files]
        simp [hrun]
      · simpa [hvalue, hrun] using ⟨r, hr, hno⟩

/-! ## Totals and endings -/

/-- What a batch tells of the results that it was made from. -/
structure Batch.Tallies (b : Batch) (rs : List FileResult) : Prop where
  perm : b.files.Perm rs
  sorted : b.files.Pairwise fun r s => r.path.le s.path
  stable : ∀ p : Path, b.files.filter (p.same ·.path) = rs.filter (p.same ·.path)
  totals : b.totals = .count rs
  parts : b.totals.filesProcessed + b.totals.skipped + b.totals.failures = rs.length
  failed : b.failed ↔ ∃ r ∈ rs, r.isError

/-- A batch is its results in the order of their paths, with totals that count them in whatever order
they came. The run of an invocation ends as its results say, and the comments it counts are those that
its results list. -/
theorem execute_tallies [Host] (rs : List FileResult) (d : Disk) (inv : Invocation) :
    (Batch.ofResults rs).Tallies rs ∧
      (∀ rs', rs'.Perm rs → (Batch.ofResults rs').totals = (Batch.ofResults rs).totals) ∧
      Ending d inv ∧
      ∀ batch, (run d inv.settings).value = .ok batch →
        batch.totals.commentsRemoved = (batch.files.map fun r => r.removed.length).sum := by
  refine ⟨?_, fun _ => Batch.totals_ofResults_perm, ending d inv, fun batch hbatch => ?_⟩
  · have htotals := Batch.totals_ofResults rs
    exact ⟨Batch.files_ofResults_perm rs, Batch.files_ofResults_sorted rs,
      Batch.filter_files_ofResults rs, htotals, htotals ▸ Totals.count_parts rs,
      Batch.failed_ofResults rs⟩
  · obtain ⟨results, rfl, haccounted⟩ := exists_of_run hbatch
    have hfiles := Batch.files_ofResults_perm results
    rw [Batch.totals_ofResults, Totals.commentsRemoved_count haccounted]
    exact (hfiles.map fun r => r.removed.length).sum_eq.symm

/-- Strip a source by its name and by that of a link to it. -/
def linkedInvocation : Invocation where
  target := Path.ofText "a.ts"
  colour := false
  settings := { jobs := 1, walk := { roots := [Path.ofText "b.ts", Path.ofText "a.ts"] } }

theorem execute_tallies_linked :
    (∃ batch, (run linkedSource linkedInvocation.settings).value = .ok batch ∧
        2 = (batch.files.map fun r => r.removed.length).sum) ∧
      (Batch.ofResults [.skipped (Path.ofText "b.ts") "", .skipped (Path.ofText "a.ts") ""]).totals =
        (Batch.ofResults [.skipped (Path.ofText "a.ts") "", .skipped (Path.ofText "b.ts") ""]).totals := by
  obtain ⟨-, hperm, -, haccounted⟩ := execute_tallies
    [.skipped (Path.ofText "a.ts") "", .skipped (Path.ofText "b.ts") ""] linkedSource linkedInvocation
  refine ⟨?_, hperm _ (.swap _ _ [])⟩
  have hcount : (run linkedSource linkedInvocation.settings).value.map (·.totals.commentsRemoved) =
      .ok 2 := by
    cbv
  cases hrun : (run linkedSource linkedInvocation.settings).value with
  | error failure =>
    rw [hrun] at hcount
    cases hcount
  | ok batch =>
    rw [hrun] at hcount
    exact ⟨batch, rfl, (Except.ok.inj hcount).symm.trans (haccounted batch hrun)⟩

end Uncomment
