import Mathlib
import Uncomment.Process
import Uncomment.Proofs.Independence

/-! What the steps of a batch keep. As long as no ignore file of a directory is written that is still
to be read, a walk beside the workers comes upon what it finds on the first disk, and every task does
there what it does alone. -/
namespace Uncomment

/-! ## Directories on disks of one outline -/

namespace Disk

theorem children_outline (d : Disk) (loc : Location) :
    d.outline.children loc = (d.children loc).map fun e => (e.1, e.2.outline) := by
  simp only [children, outline, List.filterMap_map, List.map_filterMap]
  refine List.filterMap_congr fun e _ => ?_
  dsimp only [Function.comp_apply]
  split_ifs
  · rw [Option.map_map]
    rfl
  · rfl

theorem list_outline (d : Disk) (p : Path) :
    d.outline.list p = (d.list p).map fun entries => entries.map fun e => (e.1, e.2.outline) := by
  simp only [list, resolve_outline]
  cases d.resolve true p with
  | error fault => rfl
  | ok loc =>
    simp only [bind, Except.bind, node?_outline]
    cases d.node? loc with
    | none => rfl
    | some node =>
      cases node with
      | file content mode => rfl
      | link target => rfl
      | directory => exact congrArg Except.ok (children_outline d loc)

end Disk

namespace Walk
variable [IgnoreRules]

theorem Plan.ofEntry_outline (p : Plan) (scope : IgnoreRules.Scope) (directory : Path) (name : Bytes)
    (node : Node) : p.ofEntry scope directory name node.outline = p.ofEntry scope directory name node := by
  cases node <;> rfl

theorem visit_outline (d : Disk) (p : Plan) (scope : IgnoreRules.Scope) (directory : Path) :
    visit d.outline p scope directory = visit d p scope directory := by
  rw [visit, visit, Disk.list_outline]
  cases d.list directory with
  | error fault => rfl
  | ok entries =>
    simp only [Except.map, List.flatMap_map]
    exact List.flatMap_congr fun e _ => p.ofEntry_outline scope directory e.1 e.2

end Walk

/-- On disks of one outline, the rules that a directory adds depend on what the files are that are
read for it. The files can be told from the disk `d`. -/
def IgnoreRules.ReadFrom [IgnoreRules] (d : Disk) (sources : Path → List Path) : Prop :=
  ∀ d' : Disk, d'.outline = d.outline → ∀ directory,
    (∀ file ∈ sources directory, d'.read file = d.read file) →
    ∀ (options : IgnoreOptions) (around : IgnoreRules.Scope),
      IgnoreRules.enter d' options around directory = IgnoreRules.enter d options around directory

namespace Pending
variable [IgnoreRules] {d d' : Disk} {p : Pending}

/-- What a directory that is still to be read gives depends on its rules and the outline. -/
theorem finds_congr (houtline : d'.outline = d.outline) (hscope : p.scope d' = p.scope d) :
    p.finds d' = p.finds d := by
  obtain ⟨plan, around, directory, levels⟩ := p
  cases levels with
  | zero => rfl
  | succ levels =>
    rw [finds, finds, hscope, ← Walk.visit_outline, houtline, Walk.visit_outline]

theorem tasks_congr (houtline : d'.outline = d.outline) (hscope : p.scope d' = p.scope d) :
    p.tasks d' = p.tasks d := by
  rw [tasks, tasks, finds_congr houtline hscope]

theorem next_congr (houtline : d'.outline = d.outline) (hscope : p.scope d' = p.scope d) :
    p.next d' = p.next d := by
  rw [next, next, finds_congr houtline hscope, hscope]

end Pending

/-! ## Runs -/

namespace Stage
variable [host : Host] {d : Disk} {settings : Settings} {write : Bool}

/-- Nothing that the tasks of a batch change on the disk `d` is read for another task, or for a
directory that the walk reads after its root is found. -/
structure Undisturbed (d : Disk) (settings : Settings) (write : Bool) (sources : Path → List Path)
    (tasks : List Task) (opened : List Path) : Prop where
  targets : ∀ s ∈ tasks, ∀ t ∈ tasks, s ≠ t → s.SparesRules d settings write t
  directories : ∀ task ∈ tasks, ∀ directory ∈ opened, ∀ file ∈ sources directory, ∀ loc,
    task.Changes d settings write loc → d.resolve true file ≠ .ok loc

/-- A stage that was reached from the disk `d`: the tasks done, sent and to come are those of the
batch, the tasks done have given what they give alone, and the disk is what they leave. -/
structure Reached (d : Disk) (settings : Settings) (write : Bool) (tasks : List Task)
    (opened : List Path) (s : Stage) : Prop where
  perm : (s.done.map Prod.fst ++ (s.sent ++ s.ahead.flatMap (Pending.below d))).Perm tasks
  opened : ∀ p ∈ s.ahead, p.opened d ⊆ opened
  values : ∀ e ∈ s.done, e.2 = (e.1.perform d settings write).value
  leaves : Task.Leaves d settings write (s.done.map Prod.fst) s.disk

theorem Reached.start (settings : Settings) (write : Bool) {s : Stage} (hdone : s.done = []) :
    Reached s.disk settings write s.tasks s.opened s where
  perm := by rw [hdone]; exact .rfl
  opened p hp _ hdirectory := List.mem_flatMap.2 ⟨p, hp, hdirectory⟩
  values e he := by rw [hdone] at he; cases he
  leaves := by rw [hdone]; exact .refl _ settings write

namespace Reached
variable {tasks : List Task} {opened : List Path} {sources : Path → List Path} {s s' : Stage}

theorem mem_of_done (h : Reached d settings write tasks opened s) {task : Task}
    (htask : task ∈ s.done.map Prod.fst) : task ∈ tasks :=
  h.perm.subset (List.mem_append_left _ htask)

/-- The rules of a directory still to be read are those on the first disk. -/
theorem scope_eq (h : Reached d settings write tasks opened s)
    (hreads : IgnoreRules.ReadFrom d sources)
    (hrules : Undisturbed d settings write sources tasks opened) {p : Pending} (hp : p ∈ s.ahead)
    (hlevels : p.levels ≠ 0) : p.scope s.disk = p.scope d := by
  refine hreads s.disk h.leaves.outline p.directory (fun file hfile => ?_) _ _
  refine h.leaves.read fun task htask loc hchanges => ?_
  exact hrules.directories task (h.mem_of_done htask) p.directory
    (h.opened p hp (Pending.directory_mem_opened hlevels)) file hfile loc hchanges

/-- Reading a directory. -/
theorem read (h : Reached d settings write tasks opened s) (hreads : IgnoreRules.ReadFrom d sources)
    (hrules : Undisturbed d settings write sources tasks opened) {p : Pending} {rest : List Pending}
    (hahead : s.ahead.Perm (p :: rest)) :
    Reached d settings write tasks opened
      { s with ahead := p.next s.disk ++ rest, sent := s.sent ++ p.tasks s.disk } := by
  have hp : p ∈ s.ahead := hahead.symm.subset List.mem_cons_self
  have hfinds : p.tasks s.disk = p.tasks d ∧ p.next s.disk = p.next d := by
    by_cases hlevels : p.levels = 0
    · simp [Pending.tasks, Pending.next, Pending.finds, hlevels]
    · have hscope := h.scope_eq hreads hrules hp hlevels
      exact ⟨Pending.tasks_congr h.leaves.outline hscope, Pending.next_congr h.leaves.outline hscope⟩
  rw [hfinds.1, hfinds.2]
  refine ⟨?_, fun q hq => ?_, h.values, h.leaves⟩
  · refine (List.Perm.append_left _ ?_).trans h.perm
    have hcome : (s.ahead.flatMap (Pending.below d)).Perm
        ((p.tasks d ++ (p.next d).flatMap (Pending.below d)) ++ rest.flatMap (Pending.below d)) :=
      (hahead.flatMap_right _).trans ((p.perm_below d).append_right _)
    rw [List.flatMap_append]
    refine .trans ?_ (hcome.append_left s.sent).symm
    simp only [List.append_assoc]
    exact .rfl
  · rcases List.mem_append.1 hq with hq | hq
    · exact List.Subset.trans (Pending.opened_subset hq) (h.opened p hp)
    · exact h.opened q (hahead.symm.subset (List.mem_cons_of_mem _ hq))

/-- Performing a task. -/
theorem perform (wf : d.WellFormed) (htimeout : settings.timeout.all Duration.isZero)
    (hapart : tasks.Pairwise (Task.Apart d)) (h : Reached d settings write tasks opened s)
    (hrules : Undisturbed d settings write sources tasks opened) {task : Task} {rest : List Task}
    (hsent : s.sent.Perm (task :: rest)) (clock : Clock) :
    Reached d settings write tasks opened
      { s with
        disk := (@Task.perform (host.withClock clock) s.disk settings write task).disk
        sent := rest
        done := s.done ++
          [(task, (@Task.perform (host.withClock clock) s.disk settings write task).value)] } := by
  rw [Task.perform_withClock htimeout]
  have hperm : ((s.done.map Prod.fst ++ [task]) ++
      (rest ++ s.ahead.flatMap (Pending.below d))).Perm tasks := by
    refine .trans ?_ h.perm
    rw [List.append_assoc]
    exact .append_left _ (hsent.symm.append_right _)
  have htask : task ∈ tasks := hperm.subset (by simp)
  have hspares : ∀ t ∈ s.done.map Prod.fst, t.Spares d settings write task := by
    intro t ht
    have hapart' := (hperm.pairwise_iff fun h => h.symm).2 hapart
    rw [List.append_assoc, List.pairwise_append] at hapart'
    exact (hapart'.2.2 t ht task (by simp)).spares wf
      (hrules.targets t (h.mem_of_done ht) task htask)
  obtain ⟨hvalue, hleaves⟩ := h.leaves.step wf hspares
  refine ⟨by simpa using hperm, h.opened, fun e he => ?_, by simpa using hleaves⟩
  rcases List.mem_append.1 he with he | he
  · exact h.values e he
  · obtain rfl := List.mem_singleton.1 he
    exact hvalue

theorem step (wf : d.WellFormed) (htimeout : settings.timeout.all Duration.isZero)
    (hapart : tasks.Pairwise (Task.Apart d)) (hreads : IgnoreRules.ReadFrom d sources)
    (hrules : Undisturbed d settings write sources tasks opened)
    (h : Reached d settings write tasks opened s) (hstep : Step settings write s s') :
    Reached d settings write tasks opened s' := by
  cases hstep with
  | read hahead => exact h.read hreads hrules hahead
  | perform hsent clock => exact h.perform wf htimeout hapart hrules hsent clock

end Reached

/-- Every stage of a run was reached. -/
theorem Run.reached {s s' : Stage} (wf : s.disk.WellFormed)
    (htimeout : settings.timeout.all Duration.isZero) (hdone : s.done = [])
    (hapart : s.tasks.Pairwise (Task.Apart s.disk)) {sources : Path → List Path}
    (hreads : IgnoreRules.ReadFrom s.disk sources)
    (hrules : Undisturbed s.disk settings write sources s.tasks s.opened)
    (hrun : Run settings write s s') : Reached s.disk settings write s.tasks s.opened s' := by
  induction hrun with
  | refl => exact .start settings write hdone
  | tail _ hstep ih => exact ih.step wf htimeout hapart hreads hrules hstep

/-! ## Orders that a run can take -/

/-- Some directories and all that is below them can be read before anything else happens. -/
theorem exists_run_read (settings : Settings) (write : Bool) (levels : Nat) {ps rest : List Pending}
    (hps : ∀ p ∈ ps, p.levels < levels) {s : Stage} (hahead : s.ahead = ps ++ rest) :
    ∃ sent, sent.Perm (s.sent ++ ps.flatMap (Pending.below s.disk)) ∧
      Run settings write s { s with ahead := rest, sent } := by
  induction levels generalizing ps rest s with
  | zero =>
    obtain rfl : ps = [] := List.eq_nil_iff_forall_not_mem.2 fun p hp => absurd (hps p hp) (by omega)
    obtain ⟨disk, ahead, sent, done⟩ := s
    obtain rfl : ahead = rest := hahead
    exact ⟨sent, .of_eq (List.append_nil _).symm, .refl⟩
  | succ levels ih =>
    induction ps generalizing s with
    | nil =>
      obtain ⟨disk, ahead, sent, done⟩ := s
      obtain rfl : ahead = rest := hahead
      exact ⟨sent, .of_eq (List.append_nil _).symm, .refl⟩
    | cons p ps ihps =>
      have hread : Step settings write s _ := .read (.of_eq hahead)
      have hnext : ∀ q ∈ p.next s.disk, q.levels < levels :=
        fun q hq => Pending.levels_lt hq (hps p List.mem_cons_self)
      obtain ⟨sent, hsent, hbelow⟩ := @ih (p.next s.disk) (ps ++ rest) hnext { s with
          ahead := p.next s.disk ++ (ps ++ rest), sent := s.sent ++ p.tasks s.disk } rfl
      obtain ⟨sent', hsent', hrest⟩ := @ihps
        (fun q hq => hps q (List.mem_cons_of_mem _ hq)) { s with ahead := ps ++ rest, sent } rfl
      refine ⟨sent', hsent'.trans ?_, .head hread (hbelow.trans hrest)⟩
      refine (hsent.append_right _).trans ?_
      rw [List.flatMap_cons, List.append_assoc, List.append_assoc, ← List.append_assoc (p.tasks s.disk)]
      exact ((p.perm_below s.disk).symm.append_right _).append_left _

/-- The walk can come first. -/
theorem exists_run_walk (settings : Settings) (write : Bool) (s : Stage) :
    ∃ sent, sent.Perm s.tasks ∧ Run settings write s { s with ahead := [], sent } := by
  refine exists_run_read settings write ((s.ahead.map Pending.levels).sum + 1) (fun p hp => ?_)
    (List.append_nil _).symm
  exact Nat.lt_succ_of_le (List.single_le_sum (fun _ _ => Nat.zero_le _) _ (List.mem_map_of_mem hp))

/-- The tasks of a stage that has no directory ahead can be performed in any order. -/
theorem exists_run_perform (settings : Settings) (write : Bool) {order : List Task} {s : Stage}
    (hahead : s.ahead = []) (hsent : s.sent.Perm order) :
    ∃ s', Run settings write s s' ∧ s'.IsOver ∧
      s'.done.map Prod.fst = s.done.map Prod.fst ++ order ∧
      ∀ results, (Task.performAll s.disk settings write order).value = .ok results →
        s'.done.map Prod.snd = s.done.map Prod.snd ++ results.map .ok ∧
        s'.disk = (Task.performAll s.disk settings write order).disk := by
  induction order generalizing s with
  | nil =>
    refine ⟨s, .refl, ⟨hahead, hsent.eq_nil⟩, (List.append_nil _).symm, fun results hresults => ?_⟩
    obtain rfl := Except.ok.inj hresults
    exact ⟨(List.append_nil _).symm, rfl⟩
  | cons task order ih =>
    obtain ⟨s', hrun, hover, hdone, hresults⟩ := ih (s := { s with
      disk := (task.perform s.disk settings write).disk
      sent := order
      done := s.done ++ [(task, (task.perform s.disk settings write).value)] }) hahead .rfl
    refine ⟨s', .head (.perform hsent host.toClock) hrun, hover, by simpa using hdone,
      fun results hall => ?_⟩
    cases hfirst : (task.perform s.disk settings write).value with
    | error failure => simp [(Task.performAll_cons_of_error hfirst order).1] at hall
    | ok result =>
      obtain ⟨hvalue, hdisk⟩ := Task.performAll_cons_of_ok hfirst order
      rw [hvalue] at hall
      cases hrest : (Task.performAll (task.perform s.disk settings write).disk settings write
          order).value with
      | error failure => simp [hrest, Except.map] at hall
      | ok rest =>
        obtain rfl : result :: rest = results := by simpa [hrest, Except.map] using hall
        obtain ⟨hends, hlast⟩ := hresults rest hrest
        exact ⟨by simpa [hfirst] using hends, hlast.trans hdisk.symm⟩

/-- Every order of the tasks is that of a run. -/
theorem exists_run (settings : Settings) (write : Bool) {s : Stage} (hdone : s.done = [])
    {order : List Task} (horder : order.Perm s.tasks) :
    ∃ s', Run settings write s s' ∧ s'.IsOver ∧ s'.done.map Prod.fst = order ∧
      ∀ results, (Task.performAll s.disk settings write order).value = .ok results →
        s'.done.map Prod.snd = results.map .ok ∧
        s'.disk = (Task.performAll s.disk settings write order).disk := by
  obtain ⟨sent, hsent, hwalk⟩ := exists_run_walk settings write s
  obtain ⟨s', hrun, hover, hall, hresults⟩ := exists_run_perform settings write
    (s := { s with ahead := [], sent }) rfl (hsent.trans horder.symm)
  simp only [hdone, List.map_nil, List.nil_append] at hall hresults
  exact ⟨s', hwalk.trans hrun, hover, hall, hresults⟩

/-- At the end all tasks of the batch are done, each once. -/
theorem Reached.perm_of_isOver {tasks : List Task} {opened : List Path} {s : Stage}
    (h : Reached d settings write tasks opened s) (hover : s.IsOver) :
    (s.done.map Prod.fst).Perm tasks := by
  simpa [hover.ahead, hover.sent] using h.perm

end Stage

end Uncomment
