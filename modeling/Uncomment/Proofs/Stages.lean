import Mathlib
import Uncomment.Process
import Uncomment.Proofs.Tasks

/-! A batch at work. A walk reads the directories it has come upon while workers perform the tasks
that it has sent, in any order; a batch as a whole is one such run, with the walk first. -/
namespace Uncomment

/-- A directory that a walk has come upon and not read yet. -/
structure Pending [IgnoreRules] where
  plan : Walk.Plan
  /-- The rules in force around the directory. -/
  around : IgnoreRules.Scope
  directory : Path
  /-- How many levels down the walk goes from here. -/
  levels : Nat

/-- The tasks among the finds of a walk. -/
def Walk.Find.task? : Walk.Find → Option Task
  | .item i => some (.item i)
  | .directory _ => none

/-- The directories among the finds of a walk, with what it goes on by. -/
def Walk.Find.pending? [IgnoreRules] (plan : Walk.Plan) (around : IgnoreRules.Scope) (levels : Nat) :
    Walk.Find → Option Pending
  | .item _ => none
  | .directory path => some ⟨plan, around, path, levels⟩

/-- Directories that a walk reads, from a directory at most `levels` levels down. -/
def Walk.opened [IgnoreRules] (d : Disk) (plan : Walk.Plan) (around : IgnoreRules.Scope)
    (directory : Path) : Nat → List Path
  | 0 => []
  | levels + 1 =>
    let scope := IgnoreRules.enter d plan.ignoring around directory
    directory :: (Walk.visit d plan scope directory).flatMap fun
      | .item _ => []
      | .directory path => opened d plan scope path levels

namespace Pending
variable [IgnoreRules]

/-- The rules in force in the directory. -/
def scope (d : Disk) (p : Pending) : IgnoreRules.Scope :=
  IgnoreRules.enter d p.plan.ignoring p.around p.directory

/-- What is found when the directory is read. -/
def finds (d : Disk) (p : Pending) : List Walk.Find :=
  match p.levels with
  | 0 => []
  | _ + 1 => Walk.visit d p.plan (p.scope d) p.directory

def tasks (d : Disk) (p : Pending) : List Task := (p.finds d).filterMap Walk.Find.task?

def next (d : Disk) (p : Pending) : List Pending :=
  (p.finds d).filterMap (Walk.Find.pending? p.plan (p.scope d) (p.levels - 1))

/-- All tasks that come from the directory and from those below it. -/
def below (d : Disk) (p : Pending) : List Task :=
  (Walk.below d p.plan p.around p.directory p.levels).map Task.item

def opened (d : Disk) (p : Pending) : List Path :=
  Walk.opened d p.plan p.around p.directory p.levels

end Pending

/-- A batch at work: the disk, the directories still to read, the tasks sent, and the tasks done with
what came of them. -/
structure Stage [IgnoreRules] where
  disk : Disk
  ahead : List Pending := []
  sent : List Task := []
  done : List (Task × Except Failure FileResult) := []

/-- The host with another clock. -/
abbrev Host.withClock (host : Host) (clock : Clock) : Host := { host with toClock := clock }

namespace Stage
variable [host : Host]

/-- A step of a batch. The walk reads a directory, together with the ignore files in it, as they are
by then; or a worker performs one of the tasks sent, from reading the file to writing it. -/
inductive Step (settings : Settings) (write : Bool) : Stage → Stage → Prop
  | read {s : Stage} {p : Pending} {rest : List Pending} (ahead : s.ahead.Perm (p :: rest)) :
    Step settings write s
      { s with ahead := p.next s.disk ++ rest, sent := s.sent ++ p.tasks s.disk }
  | perform {s : Stage} {task : Task} {rest : List Task} (sent : s.sent.Perm (task :: rest))
      (clock : Clock) :
    Step settings write s
      { s with
        disk := (@Task.perform (host.withClock clock) s.disk settings write task).disk
        sent := rest
        done := s.done ++
          [(task, (@Task.perform (host.withClock clock) s.disk settings write task).value)] }

/-- A run of a batch: some steps, in an order that is left open. -/
def Run (settings : Settings) (write : Bool) : Stage → Stage → Prop :=
  Relation.ReflTransGen (Step settings write)

/-- Everything is read and performed. -/
structure IsOver (s : Stage) : Prop where
  ahead : s.ahead = []
  sent : s.sent = []

/-- The tasks sent and those to come. -/
def tasks (s : Stage) : List Task := s.sent ++ s.ahead.flatMap (Pending.below s.disk)

/-- The directories that are going to be read. -/
def opened (s : Stage) : List Path := s.ahead.flatMap (Pending.opened s.disk)

/-- A walk about to begin. -/
def ofPlan (d : Disk) (plan : Walk.Plan) (levels : Nat) : Stage where
  disk := d
  ahead := (Walk.start d plan).filterMap
    (Walk.Find.pending? plan (IgnoreRules.above d plan.ignoring plan.root) levels)
  sent := (Walk.start d plan).filterMap Walk.Find.task?

/-- What the batch for a root begins with, or why there is nothing to begin with. -/
def start (d : Disk) (settings : Settings) (recursive : Bool) (root : Path) : Except Failure Stage :=
  if GlobTarget.isPattern d root then do
    let paths ← (expandGlob d settings.walk root).value
    startPool settings
    return { disk := d, sent := paths.map Task.target }
  else match d.stat root with
    | .error fault => .error (.ofRead root fault)
    | .ok .directory => do
      startPool settings
      let plan ← (Walk.Plan.ofOptions { settings.walk with recursive } root).mapError
        (Failure.context ("walking " ++ root.display))
      return ofPlan d plan (Walk.levels d recursive)
    | .ok _ => .ok { disk := d, sent := [.target root] }

end Stage

/-! ## The tasks of a batch in their order -/

theorem Walk.flatMap_items (goDown : Path → List WalkItem) (items : List WalkItem) :
    (items.map Find.item).flatMap (Find.items goDown) = items := by
  rw [List.flatMap_map]
  exact List.flatMap_singleton' items

theorem Walk.perm_flatMap_finds [IgnoreRules] (plan : Walk.Plan) (around : IgnoreRules.Scope)
    (levels : Nat) (f : Path → List WalkItem) (finds : List Walk.Find) :
    ((finds.flatMap (Find.items f)).map Task.item).Perm
      (finds.filterMap Walk.Find.task? ++
        (finds.filterMap (Walk.Find.pending? plan around levels)).flatMap
          fun p => (f p.directory).map Task.item) := by
  induction finds with
  | nil => exact .nil
  | cons find finds ih =>
    cases find with
    | item i => exact ih.cons (.item i)
    | directory path =>
      rw [List.flatMap_cons, List.map_append]
      refine (ih.append_left _).trans ?_
      rw [← List.append_assoc]
      refine (List.perm_append_comm.append_right _).trans ?_
      rw [List.append_assoc]
      exact .rfl

namespace Pending
variable [IgnoreRules]

/-- What comes from a directory is in it or comes from the directories found in it. -/
theorem perm_below (d : Disk) (p : Pending) :
    (p.below d).Perm (p.tasks d ++ (p.next d).flatMap (below d)) := by
  obtain ⟨plan, around, directory, levels⟩ := p
  cases levels with
  | zero => exact .nil
  | succ levels =>
    refine (Walk.perm_flatMap_finds plan (IgnoreRules.enter d plan.ignoring around directory) levels _
      _).trans (.of_eq ?_)
    refine congrArg _ (List.flatMap_congr fun q hq => ?_)
    obtain ⟨find, -, hfind⟩ := List.mem_filterMap.1 hq
    cases find with
    | item i => cases hfind
    | directory path =>
      obtain rfl := Option.some.inj hfind
      rfl

theorem directory_mem_opened {d : Disk} {p : Pending} (h : p.levels ≠ 0) :
    p.directory ∈ p.opened d := by
  obtain ⟨plan, around, directory, levels⟩ := p
  cases levels with
  | zero => exact absurd rfl h
  | succ levels => exact List.mem_cons_self

theorem levels_lt {d : Disk} {p q : Pending} (hq : q ∈ p.next d) {levels : Nat}
    (h : p.levels < levels + 1) : q.levels < levels := by
  obtain ⟨plan, around, directory, n⟩ := p
  obtain ⟨find, hfind, hpending⟩ := List.mem_filterMap.1 hq
  cases n with
  | zero => cases hfind
  | succ n =>
    cases find with
    | item i => cases hpending
    | directory path =>
      obtain rfl := Option.some.inj hpending
      exact Nat.lt_of_succ_lt_succ h

theorem opened_subset {d : Disk} {p q : Pending} (hq : q ∈ p.next d) : q.opened d ⊆ p.opened d := by
  obtain ⟨plan, around, directory, levels⟩ := p
  obtain ⟨find, hfind, hpending⟩ := List.mem_filterMap.1 hq
  cases levels with
  | zero => cases hfind
  | succ levels =>
    cases find with
    | item i => cases hpending
    | directory path =>
      obtain rfl := Option.some.inj hpending
      intro place hplace
      exact List.mem_cons_of_mem _ (List.mem_flatMap.2 ⟨_, hfind, hplace⟩)

end Pending

/-- A walk is over with at most one item, or it begins with faults and then goes down its root. -/
theorem Walk.start_cases [IgnoreRules] (d : Disk) (plan : Walk.Plan) :
    (∃ items : List WalkItem, items.length ≤ 1 ∧ start d plan = items.map .item) ∨
      d.stat plan.root = .ok .directory ∧ ∃ faults : List (Path × String),
        start d plan = (faults.map fun e => .failed e.1 e.2).map .item ++ [.directory plan.root] := by
  rw [start]
  split_ifs
  · exact .inl ⟨[], Nat.zero_le _, rfl⟩
  · cases hstat : d.stat plan.root with
    | error fault => exact .inl ⟨[faultItem plan.root fault], le_rfl, rfl⟩
    | ok node =>
      have hfile : (fileItem plan.root).length ≤ 1 := by
        rw [fileItem]
        split_ifs <;> simp
      cases node with
      | directory =>
        refine .inr ⟨rfl, (IgnoreRules.faultsAbove d plan.ignoring plan.root).1, ?_⟩
        rw [List.map_map]
        rfl
      | file content mode => exact .inl ⟨_, hfile, rfl⟩
      | link target => exact .inl ⟨_, hfile, rfl⟩

namespace Stage
variable [Host] {d : Disk} {settings : Settings} {recursive : Bool} {root : Path} {s : Stage}

/-- A walk that goes on by itself sends its items in the order of the directories. -/
theorem tasks_ofPlan (d : Disk) (plan : Walk.Plan) (levels : Nat) :
    (ofPlan d plan levels).tasks = (Walk.ofPlan d plan levels).items.map Task.item := by
  have htask : ∀ items : List WalkItem,
      (items.map Walk.Find.item).filterMap Walk.Find.task? = items.map Task.item := fun items => by
    rw [List.filterMap_map]
    exact congrFun List.filterMap_eq_map items
  have hpending : ∀ items : List WalkItem, ∀ around : IgnoreRules.Scope,
      (items.map Walk.Find.item).filterMap (Walk.Find.pending? plan around levels) = [] :=
    fun items around => by simp [List.filterMap_map, Function.comp_def, Walk.Find.pending?]
  rw [tasks, ofPlan, Walk.ofPlan]
  obtain ⟨items, -, hstart⟩ | ⟨-, faults, hstart⟩ := Walk.start_cases d plan
  · rw [hstart, Walk.flatMap_items, htask, hpending]
    exact List.append_nil _
  · simp only [hstart, List.filterMap_append, htask, hpending, List.flatMap_append,
      Walk.flatMap_items, List.map_append]
    simp [Walk.Find.task?, Walk.Find.pending?, Walk.Find.items, Pending.below]

/-- A batch begins with targets alone or with a walk. -/
theorem start_cases (h : start d settings recursive root = .ok s) :
    (∃ paths : List Path, s = { disk := d, sent := paths.map .target } ∧
        (GlobTarget.isPattern d root ∧ (expandGlob d settings.walk root).value = .ok paths ∨
          paths = [root])) ∨
      ∃ plan, s = ofPlan d plan (Walk.levels d recursive) := by
  rw [start] at h
  split_ifs at h with hpattern
  · cases hpaths : (expandGlob d settings.walk root).value with
    | error failure => simp [hpaths, bind, Except.bind] at h
    | ok paths =>
      cases hpool : startPool settings with
      | error failure => simp [hpaths, hpool, bind, Except.bind] at h
      | ok =>
        refine .inl ⟨paths, ?_, .inl ⟨hpattern, rfl⟩⟩
        simpa [hpaths, hpool, bind, Except.bind, pure, Except.pure] using h.symm
  · split at h
    · cases h
    · cases hpool : startPool settings with
      | error failure => simp [hpool, bind, Except.bind] at h
      | ok =>
        cases hplan : (Walk.Plan.ofOptions { settings.walk with recursive } root).mapError
            (Failure.context ("walking " ++ root.display)) with
        | error failure => simp [hpool, hplan, bind, Except.bind] at h
        | ok plan =>
          refine .inr ⟨plan, ?_⟩
          simpa [hpool, hplan, bind, Except.bind, pure, Except.pure] using h.symm
    · exact .inl ⟨[root], (Except.ok.inj h).symm, .inr rfl⟩

theorem tasks_ofTargets (d : Disk) (paths : List Path) :
    ({ disk := d, sent := paths.map .target } : Stage).tasks = paths.map .target :=
  List.append_nil _

theorem disk_of_start (h : start d settings recursive root = .ok s) : s.disk = d := by
  obtain ⟨paths, rfl, -⟩ | ⟨plan, rfl⟩ := start_cases h <;> rfl

theorem done_of_start (h : start d settings recursive root = .ok s) : s.done = [] := by
  obtain ⟨paths, rfl, -⟩ | ⟨plan, rfl⟩ := start_cases h <;> rfl

/-- The tasks of one root are all refused or none of them is. -/
theorem refused_or_admitted (h : start d settings recursive root = .ok s) :
    (s.tasks ≠ [] ∧ ∃ failure, ∀ task ∈ s.tasks, task.refusal? settings = some failure) ∨
      ∀ task ∈ s.tasks, task.refusal? settings = none := by
  obtain ⟨paths, rfl, -⟩ | ⟨plan, rfl⟩ := start_cases h
  · have htargets : ∀ task ∈ paths.map Task.target,
        task.refusal? settings = (Task.target root).refusal? settings := by
      intro task htask
      obtain ⟨path, -, rfl⟩ := List.mem_map.1 htask
      rfl
    rw [tasks_ofTargets]
    cases hrefusal : (Task.target root).refusal? settings with
    | none => exact .inr fun task htask => (htargets task htask).trans hrefusal
    | some failure =>
      by_cases hne : paths.map Task.target = []
      · exact .inr (by simp [hne])
      · exact .inl ⟨hne, failure, fun task htask => (htargets task htask).trans hrefusal⟩
  · refine .inr fun task htask => ?_
    rw [tasks_ofPlan] at htask
    obtain ⟨i, -, rfl⟩ := List.mem_map.1 htask
    rfl

end Stage

/-! ## The batch as a whole -/

theorem disk_expandGlob [Globs] (d : Disk) (options : WalkOptions) (pattern : Path) :
    (expandGlob d options pattern).disk = d := by
  rw [expandGlob]
  split
  · rfl
  · dsimp only
    split_ifs <;> rfl

/-- A run over the tasks of a batch, with its results collected. -/
theorem summarize_performAll {e : Effect (Except Failure (List FileResult))}
    (note : Batch → List LogLine) :
    (e.andThen (summarize note)).value = e.value.map Batch.ofResults ∧
      (e.andThen (summarize note)).disk = e.disk := by
  cases h : e.value with
  | error failure =>
    rw [Effect.andThen_of_error h]
    exact ⟨rfl, rfl⟩
  | ok results =>
    rw [Effect.andThen_of_ok h]
    exact ⟨rfl, rfl⟩

section
variable [Host]

theorem processTarget_alone (d : Disk) (settings : Settings) (write : Bool) (root : Path) :
    ((processTarget d settings write root).andThen fun result d =>
          summarize (fun _ => []) [result] d).value =
        (Task.performAll d settings write [.target root]).value.map Batch.ofResults ∧
      ((processTarget d settings write root).andThen fun result d =>
          summarize (fun _ => []) [result] d).disk =
        (Task.performAll d settings write [.target root]).disk := by
  have hperform : (Task.target root).perform d settings write = processTarget d settings write root := rfl
  cases h : (processTarget d settings write root).value with
  | error failure =>
    obtain ⟨hvalue, hdisk⟩ := Task.performAll_cons_of_error (hperform ▸ h) []
    rw [hvalue, hdisk, Effect.andThen_of_error h]
    exact ⟨rfl, rfl⟩
  | ok result =>
    obtain ⟨hvalue, hdisk⟩ := Task.performAll_cons_of_ok (hperform ▸ h) []
    rw [hvalue, hdisk, Effect.andThen_of_ok h]
    exact ⟨rfl, rfl⟩

/-- The batch for a directory, when the pool has started. -/
theorem processDirectory_cases (d : Disk) (settings : Settings) (recursive write : Bool) (root : Path)
    (hpool : startPool settings = .ok ()) :
    (∃ failure, Walk.Plan.ofOptions { settings.walk with recursive } root = .error failure ∧
        (processDirectory d settings recursive write root).value =
          .error (.context ("walking " ++ root.display) failure) ∧
        (processDirectory d settings recursive write root).disk = d) ∨
      ∃ plan, Walk.Plan.ofOptions { settings.walk with recursive } root = .ok plan ∧
        (processDirectory d settings recursive write root).value = (Task.performAll d settings write
          (Stage.ofPlan d plan (Walk.levels d recursive)).tasks).value.map Batch.ofResults ∧
        (processDirectory d settings recursive write root).disk = (Task.performAll d settings write
          (Stage.ofPlan d plan (Walk.levels d recursive)).tasks).disk := by
  rw [processDirectory, hpool, walk]
  cases Walk.Plan.ofOptions { settings.walk with recursive } root with
  | error failure => exact .inl ⟨failure, rfl, rfl, rfl⟩
  | ok plan =>
    refine .inr ⟨plan, rfl, ?_⟩
    rw [Stage.tasks_ofPlan, Task.performAll, Effect.forEach_map]
    exact summarize_performAll _

/-- A batch is what it begins with and a run over its tasks. -/
theorem processBatch_cases (d : Disk) (settings : Settings) (recursive write : Bool) (root : Path) :
    (∃ failure, Stage.start d settings recursive root = .error failure ∧
        (processBatch d settings recursive write root).value = .error failure ∧
        (processBatch d settings recursive write root).disk = d) ∨
      ∃ s, Stage.start d settings recursive root = .ok s ∧
        (processBatch d settings recursive write root).value =
          (Task.performAll d settings write s.tasks).value.map Batch.ofResults ∧
        (processBatch d settings recursive write root).disk =
          (Task.performAll d settings write s.tasks).disk := by
  rw [Stage.start, processBatch]
  split_ifs with hpattern
  · rw [processGlob]
    cases hpaths : (expandGlob d settings.walk root).value with
    | error failure =>
      rw [Effect.andThen_of_error hpaths]
      exact .inl ⟨failure, rfl, rfl, disk_expandGlob ..⟩
    | ok paths =>
      rw [Effect.andThen_of_ok hpaths, disk_expandGlob]
      cases hpool : startPool settings with
      | error failure => exact .inl ⟨failure, rfl, rfl, rfl⟩
      | ok =>
        refine .inr ⟨_, rfl, ?_⟩
        rw [Stage.tasks_ofTargets, Task.performAll, Effect.forEach_map]
        exact summarize_performAll _
  · cases hroot : d.stat root with
    | error fault => exact .inl ⟨_, rfl, rfl, rfl⟩
    | ok node =>
      cases node with
      | directory =>
        dsimp only
        cases hpool : startPool settings with
        | error failure =>
          rw [processDirectory, hpool]
          exact .inl ⟨failure, rfl, rfl, rfl⟩
        | ok =>
          obtain ⟨failure, hplan, hbatch⟩ | ⟨plan, hplan, hbatch⟩ :=
            processDirectory_cases d settings recursive write root hpool
          · exact .inl ⟨_, by rw [hplan]; rfl, hbatch⟩
          · exact .inr ⟨_, by rw [hplan]; rfl, hbatch⟩
      | file content mode => exact .inr ⟨_, rfl, processTarget_alone d settings write root⟩
      | link target => exact .inr ⟨_, rfl, processTarget_alone d settings write root⟩

theorem processBatch_of_start {d : Disk} {settings : Settings} {recursive : Bool} {root : Path}
    {s : Stage} (h : Stage.start d settings recursive root = .ok s) (write : Bool) :
    (processBatch d settings recursive write root).value =
        (Task.performAll d settings write s.tasks).value.map Batch.ofResults ∧
      (processBatch d settings recursive write root).disk =
        (Task.performAll d settings write s.tasks).disk := by
  obtain ⟨_, herror, -⟩ | ⟨_, hsame, hbatch⟩ := processBatch_cases d settings recursive write root
  · simp [h] at herror
  · obtain rfl : s = _ := Except.ok.inj (h.symm.trans hsame)
    exact hbatch

theorem processBatch_of_start_error {d : Disk} {settings : Settings} {recursive : Bool}
    {root : Path} {failure : Failure}
    (h : Stage.start d settings recursive root = .error failure) (write : Bool) :
    (processBatch d settings recursive write root).value = .error failure := by
  obtain ⟨_, hsame, hvalue, -⟩ | ⟨_, hok, -⟩ := processBatch_cases d settings recursive write root
  · obtain rfl := Except.error.inj (h.symm.trans hsame)
    exact hvalue
  · simp [h] at hok

end

end Uncomment
