import Mathlib
import Uncomment.Process
import Uncomment.Proofs.Files

/-! What a batch works through: tasks that are performed one by one, each on the disk that the one
before it left. -/
namespace Uncomment

namespace Effect
variable {ε α β : Type}

@[simp] theorem value_map (f : α → β) (e : Effect α) : (e.map f).value = f e.value := rfl
@[simp] theorem disk_map (f : α → β) (e : Effect α) : (e.map f).disk = e.disk := rfl
@[simp] theorem value_after (log : List LogLine) (e : Effect α) : (e.after log).value = e.value := rfl
@[simp] theorem disk_after (log : List LogLine) (e : Effect α) : (e.after log).disk = e.disk := rfl

theorem andThen_of_error {e : Effect (Except ε α)} {fault : ε} (h : e.value = .error fault)
    (next : α → Disk → Effect (Except ε β)) : e.andThen next = ⟨.error fault, e.disk, e.log⟩ := by
  simp [andThen, h]

theorem andThen_of_ok {e : Effect (Except ε α)} {a : α} (h : e.value = .ok a)
    (next : α → Disk → Effect (Except ε β)) : e.andThen next = (next a e.disk).after e.log := by
  simp [andThen, h]

theorem forEach_map {γ : Type} (step : Disk → β → Effect (Except ε γ)) (f : α → β) (d : Disk)
    (as : List α) : forEach step d (as.map f) = forEach (fun d a => step d (f a)) d as := by
  induction as generalizing d with
  | nil => rfl
  | cons a as ih =>
    rw [List.map_cons, forEach, forEach]
    simp only [ih]

end Effect

/-- What a batch works through: items of a walk, or files that are targets themselves. -/
inductive Task where
  | item (item : WalkItem)
  | target (path : Path)
  deriving DecidableEq, Repr

namespace Task

/-- The path that a task is reported under. -/
def path : Task → Path
  | .item (.file path) => path
  | .item (.failed path _) => path
  | .target path => path

section
variable [Host]

/-- Process an item of a walk or a named file. -/
def perform (d : Disk) (settings : Settings) (write : Bool) : Task → Effect (Except Failure FileResult)
  | .item i => (processItem d settings write i).map .ok
  | .target path => processTarget d settings write path

/-- The result of a task that is performed on the disk `d`. -/
def Yields (d : Disk) (settings : Settings) (write : Bool) (task : Task) (result : FileResult) : Prop :=
  (task.perform d settings write).value = .ok result

theorem Yields.unique {d : Disk} {settings : Settings} {write : Bool} :
    Relator.RightUnique (Yields d settings write) :=
  fun _ _ _ hr hr' => Except.ok.inj (hr.symm.trans hr')

/-- Perform tasks in the given order. The results come in that order too. -/
def performAll (d : Disk) (settings : Settings) (write : Bool) (tasks : List Task) :
    Effect (Except Failure (List FileResult)) :=
  Effect.forEach (fun d task => task.perform d settings write) d tasks

variable {d : Disk} {settings : Settings} {write : Bool}

theorem performAll_cons_of_error {task : Task} {failure : Failure}
    (h : (task.perform d settings write).value = .error failure) (rest : List Task) :
    (performAll d settings write (task :: rest)).value = .error failure ∧
      (performAll d settings write (task :: rest)).disk = (task.perform d settings write).disk := by
  rw [performAll, Effect.forEach, Effect.andThen_of_error h]
  exact ⟨rfl, rfl⟩

theorem performAll_cons_of_ok {task : Task} {result : FileResult}
    (h : task.Yields d settings write result) (rest : List Task) :
    (performAll d settings write (task :: rest)).value =
        (performAll (task.perform d settings write).disk settings write rest).value.map (result :: ·) ∧
      (performAll d settings write (task :: rest)).disk =
        (performAll (task.perform d settings write).disk settings write rest).disk := by
  rw [performAll, Effect.forEach, Effect.andThen_of_ok h]
  exact ⟨rfl, rfl⟩

/-! ## Refusals -/

/-- Why a task has no result. Only exclude patterns that cannot be read are a reason, and they
concern all targets alike. -/
def refusal? (settings : Settings) : Task → Option Failure
  | .item _ => none
  | .target _ =>
    match Exclusion.ofPatterns settings.walk.exclude with
    | .error failure => some failure
    | .ok _ => none

theorem perform_of_refusal {task : Task} {failure : Failure}
    (h : task.refusal? settings = some failure) (d : Disk) (write : Bool) :
    (task.perform d settings write).value = .error failure ∧
      (task.perform d settings write).disk = d := by
  cases task with
  | item i => simp [refusal?] at h
  | target p =>
    rw [refusal?] at h
    cases hexclusion : Exclusion.ofPatterns settings.walk.exclude with
    | ok exclusion => simp [hexclusion] at h
    | error fault =>
      obtain rfl : fault = failure := by simpa [hexclusion] using h
      rw [perform, processTarget, hexclusion]
      exact ⟨rfl, rfl⟩

theorem perform_of_no_refusal {task : Task} (h : task.refusal? settings = none) (d : Disk)
    (write : Bool) : ∃ result, task.Yields d settings write result := by
  cases task with
  | item i => exact ⟨_, rfl⟩
  | target p =>
    rw [refusal?] at h
    cases hexclusion : Exclusion.ofPatterns settings.walk.exclude with
    | error failure => simp [hexclusion] at h
    | ok exclusion =>
      simp only [Yields, perform, processTarget, hexclusion]
      split_ifs
      · exact ⟨_, rfl⟩
      · exact ⟨_, rfl⟩
      · exact ⟨_, rfl⟩

/-- When all tasks are refused, the first one ends the run before anything is changed. -/
theorem performAll_of_refusal {tasks : List Task} (hne : tasks ≠ []) {failure : Failure}
    (h : ∀ task ∈ tasks, task.refusal? settings = some failure) (d : Disk) (write : Bool) :
    (performAll d settings write tasks).value = .error failure ∧
      (performAll d settings write tasks).disk = d := by
  obtain ⟨task, rest, rfl⟩ := List.exists_cons_of_ne_nil hne
  obtain ⟨hvalue, hdisk⟩ := perform_of_refusal (h task List.mem_cons_self) d write
  obtain ⟨hall, hlast⟩ := performAll_cons_of_error hvalue rest
  exact ⟨hall, hlast.trans hdisk⟩

theorem performAll_of_no_refusal {tasks : List Task}
    (h : ∀ task ∈ tasks, task.refusal? settings = none) (d : Disk) (write : Bool) :
    ∃ results, (performAll d settings write tasks).value = .ok results := by
  induction tasks generalizing d with
  | nil => exact ⟨[], rfl⟩
  | cons task rest ih =>
    obtain ⟨result, hresult⟩ := perform_of_no_refusal (h task List.mem_cons_self) d write
    obtain ⟨results, hresults⟩ := ih (fun t ht => h t (List.mem_cons_of_mem _ ht))
      (task.perform d settings write).disk
    exact ⟨result :: results, by rw [(performAll_cons_of_ok hresult rest).1, hresults]; rfl⟩

end

end Task

end Uncomment
