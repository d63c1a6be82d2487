import Mathlib
import Uncomment.Process
import Uncomment.Proofs.Enumeration

/-! The tasks of a batch are about different files, and apart from entries that could not be looked
at they have different paths. -/
namespace Uncomment

namespace Task

/-- A task for an entry that could not be looked at. -/
def isFault : Task → Bool
  | .item (.failed ..) => true
  | _ => false

/-- Two tasks are about different files, and only a fault can have the path of another task. -/
structure Apart (d : Disk) (s t : Task) : Prop where
  paths : s.path.components = t.path.components → s.isFault ∨ t.isFault
  files : s.isFault = false → t.isFault = false →
    ∀ loc, d.reach true s.path = .ok loc → d.reach true t.path ≠ .ok loc

variable {d : Disk}

theorem Apart.symm {s t : Task} (h : Apart d s t) : Apart d t s :=
  ⟨fun heq => (h.paths heq.symm).symm, fun ht hs loc hloc hloc' => h.files hs ht loc hloc' hloc⟩

theorem Apart.of_paths {s t : Task} (h : d.Apart s.path t.path) : Apart d s t :=
  ⟨fun heq => absurd heq h.components, fun _ _ => h.reach⟩

theorem Apart.of_fault {s t : Task} (h : s.isFault) : Apart d s t :=
  ⟨fun _ => .inl h, fun hno => by simp [h] at hno⟩

end Task

namespace Walk
variable [IgnoreRules] {d : Disk}

theorem apart_below (wf : d.WellFormed) (p : Plan) (around : IgnoreRules.Scope) {directory : Path}
    {place : Location} (h : d.reach true directory = .ok place) (levels : Nat) :
    ((below d p around directory levels).map Task.item).Pairwise (Task.Apart d) := by
  have hapart := (enumerates_below wf p around h levels).1.apart (Disk.reach_eq_ok.1 h).2.1
  rw [List.pairwise_map] at hapart ⊢
  refine hapart.imp fun {i j} hij => .of_paths ?_
  cases i <;> cases j <;> exact hij

theorem apart_ofPlan (wf : d.WellFormed) (p : Plan) (levels : Nat) :
    ((ofPlan d p levels).items.map Task.item).Pairwise (Task.Apart d) := by
  obtain ⟨items, hlength, hstart⟩ | ⟨hstat, faults, hstart⟩ := start_cases d p
  · rw [ofPlan, hstart, flatMap_items]
    rcases Nat.le_one_iff_eq_zero_or_eq_one.1 hlength with hnone | hone
    · rw [List.length_eq_zero_iff.1 hnone]
      exact .nil
    · obtain ⟨item, rfl⟩ := List.length_eq_one_iff.1 hone
      exact List.pairwise_singleton _ _
  · obtain ⟨place, hresolve, -⟩ := Disk.stat_eq_ok.1 hstat
    have hfaults : ∀ s ∈ (faults.map fun e => WalkItem.failed e.1 e.2).map Task.item, s.isFault := by
      intro s hs
      obtain ⟨i, hi, rfl⟩ := List.mem_map.1 hs
      obtain ⟨e, -, rfl⟩ := List.mem_map.1 hi
      rfl
    rw [ofPlan, hstart, List.flatMap_append, flatMap_items, List.map_append]
    refine List.pairwise_append.2 ⟨?_, ?_, fun s hs t _ => .of_fault (hfaults s hs)⟩
    · exact List.pairwise_of_forall_mem_list fun s hs t _ => .of_fault (hfaults s hs)
    · rw [List.flatMap_singleton]
      exact apart_below wf p _ (Disk.reach_of_resolve hresolve) levels

end Walk

/-- The tasks of a batch are apart. -/
theorem Stage.apart_of_start [Host] {d : Disk} (wf : d.WellFormed) {settings : Settings}
    {recursive : Bool} {root : Path} {s : Stage} (h : start d settings recursive root = .ok s) :
    s.tasks.Pairwise (Task.Apart d) := by
  obtain ⟨paths, rfl, ⟨-, hpaths⟩ | rfl⟩ | ⟨plan, rfl⟩ := start_cases h
  · rw [tasks_ofTargets, List.pairwise_map]
    exact (apart_expandGlob wf hpaths).imp fun hpq => .of_paths hpq
  · rw [tasks_ofTargets]
    exact List.pairwise_singleton _ _
  · rw [tasks_ofPlan]
    exact Walk.apart_ofPlan wf plan _

end Uncomment
