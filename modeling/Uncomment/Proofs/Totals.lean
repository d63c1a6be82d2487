import Mathlib
import Uncomment.Batch
import Uncomment.Proofs.Paths

/-! Collected results. A batch has its results in the order of their paths, results of one path in
the order in which they came, and its totals count them whatever that order was. -/
namespace Uncomment

namespace FileResult

/-- A result is a success, a skip or an error, and only one of them. -/
theorem kinds (r : FileResult) :
    r.isSuccess.toNat + r.isSkipped.toNat + r.isError.toNat = 1 := by
  cases h : r.outcome <;> simp [isSuccess, isSkipped, isError, errorKind?, h]

theorem of_isSkipped {r : FileResult} (h : r.isSkipped) : r.isSuccess = false ∧ r.isError = false := by
  have hkinds := r.kinds
  rw [h, Bool.toNat_true] at hkinds
  exact ⟨Bool.toNat_eq_zero.1 (by omega), Bool.toNat_eq_zero.1 (by omega)⟩

theorem isSuccess_of_not {r : FileResult} (hskipped : r.isSkipped = false) (herror : r.isError = false) :
    r.isSuccess := by
  have hkinds := r.kinds
  rw [hskipped, herror, Bool.toNat_false] at hkinds
  exact Bool.toNat_eq_one.1 (by omega)

end FileResult

namespace Totals

/-- The totals of a list, each of them counted on its own. -/
def count (rs : List FileResult) : Totals where
  filesProcessed := rs.countP FileResult.isSuccess
  commentsRemoved := ((rs.filter FileResult.isSuccess).map FileResult.commentsRemoved).sum
  linesProcessed := ((rs.filter FileResult.isSuccess).map FileResult.inputLines).sum
  filesWritten := rs.countP FileResult.persisted
  skipped := rs.countP FileResult.isSkipped
  failures := rs.countP FileResult.isError

theorem count_concat (rs : List FileResult) (r : FileResult) :
    count (rs ++ [r]) = (count rs).add r := by
  cases h : r.outcome <;>
    simp [count, add, FileResult.isSuccess, FileResult.isSkipped, FileResult.isError,
      FileResult.errorKind?, h, List.countP_append, List.countP_singleton]

theorem foldl_add (rs : List FileResult) : rs.foldl add {} = count rs := by
  induction rs using List.reverseRecOn with
  | nil => rfl
  | append_singleton rs r ih => rw [List.foldl_append, ih, List.foldl_cons, List.foldl_nil, count_concat]

theorem count_perm {rs rs' : List FileResult} (h : rs.Perm rs') : count rs = count rs' := by
  simp only [count, h.countP_eq, ((h.filter _).map _).sum_eq]

theorem count_parts (rs : List FileResult) :
    (count rs).filesProcessed + (count rs).skipped + (count rs).failures = rs.length := by
  induction rs with
  | nil => rfl
  | cons r rs ih =>
    have hr := r.kinds
    simp only [count, List.countP_cons, List.length_cons, Bool.toNat] at *
    grind

end Totals

namespace Batch
variable {rs rs' : List FileResult}

theorem files_ofResults_perm (rs : List FileResult) : (ofResults rs).files.Perm rs :=
  List.mergeSort_perm _ _

theorem files_ofResults_sorted :
    ∀ rs : List FileResult, (ofResults rs).files.Pairwise fun a b => a.path.le b.path :=
  List.pairwise_mergeSort (fun _ _ _ => Path.le_trans) (fun _ _ => Path.le_total _ _)

/-- Results of one path stay in the order in which they came. -/
theorem filter_files_ofResults (rs : List FileResult) (p : Path) :
    (ofResults rs).files.filter (p.same ·.path) = rs.filter (p.same ·.path) := by
  have hsame : (rs.filter (p.same ·.path)).Pairwise fun a b => a.path.le b.path := by
    refine List.pairwise_of_forall_mem_list fun a ha b hb => Path.le_of_components_eq ?_
    have hpa := (List.mem_filter.1 ha).2
    have hpb := (List.mem_filter.1 hb).2
    rw [Path.same, beq_iff_eq] at hpa hpb
    rw [← hpa, hpb]
  have hsub : (rs.filter (p.same ·.path)).Sublist (ofResults rs).files := by
    refine List.sublist_mergeSort (fun a b c => ?_) (fun a b => ?_) hsame List.filter_sublist
    · exact Path.le_trans
    · exact Path.le_total a.path b.path
  have hfiltered := hsub.filter (p.same ·.path)
  rw [List.filter_filter] at hfiltered
  simp only [Bool.and_self] at hfiltered
  exact (hfiltered.eq_of_length ((files_ofResults_perm rs).filter _).length_eq.symm).symm

theorem totals_ofResults (rs : List FileResult) : (ofResults rs).totals = .count rs := by
  rw [ofResults, Totals.foldl_add]
  exact Totals.count_perm (files_ofResults_perm rs)

theorem totals_ofResults_perm (h : rs.Perm rs') : (ofResults rs).totals = (ofResults rs').totals := by
  rw [totals_ofResults, totals_ofResults, Totals.count_perm h]

theorem failed_ofResults (rs : List FileResult) : (ofResults rs).failed ↔ ∃ r ∈ rs, r.isError := by
  rw [failed, totals_ofResults, decide_eq_true_iff]
  exact List.countP_pos_iff

theorem failed_iff_files (rs : List FileResult) :
    (ofResults rs).failed ↔ ∃ r ∈ (ofResults rs).files, r.isError := by
  simp only [failed_ofResults, (files_ofResults_perm rs).mem_iff]

/-- Results with different paths have one order only. -/
theorem ofResults_perm (h : rs.Perm rs')
    (hpaths : rs.Pairwise fun a b => a.path.components ≠ b.path.components) :
    ofResults rs = ofResults rs' := by
  have hperm : (ofResults rs).files.Perm (ofResults rs').files :=
    ((files_ofResults_perm rs).trans h).trans (files_ofResults_perm rs').symm
  have hfiles : (ofResults rs).files = (ofResults rs').files := by
    refine hperm.eq_of_pairwise (fun a b ha hb hab hba => ?_) (files_ofResults_sorted rs)
      (files_ofResults_sorted rs')
    by_contra hne
    have hsymm : Std.Symm fun a b : FileResult => a.path.components ≠ b.path.components :=
      ⟨fun _ _ => Ne.symm⟩
    exact hpaths.forall ((files_ofResults_perm rs).subset ha)
      ((files_ofResults_perm rs).subset (hperm.symm.subset hb)) hne (Path.le_antisymm hab hba)
  simp only [ofResults, Batch.mk.injEq] at hfiles ⊢
  exact ⟨hfiles, congrArg _ hfiles⟩

/-- Two results of one path stay in the order in which they came. -/
theorem files_ofResults_pair {a b : FileResult} (h : a.path.components = b.path.components) :
    (ofResults [a, b]).files = [a, b] := by
  have hle : a.path.le b.path := Path.le_of_components_eq h
  exact List.mergeSort_of_pairwise (by simpa using hle)

end Batch
end Uncomment
