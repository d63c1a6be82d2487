import Mathlib
import Uncomment.Proofs.Clearing

/-! Protected texts only protect. With more of them a comment may go that stayed before, because a
comment that now stays in front of it holds the bytes around it apart. But of the comments between two
segments that stay either way at most one stays to hold these apart, so each comment that now stays
makes up for it. -/
namespace Uncomment
open Strip

namespace Strip

section Protected
variable {P Q : List Bytes}

theorem isProtected_of_subset (h : ∀ text ∈ P, text ≠ [] → text ∈ Q) {bytes : Bytes}
    (hp : isProtected P bytes = true) : isProtected Q bytes = true := by
  rw [isProtected, List.any_eq_true] at hp ⊢
  obtain ⟨text, hmem, htext⟩ := hp
  rw [Bool.and_eq_true, Bool.not_eq_true', List.isEmpty_eq_false_iff] at htext
  exact ⟨text, h text hmem htext.1, by simpa using htext⟩

theorem removable_of_subset (h : ∀ text ∈ P, text ≠ [] → text ∈ Q) {l : Lexeme}
    (hl : removable Q l = true) : removable P l = true := by
  rw [removable, Bool.and_eq_true, Bool.not_eq_true'] at hl ⊢
  refine ⟨hl.1, Bool.eq_false_iff.2 fun hp => ?_⟩
  rw [isProtected_of_subset h hp] at hl
  exact absurd hl.2 (by simp)

theorem isProtected_congr (h : ∀ text, text ≠ [] → (text ∈ P ↔ text ∈ Q)) (bytes : Bytes) :
    isProtected P bytes = isProtected Q bytes := by
  rw [Bool.eq_iff_iff]
  exact ⟨isProtected_of_subset fun text hmem hne => (h text hne).1 hmem,
    isProtected_of_subset fun text hmem hne => (h text hne).2 hmem⟩

/-- The run looks at the protected texts only to tell which comments may go. -/
theorem segments_congr (h : ∀ bytes, isProtected P bytes = isProtected Q bytes) (lang : Language)
    (layout : Layout) (limit : Option Duration) (gs : List Segment) :
    segments lang ⟨layout, P, limit⟩ gs = segments lang ⟨layout, Q, limit⟩ gs := by
  have hstep : Progress.step lang ⟨layout, P, limit⟩ = Progress.step lang ⟨layout, Q, limit⟩ := by
    funext p g
    have hremoves : removes ⟨layout, P, limit⟩ g = removes ⟨layout, Q, limit⟩ g := by
      rw [removes, removes, h]
    rw [Progress.step, Progress.step, hremoves]
  rw [segments, segments, hstep]

end Protected

section Count
variable {lang : Language} {P Q : List Bytes}

theorem length_dropped_resolve_le (stays : Bool) (waiting : List Segment) :
    (dropped (resolve stays waiting)).length ≤ waiting.length := by
  have hlength := congrArg List.length (map_fst_resolve stays waiting)
  rw [List.length_map, List.length_reverse] at hlength
  rw [dropped, List.length_map, ← hlength]
  exact List.length_filter_le _ _

/-- Of the comments that wait at most one stays. -/
theorem length_le_dropped_resolve (stays : Bool) (waiting : List Segment) :
    waiting.length ≤ (dropped (resolve stays waiting)).length + 1 := by
  cases waiting with
  | nil => simp
  | cons last before =>
    rw [resolve, dropped_append, dropped_map_false, List.length_append, List.length_reverse,
      List.length_cons]
    omega

theorem dropped_fates_of_stays {keep : List Bytes} {g : Segment}
    (hg : removable keep g.toLexeme = false) (last : Option UInt8) (waiting gs : List Segment) :
    dropped (fates lang keep last waiting (g :: gs)) =
      dropped (resolve (meets lang last g.bytes.head?) waiting) ++
        dropped (fates lang keep g.bytes.getLast? [] gs) := by
  rw [fates, if_neg (by simp [hg]), dropped_append]
  rfl

/-- The two runs side by side. Either they are in step, or since they last were, `n` comments went in
the run with `Q` and one stayed there that waits in the run with `P`. -/
theorem length_dropped_fates_le (h : ∀ l, removable Q l = true → removable P l = true)
    (gs : List Segment) :
    (∀ last waiting, (dropped (fates lang Q last waiting gs)).length ≤
      (dropped (fates lang P last waiting gs)).length) ∧
    ∀ n last last' waiting waiting', n + waiting'.length + 1 ≤ waiting.length →
      n + (dropped (fates lang Q last' waiting' gs)).length ≤
        (dropped (fates lang P last waiting gs)).length := by
  induction gs with
  | nil =>
    refine ⟨fun last waiting => le_rfl, fun n last last' waiting waiting' hn => ?_⟩
    have hQ := length_dropped_resolve_le false waiting'
    have hP := length_le_dropped_resolve false waiting
    simp only [fates]
    omega
  | cons g gs ih =>
    obtain ⟨hstep, hapart⟩ := ih
    cases hP : removable P g.toLexeme with
    | false =>
      -- the segment stays in both runs, which are in step after it
      have hQ : removable Q g.toLexeme = false :=
        Bool.eq_false_iff.2 fun hQ => by simp [h _ hQ] at hP
      have hrest := hstep g.bytes.getLast? []
      refine ⟨fun last waiting => ?_, fun n last last' waiting waiting' hn => ?_⟩ <;>
        rw [dropped_fates_of_stays hP, dropped_fates_of_stays hQ, List.length_append,
          List.length_append]
      · omega
      · have hgone := length_dropped_resolve_le (meets lang last' g.bytes.head?) waiting'
        have hstays := length_le_dropped_resolve (meets lang last g.bytes.head?) waiting
        omega
    | true =>
      cases hQ : removable Q g.toLexeme with
      | true =>
        refine ⟨fun last waiting => ?_, fun n last last' waiting waiting' hn => ?_⟩ <;>
          rw [fates, fates, if_pos hP, if_pos hQ]
        · exact hstep last (g :: waiting)
        · refine hapart n last last' (g :: waiting) (g :: waiting') ?_
          rw [List.length_cons, List.length_cons]
          omega
      | false =>
        -- the segment waits in one run and stays in the other
        have hrest := fun n last waiting => hapart n last g.bytes.getLast? (g :: waiting) []
        refine ⟨fun last waiting => ?_, fun n last last' waiting waiting' hn => ?_⟩ <;>
          rw [dropped_fates_of_stays hQ, List.length_append, fates, if_pos hP]
        · refine hrest _ last waiting ?_
          have hgone := length_dropped_resolve_le (meets lang last g.bytes.head?) waiting
          rw [List.length_cons, List.length_nil]
          omega
        · have hgone := length_dropped_resolve_le (meets lang last' g.bytes.head?) waiting'
          rw [← Nat.add_assoc]
          refine hrest _ last waiting ?_
          rw [List.length_cons, List.length_nil]
          omega

end Count
end Strip

/-- With more protected texts no more comments go, and only which texts are protected counts: not
their order, not how often one is given, and not the empty text. -/
theorem strip_protects [Clock] (lang : Language) (hlang : lang ∈ Language.all) (layout : Layout)
    (P Q : List Bytes) (limit : Option Duration) (path : Path) (s : Bytes) :
    (limit = none → ∃ p q, stripFile lang ⟨layout, P, limit⟩ path s = .ok p ∧
      stripFile lang ⟨layout, Q, limit⟩ path s = .ok q) ∧
    ∀ p q, stripFile lang ⟨layout, P, limit⟩ path s = .ok p →
      stripFile lang ⟨layout, Q, limit⟩ path s = .ok q →
      ((∀ text ∈ P, text ≠ [] → text ∈ Q) → q.commentsRemoved ≤ p.commentsRemoved) ∧
      ((∀ text, text ≠ [] → (text ∈ P ↔ text ∈ Q)) → p = q) := by
  refine ⟨fun h => ⟨_, _, stripFile_eq h lang path s, stripFile_eq h lang path s⟩,
    fun p q hp hq => ?_⟩
  obtain rfl := stripFile_eq_ok hp
  obtain rfl := stripFile_eq_ok hq
  have hs := Language.scannable_of_mem_all hlang
  have hc := Language.cLike_of_mem_all hlang
  refine ⟨fun hsubset => ?_, fun hsame => segments_congr (isProtected_congr hsame) lang layout limit _⟩
  obtain ⟨A, -, -, -, hremoved⟩ := strip_survivors hs hc ⟨layout, P, limit⟩ s
  obtain ⟨A', -, -, -, hremoved'⟩ := strip_survivors hs hc ⟨layout, Q, limit⟩ s
  rw [StripOutcome.commentsRemoved, StripOutcome.commentsRemoved, hremoved, hremoved',
    List.length_map, List.length_map]
  exact (length_dropped_fates_le (fun l => removable_of_subset hsubset) (scan lang s)).1 none []

/-- The last comment between the dashes stays to hold them apart, until the one before it is
protected. -/
theorem strip_protects_sql :
    Language.sql ∈ Language.all ∧
    (∀ text ∈ ([[]] : List Bytes), text ≠ [] → text ∈ [Bytes.ofText "a"]) ∧
    ∃ p q, stripFile Language.sql ⟨.preserve, [[]], none⟩ ⟨[]⟩
        (Bytes.ofText "1-/*a*//*b*/-2") = .ok p ∧
      stripFile Language.sql ⟨.preserve, [Bytes.ofText "a"], none⟩ ⟨[]⟩
        (Bytes.ofText "1-/*a*//*b*/-2") = .ok q ∧
      p.output = Bytes.ofText "1-/*b*/-2" ∧ q.output = Bytes.ofText "1-/*a*/-2" ∧
      q.commentsRemoved ≤ p.commentsRemoved := by
  have hlang : Language.sql ∈ Language.all := by simp [Language.all]
  have hsubset : ∀ text ∈ ([[]] : List Bytes), text ≠ [] → text ∈ [Bytes.ofText "a"] := by simp
  obtain ⟨hok, hprotects⟩ := strip_protects Language.sql hlang .preserve [[]] [Bytes.ofText "a"] none
    ⟨[]⟩ (Bytes.ofText "1-/*a*//*b*/-2")
  obtain ⟨p, q, hp, hq⟩ := hok rfl
  refine ⟨hlang, hsubset, p, q, hp, hq, ?_, ?_, (hprotects p q hp hq).1 hsubset⟩
  · rw [stripFile_eq_ok hp]
    decide +kernel
  · rw [stripFile_eq_ok hq]
    decide +kernel

end Uncomment
