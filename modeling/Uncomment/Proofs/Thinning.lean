import Mathlib
import Uncomment.Proofs.Emission

/-! The `compact` layout in terms of atoms. Only white space of the code is left out: the blanks
at the end of a line, or a blank line as a whole. -/
namespace Uncomment
open Ascii

namespace Atom

/-- One cut: blank code at the start of a line, or padding before a line end. -/
inductive Cut : List Atom → List Atom → Prop
  | lineStart {B T : List Atom} {W : Bytes} (start : B = [] ∨ B.getLast? = some (byte lf))
      (blank : ∀ w ∈ W, isSpace w = true) : Cut (B ++ (W.map byte ++ T)) (B ++ T)
  | lineEnd {B T : List Atom} {W : Bytes} (blank : ∀ w ∈ W, Emitter.isPadding w = true)
      (stop : ∀ a ∈ T.head?, ∃ c, a = byte c ∧ isLineEnd c = true) :
      Cut (B ++ (W.map byte ++ T)) (B ++ T)

def Thins : List Atom → List Atom → Prop := Relation.ReflTransGen Cut

theorem isSpace_of_isPadding {b : UInt8} (h : Emitter.isPadding b = true) : isSpace b = true := by
  simp only [Emitter.isPadding, Bool.or_eq_true] at h
  simp only [isSpace, Bool.or_eq_true]
  rcases h with h | h <;> simp [h]

theorem Cut.split {A A' : List Atom} (h : Cut A A') :
    ∃ (B : List Atom) (W : Bytes) (T : List Atom), A = B ++ (W.map byte ++ T) ∧ A' = B ++ T ∧
      ∀ w ∈ W, isSpace w = true := by
  cases h with
  | lineStart start blank => exact ⟨_, _, _, rfl, rfl, blank⟩
  | lineEnd blank stop => exact ⟨_, _, _, rfl, rfl, fun w hw => isSpace_of_isPadding (blank w hw)⟩

theorem split_append {A R B C : List Atom} {a : Atom} (h : A ++ R = B ++ a :: C) :
    (∃ C₁, A = B ++ a :: C₁ ∧ C = C₁ ++ R) ∨ ∃ B₁, B = A ++ B₁ ∧ R = B₁ ++ a :: C := by
  rcases List.append_eq_append_iff.1 h with ⟨B₁, rfl, hR⟩ | ⟨D, rfl, hD⟩
  · exact .inr ⟨B₁, rfl, hR⟩
  · cases D with
    | nil => exact .inr ⟨[], by simp, by simpa using hD.symm⟩
    | cons d D =>
      obtain ⟨rfl, rfl⟩ := List.cons.inj hD
      exact .inl ⟨D, rfl, rfl⟩

theorem split_append_bytes {A B C : List Atom} {W : Bytes} {l : Lexeme}
    (h : A ++ W.map byte = B ++ whole l :: C) :
    ∃ C₁, A = B ++ whole l :: C₁ ∧ C = C₁ ++ W.map byte := by
  rcases split_append h with h | ⟨B₁, -, hW⟩
  · exact h
  · have : whole l ∈ W.map byte := by simp [hW]
    simp at this

def Padded (l : Lexeme) : Prop := ∃ b ∈ l.bytes.getLast?, Emitter.isPadding b = true

/-- The last atom is padded and in one piece. -/
def Loose (A : List Atom) : Prop := ∃ B l, A = B ++ [whole l] ∧ Padded l

theorem not_isLineEnd_of_isPadding {b : UInt8} (h : Emitter.isPadding b = true) :
    isLineEnd b = false := by
  simp only [Emitter.isPadding, Bool.or_eq_true, beq_iff_eq] at h
  rcases h with rfl | rfl <;> decide

/-- Padding at the end of a text is code when no padded piece stands at the end or before it. -/
theorem eq_append_padding {A : List Atom} {x V : Bytes} (hV : ∀ v ∈ V, Emitter.isPadding v = true)
    (hflat : flat A = x ++ V) (hne : ∀ l, whole l ∈ A → l.bytes ≠ [])
    (hpad : ∀ B l C, A = B ++ whole l :: C → Padded l →
      ∃ c C', C = byte c :: C' ∧ isLineEnd c = true) :
    ∃ A₁, A = A₁ ++ V.map byte ∧ flat A₁ = x := by
  induction V using List.reverseRecOn generalizing A with
  | nil => exact ⟨A, by simp, by simpa using hflat⟩
  | append_singleton V v ih =>
    have hv := hV v (by simp)
    rcases List.eq_nil_or_concat A with rfl | ⟨A₀, a, rfl⟩
    · simp at hflat
    · rw [List.concat_eq_append] at *
      cases a with
      | byte b =>
        rw [flat_append, ← List.append_assoc] at hflat
        obtain ⟨hfront, hb⟩ := List.append_inj' hflat rfl
        obtain rfl : b = v := by simpa [bytes] using hb
        obtain ⟨A₁, rfl, hx⟩ := ih (fun w hw => hV w (by simp [hw])) hfront
          (fun l hl => hne l (by simp [hl])) (by
            rintro B l C rfl hl
            obtain ⟨c, C', hC, hc⟩ := hpad B l (C ++ [byte b]) (by simp) hl
            cases C with
            | nil =>
              obtain ⟨rfl, -⟩ : b = c ∧ [] = C' := by simpa using hC
              simp [not_isLineEnd_of_isPadding hv] at hc
            | cons a C =>
              obtain ⟨rfl, -⟩ := List.cons.inj hC
              exact ⟨c, C, rfl, hc⟩)
        exact ⟨A₁, by simp, hx⟩
      | whole l =>
        have hlast : l.bytes.getLast? = some v := by
          have := congrArg List.getLast? hflat
          have hl := hne l (by simp)
          rw [flat_append, ← List.append_assoc, List.getLast?_append, List.getLast?_append] at this
          simpa [bytes, List.getLast?_eq_some_getLast hl] using this
        obtain ⟨c, C', hC, -⟩ := hpad A₀ l [] rfl ⟨v, hlast, hv⟩
        simp at hC

end Atom

namespace Emitter
open Atom

/-- The output is that of the atoms `A`. While the line is blank its bytes are code at the start of
a line, and a padded piece has a line end after it, unless it is the last and no gap is behind it. -/
structure Tracks (e : Emitter) (A : List Atom) : Prop where
  layout : e.layout = .compact
  flat_eq : flat A = e.output
  nonempty : ∀ l, whole l ∈ A → l.bytes ≠ []
  blank : e.content = false → ∃ B, A = B ++ e.line.toList.map byte ∧
    (∀ b ∈ e.line.toList, isSpace b = true) ∧ (B = [] ∨ B.getLast? = some (byte lf))
  padded : ∀ B l C, A = B ++ whole l :: C → Padded l →
    (C = [] ∧ e.trailing = false) ∨ ∃ c C', C = byte c :: C' ∧ isLineEnd c = true

theorem tracks_start : Tracks (.start .compact) [] where
  layout := rfl
  flat_eq := rfl
  nonempty := by simp
  blank _ := ⟨[], by simp [start]⟩
  padded := by simp

section Steps
variable {e : Emitter} {A : List Atom}

/-- While the line is blank, the atoms before it are those of the settled lines. -/
theorem Tracks.blank_line (h : Tracks e A) (hc : e.content = false) :
    ∃ B, A = B ++ e.line.toList.map byte ∧ flat B = e.settled.toList ∧
      (∀ b ∈ e.line.toList, isSpace b = true) ∧ (B = [] ∨ B.getLast? = some (byte lf)) := by
  obtain ⟨B, rfl, hline, hB⟩ := h.blank hc
  have hflat := h.flat_eq
  rw [flat_append, flat_map_byte, output] at hflat
  exact ⟨B, rfl, List.append_cancel_right hflat, hline, hB⟩

theorem Tracks.remove (h : Tracks e A) (hl : ¬ Loose A) : Tracks e.remove A where
  layout := h.layout
  flat_eq := h.flat_eq
  nonempty := h.nonempty
  blank := h.blank
  padded := by
    intro B l C hA hp
    rcases h.padded B l C hA hp with ⟨rfl, -⟩ | hC
    · exact absurd ⟨B, l, hA, hp⟩ hl
    · exact .inr hC

theorem Tracks.literal (h : Tracks e A) (hl : ¬ Loose A) {l : Lexeme} (hne : l.bytes ≠ []) :
    Tracks (e.literal l.bytes) (A ++ [whole l]) := by
  have hfields : (e.literal l.bytes).content = true ∧ (e.literal l.bytes).trailing = false ∧
      (e.literal l.bytes).layout = .compact := by
    unfold Emitter.literal
    rw [h.layout]
    simp only
    split_ifs <;> exact ⟨rfl, rfl, rfl⟩
  refine ⟨hfields.2.2, ?_, ?_, by simp [hfields.1], ?_⟩
  · rw [output_literal _ h.layout, flat_append, h.flat_eq]
    simp [bytes]
  · intro m hm
    rcases List.mem_append.1 hm with hm | hm
    · exact h.nonempty m hm
    · obtain rfl : m = l := by simpa using hm
      exact hne
  · intro B m C hA hp
    rcases split_append hA with ⟨C₁, rfl, rfl⟩ | ⟨B₁, rfl, hB⟩
    · rcases h.padded B m C₁ rfl hp with ⟨rfl, -⟩ | ⟨c, C', rfl, hc⟩
      · exact absurd ⟨B, m, rfl, hp⟩ hl
      · exact .inr ⟨c, C' ++ [whole l], rfl, hc⟩
    · cases B₁ with
      | nil => exact .inl ⟨(List.cons.inj hB).2.symm, hfields.2.1⟩
      | cons b B₁ => simp at hB

theorem Tracks.text (h : Tracks e A) {t : Bytes}
    (hl : Loose A → ∀ c ∈ t.head?, isLineEnd c = true) : Tracks (e.text t) (A ++ t.map byte) := by
  refine ⟨by rw [text_layout, h.layout], ?_, ?_, ?_, ?_⟩
  · rw [flat_append, flat_map_byte, h.flat_eq, output_text]
  · intro l hmem
    exact h.nonempty l (by simpa using hmem)
  · intro hc
    unfold Emitter.text at hc ⊢
    split_ifs at hc ⊢ with hany
    obtain ⟨B, rfl, hline, hB⟩ := h.blank hc
    refine ⟨B, by simp, ?_, hB⟩
    intro b hb
    rw [Array.toList_appendList, List.mem_append] at hb
    rcases hb with hb | hb
    · exact hline b hb
    · simp only [List.any_eq_true, not_exists, not_and, Bool.not_eq_true'] at hany
      simpa using hany b hb
  · intro B l C hA hp
    obtain ⟨C₁, rfl, rfl⟩ := split_append_bytes hA
    rcases h.padded B l C₁ rfl hp with ⟨rfl, htrail⟩ | ⟨c, C', rfl, hc⟩
    · cases t with
      | nil => exact .inl ⟨rfl, by simpa [Emitter.text] using htrail⟩
      | cons c t => exact .inr ⟨c, t.map byte, rfl, hl ⟨B, l, rfl, hp⟩ c rfl⟩
    · exact .inr ⟨c, C' ++ t.map byte, rfl, hc⟩

theorem dropEndWhile_append {α : Type} (p : α → Bool) (xs : List α) :
    ∃ V, Bytes.dropEndWhile p xs ++ V = xs ∧ ∀ v ∈ V, p v = true := by
  refine ⟨(xs.reverse.takeWhile p).reverse, ?_, fun v hv => ?_⟩
  · rw [Bytes.dropEndWhile, ← List.reverse_append, List.takeWhile_append_dropWhile,
      List.reverse_reverse]
  · exact List.mem_takeWhile_imp (List.mem_reverse.1 hv)

/-- A line stays as it is, goes because it is blank, or loses the padding before a gap. -/
theorem settle_cases (e : Emitter) :
    e.settle = (e.line.toList, false) ∨ (e.content = false ∧ e.settle = ([], true)) ∨
    (e.trailing = true ∧ e.settle = (Bytes.dropEndWhile isPadding e.line.toList, false)) := by
  unfold settle
  cases hr : e.removal <;> cases hc : e.content <;> cases ht : e.trailing <;> simp

theorem Tracks.eq_append_padding (h : Tracks e A) (ht : e.trailing = true) :
    ∃ (A₁ : List Atom) (V : Bytes), A = A₁ ++ V.map byte ∧ (∀ v ∈ V, isPadding v = true) ∧
      flat A₁ = e.settled.toList ++ Bytes.dropEndWhile isPadding e.line.toList := by
  obtain ⟨V, hline, hV⟩ := dropEndWhile_append isPadding e.line.toList
  have hflat : flat A = e.settled.toList ++ Bytes.dropEndWhile isPadding e.line.toList ++ V := by
    rw [h.flat_eq, output, List.append_assoc, hline]
  obtain ⟨A₁, hA, hflat⟩ := Atom.eq_append_padding hV hflat h.nonempty (by
    intro B l C hA hp
    rcases h.padded B l C hA hp with ⟨-, hf⟩ | hC
    · simp [ht] at hf
    · exact hC)
  exact ⟨A₁, V, hA, hV, hflat⟩

theorem tracks_endLine {term : Bytes} (hl : e.layout = .compact)
    (hflat : flat A = (e.endLine term).output) (hne : ∀ l, whole l ∈ A → l.bytes ≠ [])
    (hstart : A = [] ∨ A.getLast? = some (byte lf))
    (hpad : ∀ B l C, A = B ++ whole l :: C → Padded l →
      ∃ c C', C = byte c :: C' ∧ isLineEnd c = true) : Tracks (e.endLine term) A where
  layout := by rw [endLine_layout, hl]
  flat_eq := hflat
  nonempty := hne
  blank _ := ⟨A, by simp [Emitter.endLine], by simp [Emitter.endLine], hstart⟩
  padded B l C hA hp := .inr (hpad B l C hA hp)

theorem padded_of_append {X : List Atom} {W : Bytes}
    (h : ∀ B l C, X ++ W.map byte = B ++ whole l :: C → Padded l →
      C = [] ∨ ∃ c C', C = byte c :: C' ∧ isLineEnd c = true) :
    ∀ B l C, X = B ++ whole l :: C → Padded l →
      C = [] ∨ ∃ c C', C = byte c :: C' ∧ isLineEnd c = true := by
  rintro B l C rfl hp
  rcases h B l (C ++ W.map byte) (by simp) hp with hnil | ⟨c, C', hC, hc⟩
  · exact .inl (List.append_eq_nil_iff.1 hnil).1
  · cases C with
    | nil => exact .inl rfl
    | cons a C =>
      obtain ⟨rfl, -⟩ := List.cons.inj hC
      exact .inr ⟨c, C, rfl, hc⟩

/-- A padded piece may be the last one here, since a line end is written behind it. -/
theorem Tracks.padded_or_last (h : Tracks e A) :
    ∀ B l C, A = B ++ whole l :: C → Padded l →
      C = [] ∨ ∃ c C', C = byte c :: C' ∧ isLineEnd c = true :=
  fun B l C hA hp => (h.padded B l C hA hp).imp_left (·.1)

section LineEnd
variable {term : Bytes} (hterm : term = [lf] ∨ term = [cr, lf])
include hterm

theorem term_eq_cons : ∃ c C', term.map byte = byte c :: C' ∧ isLineEnd c = true := by
  rcases hterm with rfl | rfl
  · exact ⟨lf, [], rfl, by decide⟩
  · exact ⟨cr, [byte lf], rfl, by decide⟩

theorem getLast?_append_term (X : List Atom) : (X ++ term.map byte).getLast? = some (byte lf) := by
  rcases hterm with rfl | rfl <;> simp [List.getLast?_append]

theorem padded_append_term {X : List Atom} (hX : ∀ B l C, X = B ++ whole l :: C → Padded l →
      C = [] ∨ ∃ c C', C = byte c :: C' ∧ isLineEnd c = true) :
    ∀ B l C, X ++ term.map byte = B ++ whole l :: C → Padded l →
      ∃ c C', C = byte c :: C' ∧ isLineEnd c = true := by
  intro B l C heq hp
  obtain ⟨C₁, rfl, rfl⟩ := split_append_bytes heq
  rcases hX B l C₁ rfl hp with rfl | ⟨c, C', rfl, hc⟩
  · exact term_eq_cons hterm
  · exact ⟨c, C' ++ term.map byte, rfl, hc⟩

/-- A line that stays: nothing is cut. -/
theorem Tracks.endLine_of_stays (h : Tracks e A) (hs : e.settle = (e.line.toList, false)) :
    Tracks (e.endLine term) (A ++ term.map byte) := by
  refine tracks_endLine h.layout ?_ ?_ (.inr (getLast?_append_term hterm A))
    (padded_append_term hterm h.padded_or_last)
  · simp [Emitter.endLine, hs, output, h.flat_eq]
  · exact fun l hl => h.nonempty l (by simpa using hl)

/-- A line that goes: it is cut at its start, together with its line end. -/
theorem Tracks.endLine_of_blank (h : Tracks e A) (hc : e.content = false)
    (hs : e.settle = ([], true)) :
    ∃ B, Tracks (e.endLine term) B ∧ (B = [] ∨ B.getLast? = some (byte lf)) ∧
      ∀ Z, Thins (A ++ (term.map byte ++ Z)) (B ++ Z) := by
  obtain ⟨B, rfl, hflat, hline, hB⟩ := h.blank_line hc
  refine ⟨B, tracks_endLine h.layout ?_ ?_ hB ?_, hB, fun Z => ?_⟩
  · simp [Emitter.endLine, hs, output, hflat]
  · exact fun l hl => h.nonempty l (by simp [hl])
  · rintro B₁ l C rfl hp
    refine (padded_of_append h.padded_or_last B₁ l C rfl hp).resolve_left ?_
    rintro rfl
    simp at hB
  · have hspace : ∀ w ∈ term, isSpace w = true := by
      rcases hterm with rfl | rfl <;> decide +kernel
    have hblank : ∀ w ∈ e.line.toList ++ term, isSpace w = true :=
      fun w hw => (List.mem_append.1 hw).elim (hline w) (hspace w)
    have hcut := Cut.lineStart (T := Z) hB hblank
    rw [List.map_append, List.append_assoc, ← List.append_assoc B] at hcut
    exact .single hcut

/-- A line that loses its padding: it is cut before its line end. -/
theorem Tracks.endLine_of_trailing (h : Tracks e A) (ht : e.trailing = true)
    (hs : e.settle = (Bytes.dropEndWhile isPadding e.line.toList, false)) :
    ∃ A₁, Tracks (e.endLine term) (A₁ ++ term.map byte) ∧
      ∀ Z, Thins (A ++ (term.map byte ++ Z)) (A₁ ++ (term.map byte ++ Z)) := by
  obtain ⟨A₁, V, rfl, hV, hflat⟩ := h.eq_append_padding ht
  refine ⟨A₁, tracks_endLine h.layout ?_ ?_ (.inr (getLast?_append_term hterm A₁))
    (padded_append_term hterm (padded_of_append h.padded_or_last)), fun Z => ?_⟩
  · simp [Emitter.endLine, hs, output, hflat]
  · exact fun l hl => h.nonempty l (by simpa using hl)
  · have hcut := @Cut.lineEnd A₁ (term.map byte ++ Z) V hV (by
      intro a ha
      obtain ⟨c, C', hT, hc⟩ := term_eq_cons hterm
      rw [hT, List.cons_append, List.head?_cons] at ha
      exact ⟨c, by simpa using ha.symm, hc⟩)
    rw [List.append_assoc]
    exact .single hcut

/-- The end of a line: what is cut of it is blank code at its start or its end. -/
theorem Tracks.endLine (h : Tracks e A) :
    ∃ A', Tracks (e.endLine term) A' ∧ (A' = [] ∨ A'.getLast? = some (byte lf)) ∧
      ∀ Z, Thins (A ++ (term.map byte ++ Z)) (A' ++ Z) := by
  rcases settle_cases e with hs | ⟨hc, hs⟩ | ⟨ht, hs⟩
  · refine ⟨_, h.endLine_of_stays hterm hs, .inr (getLast?_append_term hterm A), fun Z => ?_⟩
    rw [List.append_assoc]
    exact .refl
  · exact h.endLine_of_blank hterm hc hs
  · obtain ⟨A₁, htracks, hthin⟩ := h.endLine_of_trailing hterm ht hs
    refine ⟨_, htracks, .inr (getLast?_append_term hterm A₁), fun Z => ?_⟩
    rw [List.append_assoc]
    exact hthin Z

end LineEnd

theorem Tracks.code (h : Tracks e A) (t : Bytes)
    (hl : Loose A → ∀ c ∈ t.head?, isLineEnd c = true) :
    ∃ A', Tracks (e.code t) A' ∧ (Loose A' → t = [] ∧ Loose A) ∧
      ∀ Z, Thins (A ++ (t.map byte ++ Z)) (A' ++ Z) := by
  induction t using Bytes.lineInduction generalizing e A with
  | last t ht =>
    refine ⟨A ++ t.map byte, ?_, ?_, fun Z => ?_⟩
    · rw [code_of_notMem h.layout ht]
      exact h.text hl
    · rintro ⟨B, l, heq, hp⟩
      obtain ⟨C₁, hA, hC⟩ := split_append_bytes heq
      obtain ⟨rfl, hnil⟩ := List.append_eq_nil_iff.1 hC.symm
      exact ⟨by simpa using hnil, B, l, hA, hp⟩
    · rw [List.append_assoc]
      exact .refl
  | line t rest ht ih =>
    obtain ⟨body, term, hbody, hterm, hline⟩ := codeLine_eq e t
    have hbreak : Loose A → ∀ c ∈ body.head?, isLineEnd c = true := by
      intro hloose c hc
      refine hl hloose c ?_
      rw [List.append_cons, ← hbody, List.append_assoc, List.head?_append, Option.mem_def.1 hc]
      rfl
    obtain ⟨A₁, htracks, hfresh, hthin⟩ := (h.text hbreak).endLine hterm
    have hfirm : ¬ Loose A₁ := by
      rintro ⟨B, l, rfl, -⟩
      simp at hfresh
    obtain ⟨A', htracks', hfirm', hthin'⟩ := ih htracks (fun hloose => absurd hloose hfirm)
    refine ⟨A', ?_, fun hloose => absurd (hfirm' hloose).2 hfirm, fun Z => ?_⟩
    · rw [code_line h.layout ht, hline]
      exact htracks'
    · have hsplit : A ++ ((t ++ lf :: rest).map byte ++ Z) =
          (A ++ body.map byte) ++ (term.map byte ++ (rest.map byte ++ Z)) := by
        rw [List.append_cons t, ← hbody]
        simp
      rw [hsplit]
      exact (hthin _).trans (hthin' Z)

theorem Tracks.finish (h : Tracks e A) : ∃ A', e.finish = flat A' ∧ Thins A A' := by
  have hfinish : e.finish = e.settled.toList ++ e.settle.1 := by
    simp [Emitter.finish, h.layout]
  rcases settle_cases e with hs | ⟨hcontent, hs⟩ | ⟨htrail, hs⟩
  · exact ⟨A, by rw [hfinish, hs, h.flat_eq, output], .refl⟩
  · obtain ⟨B, rfl, hflat, hline, hB⟩ := h.blank_line hcontent
    refine ⟨B, by rw [hfinish, hs, List.append_nil, hflat], ?_⟩
    have hcut := @Cut.lineStart B [] _ hB hline
    simp only [List.append_nil] at hcut
    exact .single hcut
  · obtain ⟨A₁, V, rfl, hV, hflat⟩ := h.eq_append_padding htrail
    refine ⟨A₁, by rw [hfinish, hs, hflat], ?_⟩
    have hcut := @Cut.lineEnd A₁ [] V hV (by simp)
    simp only [List.append_nil] at hcut
    exact .single hcut

end Steps

/-- One event of a run: a segment that stays is written, one that does not leaves a gap. -/
def emit (e : Emitter) (f : Segment × Bool) : Emitter :=
  if f.2 then
    match f.1.kind with
    | .code => e.code f.1.bytes
    | _ => e.literal f.1.bytes
  else e.remove

def kept (events : List (Segment × Bool)) : List Lexeme :=
  (events.filter (·.2)).map (·.1.toLexeme)

/-- A padded piece is followed by code that begins with a line end. -/
def Sealed (g h : Segment) : Prop :=
  g.kind ≠ .code → Padded g.toLexeme → h.kind = .code ∧ ∀ c ∈ h.bytes.head?, isLineEnd c = true

theorem emit_code {e : Emitter} {g : Segment} (h : g.kind = .code) :
    e.emit (g, true) = e.code g.bytes := by
  simp [emit, h]

theorem emit_literal {e : Emitter} {g : Segment} (h : g.kind ≠ .code) :
    e.emit (g, true) = e.literal g.bytes := by
  cases hk : g.kind <;> simp_all [emit]

/-- A run in the `compact` layout writes what stays, with cuts. -/
theorem Tracks.run {e : Emitter} {A : List Atom} (h : Tracks e A) (events : List (Segment × Bool))
    (hne : ∀ f ∈ events, f.1.bytes ≠ []) (hgap : ∀ f ∈ events, f.2 = false → f.1.kind ≠ .code)
    (hchain : (events.map (·.1)).IsChain Sealed)
    (hl : Loose A → ∀ f ∈ events.head?, f.1.kind = .code ∧
      ∀ c ∈ f.1.bytes.head?, isLineEnd c = true) :
    ∃ A', (events.foldl emit e).finish = flat A' ∧ Thins (A ++ explode (kept events)) A' := by
  induction events generalizing e A with
  | nil => simpa [kept] using h.finish
  | cons f events ih =>
    obtain ⟨g, stays⟩ := f
    have hne' : ∀ f ∈ events, f.1.bytes ≠ [] := fun f hf => hne f (List.mem_cons_of_mem _ hf)
    have hgap' : ∀ f ∈ events, f.2 = false → f.1.kind ≠ .code :=
      fun f hf => hgap f (List.mem_cons_of_mem _ hf)
    have hg := hne _ List.mem_cons_self
    have hfirst := fun hloose => hl hloose _ rfl
    rw [List.map_cons] at hchain
    rw [List.foldl_cons]
    cases stays with
    | false =>
      have hfirm : ¬ Loose A := fun hloose => hgap _ List.mem_cons_self rfl (hfirst hloose).1
      exact ih (h.remove hfirm) hne' hgap' hchain.tail (fun hloose => absurd hloose hfirm)
    | true =>
      have hkept : kept ((g, true) :: events) = g.toLexeme :: kept events := by simp [kept]
      rw [hkept, explode_cons]
      by_cases hk : g.kind = .code
      · obtain ⟨A₁, htracks, hfirm, hthin⟩ := h.code g.bytes (fun hloose => (hfirst hloose).2)
        obtain ⟨A', hout, hthin'⟩ := ih htracks hne' hgap' hchain.tail
          (fun hloose => absurd (hfirm hloose).1 hg)
        rw [ofLexeme_of_code hk, emit_code hk]
        exact ⟨A', hout, (hthin _).trans hthin'⟩
      · have hfirm : ¬ Loose A := fun hloose => hk (hfirst hloose).1
        obtain ⟨A', hout, hthin⟩ := ih (h.literal hfirm hg) hne' hgap' hchain.tail (by
          rintro ⟨B, l, hB, hp⟩ f hf
          obtain ⟨-, heq⟩ := List.append_inj' hB rfl
          obtain rfl : g.toLexeme = l := by simpa using heq
          exact hchain.rel_head? (by simpa using Option.mem_map_of_mem (·.1) hf) hk hp)
        rw [ofLexeme_of_ne hk, emit_literal hk]
        exact ⟨A', hout, by simpa using hthin⟩

end Emitter
end Uncomment
