import Mathlib
import Uncomment.Proofs.Removal

/-! The two layouts side by side. They take out the same comments and report the same; the `compact`
layout leaves out some white space of the code besides, and no byte of a comment or a literal. -/
namespace Uncomment
open Ascii Atom Strip
open Emitter (kept)

/-- What is written of a segment: a comment or a literal as it is, code with or without some of its
white space. -/
structure Pared (g : Segment) (piece : Bytes) : Prop where
  sublist : piece.Sublist g.bytes
  visible : piece.filter (!isSpace ·) = g.bytes.filter (!isSpace ·)
  whole : g.kind ≠ .code → piece = g.bytes

section Pieces

theorem pared_code {g : Segment} {A : List Atom} (hk : g.kind = .code)
    (hsub : A.Sublist (ofLexeme g.toLexeme))
    (hfilter : A.filter (!·.isBlank) = (ofLexeme g.toLexeme).filter (!·.isBlank)) :
    Pared g (flat A) := by
  rw [ofLexeme_of_code hk] at hsub hfilter
  obtain ⟨piece, hpiece, rfl⟩ := List.sublist_map_iff.1 hsub
  have hvisible : ∀ t : Bytes, (t.map byte).filter (!·.isBlank) = (t.filter (!isSpace ·)).map byte := by
    intro t
    rw [List.filter_map]
    rfl
  have hinj : Function.Injective byte := fun a b h => Atom.byte.inj h
  rw [hvisible, hvisible] at hfilter
  rw [flat_map_byte]
  exact ⟨hpiece, hinj.list_map hfilter, fun h => absurd hk h⟩

theorem pared_whole {g : Segment} {A : List Atom} (hk : g.kind ≠ .code)
    (hsub : A.Sublist (ofLexeme g.toLexeme))
    (hfilter : A.filter (!·.isBlank) = (ofLexeme g.toLexeme).filter (!·.isBlank)) :
    Pared g (flat A) := by
  rw [ofLexeme_of_ne hk] at hsub hfilter
  have hne : A ≠ [] := by
    rintro rfl
    simp [isBlank] at hfilter
  obtain rfl : A = [whole g.toLexeme] := by
    rcases List.sublist_singleton.1 hsub with h | h
    · exact absurd h hne
    · exact h
  have hbytes : flat [whole g.toLexeme] = g.bytes := by simp [bytes]
  rw [hbytes]
  exact ⟨.refl _, rfl, fun _ => rfl⟩

theorem split_sublist {α : Type} {p : α → Bool} {A X Y : List α} (hsub : A.Sublist (X ++ Y))
    (hfilter : A.filter p = (X ++ Y).filter p) :
    ∃ A₁ A₂, A = A₁ ++ A₂ ∧ (A₁.Sublist X ∧ A₁.filter p = X.filter p) ∧
      A₂.Sublist Y ∧ A₂.filter p = Y.filter p := by
  obtain ⟨A₁, A₂, rfl, hsub₁, hsub₂⟩ := List.sublist_append_iff.1 hsub
  rw [List.filter_append, List.filter_append] at hfilter
  have hlen₁ := (hsub₁.filter p).length_le
  have hlen₂ := (hsub₂.filter p).length_le
  have hlen := congrArg List.length hfilter
  rw [List.length_append, List.length_append] at hlen
  obtain ⟨hfilter₁, hfilter₂⟩ := List.append_inj hfilter (by omega)
  exact ⟨A₁, A₂, rfl, ⟨hsub₁, hfilter₁⟩, hsub₂, hfilter₂⟩

/-- Atoms without some of their blanks are the segments they came from, pared. -/
theorem exists_pieces (gs : List Segment) {A : List Atom}
    (hsub : A.Sublist (explode (gs.map (·.toLexeme))))
    (hfilter : A.filter (!·.isBlank) = (explode (gs.map (·.toLexeme))).filter (!·.isBlank)) :
    ∃ pieces, flat A = pieces.flatten ∧ List.Forall₂ Pared gs pieces := by
  induction gs generalizing A with
  | nil =>
    obtain rfl : A = [] := by simpa using hsub
    exact ⟨[], rfl, .nil⟩
  | cons g gs ih =>
    rw [List.map_cons, explode_cons] at hsub hfilter
    obtain ⟨A₁, A₂, rfl, ⟨hsub₁, hfilter₁⟩, hsub₂, hfilter₂⟩ := split_sublist hsub hfilter
    obtain ⟨pieces, hflat, hpieces⟩ := ih hsub₂ hfilter₂
    refine ⟨flat A₁ :: pieces, by rw [flat_append, hflat, List.flatten_cons], .cons ?_ hpieces⟩
    by_cases hk : g.kind = .code
    · exact pared_code hk hsub₁ hfilter₁
    · exact pared_whole hk hsub₁ hfilter₁

theorem filter_flatten_pieces {gs : List Segment} {pieces : List Bytes}
    (h : List.Forall₂ Pared gs pieces) :
    pieces.flatten.filter (!isSpace ·) = (gs.flatMap (·.bytes)).filter (!isSpace ·) := by
  induction h with
  | nil => rfl
  | cons hp _ ih =>
    rw [List.flatten_cons, List.flatMap_cons, List.filter_append, List.filter_append, hp.visible, ih]

end Pieces

section Stays
variable {lang : Language}

/-- The segments of a text that stay. -/
def stays (lang : Language) (keep : List Bytes) (s : Bytes) : List Segment :=
  ((fates lang keep none [] (scan lang s)).filter (·.2)).map (·.1)

theorem map_toLexeme_stays (keep : List Bytes) (s : Bytes) :
    (stays lang keep s).map (·.toLexeme) = survivors lang keep s := by
  rw [stays, survivors, kept, List.map_map]
  rfl

theorem stays_sublist (keep : List Bytes) (s : Bytes) :
    (stays lang keep s).Sublist (scan lang s) := by
  have h : ((fates lang keep none [] (scan lang s)).filter (·.2)).Sublist
      (fates lang keep none [] (scan lang s)) := List.filter_sublist
  exact map_fst_fates_scan keep s ▸ h.map _

theorem length_stays_add_dropped (keep : List Bytes) (s : Bytes) :
    (stays lang keep s).length + (dropped (fates lang keep none [] (scan lang s))).length =
      (scan lang s).length := by
  have hsplit := List.length_eq_length_filter_add (l := fates lang keep none [] (scan lang s)) (·.2)
  rw [stays, dropped, List.length_map, List.length_map, ← hsplit]
  simpa using congrArg List.length (@map_fst_fates_scan lang keep s)

theorem mem_stays_of_not_isComment {keep : List Bytes} {s : Bytes} {g : Segment}
    (hg : g ∈ scan lang s) (hcomment : g.isComment = false) : g ∈ stays lang keep s := by
  rw [← map_fst_fates_scan keep s] at hg
  obtain ⟨f, hf, rfl⟩ := List.mem_map.1 hg
  refine List.mem_map_of_mem (List.mem_filter.2 ⟨hf, ?_⟩)
  by_contra hfalse
  have hremovable := removable_of_dropped (by simp) f hf (by simpa using hfalse)
  simp [isComment_of_removable hremovable] at hcomment

theorem strip_malformed (options : StripOptions) (s : Bytes) :
    (strip lang options s).malformed = (scan lang s).findSome? cutOff? := by
  rw [strip, segments, outcome_malformed]
  rfl

end Stays

/-- The layouts differ in white space of the code alone. They report the same comments and the same
construct that is cut off, and what the `compact` layout writes of the segments that stay is pared
from what the `preserve` layout writes. -/
theorem strip_layouts [Clock] (lang : Language) (hlang : lang ∈ Language.all) (keep : List Bytes)
    (limit limit' : Option Duration) (path : Path) (s : Bytes) :
    (limit = none → ∃ p, stripFile lang ⟨.preserve, keep, limit⟩ path s = .ok p) ∧
    (limit' = none → ∃ c, stripFile lang ⟨.compact, keep, limit'⟩ path s = .ok c) ∧
    ∀ p c, stripFile lang ⟨.preserve, keep, limit⟩ path s = .ok p →
      stripFile lang ⟨.compact, keep, limit'⟩ path s = .ok c →
      c.commentsRemoved = p.commentsRemoved ∧ c.removed = p.removed ∧ c.malformed = p.malformed ∧
      c.output.filter (!isSpace ·) = p.output.filter (!isSpace ·) ∧
      ∃ (gs : List Segment) (pieces : List Bytes), gs.Sublist (scan lang s) ∧
        gs.length + p.commentsRemoved = (scan lang s).length ∧
        (∀ g ∈ scan lang s, g.isComment = false → g ∈ gs) ∧
        p.output = gs.flatMap (·.bytes) ∧ c.output = pieces.flatten ∧
        List.Forall₂ Pared gs pieces := by
  refine ⟨fun h => ⟨_, stripFile_eq h lang path s⟩, fun h => ⟨_, stripFile_eq h lang path s⟩,
    fun p c hp hc => ?_⟩
  obtain rfl := stripFile_eq_ok hp
  obtain rfl := stripFile_eq_ok hc
  have hs := Language.scannable_of_mem_all hlang
  have hclike := Language.cLike_of_mem_all hlang
  obtain ⟨A, hout, -, hfaithful, hremoved⟩ := strip_survivors hs hclike ⟨.preserve, keep, limit⟩ s
  obtain ⟨A', hout', hthin, -, hremoved'⟩ := strip_survivors hs hclike ⟨.compact, keep, limit'⟩ s
  obtain ⟨hsub, hfilter⟩ := hthin.sublist
  simp only [← map_toLexeme_stays] at hsub hfilter
  obtain ⟨pieces, hflat, hpieces⟩ := exists_pieces _ hsub hfilter
  have hpreserve : (strip lang ⟨.preserve, keep, limit⟩ s).output =
      (stays lang keep s).flatMap (·.bytes) := by
    rw [hout, hfaithful (.inl rfl), ← map_toLexeme_stays, flat_explode, List.flatMap_map]
  have hcompact : (strip lang ⟨.compact, keep, limit'⟩ s).output = pieces.flatten := by
    rw [hout', hflat]
  have hsame : (strip lang ⟨.compact, keep, limit'⟩ s).removed =
      (strip lang ⟨.preserve, keep, limit⟩ s).removed := by
    rw [hremoved', hremoved]
  refine ⟨congrArg List.length hsame, hsame, by rw [strip_malformed, strip_malformed], ?_,
    stays lang keep s, pieces, stays_sublist keep s, ?_, fun g => mem_stays_of_not_isComment,
    hpreserve, hcompact, hpieces⟩
  · rw [hcompact, hpreserve]
    exact filter_flatten_pieces hpieces
  · rw [StripOutcome.commentsRemoved, hremoved, List.length_map]
    exact length_stays_add_dropped keep s

/-- A line that goes, and padding that goes before a comment but not inside a literal. -/
theorem strip_layouts_go :
    Language.go ∈ Language.all ∧
    ∃ p c, stripFile Language.go ⟨.preserve, [], none⟩ ⟨[]⟩
        (Bytes.ofText " // a\nx := ` \n ` \t/* b */ \n") = .ok p ∧
      stripFile Language.go ⟨.compact, [], none⟩ ⟨[]⟩
        (Bytes.ofText " // a\nx := ` \n ` \t/* b */ \n") = .ok c ∧
      p.output = Bytes.ofText " \nx := ` \n ` \t \n" ∧ c.output = Bytes.ofText "x := ` \n `\n" ∧
      c.removed = p.removed ∧ c.output.filter (!isSpace ·) = p.output.filter (!isSpace ·) := by
  have hlang : Language.go ∈ Language.all := by simp [Language.all]
  obtain ⟨hpreserve, hcompact, hsame⟩ := strip_layouts Language.go hlang [] none none ⟨[]⟩
    (Bytes.ofText " // a\nx := ` \n ` \t/* b */ \n")
  obtain ⟨p, hp⟩ := hpreserve rfl
  obtain ⟨c, hc⟩ := hcompact rfl
  obtain ⟨-, hremoved, -, hvisible, -⟩ := hsame p c hp hc
  refine ⟨hlang, p, c, hp, hc, ?_, ?_, hremoved, hvisible⟩
  · rw [stripFile_eq_ok hp]
    decide +kernel
  · rw [stripFile_eq_ok hc]
    decide +kernel

end Uncomment
