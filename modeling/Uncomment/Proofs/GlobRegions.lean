import Mathlib
import Uncomment.Expand
import Uncomment.Proofs.Components
import Uncomment.Proofs.GlobSyntax
import Uncomment.Proofs.Search
import Uncomment.Proofs.Utf8

/-! Where the search for a pattern looks, and that this is enough. A path that a pattern accepts begins
with the components of the base that the search starts from, and it has no more components than the
pattern where the depth of the search has a limit. -/
namespace Uncomment
open Ascii

/-! ## Patterns that are shown -/

namespace Utf8

/-- The first item of bytes and the text that shows it. -/
structure Shown (s : Bytes) (item text rest : Bytes) : Prop where
  split : s = item ++ rest
  lossy_eq : Bytes.ofText (lossy s) = text ++ Bytes.ofText (lossy rest)
  shorter : rest.length < s.length
  shown : text = item ∨ text = String.utf8EncodeChar replacement ∧ ∃ b more, item = b :: more ∧ ¬ b < 0x80

theorem exists_shown (b : UInt8) (tail : Bytes) : ∃ item text rest, Shown (b :: tail) item text rest := by
  refine ⟨b :: tail.take (item b tail).2, String.utf8EncodeChar ((item b tail).1.getD replacement),
    tail.drop (item b tail).2, by simp, ?_, ?_, ?_⟩
  · rw [lossy, decode_cons, ofText_ofList, lossy, ofText_ofList]
    simp
  · rw [List.length_drop, List.length_cons]
    omega
  · cases hitem : (item b tail).1 with
    | some c =>
      obtain ⟨v, rfl, hspells⟩ := spells_of_item (Prod.ext hitem rfl)
      exact .inl hspells.utf8EncodeChar_eq
    | none =>
      refine .inr ⟨rfl, b, _, rfl, fun hlow => ?_⟩
      simp [item, hlow] at hitem

/-- The characters that bytes are shown as have no more components than the bytes. -/
theorem covers_lossy (s : Bytes) : Path.Covers s (Bytes.ofText (lossy s)) := by
  induction hn : s.length using Nat.strong_induction_on generalizing s with
  | _ n ih =>
    cases s with
    | nil => simpa [lossy, decode, Bytes.ofText] using Path.Covers.refl []
    | cons b tail =>
      obtain ⟨item, text, rest, h⟩ := exists_shown b tail
      have hrest := ih rest.length (hn ▸ h.shorter) rest rfl
      rw [h.lossy_eq, h.split]
      rcases h.shown with rfl | ⟨rfl, c, more, rfl, hhigh⟩
      · exact hrest.append _
      · refine hrest.replace ⟨?_, ?_⟩ _ (by decide)
        · rintro rfl
          exact hhigh (by decide)
        · rintro rfl
          exact hhigh (by decide)

theorem infix_append {b : UInt8} {x y : Bytes} (h : [b, b] <:+: x ++ y) :
    [b, b] <:+: x ∨ [b, b] <:+: y ∨ x.getLast? = some b ∧ y.head? = some b := by
  induction x with
  | nil => exact .inr (.inl h)
  | cons a x ih =>
    rcases List.infix_cons_iff.1 h with hprefix | hinfix
    · obtain ⟨rfl, hnext⟩ := List.cons_prefix_cons.1 hprefix
      cases x with
      | nil =>
        obtain ⟨t, rfl⟩ := hnext
        exact .inr (.inr ⟨rfl, rfl⟩)
      | cons c x =>
        obtain ⟨rfl, -⟩ := List.cons_prefix_cons.1 hnext
        exact .inl ⟨[], x, rfl⟩
    · rcases ih hinfix with hx | hy | ⟨hlast, hhead⟩
      · exact .inl (hx.trans (List.suffix_cons _ _).isInfix)
      · exact .inr (.inl hy)
      · refine .inr (.inr ⟨?_, hhead⟩)
        rw [List.getLast?_cons, hlast]
        rfl

theorem not_mem_replacement {b : UInt8} (hb : b < 0x80) : b ∉ String.utf8EncodeChar replacement := by
  have hbytes : String.utf8EncodeChar replacement = [0xEF, 0xBF, 0xBD] := by decide
  rw [hbytes]
  intro hmem
  rcases (by simpa using hmem : b = 0xEF ∨ b = 0xBF ∨ b = 0xBD) with rfl | rfl | rfl <;>
    exact absurd hb (by decide)

theorem head?_of_lossy {b : UInt8} (hb : b < 0x80) {s : Bytes}
    (h : (Bytes.ofText (lossy s)).head? = some b) : s.head? = some b := by
  cases s with
  | nil => simp [lossy, decode, Bytes.ofText] at h
  | cons a tail =>
    obtain ⟨item, text, rest, hshown⟩ := exists_shown a tail
    rw [hshown.lossy_eq] at h
    rw [hshown.split]
    rcases hshown.shown with rfl | ⟨rfl, -⟩
    · cases text with
      | nil =>
        have hshorter := hshown.shorter
        rw [hshown.split] at hshorter
        exact absurd hshorter (lt_irrefl _)
      | cons c more => exact h
    · obtain rfl : 0xEF = b := Option.some.inj h
      exact absurd hb (by decide)

/-- Two equal bytes in a row that are shown are there. -/
theorem infix_of_lossy {b : UInt8} (hb : b < 0x80) {s : Bytes}
    (h : [b, b] <:+: Bytes.ofText (lossy s)) : [b, b] <:+: s := by
  induction hn : s.length using Nat.strong_induction_on generalizing s with
  | _ n ih =>
    cases s with
    | nil => simp [lossy, decode, Bytes.ofText] at h
    | cons a tail =>
      obtain ⟨item, text, rest, hshown⟩ := exists_shown a tail
      rw [hshown.lossy_eq] at h
      rw [hshown.split]
      have hrest := @ih rest.length (hn ▸ hshown.shorter) rest
      have hreplacement := not_mem_replacement hb
      rcases infix_append h with hitem | hmore | ⟨hlast, hhead⟩
      · rcases hshown.shown with rfl | ⟨rfl, -⟩
        · exact hitem.trans (List.prefix_append _ _).isInfix
        · have hmem : b ∈ [b, b] := List.mem_cons_self
          exact absurd (hitem.subset hmem) hreplacement
      · exact (hrest hmore rfl).trans (List.suffix_append _ _).isInfix
      · have hhead := head?_of_lossy hb hhead
        rcases hshown.shown with rfl | ⟨rfl, -⟩
        · obtain ⟨front, rfl⟩ := List.getLast?_eq_some_iff.1 hlast
          obtain ⟨more, rfl⟩ := List.head?_eq_some_iff.1 hhead
          exact ⟨front, more, by simp⟩
        · exact absurd (List.mem_of_getLast? hlast) hreplacement

end Utf8

/-! ## The region of a search -/

namespace GlobTarget
def isPlain (c : Component) : Bool := !hasWildcard c.bytes

namespace Search

theorem components_base (pattern : Path) :
    (ofPattern pattern).base.components = pattern.components.takeWhile isPlain :=
  Path.components_of_prefix (List.takeWhile_prefix _)

/-- Two stars in a row are in one component. -/
theorem exists_component_of_stars {pattern : Path} (h : [star, star] <:+: pattern.bytes) :
    ∃ c ∈ pattern.components, [star, star] <:+: c.bytes := by
  have hparts : [star, star] <:+: if pattern.lead.isSome then pattern.bytes.drop 1 else pattern.bytes := by
    split_ifs with hlead
    · -- the byte that leads is a slash or a dot
      obtain ⟨bytes⟩ := pattern
      obtain ⟨b, rest, rfl⟩ := List.exists_cons_of_ne_nil (show bytes ≠ [] by rintro rfl; cases hlead)
      refine (List.infix_cons_iff.1 h).resolve_left fun hprefix => ?_
      obtain rfl : star = b := (List.cons_prefix_cons.1 hprefix).1
      cases hlead
    · exact h
  obtain ⟨part, hpart, hin⟩ := Path.exists_part_of_infix (by decide) (by decide) hparts
  have hmem : star ∈ part := hin.subset (by simp)
  have hfiller : Path.isFiller part = false := by
    have hnil : part ≠ [] := List.ne_nil_of_mem hmem
    have hhere : part ≠ [dot] := by
      rintro rfl
      exact absurd hmem (by decide)
    simp [Path.isFiller, hnil, hhere]
  refine ⟨Path.partComponent part, ?_, by rwa [Path.bytes_partComponent]⟩
  exact List.mem_append_right _ (List.mem_map_of_mem (List.mem_filter.2 ⟨hpart, by simp [hfiller]⟩))

/-- A limited depth is what the pattern has below the base, and such a pattern has no two stars in a row. -/
theorem of_depth {pattern : Path} {n : Nat} (h : (ofPattern pattern).depth = some n) :
    pattern.components.length = (ofPattern pattern).base.components.length + n ∧
      ¬ [star, star] <:+: pattern.bytes := by
  have hsplit := @List.takeWhile_append_dropWhile _ isPlain pattern.components
  rw [ofPattern] at h
  dsimp only at h
  split_ifs at h with hany
  obtain rfl := Option.some.inj h
  refine ⟨?_, fun hinfix => hany ?_⟩
  · rw [components_base, ← List.length_append]
    exact congrArg List.length hsplit.symm
  · obtain ⟨c, hc, hstars⟩ := exists_component_of_stars hinfix
    have hplain : isPlain c = false := by
      rw [isPlain, Bool.not_eq_false', hasWildcard, List.any_eq_true]
      exact ⟨star, hstars.subset (by simp), by decide⟩
    rw [← hsplit] at hc
    have hrest := (List.mem_append.1 hc).resolve_left fun htake => by
      simpa [hplain] using List.mem_takeWhile_imp htake
    exact List.any_eq_true.2 ⟨c, hrest, Bytes.includes_iff.2 hstars⟩

end Search

theorem takeWhile_and {α : Type} {p q : α → Bool} {cs : List α} (h : ∀ c ∈ cs.takeWhile p, q c = true) :
    cs.takeWhile p = cs.takeWhile fun c => p c && q c := by
  induction cs with
  | nil => rfl
  | cons c cs ih =>
    cases hp : p c with
    | false => simp [hp]
    | true =>
      rw [List.takeWhile_cons, hp] at h
      have hq := h c List.mem_cons_self
      simp only [List.takeWhile_cons, hp, hq, Bool.and_self, if_true]
      rw [ih fun c' hc' => h c' (List.mem_cons_of_mem _ hc')]

/-- Components without wildcards are also the ones up to a mark that none of them has. -/
theorem takeWhile_isPlain {cs : List Component} {mark : UInt8 → Bool}
    (h : ∀ c ∈ cs.takeWhile isPlain, ∀ b ∈ c.bytes, mark b = false) :
    cs.takeWhile isPlain = cs.takeWhile fun c => !c.bytes.any fun b => hasWildcard [b] || mark b := by
  have hsplit : ∀ c : Component, (!c.bytes.any fun b => hasWildcard [b] || mark b) =
      (isPlain c && !c.bytes.any mark) := by
    intro c
    rw [Bool.eq_iff_iff]
    simp [isPlain, hasWildcard, ← forall₂_and]
  simp only [hsplit]
  refine takeWhile_and fun c hc => ?_
  simpa using h c hc

/-- A path that fits a pattern is below the base that the search for it starts from. -/
theorem base_prefix_of_fits {crosses : Bool} {pattern : Path} {s : Bytes}
    (hmark : ∀ c ∈ (Search.ofPattern pattern).base.components, ∀ b ∈ c.bytes, Glob.isMark b = false)
    (h : Glob.Fits crosses pattern.bytes s) :
    (Search.ofPattern pattern).base.components <+: (Path.mk s).components := by
  rw [Search.components_base] at hmark ⊢
  rcases h.begins with rfl | ⟨front, b, rest, tail, hb, hpattern, rfl⟩
  · exact List.takeWhile_prefix _
  · obtain rfl : pattern = ⟨front ++ b :: rest⟩ := congrArg Path.mk hpattern
    rw [takeWhile_isPlain hmark]
    exact Path.takeWhile_components_prefix ⟨by decide, by decide⟩ front hb rest tail

/-- A path that fits a pattern is not deeper than the search for it goes. -/
theorem length_le_of_fits {pattern : Path} {n : Nat} (hdepth : (Search.ofPattern pattern).depth = some n)
    {s : Bytes} (h : Glob.Fits false (Bytes.ofText pattern.display) s) :
    (Path.mk s).components.length ≤ (Search.ofPattern pattern).base.components.length + n := by
  obtain ⟨hlength, hstars⟩ := Search.of_depth hdepth
  have hcovers := h.covers fun hinfix => hstars (Utf8.infix_of_lossy (by decide) hinfix)
  exact hlength ▸ ((Utf8.covers_lossy pattern.bytes).trans hcovers).length_le

end GlobTarget
end Uncomment
