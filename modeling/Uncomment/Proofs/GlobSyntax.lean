import Mathlib
import Uncomment.Expand
import Uncomment.Proofs.Components

/-! What the syntax of a pattern leaves room for. The library documents what each piece of a pattern stands
for, and a path that a pattern accepts is put together from such texts. Of the pieces only the literal ones
and those that stop at slashes matter for where a search has to look. -/
namespace Uncomment

namespace Ascii

def comma : UInt8 := 0x2C
def closeBracket : UInt8 := 0x5D

end Ascii

open Ascii

namespace Glob

/-- Bytes of the syntax other than the wildcards: the escape and the opening of a group. -/
def isMark (b : UInt8) : Bool := b == backslash || b == openBrace

/-- Bytes that do not stand for themselves. -/
def isActive (b : UInt8) : Bool := GlobTarget.hasWildcard [b] || isMark b

/-- `Fits crosses p s`: the pieces of the pattern `p` stand for the pieces of `s`, one after the other. A
question mark and a star stop at slashes and a double star does not. With the slash after it a double star may
also stand for no directory at all. A class may take a slash only where `crosses` is on. A group stands for
what one of its choices stands for. -/
inductive Fits (crosses : Bool) : Bytes → Bytes → Prop
  | nil : Fits crosses [] []
  | byte {b : UInt8} {p s : Bytes} (hb : isActive b = false) (h : Fits crosses p s) :
      Fits crosses (b :: p) (b :: s)
  | escaped {b : UInt8} {p s : Bytes} (h : Fits crosses p s) : Fits crosses (backslash :: b :: p) (b :: s)
  | anyOne {t p s : Bytes} (hne : t ≠ []) (ht : slash ∉ t) (h : Fits crosses p s) :
      Fits crosses (questionMark :: p) (t ++ s)
  | anyRun {t p s : Bytes} (ht : slash ∉ t) (h : Fits crosses p s) : Fits crosses (star :: p) (t ++ s)
  | anything {t p s : Bytes} (h : Fits crosses p s) : Fits crosses (star :: star :: p) (t ++ s)
  | nowhere {p s : Bytes} (h : Fits crosses p s) : Fits crosses (star :: star :: slash :: p) s
  | oneOf {members t p s : Bytes} (hne : t ≠ []) (ht : slash ∈ t → crosses = true) (h : Fits crosses p s) :
      Fits crosses (openBracket :: members ++ closeBracket :: p) (t ++ s)
  | group {choices : List Bytes} {x t p s : Bytes} (hx : x ∈ choices) (hchoice : Fits crosses x t)
      (h : Fits crosses p s) :
      Fits crosses (openBrace :: Bytes.join comma choices ++ closeBrace :: p) (t ++ s)

/-- A text with nothing but literal bytes stands for itself. -/
theorem fits_self {crosses : Bool} {p : Bytes} (h : ∀ b ∈ p, isActive b = false) : Fits crosses p p := by
  induction p with
  | nil => exact .nil
  | cons b p ih => exact .byte (h b List.mem_cons_self) (ih fun c hc => h c (List.mem_cons_of_mem _ hc))

/-- Literal bytes in front stand for themselves. -/
theorem Fits.append_left {crosses : Bool} {front p s : Bytes} (hfront : ∀ b ∈ front, isActive b = false)
    (h : Fits crosses p s) : Fits crosses (front ++ p) (front ++ s) := by
  induction front with
  | nil => exact h
  | cons b front ih =>
    exact .byte (hfront b List.mem_cons_self) (ih fun c hc => hfront c (List.mem_cons_of_mem _ hc))

/-- What fits a pattern is its text, or it has the text up to a byte that is not literal. -/
theorem Fits.begins {crosses : Bool} {p s : Bytes} (h : Fits crosses p s) :
    s = p ∨ ∃ front b rest tail, isActive b = true ∧ p = front ++ b :: rest ∧ s = front ++ tail := by
  induction h with
  | nil => exact .inl rfl
  | @byte b p s hb h ih =>
    rcases ih with rfl | ⟨front, c, rest, tail, hc, rfl, rfl⟩
    · exact .inl rfl
    · exact .inr ⟨b :: front, c, rest, tail, hc, rfl, rfl⟩
  | escaped | anyOne | anyRun | anything | nowhere | oneOf | group =>
    exact .inr ⟨[], _, _, _, by decide, rfl, rfl⟩

/-! ## Components -/

open Uncomment.Path (Covers)

/-- Every choice of a group stands before a mark of it. -/
theorem exists_mark {choices : List Bytes} {x : Bytes} (hx : x ∈ choices) :
    ∃ front b back, Bytes.join comma choices ++ [closeBrace] = front ++ x ++ b :: back ∧
      (b = comma ∨ b = closeBrace) := by
  induction choices with
  | nil => cases hx
  | cons y choices ih =>
    cases choices with
    | nil =>
      obtain rfl := List.mem_singleton.1 hx
      exact ⟨[], closeBrace, [], by simp [Bytes.join], .inr rfl⟩
    | cons z more =>
      have hjoin : Bytes.join comma (y :: z :: more) = y ++ comma :: Bytes.join comma (z :: more) := by
        simp [Bytes.join, List.intercalate_cons_cons]
      rw [hjoin]
      rcases List.mem_cons.1 hx with rfl | hx
      · exact ⟨[], comma, Bytes.join comma (z :: more) ++ [closeBrace], by simp, .inl rfl⟩
      · obtain ⟨front, b, back, heq, hb⟩ := ih hx
        refine ⟨y ++ comma :: front, b, back, ?_, hb⟩
        rw [List.append_assoc, List.cons_append, heq]
        simp

/-- With classes that stop at slashes and without a double star, what fits a pattern has no more components
than the pattern, whatever follows both. -/
theorem Fits.covers_append {p s : Bytes} (h : Fits false p s) (hstars : ¬ [star, star] <:+: p)
    {q r : Bytes} (hqr : Covers q r) : Covers (p ++ q) (s ++ r) := by
  induction h generalizing q r with
  | nil => exact hqr
  | @byte b p s hb h ih =>
    exact (ih (fun hin => hstars (hin.trans (List.suffix_cons b p).isInfix)) hqr).cons b
  | @escaped b p s h ih =>
    have hrest := ih (fun hin => hstars (hin.trans (List.suffix_append [backslash, b] p).isInfix)) hqr
    simpa using (hrest.cons b).replace (show backslash ≠ slash ∧ backslash ≠ dot by decide) []
      (show slash ∉ [] by simp)
  | @anyOne t p s hne ht h ih =>
    have hrest := ih (fun hin => hstars (hin.trans (List.suffix_cons _ p).isInfix)) hqr
    simpa using hrest.replace (show questionMark ≠ slash ∧ questionMark ≠ dot by decide) [] ht
  | @anyRun t p s ht h ih =>
    have hrest := ih (fun hin => hstars (hin.trans (List.suffix_cons _ p).isInfix)) hqr
    simpa using hrest.replace (show star ≠ slash ∧ star ≠ dot by decide) [] ht
  | @anything t p s h ih => exact absurd (List.prefix_append [star, star] p).isInfix hstars
  | @nowhere p s h ih => exact absurd (List.prefix_append [star, star] (slash :: p)).isInfix hstars
  | @oneOf members t p s hne ht h ih =>
    have hsuffix : p <:+ openBracket :: members ++ closeBracket :: p :=
      ⟨openBracket :: members ++ [closeBracket], by simp⟩
    have hrest := ih (fun hin => hstars (hin.trans hsuffix.isInfix)) hqr
    have hinside : slash ∉ t := fun hmem => absurd (ht hmem) (by decide)
    simpa using hrest.replace (show openBracket ≠ slash ∧ openBracket ≠ dot by decide)
      (members ++ [closeBracket]) hinside
  | @group choices x t p s hx hchoice h ihchoice ih =>
    obtain ⟨front, b, back, heq, hb⟩ := exists_mark hx
    have hgroup : openBrace :: Bytes.join comma choices ++ closeBrace :: p =
        openBrace :: front ++ (x ++ b :: (back ++ p)) := by
      have happend := congrArg (openBrace :: · ++ p) heq
      simpa using happend
    rw [hgroup] at hstars ⊢
    have hmark : b ≠ slash ∧ b ≠ dot := by
      rcases hb with rfl | rfl <;> decide
    have hrest := ih (fun hin => hstars (hin.trans
      (List.IsSuffix.isInfix ⟨openBrace :: front ++ x ++ b :: back, by simp⟩))) hqr
    -- what follows the choice in the group goes with the mark behind it
    have hbehind := ihchoice (fun hin => hstars (hin.trans ⟨openBrace :: front, b :: (back ++ p), by simp⟩))
      (hrest.replace hmark back (show slash ∉ [] by simp))
    simpa using hbehind.replace (show openBrace ≠ slash ∧ openBrace ≠ dot by decide) front
      (show slash ∉ [] by simp)

/-- What fits such a pattern has no more components than the pattern. -/
theorem Fits.covers {p s : Bytes} (h : Fits false p s) (hstars : ¬ [star, star] <:+: p) : Covers p s := by
  simpa using h.covers_append hstars (.refl [])

end Glob

/-- The library compiles a text as it documents it: what the test accepts fits the text. -/
structure Globs.Reads [Globs] (crosses : Bool) (text : String) (accepts : Bytes → Bool) : Prop where
  compiles : Globs.compile true text = .ok accepts
  fits : ∀ s, accepts s = true → Glob.Fits crosses (Bytes.ofText text) s

end Uncomment
