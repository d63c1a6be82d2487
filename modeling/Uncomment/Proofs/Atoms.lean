import Mathlib
import Uncomment.Proofs.Lexemes

/-! Atoms. Taking something out of a text can make two stretches of code meet, so code is looked at
byte by byte, while a comment or a literal stays in one piece. The lexemes of a text are its atoms
with neighbouring bytes of code merged. -/
namespace Uncomment

/-- A byte of code, or a comment or literal in one piece. -/
inductive Atom where
  | byte (b : UInt8)
  | whole (l : Lexeme)
  deriving DecidableEq, Repr

namespace Atom

def bytes : Atom → Bytes
  | byte b => [b]
  | whole l => l.bytes

def flat (A : List Atom) : Bytes := A.flatMap bytes

def ofLexeme (l : Lexeme) : List Atom := if l.kind = .code then l.bytes.map byte else [whole l]

def explode (ls : List Lexeme) : List Atom := ls.flatMap ofLexeme

/-- A byte of code in front of lexemes joins the code they begin with. -/
def consByte (b : UInt8) : List Lexeme → List Lexeme
  | [] => [⟨.code, [b], true⟩]
  | l :: ls =>
    if l.kind = .code then ⟨.code, b :: l.bytes, true⟩ :: ls else ⟨.code, [b], true⟩ :: l :: ls

/-- Atoms in front of lexemes, with neighbouring code merged. -/
def pack : List Atom → List Lexeme → List Lexeme
  | [], ls => ls
  | byte b :: A, ls => consByte b (pack A ls)
  | whole l :: A, ls => l :: pack A ls

def merge (A : List Atom) : List Lexeme := pack A []

@[simp] theorem flat_nil : flat [] = [] := rfl

@[simp] theorem flat_cons (a : Atom) (A : List Atom) : flat (a :: A) = a.bytes ++ flat A := by
  simp [flat]

@[simp] theorem flat_append (A B : List Atom) : flat (A ++ B) = flat A ++ flat B := by
  simp [flat]

@[simp] theorem flat_map_byte (bs : Bytes) : flat (bs.map byte) = bs := by
  induction bs with
  | nil => rfl
  | cons b bs ih => simp [bytes, ih]

@[simp] theorem flat_ofLexeme (l : Lexeme) : flat (ofLexeme l) = l.bytes := by
  unfold ofLexeme
  split_ifs
  · exact flat_map_byte _
  · simp [bytes]

@[simp] theorem explode_nil : explode [] = [] := rfl

@[simp] theorem explode_cons (l : Lexeme) (ls : List Lexeme) :
    explode (l :: ls) = ofLexeme l ++ explode ls := by
  simp [explode]

@[simp] theorem explode_append (ls ms : List Lexeme) :
    explode (ls ++ ms) = explode ls ++ explode ms := by
  simp [explode]

theorem flat_explode (ls : List Lexeme) : flat (explode ls) = ls.flatMap Lexeme.bytes := by
  induction ls with
  | nil => rfl
  | cons l ls ih => simp [ih]

theorem ofLexeme_of_ne {l : Lexeme} (h : l.kind ≠ .code) : ofLexeme l = [whole l] := if_neg h

theorem ofLexeme_of_code {l : Lexeme} (h : l.kind = .code) : ofLexeme l = l.bytes.map byte := if_pos h

theorem explode_consByte (b : UInt8) (ls : List Lexeme) :
    explode (consByte b ls) = byte b :: explode ls := by
  cases ls with
  | nil => simp [consByte, ofLexeme]
  | cons l ls =>
    simp only [consByte]
    split_ifs with h
    · simp [ofLexeme, h]
    · simp [ofLexeme]

theorem explode_pack {A : List Atom} (hA : ∀ l, whole l ∈ A → l.kind ≠ .code) (ls : List Lexeme) :
    explode (pack A ls) = A ++ explode ls := by
  induction A with
  | nil => rfl
  | cons a A ih =>
    have ih := ih fun l hl => hA l (List.mem_cons_of_mem _ hl)
    cases a with
    | byte b => rw [pack, explode_consByte, ih, List.cons_append]
    | whole l =>
      rw [pack, explode_cons, ofLexeme_of_ne (hA l List.mem_cons_self), ih]
      simp

theorem pack_cons_of_ne (A : List Atom) {l : Lexeme} (hl : l.kind ≠ .code) (ls : List Lexeme) :
    pack A (l :: ls) = merge A ++ l :: ls := by
  induction A with
  | nil => rfl
  | cons a A ih =>
    cases a with
    | byte b =>
      rw [merge, pack, pack, ih, merge]
      cases pack A [] with
      | nil => simp [consByte, hl]
      | cons m ms =>
        simp only [consByte, List.cons_append]
        split_ifs <;> rfl
    | whole m => rw [merge, pack, pack, ih, merge, List.cons_append]

theorem flatMap_consByte (b : UInt8) (ls : List Lexeme) :
    (consByte b ls).flatMap Lexeme.bytes = b :: ls.flatMap Lexeme.bytes := by
  cases ls with
  | nil => simp [consByte]
  | cons l ls =>
    simp only [consByte]
    split_ifs <;> simp

theorem flatMap_merge (A : List Atom) : (merge A).flatMap Lexeme.bytes = flat A := by
  induction A with
  | nil => rfl
  | cons a A ih =>
    cases a with
    | byte b =>
      rw [merge, pack, flatMap_consByte, ← merge, ih]
      rfl
    | whole l =>
      rw [merge, pack, List.flatMap_cons, ← merge, ih]
      rfl

end Atom

namespace Scan
open Atom

/-- A byte where nothing opens is code, together with the code after it. -/
theorem lexemes_cons_of_none {lang : Language} (hs : lang.Scannable) {b : UInt8} {t : Bytes}
    (h : opener? lang (b :: t) = none) : lexemes lang (b :: t) = consByte b (lexemes lang t) := by
  have hhead := head_of_none h
  rw [codeLength_of_none h] at hhead
  rw [lexemes_of_ne_nil hs (List.cons_ne_nil b t), first, hhead]
  simp only [List.take_succ_cons, List.drop_succ_cons]
  by_cases hne : t = []
  · subst hne
    simp [codeLength, consByte]
  · rw [lexemes_of_ne_nil hs hne, first]
    cases ho : opener? lang t with
    | some o =>
      rw [codeLength_of_some hs ho, List.take_zero, List.drop_zero, head_of_some ho,
        lexemes_of_ne_nil hs hne, first, head_of_some ho]
      simp [consByte, o.kind_ne_code]
    | none => simp [head_of_none ho, consByte]

theorem lexemes_append_of_head {lang : Language} (hs : lang.Scannable) {l : Lexeme} {t : Bytes}
    (hne : l.bytes ≠ [])
    (h : head lang (l.bytes ++ t) = (l.kind, ⟨l.bytes.length, l.terminated⟩)) :
    lexemes lang (l.bytes ++ t) = l :: lexemes lang t := by
  rw [lexemes_of_ne_nil hs (by simp [hne]), first, h]
  simp

end Scan
end Uncomment
