import Mathlib
import Uncomment.Proofs.Fates

/-! Doubled quotes in SQL. In the standard reading two quotes in a row stand for one and the literal
goes on. The scan closes the literal at the first and opens another at the second, which puts the
same bytes into literals. -/
namespace Uncomment
open Ascii Atom Scan

namespace DoubledQuotes

/-- What a byte belongs to. -/
inductive Part where
  | code
  | comment
  | literal
  deriving DecidableEq, Repr

def Part.ofKind : SegmentKind → Part
  | .code => .code
  | .stringLiteral => .literal
  | .lineComment | .blockComment | .embeddedComment => .comment

/-- Where the standard reading of SQL stands. -/
inductive Mode where
  | code
  | line
  /-- At the star that opens a block comment with the slash before it. -/
  | opening
  | block
  /-- At the slash that closes a block comment with the star before it. -/
  | closing
  | quoted (mark : UInt8)
  /-- At the second of two quotes inside a literal. -/
  | doubled (mark : UInt8)
  deriving DecidableEq, Repr

namespace Mode

def inLiteral : Mode → Bool
  | quoted _ | doubled _ => true
  | code | line | opening | block | closing => false

/-- What a byte belongs to and the mode after it. Only the next byte is looked at ahead. -/
def turn : Mode → UInt8 → Option UInt8 → Part × Mode
  | code, b, next =>
    if b = dash ∧ next = some dash then (.comment, line)
    else if b = slash ∧ next = some star then (.comment, opening)
    else if b = apostrophe ∨ b = quote then (.literal, quoted b)
    else (.code, code)
  | line, b, _ => if isLineEnd b then (.code, code) else (.comment, line)
  | opening, _, _ => (.comment, block)
  | block, b, next => if b = star ∧ next = some slash then (.comment, closing) else (.comment, block)
  | closing, _, _ => (.comment, code)
  | quoted mark, b, next =>
    if b = mark then
      if next = some mark then (.literal, doubled mark) else (.literal, code)
    else (.literal, quoted mark)
  | doubled mark, _, _ => (.literal, quoted mark)

end Mode

/-- What each byte of a text belongs to, and whether the text ends inside a literal. -/
structure Reading where
  parts : List Part
  cut : Bool
  deriving DecidableEq, Repr

def Reading.ahead (parts : List Part) (r : Reading) : Reading := ⟨parts ++ r.parts, r.cut⟩

/-- The standard reading of a text. -/
def read : Mode → Bytes → Reading
  | mode, [] => ⟨[], mode.inLiteral⟩
  | mode, b :: rest =>
    let turn := mode.turn b rest.head?
    (read turn.2 rest).ahead [turn.1]

/-- The reading that lexemes amount to. -/
def ofLexemes (ls : List Lexeme) : Reading where
  parts := ls.flatMap fun l => List.replicate l.bytes.length (.ofKind l.kind)
  cut := ls.getLast?.any fun l => l.kind = .stringLiteral ∧ l.terminated = false

section Read
variable {s rest : Bytes} {mark : UInt8}

theorem read_cons (mode : Mode) (b : UInt8) (rest : Bytes) :
    read mode (b :: rest) =
      (read (mode.turn b rest.head?).2 rest).ahead [(mode.turn b rest.head?).1] := rfl

@[simp] theorem ahead_ahead (parts more : List Part) (r : Reading) :
    (r.ahead more).ahead parts = r.ahead (parts ++ more) := by
  simp [Reading.ahead]

theorem ahead_replicate (part : Part) (n : Nat) (r : Reading) :
    (r.ahead (List.replicate n part)).ahead [part] = r.ahead (List.replicate (n + 1) part) := by
  rw [ahead_ahead, List.singleton_append, List.replicate_succ]

theorem read_line {inside : Bytes} (hinside : ∀ b ∈ inside, isLineEnd b = false)
    (hafter : ∀ c ∈ rest.head?, isLineEnd c = true) :
    read .line (inside ++ rest) =
      (read .code rest).ahead (List.replicate inside.length .comment) := by
  induction inside with
  | nil =>
    cases rest with
    | nil => rfl
    | cons c rest =>
      have hc : isLineEnd c = true := hafter c rfl
      have hcode : Mode.code.turn c rest.head? = (.code, .code) := by
        simp only [isLineEnd, Bool.or_eq_true, beq_iff_eq] at hc
        rcases hc with rfl | rfl <;> rfl
      have hline : Mode.line.turn c rest.head? = (.code, .code) := if_pos hc
      rw [List.nil_append, read_cons, read_cons, hline, hcode]
      rfl
  | cons b inside ih =>
    have hb : Mode.line.turn b (inside ++ rest).head? = (.comment, .line) := by
      simp [Mode.turn, hinside b]
    rw [List.cons_append, read_cons, hb, ih fun b hb => hinside b (List.mem_cons_of_mem _ hb),
      ahead_replicate, List.length_cons]

theorem closing_isPrefix_iff {b : UInt8} :
    Language.block.closing <+: b :: rest ↔ b = star ∧ rest.head? = some slash := by
  cases rest with
  | nil => simp [Language.block]
  | cons c rest => simp [Language.block, eq_comm]

theorem turn_block {b : UInt8} (h : ¬ Language.block.closing <+: b :: rest) :
    Mode.block.turn b rest.head? = (.comment, .block) :=
  if_neg (closing_isPrefix_iff.not.1 h)

theorem read_block {i : Nat} (h : Bytes.FirstAt Language.block.closing s i) :
    read .block s = (read .code (s.drop (i + 2))).ahead (List.replicate (i + 2) .comment) := by
  induction i generalizing s with
  | zero =>
    obtain ⟨rest, rfl⟩ := Bytes.firstAt_zero.1 h
    rfl
  | succ i ih =>
    cases s with
    | nil =>
      have := h.le
      simp at this
    | cons b rest =>
      obtain ⟨hnot, hfirst⟩ := Bytes.firstAt_succ.1 h
      rw [read_cons, turn_block hnot, ih hfirst, ahead_replicate]
      rfl

theorem read_openBlock (h : Bytes.indexOf? Language.block.closing s = none) :
    read .block s = ⟨List.replicate s.length .comment, false⟩ := by
  rw [Bytes.indexOf?_eq_none] at h
  induction s with
  | nil => rfl
  | cons b rest ih =>
    rw [read_cons, turn_block (h 0), ih fun i => h (i + 1)]
    rfl

/-- A literal that is closed and opened again goes on. -/
theorem read_mark (hmark : mark = apostrophe ∨ mark = quote) (rest : Bytes) :
    read (.quoted mark) (mark :: rest) = (read .code rest).ahead [.literal] := by
  by_cases hnext : rest.head? = some mark
  · obtain ⟨rest, rfl⟩ := List.head?_eq_some_iff.1 hnext
    have hopens : Mode.code.turn mark rest.head? = (.literal, .quoted mark) := by
      rcases hmark with rfl | rfl <;> rfl
    rw [read_cons, read_cons, read_cons, hopens]
    simp [Mode.turn]
  · simp [read_cons, Mode.turn, hnext]

theorem read_quoted (hmark : mark = apostrophe ∨ mark = quote) {n : Nat} {terminated : Bool}
    (h : literalExtent (Language.rawQuote mark) s = ⟨n, terminated⟩) :
    read (.quoted mark) s = if terminated
      then (read .code (s.drop n)).ahead (List.replicate n .literal)
      else ⟨List.replicate n .literal, true⟩ := by
  induction s generalizing n with
  | nil =>
    obtain ⟨rfl, rfl⟩ : 0 = n ∧ false = terminated := by simpa [literalExtent] using h
    rfl
  | cons b rest ih =>
    by_cases hb : b = mark
    · rw [literalExtent_mark (by simp [Language.rawQuote]) hb, Extent.mk.injEq] at h
      obtain ⟨rfl, rfl⟩ := h
      rw [hb, read_mark hmark]
      rfl
    · rw [literalExtent_next (by simp [Language.rawQuote]) hb (by simp [Language.rawQuote])] at h
      obtain ⟨m, rfl⟩ : ∃ m, n = m + 1 := ⟨_, (congrArg Extent.length h).symm⟩
      have hturn : (Mode.quoted mark).turn b rest.head? = (.literal, .quoted mark) := by
        simp [Mode.turn, hb]
      rw [read_cons, hturn, ih (Extent.grow_inj h)]
      cases terminated with
      | false => rfl
      | true => exact ahead_replicate _ _ _

end Read

section Scan

theorem read_code {b : UInt8} {rest : Bytes} (h : opener? Language.sql (b :: rest) = none) :
    read .code (b :: rest) = (read .code rest).ahead [.code] := by
  have hc : Language.sql.CLike := Language.cLike_of_mem_all (by simp [Language.all])
  obtain ⟨hmeets, hmarks⟩ := (opener?_eq_none_iff hc (embedded?_of_opener? h)).1 h
  have hdash : ¬ (b = dash ∧ rest.head? = some dash) := by
    rintro ⟨rfl, hnext⟩
    rw [hnext] at hmeets
    exact absurd hmeets (by decide)
  have hslash : ¬ (b = slash ∧ rest.head? = some star) := by
    rintro ⟨rfl, hnext⟩
    rw [hnext] at hmeets
    exact absurd hmeets (by decide)
  have hquote : ¬ (b = apostrophe ∨ b = quote) := by
    simpa [Language.sql, Language.rawQuote, eq_comm] using hmarks
  rw [read_cons, Mode.turn, if_neg hdash, if_neg hslash, if_neg hquote]

theorem read_literal {q : Quote} (hq : q ∈ Language.sql.quotes) {body rest : Bytes}
    {terminated : Bool} (h : literalExtent q (body ++ rest) = ⟨body.length, terminated⟩) :
    read .code (q.mark :: body ++ rest) = if terminated
      then (read .code rest).ahead (List.replicate (body.length + 1) .literal)
      else ⟨List.replicate (body.length + 1) .literal, true⟩ := by
  have hraw : ∀ q ∈ Language.sql.quotes,
      q = Language.rawQuote q.mark ∧ (q.mark = apostrophe ∨ q.mark = quote) := by decide
  obtain ⟨heq, hmark⟩ := hraw q hq
  have hopens : Mode.code.turn q.mark (body ++ rest).head? = (.literal, .quoted q.mark) := by
    rcases hmark with hmark | hmark <;> rw [hmark] <;> rfl
  rw [heq] at h
  rw [List.cons_append, read_cons, hopens, read_quoted hmark h]
  cases terminated with
  | false => rfl
  | true => rw [if_pos rfl, if_pos rfl, List.drop_left, ahead_replicate]

/-- What the scan takes for a comment or a literal is one in the standard reading, as far as the
parts of its bytes go. -/
theorem read_stands {l : Lexeme} {rest : Bytes} (h : Stands Language.sql l rest.head?) :
    read .code (l.bytes ++ rest) = if l.terminated
      then (read .code rest).ahead (List.replicate l.bytes.length (.ofKind l.kind))
      else ⟨List.replicate l.bytes.length (.ofKind l.kind), l.kind = .stringLiteral⟩ := by
  generalize hnext : rest.head? = next at h
  cases h with
  | @line m bytes _ marker opens inside after =>
    obtain rfl : m = [dash, dash] := List.mem_singleton.1 marker
    obtain ⟨t, rfl⟩ := opens
    have hinside : ∀ b ∈ dash :: t, isLineEnd b = false := fun b hb => inside b (.tail _ hb)
    calc read .code (dash :: dash :: t ++ rest)
        = (read .line (dash :: t ++ rest)).ahead [.comment] := rfl
      _ = (read .code rest).ahead (List.replicate (t.length + 2) .comment) := by
        rw [read_line hinside (hnext ▸ after), ahead_replicate]
        rfl
  | @block bytes i _ opens first stop =>
    obtain ⟨t, rfl⟩ := opens
    have hfirst : Bytes.FirstAt Language.block.closing t i := first
    have hlen : i + 2 = t.length := by simpa [Language.block] using stop
    calc read .code (slash :: star :: t ++ rest)
        = ((read .block (t ++ rest)).ahead [.comment]).ahead [.comment] := rfl
      _ = (read .code rest).ahead (List.replicate (t.length + 2) .comment) := by
        rw [read_block (hfirst.append rest), hlen, List.drop_left, ahead_replicate, ahead_replicate]
  | @openBlock bytes opens never =>
    obtain rfl : rest = [] := List.head?_eq_none_iff.1 hnext
    obtain ⟨t, rfl⟩ := opens
    have hnever : Bytes.indexOf? Language.block.closing t = none := never
    rw [List.append_nil]
    calc read .code (slash :: star :: t)
        = ((read .block t).ahead [.comment]).ahead [.comment] := rfl
      _ = ⟨List.replicate (t.length + 2) .comment, false⟩ := by
        rw [read_openBlock hnever]
        rfl
  | embedded form => cases form
  | quoted mem closes => exact read_literal mem (closes rest)
  | broken mem breaks stop =>
    obtain ⟨t, rfl⟩ := List.head?_eq_some_iff.1 hnext
    exact read_literal mem (breaks _ t stop)
  | openQuoted mem never =>
    obtain rfl : rest = [] := List.head?_eq_none_iff.1 hnext
    exact read_literal mem (by rwa [List.append_nil])

theorem ofLexemes_consByte (b : UInt8) (ls : List Lexeme) :
    ofLexemes (consByte b ls) = (ofLexemes ls).ahead [.code] := by
  cases ls with
  | nil => rfl
  | cons l ls =>
    by_cases hk : l.kind = .code
    · cases ls <;>
        simp [consByte, hk, ofLexemes, Reading.ahead, Part.ofKind, List.replicate_succ]
    · simp [consByte, hk, ofLexemes, Reading.ahead, Part.ofKind]

theorem ofLexemes_cons {l : Lexeme} (hl : l.terminated = true) (ls : List Lexeme) :
    ofLexemes (l :: ls) =
      (ofLexemes ls).ahead (List.replicate l.bytes.length (.ofKind l.kind)) := by
  cases ls <;> simp [ofLexemes, Reading.ahead, hl]

/-- The lexemes of a text amount to its standard reading. -/
theorem ofLexemes_eq_read (s : Bytes) : ofLexemes (lexemes Language.sql s) = read .code s := by
  have hmem : Language.sql ∈ Language.all := by simp [Language.all]
  have hs := Language.scannable_of_mem_all hmem
  have hc := Language.cLike_of_mem_all hmem
  induction hn : s.length using Nat.strong_induction_on generalizing s with
  | _ n ih =>
    cases s with
    | nil => rw [lexemes_nil]; rfl
    | cons b t =>
      cases ho : opener? Language.sql (b :: t) with
      | none =>
        rw [lexemes_cons_of_none hs ho, ofLexemes_consByte, read_code ho,
          ih t.length (by simp [← hn]) t rfl]
      | some o =>
        obtain ⟨l, rest, hsplit, hshort, -, hstands, hlex⟩ := exists_stands hs hc ho
        rw [hlex, hsplit, read_stands hstands]
        cases hl : l.terminated with
        | true =>
          rw [ofLexemes_cons hl, ih rest.length (hn ▸ hshort) rest rfl]
          rfl
        | false =>
          obtain rfl : rest = [] := by
            generalize hnext : rest.head? = next at hstands
            cases hstands with
            | openBlock | openQuoted => exact List.head?_eq_none_iff.1 hnext
            | line | block | embedded | quoted | broken => cases hl
          simp [ofLexemes, hl]

end Scan
end DoubledQuotes

open DoubledQuotes

/-- The scan of SQL gives every byte the part it has in the standard reading, where a doubled quote
stays inside its literal. It ends in a literal that is cut off when that reading ends inside one. -/
theorem scan_sql_doubledQuotes (s : Bytes) :
    ((scan Language.sql s).flatMap fun g => List.replicate g.bytes.length (Part.ofKind g.kind)) =
        (read .code s).parts ∧
      ((∃ g ∈ (scan Language.sql s).getLast?, g.kind = .stringLiteral ∧ g.terminated = false) ↔
        (read .code s).cut = true) := by
  rw [← ofLexemes_eq_read, ← map_toLexeme_scan]
  constructor
  · rw [ofLexemes, List.flatMap_map]
  · rw [ofLexemes, List.getLast?_map]
    simp [Option.any_eq_true]

example : read .code (Bytes.ofText "'a''--'--b\n'") =
    ⟨List.replicate 7 .literal ++ List.replicate 3 .comment ++ [.code, .literal], true⟩ := by
  decide +kernel

end Uncomment
