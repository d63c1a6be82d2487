import Mathlib
import Uncomment.Proofs.Idempotence

/-! Script with and without markup. A scan that knows markup comments differs from the plain one in
these comments alone: where it reads braces and the block comment between them as one comment, the
plain scan reads a byte of code, the block comment and a byte of code. -/
namespace Uncomment
open Ascii
open Bytes (FirstAt)

/-- A markup comment without its braces; anything else as it is. -/
def Lexeme.unbraced (l : Lexeme) : Lexeme :=
  if l.kind = .embeddedComment then ⟨.blockComment, l.bytes.tail.dropLast, l.terminated⟩ else l

/-- A markup comment without its braces, in its place; anything else as it is. -/
def Segment.unbraced (g : Segment) : Segment :=
  if g.kind = .embeddedComment then { g with toLexeme := g.toLexeme.unbraced, start := g.start + 1 }
  else g

namespace Atom
open Scan

/-- What the plain scan reads where the scan with markup reads one atom. -/
def unbrace : Atom → List Atom
  | byte b => [byte b]
  | whole l =>
    if l.kind = .embeddedComment then [byte openBrace, whole l.unbraced, byte closeBrace]
    else [whole l]

/-- A block comment in braces. -/
structure Braced (l : Lexeme) (inner : Bytes) (i : Nat) : Prop where
  eq : l = ⟨.embeddedComment, openBrace :: (inner ++ [closeBrace]), true⟩
  opens : Language.block.opening <+: inner
  first : FirstAt Language.block.closing (inner.drop 2) i
  stop : i + 4 = inner.length

namespace Braced
variable {l : Lexeme} {inner : Bytes} {i : Nat}

theorem unbraced_eq (h : Braced l inner i) : l.unbraced = ⟨.blockComment, inner, true⟩ := by
  simp [h.eq, Lexeme.unbraced]

theorem stands (h : Braced l inner i) (next : Option UInt8) : Stands Language.tsx l next := by
  rw [h.eq]
  exact stands_braces rfl h.opens h.first h.stop next

end Braced

section Scans

theorem opener?_typescript {s : Bytes} (h : embedded? Language.tsx s = none) :
    opener? Language.typescript s = opener? Language.tsx s := by
  have hnone : embedded? Language.typescript s = none := rfl
  rw [opener?, opener?, h, hnone]
  rfl

theorem exists_braced {s : Bytes} {d : Delimiter} (h : embedded? Language.tsx s = some d) :
    ∃ l inner i rest, Braced l inner i ∧ s = openBrace :: (inner ++ closeBrace :: rest) := by
  obtain ⟨form, rfl⟩ := embedded?_eq_markupBlock (Language.cLike_of_mem_all (by simp [Language.all])) h
  obtain ⟨hp, i, hf, hbrace⟩ := (embedded?_markup_iff form).1 h
  cases s with
  | nil => simp [Language.markupBlock] at hp
  | cons b t =>
    obtain ⟨rfl, hopen⟩ : openBrace = b ∧ Language.block.opening <+: t := List.cons_prefix_cons.1 hp
    rw [List.drop_succ_cons] at hf hbrace
    have hle : i + 4 ≤ t.length := by
      have := hf.le
      simp only [Language.block, List.length_cons, List.length_nil, List.length_drop] at this
      omega
    have hlen : (t.take (i + 4)).length = i + 4 := List.length_take_of_le hle
    have hsplit : t = t.take (i + 4) ++ closeBrace :: t.drop (i + 5) := by
      rw [List.getElem?_drop, show 2 + (i + 2) = i + 4 by omega] at hbrace
      obtain ⟨hlt, hget⟩ := List.getElem?_eq_some_iff.1 hbrace
      rw [← hget, List.getElem_cons_drop, List.take_append_drop]
    refine ⟨_, t.take (i + 4), i, t.drop (i + 5), ⟨rfl, ?_, ?_, hlen.symm⟩, congrArg _ hsplit⟩
    · exact List.prefix_take_iff.2 ⟨hopen, by simp [Language.block]⟩
    · rw [hsplit, List.drop_append_of_le_length (by omega)] at hf
      refine (Bytes.firstAt_append_iff (closeBrace :: t.drop (i + 5)) ?_).1 hf
      simp only [Language.block, List.length_cons, List.length_nil, List.length_drop]
      omega

/-- Where the plain scan meets braces around a block comment, it reads the three one by one. -/
theorem explode_typescript_braced {l : Lexeme} {inner : Bytes} {i : Nat} (h : Braced l inner i)
    (rest : Bytes) :
    explode (lexemes Language.typescript (openBrace :: (inner ++ closeBrace :: rest))) =
      unbrace (whole l) ++ explode (lexemes Language.typescript rest) := by
  have hmem : Language.typescript ∈ Language.all := by simp [Language.all]
  have hs := Language.scannable_of_mem_all hmem
  have hc := Language.cLike_of_mem_all hmem
  have hopen : ∀ t : Bytes, opener? Language.typescript (openBrace :: t) = none := by
    intro t
    refine (opener?_eq_none_iff hc rfl).2 ⟨Strip.meets_false_left hc (.inr rfl) _, fun q hq heq => ?_⟩
    exact (hc.marks q hq).2 (by simp [heq])
  have hclose : ∀ t : Bytes, opener? Language.typescript (closeBrace :: t) = none := by
    intro t
    refine (opener?_eq_none_iff hc rfl).2 ⟨?_, fun q hq heq => (hc.marks q hq).2 (by simp [heq])⟩
    cases t with
    | nil => rfl
    | cons c t =>
      by_contra hmeets
      have hbyte := (Strip.bytes_of_meets hc (by simpa using hmeets)).1
      exact absurd hbyte (by decide)
  have hblock : Stands Language.typescript ⟨.blockComment, inner, true⟩ (closeBrace :: rest).head? :=
    .block h.opens h.first h.stop
  have hinner := lexemes_append_of_head hs (hblock.bytes_ne_nil hc) (hblock.head_eq hc)
  rw [lexemes_cons_of_none hs (hopen _), explode_consByte, hinner, explode_cons,
    lexemes_cons_of_none hs (hclose _), explode_consByte, ofLexeme_of_ne (by simp), unbrace,
    h.unbraced_eq, h.eq]
  rfl

theorem lexemes_tsx_braced {l : Lexeme} {inner : Bytes} {i : Nat} (h : Braced l inner i)
    (rest : Bytes) :
    lexemes Language.tsx (openBrace :: (inner ++ closeBrace :: rest)) =
      l :: lexemes Language.tsx rest := by
  have hmem : Language.tsx ∈ Language.all := by simp [Language.all]
  have hc := Language.cLike_of_mem_all hmem
  have hstands := h.stands rest.head?
  have hbytes : openBrace :: (inner ++ closeBrace :: rest) = l.bytes ++ rest := by simp [h.eq]
  rw [hbytes]
  exact lexemes_append_of_head (Language.scannable_of_mem_all hmem) (hstands.bytes_ne_nil hc)
    (hstands.head_eq hc)

/-- What opens other than markup is cut off alike by both scans. -/
theorem first_typescript {s : Bytes} {o : Opener} (he : embedded? Language.tsx s = none)
    (ho : opener? Language.tsx s = some o) :
    head Language.typescript s = head Language.tsx s ∧
      first Language.typescript s = first Language.tsx s ∧
      (first Language.tsx s).kind ≠ .code ∧ (first Language.tsx s).kind ≠ .embeddedComment := by
  have hhead : head Language.typescript s = head Language.tsx s := by
    rw [head_of_some ho, head_of_some ((opener?_typescript he).trans ho)]
  have hkind : (first Language.tsx s).kind = o.kind := by
    rw [first, head_of_some ho]
  refine ⟨hhead, by rw [first, first, hhead], ?_, ?_⟩
  · rw [hkind]
    exact o.kind_ne_code
  · rw [hkind]
    rcases opener?_cases ho with ⟨d, -, hd⟩ | ⟨d, -, rfl, -⟩ | ⟨rfl, -⟩ | ⟨q, -, rfl, -⟩
    · simp [he] at hd
    · simp [Opener.kind]
    · simp [Opener.kind]
    · simp [Opener.kind]

/-- The plain scan of a text reads what the scan with markup reads, with braces read as code, and
each of its markup comments is a block comment in braces. -/
structure Unbraces (s : Bytes) : Prop where
  explode_eq : explode (lexemes Language.typescript s) =
    (explode (lexemes Language.tsx s)).flatMap unbrace
  braced : ∀ l, whole l ∈ explode (lexemes Language.tsx s) → l.kind = .embeddedComment →
    ∃ inner i, Braced l inner i

theorem Unbraces.of_braced {l : Lexeme} {inner rest : Bytes} {i : Nat} (hbraced : Braced l inner i)
    (h : Unbraces rest) : Unbraces (openBrace :: (inner ++ closeBrace :: rest)) := by
  have hkind : l.kind ≠ .code := by simp [hbraced.eq]
  have htsx : explode (lexemes Language.tsx (openBrace :: (inner ++ closeBrace :: rest))) =
      whole l :: explode (lexemes Language.tsx rest) := by
    rw [lexemes_tsx_braced hbraced, explode_cons, ofLexeme_of_ne hkind]
    rfl
  constructor
  · rw [htsx, explode_typescript_braced hbraced, List.flatMap_cons, h.explode_eq]
  · intro k hk hkind'
    rw [htsx] at hk
    rcases List.mem_cons.1 hk with hk | hk
    · obtain rfl : k = l := by simpa using hk
      exact ⟨inner, i, hbraced⟩
    · exact h.braced k hk hkind'

theorem Unbraces.of_none {b : UInt8} {t : Bytes} (he : embedded? Language.tsx (b :: t) = none)
    (ho : opener? Language.tsx (b :: t) = none) (h : Unbraces t) : Unbraces (b :: t) := by
  have hs : Language.tsx.Scannable := Language.scannable_of_mem_all (by simp [Language.all])
  have hs' : Language.typescript.Scannable :=
    Language.scannable_of_mem_all (by simp [Language.all])
  have htsx : explode (lexemes Language.tsx (b :: t)) =
      byte b :: explode (lexemes Language.tsx t) := by
    rw [lexemes_cons_of_none hs ho, explode_consByte]
  constructor
  · rw [htsx, lexemes_cons_of_none hs' ((opener?_typescript he).trans ho), explode_consByte,
      h.explode_eq]
    rfl
  · rw [htsx]
    exact fun k hk => h.braced k (by simpa using hk)

theorem Unbraces.of_some {s : Bytes} {o : Opener} (hne : s ≠ [])
    (he : embedded? Language.tsx s = none) (ho : opener? Language.tsx s = some o)
    (h : Unbraces (s.drop (head Language.tsx s).2.length)) : Unbraces s := by
  have hs : Language.tsx.Scannable := Language.scannable_of_mem_all (by simp [Language.all])
  have hs' : Language.typescript.Scannable :=
    Language.scannable_of_mem_all (by simp [Language.all])
  obtain ⟨hhead, hfirst, hcode, hembedded⟩ := first_typescript he ho
  have htsx : explode (lexemes Language.tsx s) = whole (first Language.tsx s) ::
      explode (lexemes Language.tsx (s.drop (head Language.tsx s).2.length)) := by
    rw [lexemes_of_ne_nil hs hne, explode_cons, ofLexeme_of_ne hcode]
    rfl
  constructor
  · rw [htsx, lexemes_of_ne_nil hs' hne, hhead, hfirst, explode_cons, ofLexeme_of_ne hcode,
      h.explode_eq, List.flatMap_cons, unbrace, if_neg hembedded]
  · intro k hk hkind
    rw [htsx] at hk
    rcases List.mem_cons.1 hk with hk | hk
    · obtain rfl : k = first Language.tsx s := by simpa using hk
      exact absurd hkind hembedded
    · exact h.braced k hk hkind

theorem unbraces (s : Bytes) : Unbraces s := by
  have hs : Language.tsx.Scannable := Language.scannable_of_mem_all (by simp [Language.all])
  induction hn : s.length using Nat.strong_induction_on generalizing s with
  | _ n ih =>
    cases s with
    | nil => exact ⟨by simp, by simp⟩
    | cons b t =>
      cases he : embedded? Language.tsx (b :: t) with
      | some d =>
        obtain ⟨l, inner, i, rest, hbraced, hsplit⟩ := exists_braced he
        have hshort : rest.length < n := by
          have := congrArg List.length hsplit
          simp only [List.length_cons, List.length_append] at this hn
          omega
        rw [hsplit]
        exact .of_braced hbraced (ih rest.length hshort rest rfl)
      | none =>
        cases ho : opener? Language.tsx (b :: t) with
        | none => exact .of_none he ho (ih t.length (by simp [← hn]) t rfl)
        | some o =>
          have hpos := head_length_pos hs (List.cons_ne_nil b t)
          refine .of_some (List.cons_ne_nil b t) he ho (ih _ ?_ _ rfl)
          rw [← hn, List.length_drop, List.length_cons]
          omega

/-- Nothing opens at a byte of code. -/
theorem opener?_of_explode {lang : Language} (hs : lang.Scannable) (hc : lang.CLike) {s : Bytes}
    {X T : List Atom} {b : UInt8} (h : explode (lexemes lang s) = X ++ byte b :: T) :
    opener? lang (b :: flat T) = none := by
  induction X generalizing s with
  | nil =>
    cases s with
    | nil => simp at h
    | cons c t =>
      cases ho : opener? lang (c :: t) with
      | none =>
        rw [lexemes_cons_of_none hs ho, explode_consByte] at h
        obtain ⟨hbyte, rfl⟩ := List.cons.inj h
        rw [flat_explode, flatMap_lexemes hs, ← Atom.byte.inj hbyte, ho]
      | some o =>
        obtain ⟨l, rest, -, -, hkind, -, hlex⟩ := exists_stands hs hc ho
        simp [hlex, ofLexeme_of_ne hkind] at h
  | cons x X ih =>
    cases s with
    | nil => simp at h
    | cons c t =>
      cases ho : opener? lang (c :: t) with
      | none =>
        rw [lexemes_cons_of_none hs ho, explode_consByte] at h
        exact ih (List.cons.inj h).2
      | some o =>
        obtain ⟨l, rest, -, -, hkind, -, hlex⟩ := exists_stands hs hc ho
        rw [hlex, explode_cons, ofLexeme_of_ne hkind] at h
        exact ih (List.cons.inj h).2

/-- A comment or literal before a slash does not end with an opening brace. -/
theorem getLast?_ne_openBrace {lang : Language} (hc : lang.CLike) {l : Lexeme}
    (h : Stands lang l (some slash)) : l.bytes.getLast? ≠ some openBrace := by
  have hslash : isLineEnd slash = false := by decide
  cases h with
  | line _ _ _ after => simp [after slash rfl] at hslash
  | block _ first stop =>
    rw [Stands.getLast?_block first stop]
    decide
  | @embedded bytes i _ _ _ _ brace stop =>
    have hlast : bytes.getLast? = some closeBrace := by
      rw [List.getLast?_eq_getElem?, ← brace, List.getElem?_drop]
      congr 1
      omega
    rw [hlast]
    decide
  | @quoted q body _ mem _ mark =>
    rw [List.getLast?_cons, mark]
    intro heq
    have hbrace : q.mark = openBrace := by simpa using heq
    exact (hc.marks q mem).2 (by simp [hbrace])
  | broken _ _ stop => simp [stop] at hslash

/-- A closed block comment of the scan with markup has no braces on both sides. -/
theorem not_braced_of_explode {s : Bytes} {X Y : List Atom} {bytes : Bytes}
    (h : explode (lexemes Language.tsx s) = X ++ whole ⟨.blockComment, bytes, true⟩ :: Y)
    (hbefore : (flat X).getLast? = some openBrace) : (flat Y).head? ≠ some closeBrace := by
  intro hafter
  have hmem : Language.tsx ∈ Language.all := by simp [Language.all]
  have hs := Language.scannable_of_mem_all hmem
  have hc := Language.cLike_of_mem_all hmem
  have hlinked := linked_explode hs hc s
  rw [h, Linked, along_append] at hlinked
  obtain ⟨hX, hblock, -⟩ := hlinked
  obtain ⟨i, hopens, hfirst, hstop⟩ : ∃ i, Language.block.opening <+: bytes ∧
      FirstAt Language.block.closing (bytes.drop 2) i ∧ i + 4 = bytes.length := by
    cases hblock with
    | @block _ i _ opens first stop => exact ⟨i, opens, first, stop⟩
  have hhead : (flat (whole ⟨.blockComment, bytes, true⟩ :: Y)).head?.or none = some slash := by
    obtain ⟨t, rfl⟩ := hopens
    simp [Atom.bytes, Language.block]
  rcases List.eq_nil_or_concat X with rfl | ⟨X, a, rfl⟩
  · simp at hbefore
  rw [List.concat_eq_append, along_append] at hX
  rw [List.concat_eq_append] at h hbefore
  cases a with
  | whole k =>
    have hstands := hX.2.1
    rw [flat_nil, List.head?_nil, Option.none_or, hhead] at hstands
    replace hstands : Stands Language.tsx k (some slash) := hstands
    have hne : k.bytes ≠ [] := hstands.bytes_ne_nil hc
    refine getLast?_ne_openBrace hc hstands ?_
    simpa [Atom.bytes, List.getLast?_append, List.getLast?_eq_some_getLast hne] using hbefore
  | byte b =>
    obtain rfl : b = openBrace := by simpa [Atom.bytes] using hbefore
    have hnone := @opener?_of_explode Language.tsx hs hc s X _ openBrace (by simpa using h)
    obtain ⟨rest, hrest⟩ := List.head?_eq_some_iff.1 hafter
    have hbraced : Braced ⟨.embeddedComment, openBrace :: (bytes ++ [closeBrace]), true⟩ bytes i :=
      ⟨rfl, hopens, hfirst, hstop⟩
    have hembedded := (hbraced.stands rest.head?).head_eq hc
    have hflat : openBrace :: flat (whole ⟨.blockComment, bytes, true⟩ :: Y) =
        openBrace :: (bytes ++ [closeBrace]) ++ rest := by
      simp [Atom.bytes, hrest]
    rw [← hflat, head_of_none hnone] at hembedded
    simp at hembedded

end Scans

section Places

/-- The comments and literals among atoms, in their places. -/
def marked (start line : Nat) : List Atom → List Segment
  | [] => []
  | byte b :: A => marked (start + 1) (line + Segment.lineFeeds [b]) A
  | whole l :: A =>
    Segment.place start line l ::
      marked (start + l.bytes.length) (line + Segment.lineFeeds l.bytes) A

theorem marked_bytes (start line : Nat) (bs : Bytes) (A : List Atom) :
    marked start line (bs.map byte ++ A) =
      marked (start + bs.length) (line + Segment.lineFeeds bs) A := by
  induction bs generalizing start line with
  | nil => rfl
  | cons b bs ih =>
    have hfeeds : Segment.lineFeeds ([b] ++ bs) = Segment.lineFeeds [b] + Segment.lineFeeds bs :=
      List.count_append
    rw [List.singleton_append] at hfeeds
    rw [List.map_cons, List.cons_append, marked, ih, hfeeds, List.length_cons, Nat.add_assoc,
      Nat.add_assoc, Nat.add_comm 1]

theorem marked_explode (start line : Nat) (ls : List Lexeme) :
    marked start line (explode ls) =
      (Segment.placeAll start line ls).filter (·.kind ≠ .code) := by
  induction ls generalizing start line with
  | nil => rfl
  | cons l ls ih =>
    rw [explode_cons, Segment.placeAll]
    by_cases hk : l.kind = .code
    · rw [ofLexeme_of_code hk, marked_bytes, ih, List.filter_cons_of_neg (by simp [hk])]
    · rw [ofLexeme_of_ne hk, List.singleton_append, marked, ih,
        List.filter_cons_of_pos (by simp [hk])]

theorem Braced.place_unbraced {l : Lexeme} {inner : Bytes} {i : Nat} (h : Braced l inner i)
    (start line : Nat) :
    (Segment.place start line l).unbraced = Segment.place (start + 1) line l.unbraced := by
  have hlast := Stands.getLast?_block h.first h.stop
  have hslash : slash ≠ lf := by decide
  have hopen : openBrace ≠ lf := by decide
  have hclose : closeBrace ≠ lf := by decide
  rw [Segment.unbraced, if_pos (by simp [h.eq]), h.unbraced_eq]
  simp [Segment.place, h.eq, Lexeme.unbraced, hlast, Segment.lineFeeds, List.getLast?_cons, hslash,
    hopen, hclose]

theorem marked_unbrace (start line : Nat) {A : List Atom}
    (h : ∀ l, whole l ∈ A → l.kind = .embeddedComment → ∃ inner i, Braced l inner i) :
    marked start line (A.flatMap unbrace) = (marked start line A).map Segment.unbraced := by
  induction A generalizing start line with
  | nil => rfl
  | cons a A ih =>
    have ih := fun start line => ih start line fun l hl => h l (List.mem_cons_of_mem _ hl)
    rw [List.flatMap_cons]
    cases a with
    | byte b => exact ih _ _
    | whole l =>
      by_cases hk : l.kind = .embeddedComment
      · obtain ⟨inner, i, hbraced⟩ := h l List.mem_cons_self hk
        have hopen : openBrace ≠ lf := by decide
        have hclose : closeBrace ≠ lf := by decide
        rw [unbrace, if_pos hk, marked, List.map_cons, hbraced.place_unbraced, ← ih]
        simp only [List.cons_append, List.nil_append, marked, hbraced.unbraced_eq]
        congr 1
        congr 1
        · simp [hbraced.eq]
          omega
        · simp [hbraced.eq, Segment.lineFeeds, hopen, hclose]
      · rw [unbrace, if_neg hk, List.singleton_append, marked, marked, List.map_cons, ih,
          Segment.unbraced, if_neg (by simpa using hk)]

end Places
end Atom

open Atom

/-- The comments and literals of the plain scan are those of the scan with markup, without the
braces of markup comments. -/
theorem filter_scan_typescript (s : Bytes) :
    (scan Language.typescript s).filter (·.kind ≠ .code) =
      ((scan Language.tsx s).filter (·.kind ≠ .code)).map Segment.unbraced := by
  obtain ⟨hexplode, hbraced⟩ := unbraces s
  rw [scan, scan, ← marked_explode, ← marked_explode, hexplode, marked_unbrace 0 1 hbraced]

namespace Segment
variable {g : Segment}

theorem unbraced_of_ne (h : g.kind ≠ .embeddedComment) : g.unbraced = g := if_neg h

theorem kind_unbraced_of_eq (h : g.kind = .embeddedComment) : g.unbraced.kind = .blockComment := by
  simp [unbraced, Lexeme.unbraced, h]

theorem isComment_unbraced (g : Segment) : g.unbraced.isComment = g.isComment := by
  by_cases h : g.kind = .embeddedComment
  · simp [Lexeme.isComment, kind_unbraced_of_eq h, h, SegmentKind.isComment]
  · rw [unbraced_of_ne h]

end Segment

/-- Segments of a kind that markup has no part in are the same in both scans. -/
theorem filter_kind_typescript {kind : SegmentKind}
    (h : kind ∉ [.code, .blockComment, .embeddedComment]) (s : Bytes) :
    (scan Language.typescript s).filter (·.kind = kind) =
      (scan Language.tsx s).filter (·.kind = kind) := by
  simp only [List.mem_cons, List.not_mem_nil, or_false, not_or] at h
  have hsplit : ∀ gs : List Segment, gs.filter (·.kind = kind) =
      (gs.filter (·.kind ≠ .code)).filter (·.kind = kind) := by
    intro gs
    rw [List.filter_filter]
    refine List.filter_congr fun g _ => ?_
    by_cases hg : g.kind = kind <;> simp [hg, h.1]
  have hsame : ∀ gs : List Segment,
      (gs.map Segment.unbraced).filter (·.kind = kind) = gs.filter (·.kind = kind) := by
    intro gs
    induction gs with
    | nil => rfl
    | cons g gs ih =>
      by_cases hg : g.kind = .embeddedComment
      · simp [Segment.kind_unbraced_of_eq hg, hg, Ne.symm h.2.1, Ne.symm h.2.2, ih]
      · simp [List.filter_cons, Segment.unbraced_of_ne hg, ih]
  rw [hsplit, filter_scan_typescript, hsame, ← hsplit]

theorem count_comments_typescript (s : Bytes) :
    (scan Language.typescript s).countP (·.isComment) =
      (scan Language.tsx s).countP (·.isComment) := by
  have hsplit := Lexeme.countP_isComment Segment.toLexeme
  rw [hsplit, filter_scan_typescript, List.countP_map, hsplit (scan Language.tsx s)]
  refine List.countP_congr fun g _ => ?_
  simp [Segment.isComment_unbraced]

/-- A segment of a scan with the text around it. -/
theorem exists_around {lang : Language} (hs : lang.Scannable) {s : Bytes} {g : Segment}
    (hg : g ∈ scan lang s) (hk : g.kind ≠ .code) :
    ∃ X Y, explode (Scan.lexemes lang s) = X ++ whole g.toLexeme :: Y ∧
      s = flat X ++ (g.bytes ++ flat Y) ∧ g.start = (flat X).length := by
  obtain ⟨before, l, after, hlex, hplace⟩ := Segment.mem_placeAll hg
  obtain rfl : g.toLexeme = l := by rw [hplace, Segment.place_toLexeme]
  refine ⟨explode before, explode after, ?_, ?_, ?_⟩
  · rw [hlex, explode_append, explode_cons, ofLexeme_of_ne hk, List.singleton_append]
  · have hflat := Scan.flatMap_lexemes hs s
    rw [hlex] at hflat
    rw [flat_explode, flat_explode, ← hflat]
    simp
  · rw [flat_explode, hplace]
    simp

/-- A markup comment is closed and stands between braces. -/
theorem braces_of_embedded {s : Bytes} {g : Segment} (hg : g ∈ scan Language.tsx s)
    (hk : g.kind = .embeddedComment) :
    g.terminated = true ∧ s[g.start]? = some openBrace ∧ s[g.stop - 1]? = some closeBrace ∧
      g.unbraced ∈ scan Language.typescript s ∧ g.unbraced.kind = .blockComment ∧
      g.unbraced.terminated = true ∧ g.unbraced.start = g.start + 1 ∧
      g.unbraced.stop + 1 = g.stop := by
  have hs : Language.tsx.Scannable := Language.scannable_of_mem_all (by simp [Language.all])
  obtain ⟨X, Y, hexplode, hsplit, hstart⟩ := exists_around hs hg (by simp [hk])
  obtain ⟨inner, i, hbraced⟩ :=
    (unbraces s).braced g.toLexeme (by rw [hexplode]; simp) hk
  have hbytes : g.bytes = openBrace :: (inner ++ [closeBrace]) := by rw [hbraced.eq]
  have hterminated : g.terminated = true := by rw [hbraced.eq]
  have hunbraced : g.unbraced.toLexeme = ⟨.blockComment, inner, true⟩ := by
    rw [Segment.unbraced, if_pos hk, ← hbraced.unbraced_eq]
  have hstart' : g.unbraced.start = g.start + 1 := by rw [Segment.unbraced, if_pos hk]
  have hstop : g.stop = g.start + (inner.length + 2) := by
    simp [Segment.stop, hbytes]
  refine ⟨hterminated, ?_, ?_, ?_, by rw [hunbraced], by rw [hunbraced], hstart', ?_⟩
  · rw [hsplit, hstart, hbytes, List.getElem?_append_right le_rfl]
    simp
  · rw [hstop, hsplit, hstart, hbytes, List.getElem?_append_right (by omega)]
    have hoffset : (flat X).length + (inner.length + 2) - 1 - (flat X).length = inner.length + 1 := by
      omega
    rw [hoffset]
    simp
  · have hmem : g.unbraced ∈ ((scan Language.tsx s).filter (·.kind ≠ .code)).map Segment.unbraced :=
      List.mem_map_of_mem (List.mem_filter.2 ⟨hg, by simp [hk]⟩)
    rw [← filter_scan_typescript] at hmem
    exact List.mem_of_mem_filter hmem
  · rw [Segment.stop, hunbraced, hstart', hstop]
    simp only
    omega

/-- A block comment of the plain scan is the inside of a markup comment or a block comment of the
scan with markup, and then it is not between braces. -/
theorem block_of_typescript {s : Bytes} {b : Segment} (hb : b ∈ scan Language.typescript s)
    (hk : b.kind = .blockComment) :
    (∃ g ∈ scan Language.tsx s, g.kind = .embeddedComment ∧ b = g.unbraced) ∨
      b ∈ scan Language.tsx s ∧ ¬ (b.terminated = true ∧ 0 < b.start ∧
        s[b.start - 1]? = some openBrace ∧ s[b.stop]? = some closeBrace) := by
  have hmem : b ∈ (scan Language.typescript s).filter (·.kind ≠ .code) :=
    List.mem_filter.2 ⟨hb, by simp [hk]⟩
  rw [filter_scan_typescript] at hmem
  obtain ⟨g, hg, rfl⟩ := List.mem_map.1 hmem
  replace hg := List.mem_of_mem_filter hg
  by_cases hembedded : g.kind = .embeddedComment
  · exact .inl ⟨g, hg, hembedded, rfl⟩
  rw [Segment.unbraced_of_ne hembedded] at hk ⊢
  refine .inr ⟨hg, ?_⟩
  rintro ⟨hterminated, hpos, hbefore, hafter⟩
  have hs : Language.tsx.Scannable := Language.scannable_of_mem_all (by simp [Language.all])
  obtain ⟨X, Y, hexplode, hsplit, hstart⟩ := exists_around hs hg (by simp [hk])
  have hlexeme : g.toLexeme = ⟨.blockComment, g.bytes, true⟩ := by
    rw [← hk, ← hterminated]
  rw [hlexeme] at hexplode
  refine not_braced_of_explode hexplode ?_ ?_
  · rw [hsplit, hstart, List.getElem?_append_left (by omega)] at hbefore
    rw [List.getLast?_eq_getElem?, hbefore]
  · rw [hsplit, Segment.stop, hstart, List.getElem?_append_right (by omega),
      List.getElem?_append_right (by omega)] at hafter
    rw [List.head?_eq_getElem?, ← hafter]
    congr 1
    omega

/-- The scan with markup refines the plain one. String literals and line comments are the same and
there are as many comments. A markup comment is a closed block comment of the plain scan with a
brace on each side; a block comment of the plain scan that is not so is one of both scans. -/
theorem scan_markup (s : Bytes) :
    (scan Language.tsx s).filter (·.kind = .stringLiteral) =
        (scan Language.typescript s).filter (·.kind = .stringLiteral) ∧
      (scan Language.tsx s).filter (·.kind = .lineComment) =
        (scan Language.typescript s).filter (·.kind = .lineComment) ∧
      (scan Language.tsx s).countP (·.isComment) =
        (scan Language.typescript s).countP (·.isComment) ∧
      (∀ g ∈ scan Language.tsx s, g.kind = .embeddedComment →
        g.terminated = true ∧ s[g.start]? = some openBrace ∧ s[g.stop - 1]? = some closeBrace ∧
        ∃ b ∈ scan Language.typescript s, b.kind = .blockComment ∧ b.terminated = true ∧
          b.start = g.start + 1 ∧ b.stop + 1 = g.stop) ∧
      ∀ b ∈ scan Language.typescript s, b.kind = .blockComment →
        if b.terminated = true ∧ 0 < b.start ∧ s[b.start - 1]? = some openBrace ∧
            s[b.stop]? = some closeBrace then
          ∃ g ∈ scan Language.tsx s, g.kind = .embeddedComment ∧ b.start = g.start + 1 ∧
            b.stop + 1 = g.stop
        else b ∈ scan Language.tsx s := by
  refine ⟨(filter_kind_typescript (by simp) s).symm, (filter_kind_typescript (by simp) s).symm,
    (count_comments_typescript s).symm, fun g hg hk => ?_, fun b hb hk => ?_⟩
  · obtain ⟨hterminated, hopen, hclose, hmem, hkind, hinner, hstart, hstop⟩ :=
      braces_of_embedded hg hk
    exact ⟨hterminated, hopen, hclose, g.unbraced, hmem, hkind, hinner, hstart, hstop⟩
  · rcases block_of_typescript hb hk with ⟨g, hg, hembedded, rfl⟩ | ⟨hmem, hnot⟩
    · obtain ⟨-, hopen, hclose, -, -, hinner, hstart, hstop⟩ := braces_of_embedded hg hembedded
      have hpred : g.stop - 1 = g.unbraced.stop := by omega
      rw [hpred] at hclose
      rw [if_pos ⟨hinner, by omega, by rwa [hstart, Nat.add_sub_cancel], hclose⟩]
      exact ⟨g, hg, hembedded, hstart, hstop⟩
    · rw [if_neg hnot]
      exact hmem

end Uncomment
