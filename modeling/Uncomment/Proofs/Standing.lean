import Mathlib
import Uncomment.Strip
import Uncomment.Proofs.Atoms
import Uncomment.Proofs.Grammar

/-! Which atoms may stand side by side. In the supported languages whether a byte of code stays
code, and whether a comment or a literal is read again as itself, depends on its own bytes and
on the one byte after it. -/
namespace Uncomment
open Ascii
open Bytes (FirstAt)

/-- What the supported languages have in common. -/
structure Language.CLike (lang : Language) : Prop where
  blocks : lang.blocks = [Language.block]
  markers : lang.lineMarkers = [Language.slashes] ∨ lang.lineMarkers = [Language.dashes]
  embedded : lang.embedded = none ∨ lang.embedded = some Language.markupBlock
  quotes : ∀ q ∈ lang.quotes, lang.quotes.find? (·.mark == q.mark) = some q
  marks : ∀ q ∈ lang.quotes, isSpace q.mark = false ∧
    q.mark ∉ [slash, star, dash, openBrace, closeBrace]
  escapes : ∀ q ∈ lang.quotes, ∀ b ∈ q.escape, isLineEnd b = false

theorem Language.cLike_of_mem_all {lang : Language} (h : lang ∈ Language.all) : lang.CLike := by
  simp only [Language.all, List.mem_cons, List.not_mem_nil, or_false] at h
  rcases h with rfl | rfl | rfl | rfl | rfl <;> constructor <;> decide +kernel

namespace Strip

/-- Whether two bytes open a comment when they meet. -/
def meets (lang : Language) (last next : Option UInt8) : Bool :=
  match last, next with
  | some a, some b => (gluePairs lang).contains (a, b)
  | _, _ => false

@[simp] theorem meets_none_left (lang : Language) (next : Option UInt8) :
    meets lang none next = false := rfl

@[simp] theorem meets_none_right (lang : Language) (last : Option UInt8) :
    meets lang last none = false := by
  cases last <;> rfl

theorem meets_iff {lang : Language} (hc : lang.CLike) {a b : UInt8} :
    meets lang (some a) (some b) = true ↔ [a, b] ∈ lang.lineMarkers ∨ a = slash ∧ b = star := by
  rcases hc.markers with hm | hm
  · simp [meets, gluePairs, hc.blocks, hm, Language.slashes, Language.block]
  · simp [meets, gluePairs, hc.blocks, hm, Language.dashes, Language.block]

theorem bytes_of_meets {lang : Language} (hc : lang.CLike) {a b : UInt8}
    (h : meets lang (some a) (some b) = true) :
    (a = slash ∨ a = dash) ∧ (b = slash ∨ b = dash ∨ b = Ascii.star) := by
  rcases (meets_iff hc).1 h with hm | ⟨rfl, rfl⟩
  · rcases hc.markers with hl | hl
    · obtain ⟨rfl, rfl⟩ : a = slash ∧ b = slash := by simpa [hl, Language.slashes] using hm
      exact ⟨.inl rfl, .inl rfl⟩
    · obtain ⟨rfl, rfl⟩ : a = dash ∧ b = dash := by simpa [hl, Language.dashes] using hm
      exact ⟨.inr rfl, .inr (.inl rfl)⟩
  · exact ⟨.inl rfl, .inr (.inr rfl)⟩

theorem meets_of_ne_slash {lang : Language} (hc : lang.CLike)
    (hm : lang.lineMarkers = [Language.slashes]) {a : UInt8} (ha : a ≠ slash) (next : Option UInt8) :
    meets lang (some a) next = false := by
  cases next with
  | none => rfl
  | some b =>
    rw [← Bool.not_eq_true, meets_iff hc]
    simp [hm, Language.slashes, ha]

theorem meets_false_left {lang : Language} (hc : lang.CLike) {a : UInt8}
    (ha : isSpace a = true ∨ a = openBrace) (next : Option UInt8) :
    meets lang (some a) next = false := by
  cases next with
  | none => rfl
  | some b =>
    by_contra h
    have hs := (bytes_of_meets hc (by simpa using h)).1
    rcases hs with rfl | rfl <;> exact absurd ha (by decide)

theorem meets_false_right {lang : Language} (hc : lang.CLike) {b : UInt8}
    (hb : isSpace b = true ∨ b = openBrace) (last : Option UInt8) :
    meets lang last (some b) = false := by
  cases last with
  | none => rfl
  | some a =>
    by_contra h
    have hs := (bytes_of_meets hc (by simpa using h)).2
    rcases hs with rfl | rfl | rfl <;> exact absurd hb (by decide)

end Strip

namespace Scan
open Strip (meets)

section Local
variable {lang : Language} (hc : lang.CLike)
include hc

theorem embedded?_eq_none_of_ne {b : UInt8} {t : Bytes} (hb : b ≠ openBrace) :
    embedded? lang (b :: t) = none := by
  rcases hc.embedded with he | he
  · simp [embedded?, he]
  · simp [embedded?, he, Language.markupBlock, Ne.symm hb]

/-- Apart from the embedded form, what opens at a byte depends on it and the byte after it. -/
theorem opener?_eq_none_iff {b : UInt8} {t : Bytes} (he : embedded? lang (b :: t) = none) :
    opener? lang (b :: t) = none ↔
      meets lang (some b) t.head? = false ∧ ∀ q ∈ lang.quotes, q.mark ≠ b := by
  have hquote : (List.find? (fun q => q.mark == b) lang.quotes).map Opener.quoted = none ↔
      ∀ q ∈ lang.quotes, q.mark ≠ b := by
    simp [List.find?_eq_none]
  cases t with
  | nil =>
    rcases hc.markers with hm | hm <;>
      simp [opener?, he, hc.blocks, hm, Language.slashes, Language.dashes, Language.block, hquote]
  | cons c t =>
    rw [List.head?_cons, ← Bool.not_eq_true, Strip.meets_iff hc]
    have hblock : Language.block.opening.isPrefixOf (b :: c :: t) = true ↔
        b = slash ∧ c = Ascii.star := by
      simp only [List.isPrefixOf_iff_prefix, Language.block, List.cons_prefix_cons, List.nil_prefix,
        and_true]
      exact and_congr eq_comm eq_comm
    have hmarker : lang.lineMarkers.any (·.isPrefixOf (b :: c :: t)) = true ↔
        [b, c] ∈ lang.lineMarkers := by
      rcases hc.markers with hm | hm <;>
        simp only [hm, Language.slashes, Language.dashes, List.any_cons, List.any_nil, Bool.or_false,
          List.isPrefixOf_iff_prefix, List.cons_prefix_cons, List.nil_prefix, and_true,
          List.mem_singleton, List.cons.injEq] <;>
        exact and_congr eq_comm eq_comm
    by_cases hb : b = slash ∧ c = Ascii.star
    · simp only [opener?, he, hc.blocks, List.find?_cons, hblock.2 hb]
      simp [hb]
    · have hb' : Language.block.opening.isPrefixOf (b :: c :: t) = false :=
        Bool.eq_false_iff.2 (hblock.not.2 hb)
      by_cases hm : [b, c] ∈ lang.lineMarkers
      · simp only [opener?, he, hc.blocks, List.find?_cons, hb', List.find?_nil, hmarker.2 hm, if_true]
        simp [hm]
      · have hm' := Bool.eq_false_iff.2 (hmarker.not.2 hm)
        simp only [opener?, he, hc.blocks, List.find?_cons, hb', List.find?_nil, hm', List.head?_cons,
          Option.bind_some, Bool.false_eq_true, if_false]
        rw [hquote]
        exact ⟨fun h => ⟨not_or.2 ⟨hm, hb⟩, h⟩, fun h => h.2⟩

theorem opener?_of_isSpace {c : UInt8} (hspace : isSpace c = true) (t : Bytes) :
    opener? lang (c :: t) = none := by
  have hbrace : c ≠ openBrace := by
    rintro rfl
    exact absurd hspace (by decide)
  refine (opener?_eq_none_iff hc (embedded?_eq_none_of_ne hc hbrace)).2
    ⟨Strip.meets_false_left hc (.inl hspace) _, fun q hq heq => ?_⟩
  simp [← heq, (hc.marks q hq).1] at hspace

theorem marker_eq {m : Bytes} (hm : m ∈ lang.lineMarkers) :
    ∃ a, m = [a, a] ∧ (a = slash ∨ a = dash) := by
  rcases hc.markers with h | h
  · exact ⟨slash, by simpa [h, Language.slashes] using hm, .inl rfl⟩
  · exact ⟨dash, by simpa [h, Language.dashes] using hm, .inr rfl⟩

theorem opener?_block {s : Bytes} (h : Language.block.opening <+: s) :
    opener? lang s = some (.block Language.block) := by
  obtain ⟨t, rfl⟩ := h
  have he : embedded? lang (Language.block.opening ++ t) = none :=
    embedded?_eq_none_of_ne hc (by decide)
  have hp : Language.block.opening.isPrefixOf (Language.block.opening ++ t) = true :=
    List.isPrefixOf_iff_prefix.2 (List.prefix_append _ _)
  simp only [opener?, he, hc.blocks, List.find?_cons, hp]

theorem opener?_line {s m : Bytes} (hm : m ∈ lang.lineMarkers) (h : m <+: s) :
    opener? lang s = some .line := by
  obtain ⟨t, rfl⟩ := h
  obtain ⟨a, rfl, ha⟩ := marker_eq hc hm
  have he : embedded? lang ([a, a] ++ t) = none :=
    embedded?_eq_none_of_ne hc (by rcases ha with rfl | rfl <;> decide)
  have hb : Language.block.opening.isPrefixOf ([a, a] ++ t) = false := by
    rcases ha with rfl | rfl <;> rfl
  have hp : lang.lineMarkers.any (·.isPrefixOf ([a, a] ++ t)) = true :=
    List.any_eq_true.2 ⟨_, hm, List.isPrefixOf_iff_prefix.2 (List.prefix_append _ _)⟩
  simp only [opener?, he, hc.blocks, List.find?_cons, hb, List.find?_nil, hp, if_true]

theorem opener?_quoted {q : Quote} (hq : q ∈ lang.quotes) (t : Bytes) :
    opener? lang (q.mark :: t) = some (.quoted q) := by
  have hmark := (hc.marks q hq).2
  simp only [List.mem_cons, List.not_mem_nil, or_false, not_or] at hmark
  have he : embedded? lang (q.mark :: t) = none := embedded?_eq_none_of_ne hc hmark.2.2.2.1
  have hb : Language.block.opening.isPrefixOf (q.mark :: t) = false := by
    simp [Language.block, List.isPrefixOf, Ne.symm hmark.1]
  have hp : lang.lineMarkers.any (·.isPrefixOf (q.mark :: t)) = false := by
    rcases hc.markers with h | h <;>
      simp [h, Language.slashes, Language.dashes, List.isPrefixOf, Ne.symm hmark.1,
        Ne.symm hmark.2.2.1]
  simp only [opener?, he, hc.blocks, List.find?_cons, hb, List.find?_nil, hp, List.head?_cons,
    Option.bind_some, hc.quotes q hq, Option.map_some, Bool.false_eq_true, if_false]

end Local

theorem embedded?_eq_markupBlock {lang : Language} (hc : lang.CLike) {s : Bytes} {d : Delimiter}
    (h : embedded? lang s = some d) :
    lang.embedded = some Language.markupBlock ∧ d = Language.markupBlock := by
  have hd := (embedded?_eq_some h).1
  rcases hc.embedded with hn | hn
  · simp [hn] at hd
  · exact ⟨hn, by simpa [hn, eq_comm] using hd⟩

theorem embedded?_markup_iff {lang : Language} (he : lang.embedded = some Language.markupBlock)
    {s : Bytes} : embedded? lang s = some Language.markupBlock ↔
      Language.markupBlock.opening <+: s ∧ ∃ i, FirstAt Language.block.closing (s.drop 3) i ∧
        (s.drop 3)[i + 2]? = some closeBrace := by
  rw [← Grammar.opensEmbedded_iff, Grammar.OpensEmbedded]
  constructor
  · rintro ⟨-, hp, inner, last, i, hclose, hf, hl⟩
    have hsplit : Language.block.closing ++ [closeBrace] = inner ++ [last] := hclose
    obtain ⟨rfl, hlast⟩ := List.append_inj' hsplit rfl
    obtain rfl : closeBrace = last := by simpa using hlast
    exact ⟨hp, i, hf, hl⟩
  · rintro ⟨hp, i, hf, hl⟩
    exact ⟨he, hp, Language.block.closing, closeBrace, i, rfl, hf, hl⟩

/-- A comment or literal that is read as itself whenever `next` is what follows it. -/
inductive Stands (lang : Language) : Lexeme → Option UInt8 → Prop
  | line {m bytes next} (marker : m ∈ lang.lineMarkers) (opens : m <+: bytes)
      (inside : ∀ b ∈ bytes, isLineEnd b = false) (after : ∀ c ∈ next, isLineEnd c = true) :
      Stands lang ⟨.lineComment, bytes, true⟩ next
  | block {bytes i next} (opens : Language.block.opening <+: bytes)
      (first : FirstAt Language.block.closing (bytes.drop 2) i) (stop : i + 4 = bytes.length) :
      Stands lang ⟨.blockComment, bytes, true⟩ next
  | openBlock {bytes} (opens : Language.block.opening <+: bytes)
      (never : Bytes.indexOf? Language.block.closing (bytes.drop 2) = none) :
      Stands lang ⟨.blockComment, bytes, false⟩ none
  | embedded {bytes i next} (form : lang.embedded = some Language.markupBlock)
      (opens : Language.markupBlock.opening <+: bytes)
      (first : FirstAt Language.block.closing (bytes.drop 3) i)
      (brace : (bytes.drop 3)[i + 2]? = some closeBrace) (stop : i + 6 = bytes.length) :
      Stands lang ⟨.embeddedComment, bytes, true⟩ next
  | quoted {q body next} (mem : q ∈ lang.quotes)
      (closes : ∀ t, literalExtent q (body ++ t) = ⟨body.length, true⟩)
      (mark : body.getLast? = some q.mark) : Stands lang ⟨.stringLiteral, q.mark :: body, true⟩ next
  | broken {q body c} (mem : q ∈ lang.quotes)
      (breaks : ∀ d t, isLineEnd d = true → literalExtent q (body ++ d :: t) = ⟨body.length, true⟩)
      (stop : isLineEnd c = true) : Stands lang ⟨.stringLiteral, q.mark :: body, true⟩ (some c)
  | openQuoted {q body} (mem : q ∈ lang.quotes)
      (never : literalExtent q body = ⟨body.length, false⟩) :
      Stands lang ⟨.stringLiteral, q.mark :: body, false⟩ none

section Literal
variable {q : Quote} {b : UInt8}

theorem literalExtent_escape (h : q.escape = some b) (c : UInt8) (t : Bytes) :
    literalExtent q (b :: c :: t) = (literalExtent q t).grow 2 := by
  rw [literalExtent.eq_def]
  simp [h]

theorem literalExtent_mark (h : q.escape ≠ some b) (hm : b = q.mark) (t : Bytes) :
    literalExtent q (b :: t) = ⟨1, true⟩ := by
  subst hm
  rw [literalExtent.eq_def]
  simp [h]

theorem literalExtent_break (h : q.escape ≠ some b) (hm : b ≠ q.mark)
    (hb : q.multiline = false ∧ isLineEnd b = true) (t : Bytes) :
    literalExtent q (b :: t) = ⟨0, true⟩ := by
  rw [literalExtent.eq_def]
  simp [h, hm, hb]

theorem literalExtent_next (h : q.escape ≠ some b) (hm : b ≠ q.mark)
    (hb : ¬ (q.multiline = false ∧ isLineEnd b = true)) (t : Bytes) :
    literalExtent q (b :: t) = (literalExtent q t).grow 1 := by
  have hb' : (!q.multiline && isLineEnd b) = false := by
    rw [← Bool.not_eq_true]
    simpa using hb
  rw [literalExtent.eq_def]
  simp [h, hm, hb']

theorem Extent.grow_inj {e : Extent} {n k : Nat} {terminated : Bool}
    (h : e.grow k = ⟨n + k, terminated⟩) : e = ⟨n, terminated⟩ := by
  obtain ⟨length, ended⟩ := e
  simpa [Extent.grow] using h

/-- How a literal with `body` behind its mark ends in front of `t`: with its own mark, before a line
end, or with the text. The first two ends are there whatever follows. -/
inductive LiteralEnds (q : Quote) (t : Bytes) : Bytes → Bool → Prop
  | mark {body} (last : body.getLast? = some q.mark)
      (closes : ∀ t, literalExtent q (body ++ t) = ⟨body.length, true⟩) : LiteralEnds q t body true
  | lineEnd {body} (stop : ∃ c ∈ t.head?, isLineEnd c = true)
      (breaks : ∀ d t, isLineEnd d = true → literalExtent q (body ++ d :: t) = ⟨body.length, true⟩) :
      LiteralEnds q t body true
  | text {body} (nil : t = []) : LiteralEnds q t body false

/-- What the scan passes over at the front of a literal does not change how it ends. -/
theorem LiteralEnds.append {body t : Bytes} {terminated : Bool} (front : Bytes)
    (hfront : ∀ t, literalExtent q (front ++ t) = (literalExtent q t).grow front.length)
    (h : LiteralEnds q t body terminated) : LiteralEnds q t (front ++ body) terminated := by
  have hgrow : ∀ n, (⟨n, true⟩ : Extent).grow front.length = ⟨front.length + n, true⟩ := by
    simp [Extent.grow, Nat.add_comm]
  cases h with
  | mark last closes =>
    refine .mark (by simp [List.getLast?_append, last]) fun t => ?_
    rw [List.append_assoc, hfront, closes, hgrow, List.length_append]
  | lineEnd stop breaks =>
    refine .lineEnd stop fun d t hd => ?_
    rw [List.append_assoc, hfront, breaks d t hd, hgrow, List.length_append]
  | text nil => exact .text nil

theorem literalEnds_nil (hm : isLineEnd q.mark = false)
    (he : ∀ b ∈ q.escape, isLineEnd b = false) {t : Bytes} {terminated : Bool}
    (h : literalExtent q t = ⟨0, terminated⟩) : LiteralEnds q t [] terminated := by
  cases t with
  | nil =>
    obtain rfl : false = terminated := by simpa [literalExtent] using h
    exact .text rfl
  | cons c t =>
    by_cases hesc : q.escape = some c
    · cases t with
      | nil => simp [literalExtent, hesc] at h
      | cons d t => simp [literalExtent_escape hesc, Extent.grow] at h
    by_cases hmark : c = q.mark
    · simp [literalExtent_mark hesc hmark] at h
    by_cases hbreak : q.multiline = false ∧ isLineEnd c = true
    · obtain rfl : true = terminated := by simpa [literalExtent_break hesc hmark hbreak] using h
      refine .lineEnd ⟨c, rfl, hbreak.2⟩ fun d t hd => ?_
      exact literalExtent_break (fun heq => by simp [he d heq] at hd)
        (fun heq => by simp [heq, hm] at hd) ⟨hbreak.1, hd⟩ t
    · simp [literalExtent_next hesc hmark hbreak, Extent.grow] at h

/-- Where a literal ends is decided by its bytes and by whether a line end comes next. -/
theorem literalEnds_of_extent (hm : isLineEnd q.mark = false)
    (he : ∀ b ∈ q.escape, isLineEnd b = false) {t : Bytes} {terminated : Bool} (body : Bytes)
    (h : literalExtent q (body ++ t) = ⟨body.length, terminated⟩) :
    LiteralEnds q t body terminated := by
  cases body with
  | nil => exact literalEnds_nil hm he h
  | cons b body =>
    by_cases hesc : q.escape = some b
    · cases body with
      | nil =>
        cases t with
        | nil =>
          obtain rfl : false = terminated := by simpa [literalExtent, hesc] using h
          exact .text rfl
        | cons c t => simp [literalExtent_escape hesc, Extent.grow] at h
      | cons c body =>
        rw [List.cons_append, List.cons_append, literalExtent_escape hesc] at h
        exact (literalEnds_of_extent hm he body (Extent.grow_inj h)).append [b, c]
          (literalExtent_escape hesc c)
    by_cases hmark : b = q.mark
    · simp only [List.cons_append, literalExtent_mark hesc hmark, List.length_cons, Extent.mk.injEq,
        Nat.right_eq_add, List.length_eq_zero_iff] at h
      obtain ⟨rfl, rfl⟩ := h
      exact .mark (by simp [hmark]) (literalExtent_mark hesc hmark)
    by_cases hbreak : q.multiline = false ∧ isLineEnd b = true
    · simp [literalExtent_break hesc hmark hbreak] at h
    · rw [List.cons_append, literalExtent_next hesc hmark hbreak] at h
      exact (literalEnds_of_extent hm he body (Extent.grow_inj h)).append [b]
        (literalExtent_next hesc hmark hbreak)
termination_by body.length

end Literal

section Stands
variable {lang : Language} {l : Lexeme} {next : Option UInt8}

theorem isLineEnd_of_isSpace {b : UInt8} (h : isSpace b = false) : isLineEnd b = false := by
  simp only [isSpace, Bool.or_eq_false_iff] at h
  simp [isLineEnd, h]

theorem isSpace_of_isLineEnd {b : UInt8} (h : isLineEnd b = true) : isSpace b = true := by
  by_contra hb
  simp [isLineEnd_of_isSpace (by simpa using hb)] at h

theorem Stands.kind_ne_code (h : Stands lang l next) : l.kind ≠ .code := by
  cases h <;> simp

theorem Stands.bytes_ne_nil (hc : lang.CLike) (h : Stands lang l next) : l.bytes ≠ [] := by
  cases h with
  | line marker opens =>
    obtain ⟨a, rfl, -⟩ := marker_eq hc marker
    rintro rfl
    simp at opens
  | block opens | openBlock opens | embedded _ opens =>
    rintro rfl
    simp [Language.block, Language.markupBlock] at opens
  | quoted | broken | openQuoted => simp

theorem opener?_embedded {s : Bytes} {d : Delimiter} (h : embedded? lang s = some d) :
    opener? lang s = some (.embedded d) := by
  simp [opener?, h]

theorem blockExtent_of_firstAt {d : Delimiter} {s : Bytes} {i : Nat}
    (h : FirstAt d.closing (s.drop d.opening.length) i) :
    blockExtent d s = ⟨d.opening.length + i + d.closing.length, true⟩ := by
  simp [blockExtent, Bytes.indexOf?_eq_some.2 h]

theorem blockExtent_append {d : Delimiter} {bytes : Bytes} {i : Nat}
    (first : FirstAt d.closing (bytes.drop d.opening.length) i)
    (stop : d.opening.length + i + d.closing.length = bytes.length) (t : Bytes) :
    blockExtent d (bytes ++ t) = ⟨bytes.length, true⟩ := by
  have hfirst : FirstAt d.closing ((bytes ++ t).drop d.opening.length) i := by
    rw [List.drop_append_of_le_length (by omega)]
    exact first.append t
  rw [blockExtent_of_firstAt hfirst, stop]

theorem lineExtent_append {bytes t : Bytes} (inside : ∀ b ∈ bytes, isLineEnd b = false)
    (after : ∀ c ∈ t.head?, isLineEnd c = true) :
    lineExtent (bytes ++ t) = ⟨bytes.length, true⟩ := by
  have hstop : t.takeWhile (!isLineEnd ·) = [] := by
    cases t with
    | nil => rfl
    | cons c t => simp [after c rfl]
  rw [lineExtent, List.takeWhile_append_of_pos (by simpa using inside), hstop, List.append_nil]

theorem Stands.head_eq (hc : lang.CLike) {t : Bytes} (h : Stands lang l t.head?) :
    head lang (l.bytes ++ t) = (l.kind, ⟨l.bytes.length, l.terminated⟩) := by
  generalize hn : t.head? = next at h
  cases h with
  | line marker opens inside after =>
    subst hn
    rw [head_of_some (opener?_line hc marker (opens.trans (List.prefix_append _ _))), Opener.kind,
      Opener.extent, lineExtent_append inside after]
  | block opens first stop =>
    rw [head_of_some (opener?_block hc (opens.trans (List.prefix_append _ _))), Opener.kind,
      Opener.extent, blockExtent_append first (by rw [← stop]; simp [Language.block]; omega)]
  | openBlock opens never =>
    obtain rfl := List.head?_eq_none_iff.1 hn
    rw [List.append_nil, head_of_some (opener?_block hc opens), Opener.extent, Opener.kind,
      blockExtent, show Language.block.opening.length = 2 from rfl, never]
  | @embedded bytes i _ form opens first brace stop =>
    have hdrop : (bytes ++ t).drop 3 = bytes.drop 3 ++ t :=
      List.drop_append_of_le_length (by omega)
    have hbrace : (bytes.drop 3 ++ t)[i + 2]? = some closeBrace := by
      rwa [List.getElem?_append_left (by simp only [List.length_drop]; omega)]
    have hopens : embedded? lang (bytes ++ t) = some Language.markupBlock :=
      (embedded?_markup_iff form).2 ⟨opens.trans (List.prefix_append _ _), i,
        hdrop ▸ first.append t, hdrop ▸ hbrace⟩
    have hfirst : FirstAt Language.markupBlock.closing (bytes.drop 3) i := first.concat brace
    rw [head_of_some (opener?_embedded hopens), Opener.kind, Opener.extent,
      blockExtent_append hfirst (by rw [← stop]; simp [Language.markupBlock]; omega)]
  | @quoted q body _ mem closes =>
    rw [List.cons_append, head_of_some (opener?_quoted hc mem _)]
    simp [Opener.kind, Opener.extent, closes t, Extent.grow]
  | broken mem breaks stop =>
    obtain ⟨t, rfl⟩ := List.head?_eq_some_iff.1 hn
    rw [List.cons_append, head_of_some (opener?_quoted hc mem _)]
    simp [Opener.kind, Opener.extent, breaks _ t stop, Extent.grow]
  | openQuoted mem never =>
    obtain rfl := List.head?_eq_none_iff.1 hn
    rw [List.append_nil, head_of_some (opener?_quoted hc mem _)]
    simp [Opener.kind, Opener.extent, never, Extent.grow]

theorem stands_of_embedded (hc : lang.CLike) {bytes t : Bytes} {d : Delimiter} {terminated : Bool}
    (he : embedded? lang (bytes ++ t) = some d)
    (h : blockExtent d (bytes ++ t) = ⟨bytes.length, terminated⟩) :
    Stands lang ⟨.embeddedComment, bytes, terminated⟩ t.head? := by
  obtain ⟨form, rfl⟩ := embedded?_eq_markupBlock hc he
  obtain ⟨hp, i, hf, hbrace⟩ := (embedded?_markup_iff form).1 he
  have hfirst : FirstAt Language.markupBlock.closing ((bytes ++ t).drop 3) i := hf.concat hbrace
  rw [blockExtent_of_firstAt hfirst, Extent.mk.injEq] at h
  obtain ⟨hlen, rfl⟩ := h
  have hlen : i + 6 = bytes.length := by
    simp only [Language.markupBlock, List.length_cons, List.length_nil] at hlen
    omega
  rw [List.drop_append_of_le_length (by omega)] at hf hbrace
  rw [List.getElem?_append_left (by simp only [List.length_drop]; omega)] at hbrace
  have hfit : i + Language.block.closing.length ≤ (bytes.drop 3).length := by
    simp only [Language.block, List.length_cons, List.length_nil, List.length_drop]
    omega
  have hopen : Language.markupBlock.opening <+: bytes := by
    refine List.prefix_of_prefix_length_le hp (List.prefix_append _ _) ?_
    simp only [Language.markupBlock, List.length_cons, List.length_nil]
    omega
  exact .embedded form hopen ((Bytes.firstAt_append_iff t hfit).1 hf) hbrace hlen

theorem stands_of_block {bytes t : Bytes} {terminated : Bool}
    (hp : Language.block.opening <+: bytes ++ t)
    (h : blockExtent Language.block (bytes ++ t) = ⟨bytes.length, terminated⟩) :
    Stands lang ⟨.blockComment, bytes, terminated⟩ t.head? := by
  rw [blockExtent, show Language.block.opening.length = 2 from rfl] at h
  cases hi : Bytes.indexOf? Language.block.closing ((bytes ++ t).drop 2) with
  | some i =>
    rw [hi, Extent.mk.injEq] at h
    obtain ⟨hlen, rfl⟩ := h
    have hlen : i + 4 = bytes.length := by
      simp only [Language.block, List.length_cons, List.length_nil] at hlen
      omega
    have hf := Bytes.indexOf?_eq_some.1 hi
    rw [List.drop_append_of_le_length (by omega)] at hf
    have hfit : i + Language.block.closing.length ≤ (bytes.drop 2).length := by
      simp only [Language.block, List.length_cons, List.length_nil, List.length_drop]
      omega
    have hopen : Language.block.opening <+: bytes := by
      refine List.prefix_of_prefix_length_le hp (List.prefix_append _ _) ?_
      simp only [Language.block, List.length_cons, List.length_nil]
      omega
    exact .block hopen ((Bytes.firstAt_append_iff t hfit).1 hf) hlen
  | none =>
    rw [hi, Extent.mk.injEq] at h
    obtain ⟨hlen, rfl⟩ := h
    obtain rfl : t = [] := by simpa using hlen
    rw [List.append_nil] at hp hi
    exact .openBlock hp hi

theorem stands_of_line (hc : lang.CLike) {bytes t m : Bytes} {terminated : Bool}
    (hne : bytes ≠ []) (hm : m ∈ lang.lineMarkers) (hp : m <+: bytes ++ t)
    (h : lineExtent (bytes ++ t) = ⟨bytes.length, terminated⟩) :
    Stands lang ⟨.lineComment, bytes, terminated⟩ t.head? := by
  rw [lineExtent, Extent.mk.injEq, Grammar.takeWhile_length_iff] at h
  obtain ⟨⟨hinside, hstop⟩, rfl⟩ := h
  rw [List.take_left] at hinside
  have hafter : ∀ c ∈ t.head?, isLineEnd c = true := by
    intro c hc
    obtain ⟨t', rfl⟩ := List.head?_eq_some_iff.1 hc
    rcases hstop with hstop | ⟨b, hb, hend⟩
    · simp at hstop
    · obtain rfl : c = b := by simpa using hb
      exact hend
  have hlen : m.length ≤ bytes.length := by
    obtain ⟨a, rfl, ha⟩ := marker_eq hc hm
    have ha : isLineEnd a = false := by rcases ha with rfl | rfl <;> decide
    cases bytes with
    | nil => exact absurd rfl hne
    | cons b bytes =>
      cases bytes with
      | nil =>
        obtain ⟨r, hr⟩ := hp
        obtain rfl : a :: r = t := (List.cons.inj hr).2
        have := hafter a rfl
        simp [ha] at this
      | cons c bytes => simp
  exact .line hm (List.prefix_of_prefix_length_le hp (List.prefix_append _ _) hlen) hinside hafter

theorem stands_of_quoted (hc : lang.CLike) {body t : Bytes} {q : Quote} {terminated : Bool}
    (hq : q ∈ lang.quotes) (h : literalExtent q (body ++ t) = ⟨body.length, terminated⟩) :
    Stands lang ⟨.stringLiteral, q.mark :: body, terminated⟩ t.head? := by
  have hmark := isLineEnd_of_isSpace (hc.marks q hq).1
  cases literalEnds_of_extent hmark (hc.escapes q hq) body h with
  | mark last closes => exact .quoted hq closes last
  | lineEnd stop breaks =>
    obtain ⟨c, hc, hend⟩ := stop
    rw [Option.mem_def.1 hc]
    exact .broken hq breaks hend
  | text nil =>
    subst nil
    exact .openQuoted hq (by simpa using h)

/-- A comment or literal that the scan has read stands in front of what followed it. -/
theorem stands_of_head (hc : lang.CLike) {t : Bytes} (hk : l.kind ≠ .code) (hne : l.bytes ≠ [])
    (h : head lang (l.bytes ++ t) = (l.kind, ⟨l.bytes.length, l.terminated⟩)) :
    Stands lang l t.head? := by
  obtain ⟨kind, bytes, terminated⟩ := l
  simp only at hk hne h
  cases ho : opener? lang (bytes ++ t) with
  | none =>
    rw [head_of_none ho, Prod.mk.injEq] at h
    exact absurd h.1.symm hk
  | some o =>
    rw [head_of_some ho, Prod.mk.injEq] at h
    obtain ⟨rfl, hext⟩ := h
    rcases opener?_cases ho with ⟨d, rfl, he⟩ | ⟨d, hd, rfl, hp⟩ | ⟨rfl, m, hm, hp⟩ | ⟨q, hq, rfl, hb⟩
    · exact stands_of_embedded hc he hext
    · obtain rfl : d = Language.block := by simpa [hc.blocks] using hd
      exact stands_of_block hp hext
    · exact stands_of_line hc hne hm hp hext
    · obtain ⟨body, rfl⟩ : ∃ body, bytes = q.mark :: body := by
        cases bytes with
        | nil => exact absurd rfl hne
        | cons b body => exact ⟨body, by simpa using hb⟩
      exact stands_of_quoted hc hq
        (Extent.grow_inj (show (literalExtent q (body ++ t)).grow 1 = _ from hext))

/-- What is followed by something other than a line end stands wherever it is put. -/
theorem Stands.anywhere {c : UInt8} (h : Stands lang l (some c)) (hb : isLineEnd c = false)
    (next : Option UInt8) : Stands lang l next := by
  cases h with
  | line _ _ _ after => simp [after c rfl] at hb
  | block opens first stop => exact .block opens first stop
  | embedded form opens first brace stop => exact .embedded form opens first brace stop
  | quoted mem closes mark => exact .quoted mem closes mark
  | broken _ _ stop => simp [stop] at hb

theorem Stands.getLast?_block {bytes : Bytes} {i : Nat}
    (first : FirstAt Language.block.closing (bytes.drop 2) i) (stop : i + 4 = bytes.length) :
    bytes.getLast? = some slash := by
  obtain ⟨t, ht⟩ := first.1
  rw [List.drop_drop] at ht
  have hlen : t = [] := by
    have := congrArg List.length ht
    simp only [Language.block, List.length_append, List.length_cons, List.length_nil,
      List.length_drop] at this
    exact List.length_eq_zero_iff.1 (by omega)
  subst hlen
  have hsplit := List.take_append_drop (2 + i) bytes
  rw [← ht, List.append_nil] at hsplit
  rw [← hsplit, List.getLast?_append]
  rfl

theorem Stands.getLast?_embedded {bytes : Bytes} {i : Nat}
    (brace : (bytes.drop 3)[i + 2]? = some closeBrace) (stop : i + 6 = bytes.length) :
    bytes.getLast? = some closeBrace := by
  rw [List.getLast?_eq_getElem?, ← brace, List.getElem?_drop]
  congr 1
  omega

theorem Stands.getLast?_of_ne {c : UInt8} (hc : lang.CLike) (h : Stands lang l (some c))
    (hb : isLineEnd c = false) : ∀ b ∈ l.bytes.getLast?, isSpace b = false := by
  cases h with
  | line _ _ _ after => simp [after c rfl] at hb
  | block _ first stop =>
    rw [Stands.getLast?_block first stop]
    rintro b ⟨⟩
    decide
  | embedded _ _ _ brace stop =>
    rw [Stands.getLast?_embedded brace stop]
    rintro b ⟨⟩
    decide
  | @quoted q body _ mem _ mark =>
    intro b hbl
    rw [List.getLast?_cons, mark] at hbl
    obtain rfl : q.mark = b := by simpa using hbl
    exact (hc.marks q mem).1
  | broken _ _ stop => simp [stop] at hb

theorem Stands.head?_of_isComment (hc : lang.CLike) (h : Stands lang l next)
    (hl : l.isComment = true) :
    (l.kind = .lineComment ∧ ∃ a, [a, a] ∈ lang.lineMarkers ∧ l.bytes.head? = some a) ∨
    (l.kind = .blockComment ∧ l.bytes.head? = some slash) ∨
    (l.kind = .embeddedComment ∧ lang.embedded ≠ none ∧ l.bytes.head? = some openBrace) := by
  cases h with
  | line marker opens =>
    obtain ⟨a, rfl, -⟩ := marker_eq hc marker
    obtain ⟨t, rfl⟩ := opens
    exact .inl ⟨rfl, a, marker, rfl⟩
  | block opens | openBlock opens =>
    obtain ⟨t, rfl⟩ := opens
    exact .inr (.inl ⟨rfl, rfl⟩)
  | embedded form opens =>
    obtain ⟨t, rfl⟩ := opens
    exact .inr (.inr ⟨rfl, by simp [form], rfl⟩)
  | quoted | broken | openQuoted => simp [Lexeme.isComment, SegmentKind.isComment] at hl

theorem Stands.exists_head? (hc : lang.CLike) (h : Stands lang l next) :
    ∃ b, l.bytes.head? = some b ∧ isSpace b = false ∧ b ≠ closeBrace := by
  have hmark : ∀ q ∈ lang.quotes, isSpace q.mark = false ∧ q.mark ≠ closeBrace := by
    intro q hq
    refine ⟨(hc.marks q hq).1, fun heq => (hc.marks q hq).2 ?_⟩
    simp [heq]
  cases h with
  | line marker opens =>
    obtain ⟨a, rfl, ha⟩ := marker_eq hc marker
    obtain ⟨t, rfl⟩ := opens
    exact ⟨a, rfl, by rcases ha with rfl | rfl <;> decide⟩
  | block opens | openBlock opens =>
    obtain ⟨t, rfl⟩ := opens
    exact ⟨slash, rfl, by decide⟩
  | embedded _ opens =>
    obtain ⟨t, rfl⟩ := opens
    exact ⟨openBrace, rfl, by decide⟩
  | @quoted q _ _ mem | @broken q _ _ mem | @openQuoted q _ mem => exact ⟨q.mark, rfl, hmark q mem⟩

end Stands

theorem embedded?_of_opener? {lang : Language} {s : Bytes} (h : opener? lang s = none) :
    embedded? lang s = none := by
  cases he : embedded? lang s with
  | none => rfl
  | some d => simp [opener?, he] at h

end Scan

namespace Atom
open Scan Strip

/-- Each atom is as `P` says, given the byte after it; after the last one comes `next`. -/
def Along (P : Atom → Option UInt8 → Prop) (next : Option UInt8) : List Atom → Prop
  | [] => True
  | a :: A => P a ((flat A).head?.or next) ∧ Along P next A

/-- An atom that is read as itself when `next` comes after it. A language with an embedded form
admits one exception, a byte of code that opens a comment together with a slash. -/
def Fits (lang : Language) : Atom → Option UInt8 → Prop
  | byte b, next => (∀ q ∈ lang.quotes, q.mark ≠ b) ∧
      (meets lang (some b) next = true → lang.embedded ≠ none ∧ next = some slash)
  | whole l, next => Stands lang l next

def Apart (lang : Language) : Atom → Option UInt8 → Prop
  | byte b, next => meets lang (some b) next = false
  | whole _, _ => True

def Linked (lang : Language) (next : Option UInt8) (A : List Atom) : Prop := Along (Fits lang) next A

def Seamless (lang : Language) (next : Option UInt8) (A : List Atom) : Prop :=
  Along (Apart lang) next A

section Along
variable {P Q : Atom → Option UInt8 → Prop} {next next' : Option UInt8} {A B : List Atom}

theorem along_append :
    Along P next (A ++ B) ↔ Along P ((flat B).head?.or next) A ∧ Along P next B := by
  induction A with
  | nil => simp [Along]
  | cons a A ih =>
    simp only [List.cons_append, Along, ih, flat_append, List.head?_append, Option.or_assoc,
      and_assoc]

theorem Along.mono (h : Along P next A) (hPQ : ∀ a ∈ A, ∀ n, P a n → Q a n) : Along Q next A := by
  induction A with
  | nil => trivial
  | cons a A ih =>
    exact ⟨hPQ a List.mem_cons_self _ h.1, ih h.2 fun b hb => hPQ b (List.mem_cons_of_mem _ hb)⟩

theorem flat_eq_nil_iff (hne : ∀ a ∈ A, a.bytes ≠ []) : flat A = [] ↔ A = [] := by
  cases A with
  | nil => simp
  | cons a A => simp [hne a]

/-- Only the last atom sees what comes after the atoms. -/
theorem Along.retarget (h : Along P next A) (hne : ∀ a ∈ A, a.bytes ≠ [])
    (hlast : ∀ a ∈ A.getLast?, P a next → P a next') : Along P next' A := by
  induction A with
  | nil => trivial
  | cons a A ih =>
    have hne' : ∀ a ∈ A, a.bytes ≠ [] := fun b hb => hne b (List.mem_cons_of_mem _ hb)
    by_cases hA : A = []
    · subst hA
      exact ⟨hlast a rfl h.1, trivial⟩
    · obtain ⟨c, hc⟩ : ∃ c, (flat A).head? = some c := by
        rw [← Option.isSome_iff_exists, List.isSome_head?]
        exact (flat_eq_nil_iff hne').not.2 hA
      refine ⟨by simpa [hc] using h.1, ih h.2 hne' fun b hb => hlast b ?_⟩
      rw [List.getLast?_cons, Option.mem_def.1 hb]
      rfl

end Along

section Linked
variable {lang : Language} {next : Option UInt8} {A : List Atom}

theorem Linked.bytes_ne_nil (hc : lang.CLike) (h : Linked lang next A) : ∀ a ∈ A, a.bytes ≠ [] := by
  induction A with
  | nil => simp
  | cons a A ih =>
    intro b hb
    rcases List.mem_cons.1 hb with rfl | hb
    · cases b with
      | byte b => simp [bytes]
      | whole l => exact Stands.bytes_ne_nil hc h.1
    · exact ih h.2 b hb

theorem Linked.kind_ne_code (h : Linked lang next A) : ∀ l, whole l ∈ A → l.kind ≠ .code := by
  induction A with
  | nil => simp
  | cons a A ih =>
    intro l hl
    rcases List.mem_cons.1 hl with rfl | hl
    · exact Stands.kind_ne_code h.1
    · exact ih h.2 l hl

theorem Linked.seamless (he : lang.embedded = none) (h : Linked lang next A) :
    Seamless lang next A := by
  refine Along.mono h fun a _ n ha => ?_
  cases a with
  | byte b => exact Bool.eq_false_iff.2 fun hm => (ha.2 hm).1 he
  | whole l => trivial

theorem opener?_byte (hc : lang.CLike) {b : UInt8} {t : Bytes} (hfit : Fits lang (byte b) t.head?)
    (hapart : Apart lang (byte b) t.head?) (he : embedded? lang (b :: t) = none) :
    opener? lang (b :: t) = none :=
  (opener?_eq_none_iff hc he).2 ⟨hapart, hfit.1⟩

/-- Linked atoms without a seam are the atoms of their text, where there is no embedded form. -/
theorem Linked.lexemes_flat (hs : lang.Scannable) (hc : lang.CLike) (he : lang.embedded = none)
    {t : Bytes} (h : Linked lang t.head? A) :
    lexemes lang (flat A ++ t) = pack A (lexemes lang t) := by
  induction A with
  | nil => rfl
  | cons a A ih =>
    have hfit := h.1
    have hapart := (h.seamless he).1
    rw [← List.head?_append] at hfit hapart
    rw [flat_cons, List.append_assoc]
    cases a with
    | byte b =>
      rw [pack, ← ih h.2]
      exact lexemes_cons_of_none hs (opener?_byte hc hfit hapart (by simp [embedded?, he]))
    | whole l =>
      rw [pack, ← ih h.2]
      exact lexemes_append_of_head hs (Stands.bytes_ne_nil hc hfit) (Stands.head_eq hc hfit)

/-- Where something opens, the scan cuts off a lexeme that stands in front of what follows it. -/
theorem exists_stands (hs : lang.Scannable) (hc : lang.CLike) {s : Bytes} {o : Opener}
    (ho : opener? lang s = some o) :
    ∃ l rest, s = l.bytes ++ rest ∧ rest.length < s.length ∧ l.kind ≠ .code ∧
      Stands lang l rest.head? ∧ lexemes lang s = l :: lexemes lang rest := by
  have hne : s ≠ [] := by
    rintro rfl
    simp [opener?_nil hs] at ho
  have hpos := head_length_pos hs hne
  have hlen := List.length_pos_iff.2 hne
  have hkind : (first lang s).kind ≠ .code := by
    rw [first, head_of_some ho]
    exact o.kind_ne_code
  have hsplit : s = (first lang s).bytes ++ s.drop (head lang s).2.length :=
    (List.take_append_drop _ _).symm
  refine ⟨first lang s, s.drop (head lang s).2.length, hsplit, ?_, hkind, ?_,
    lexemes_of_ne_nil hs hne⟩
  · rw [List.length_drop]
    omega
  · refine stands_of_head hc hkind (first_bytes_ne_nil hs hne) ?_
    rw [length_first hs, ← hsplit]
    rfl

theorem linked_explode (hs : lang.Scannable) (hc : lang.CLike) (s : Bytes) :
    Linked lang none (explode (lexemes lang s)) := by
  induction hn : s.length using Nat.strong_induction_on generalizing s with
  | _ n ih =>
    cases s with
    | nil => simp [Linked, Along]
    | cons b t =>
      cases ho : opener? lang (b :: t) with
      | none =>
        rw [lexemes_cons_of_none hs ho, explode_consByte]
        refine ⟨?_, ih t.length (by simp [← hn]) t rfl⟩
        rw [flat_explode, flatMap_lexemes hs, Option.or_none]
        obtain ⟨hmeets, hmarks⟩ := (opener?_eq_none_iff hc (embedded?_of_opener? ho)).1 ho
        exact ⟨hmarks, fun hm => by simp [hmeets] at hm⟩
      | some o =>
        obtain ⟨l, rest, hsplit, hshort, hkind, hstands, hlex⟩ := exists_stands hs hc ho
        rw [hlex, explode_cons, ofLexeme_of_ne hkind, List.singleton_append]
        refine ⟨?_, ih rest.length (hn ▸ hshort) rest rfl⟩
        rw [flat_explode, flatMap_lexemes hs, Option.or_none]
        exact hstands

end Linked
end Atom
end Uncomment
