import Mathlib
import Uncomment.Proofs.Following
import Uncomment.Proofs.Rescan

/-! Line ends of two bytes. With a carriage return before every line feed a text is scanned and
stripped as before, up to these carriage returns. The exception is an escape before the line feed of a
single-line literal: it takes the carriage return, and the line feed ends the literal. -/
namespace Uncomment
open Ascii
open Bytes (FirstAt)

namespace Bytes

/-- A carriage return before every line feed. -/
def crlf (s : Bytes) : Bytes := s.flatMap fun b => if b = lf then [cr, lf] else [b]

section Crlf
variable {s : Bytes}

@[simp] theorem crlf_nil : crlf [] = [] := rfl

@[simp] theorem crlf_append (s t : Bytes) : crlf (s ++ t) = crlf s ++ crlf t := List.flatMap_append

theorem crlf_lf (t : Bytes) : crlf (lf :: t) = cr :: lf :: crlf t := rfl

theorem crlf_cons {b : UInt8} (h : b ≠ lf) (t : Bytes) : crlf (b :: t) = b :: crlf t := by
  rw [crlf, List.flatMap_cons, if_neg h]
  rfl

theorem crlf_of_notMem (h : lf ∉ s) : crlf s = s := by
  induction s with
  | nil => rfl
  | cons b s ih =>
    rw [crlf_cons (Ne.symm (List.ne_of_not_mem_cons h)), ih (List.not_mem_of_not_mem_cons h)]

theorem count_crlf (s : Bytes) : (crlf s).count lf = s.count lf := by
  induction s with
  | nil => rfl
  | cons b s ih =>
    by_cases hb : b = lf
    · rw [hb, crlf_lf, List.count_cons_of_ne (by decide), List.count_cons_self, List.count_cons_self, ih]
    · rw [crlf_cons hb, List.count_cons_of_ne hb, List.count_cons_of_ne hb, ih]

theorem crlf_ne_nil (h : s ≠ []) : crlf s ≠ [] := by
  obtain ⟨b, t, rfl⟩ := List.exists_cons_of_ne_nil h
  by_cases hb : b = lf
  · simp [hb, crlf_lf]
  · simp [crlf_cons hb]

theorem getLast?_crlf (s : Bytes) : (crlf s).getLast? = s.getLast? := by
  rcases List.eq_nil_or_concat s with rfl | ⟨t, b, rfl⟩
  · rfl
  · by_cases hb : b = lf
    · simp [hb, crlf_lf]
    · simp [crlf_cons hb]

/-- The first byte is the same, or it is the carriage return of a first line feed. -/
theorem head?_crlf (s : Bytes) :
    (crlf s).head? = s.head? ∨ (crlf s).head? = some cr ∧ s.head? = some lf := by
  cases s with
  | nil => exact .inl rfl
  | cons b s =>
    by_cases hb : b = lf
    · exact .inr ⟨by rw [hb, crlf_lf]; rfl, by rw [hb]; rfl⟩
    · exact .inl (by rw [crlf_cons hb]; rfl)

theorem crlf_take_append_drop (s : Bytes) (n : Nat) : crlf s = crlf (s.take n) ++ crlf (s.drop n) := by
  rw [← crlf_append, List.take_append_drop]

theorem take_crlf (s : Bytes) (n : Nat) :
    (crlf s).take (crlf (s.take n)).length = crlf (s.take n) := by
  rw [crlf_take_append_drop s n, List.take_left]

theorem drop_crlf (s : Bytes) (n : Nat) : (crlf s).drop (crlf (s.take n)).length = crlf (s.drop n) := by
  rw [crlf_take_append_drop s n, List.drop_left]

end Crlf

section Search
variable {needle : Bytes} (hn : ∀ b ∈ needle, isLineEnd b = false)
include hn

theorem crlf_needle : crlf needle = needle :=
  crlf_of_notMem fun h => by simpa [isLineEnd] using hn lf h

theorem prefix_crlf_iff {s : Bytes} : needle <+: crlf s ↔ needle <+: s := by
  induction needle generalizing s with
  | nil => simp
  | cons a needle ih =>
    have ha := hn a List.mem_cons_self
    cases s with
    | nil => rfl
    | cons b s =>
      by_cases hb : b = lf
      · have hcr : a ≠ cr := fun heq => by simp [heq, isLineEnd] at ha
        have hlf : a ≠ lf := fun heq => by simp [heq, isLineEnd] at ha
        rw [hb, crlf_lf, List.cons_prefix_cons, List.cons_prefix_cons]
        exact iff_of_false (fun h => hcr h.1) (fun h => hlf h.1)
      · rw [crlf_cons hb, List.cons_prefix_cons, List.cons_prefix_cons,
          ih fun b hb => hn b (List.mem_cons_of_mem _ hb)]

/-- The first occurrence stays the first one. -/
theorem indexOf?_crlf (hne : needle ≠ []) (s : Bytes) :
    indexOf? needle (crlf s) = (indexOf? needle s).map fun i => (crlf (s.take i)).length := by
  have hskip : ∀ {b : UInt8} {t : Bytes}, isLineEnd b = true →
      indexOf? needle (b :: t) = (indexOf? needle t).map (· + 1) := by
    intro b t hb
    obtain ⟨a, m, rfl⟩ := List.exists_cons_of_ne_nil hne
    have hab : a ≠ b := by
      rintro rfl
      simp [hn a List.mem_cons_self] at hb
    simp [indexOf?, hab]
  induction s with
  | nil => simp [indexOf?, hne]
  | cons b s ih =>
    by_cases hb : b = lf
    · subst hb
      rw [crlf_lf, hskip (by decide), hskip (by decide), hskip (by decide), ih, Option.map_map,
        Option.map_map, Option.map_map]
      rfl
    · have hp : needle.isPrefixOf (crlf (b :: s)) = needle.isPrefixOf (b :: s) := by
        rw [Bool.eq_iff_iff, List.isPrefixOf_iff_prefix, List.isPrefixOf_iff_prefix, prefix_crlf_iff hn]
      rw [crlf_cons hb] at hp ⊢
      rw [indexOf?, indexOf?, hp, ih]
      split_ifs
      · rfl
      · rw [Option.map_map, Option.map_map]
        congr 1
        funext i
        simp [crlf_cons hb]

theorem firstAt_crlf_iff (hne : needle ≠ []) {s : Bytes} {j : Nat} :
    FirstAt needle (crlf s) j ↔ ∃ i, FirstAt needle s i ∧ (crlf (s.take i)).length = j := by
  rw [← indexOf?_eq_some, indexOf?_crlf hn hne, Option.map_eq_some_iff]
  simp only [indexOf?_eq_some]

theorem crlf_take_add {s : Bytes} {i : Nat} (h : needle <+: s.drop i) :
    crlf (s.take (i + needle.length)) = crlf (s.take i) ++ needle := by
  rw [List.take_add, crlf_append, ← List.prefix_iff_eq_take.1 h, crlf_needle hn]

end Search
end Bytes

theorem lineWise_crlf : LineWise Bytes.crlf :=
  ⟨Bytes.crlf_append, fun _ => Bytes.crlf_of_notMem, .inr rfl⟩

def Lexeme.crlf (l : Lexeme) : Lexeme := { l with bytes := l.bytes.crlf }

namespace Scan
open Bytes

/-- The extent of the same bytes once their line ends have two bytes. -/
def Extent.widen (s : Bytes) (e : Extent) : Extent := ⟨(crlf (s.take e.length)).length, e.terminated⟩

theorem Extent.widen_grow {b : UInt8} (hb : b ≠ lf) (s : Bytes) (e : Extent) :
    Extent.widen (b :: s) (e.grow 1) = (Extent.widen s e).grow 1 := by
  simp [widen, grow, crlf_cons hb]

theorem Extent.widen_grow_lf (s : Bytes) (e : Extent) :
    Extent.widen (lf :: s) (e.grow 1) = (Extent.widen s e).grow 2 := by
  simp [widen, grow, crlf_lf]

/-- No comment token of the supported languages holds a line end. -/
theorem isLineEnd_of_mem_delimiter {d : Delimiter} (hd : d ∈ [Language.block, Language.markupBlock]) :
    (∀ b ∈ d.opening, isLineEnd b = false) ∧ ∀ b ∈ d.closing, isLineEnd b = false := by
  revert d
  decide +kernel

section Opener
variable {lang : Language} (hc : lang.CLike)
include hc

omit hc in
theorem embedded?_markup_crlf (form : lang.embedded = some Language.markupBlock) (s : Bytes) :
    embedded? lang (crlf s) = some Language.markupBlock ↔
      embedded? lang s = some Language.markupBlock := by
  have hclose := (isLineEnd_of_mem_delimiter (d := Language.block) (by simp)).2
  have hopen := (isLineEnd_of_mem_delimiter (d := Language.markupBlock) (by simp)).1
  rw [embedded?_markup_iff form, embedded?_markup_iff form, prefix_crlf_iff hopen]
  refine and_congr_right fun hp => ?_
  obtain ⟨t, rfl⟩ := hp
  rw [crlf_append, crlf_needle hopen]
  change (∃ j, FirstAt Language.block.closing (crlf t) j ∧ (crlf t)[j + 2]? = some closeBrace) ↔
    ∃ i, FirstAt Language.block.closing t i ∧ t[i + 2]? = some closeBrace
  have hbrace : ∀ {i : Nat}, FirstAt Language.block.closing t i →
      ((crlf t)[(crlf (t.take i)).length + 2]? = some closeBrace ↔ t[i + 2]? = some closeBrace) := by
    intro i hi
    have hlen := congrArg List.length (crlf_take_add hclose hi.1)
    rw [List.length_append, show Language.block.closing.length = 2 from rfl] at hlen
    rw [← hlen, ← List.head?_drop, ← List.head?_drop, drop_crlf]
    rcases head?_crlf (t.drop (i + 2)) with h | ⟨h, h'⟩
    · rw [h]
    · rw [h, h']
      decide
  constructor
  · rintro ⟨j, hj, hb⟩
    obtain ⟨i, hi, rfl⟩ := (firstAt_crlf_iff hclose (by decide)).1 hj
    exact ⟨i, hi, (hbrace hi).1 hb⟩
  · rintro ⟨i, hi, hb⟩
    exact ⟨_, (firstAt_crlf_iff hclose (by decide)).2 ⟨i, hi, rfl⟩, (hbrace hi).2 hb⟩

theorem embedded?_crlf (s : Bytes) : embedded? lang (crlf s) = embedded? lang s := by
  have hsome : ∀ t d, embedded? lang t = some d → embedded? lang t = some Language.markupBlock ∧
      lang.embedded = some Language.markupBlock ∧ d = Language.markupBlock := by
    intro t d h
    obtain ⟨form, rfl⟩ := embedded?_eq_markupBlock hc h
    exact ⟨h, form, rfl⟩
  ext d
  constructor
  · intro h
    obtain ⟨h, form, rfl⟩ := hsome _ _ h
    exact (embedded?_markup_crlf form s).1 h
  · intro h
    obtain ⟨h, form, rfl⟩ := hsome _ _ h
    exact (embedded?_markup_crlf form s).2 h

theorem isLineEnd_of_mem_marker {m : Bytes} (hm : m ∈ lang.lineMarkers) :
    ∀ b ∈ m, isLineEnd b = false := by
  obtain ⟨a, rfl, ha⟩ := marker_eq hc hm
  intro b hb
  obtain rfl : b = a := by simpa using hb
  rcases ha with rfl | rfl <;> decide

/-- A carriage return before a line feed changes nothing about what opens at a byte. -/
theorem opener?_crlf (s : Bytes) : opener? lang (crlf s) = opener? lang s := by
  have hpre : ∀ {m : Bytes}, (∀ b ∈ m, isLineEnd b = false) →
      m.isPrefixOf (crlf s) = m.isPrefixOf s := by
    intro m hm
    rw [Bool.eq_iff_iff, List.isPrefixOf_iff_prefix, List.isPrefixOf_iff_prefix, prefix_crlf_iff hm]
  have hmarkers : lang.lineMarkers.any (·.isPrefixOf (crlf s)) =
      lang.lineMarkers.any (·.isPrefixOf s) := by
    rw [Bool.eq_iff_iff, List.any_eq_true, List.any_eq_true]
    exact exists_congr fun m => and_congr_right fun hm => by rw [hpre (isLineEnd_of_mem_marker hc hm)]
  have hquotes : ((crlf s).head?.bind fun b => (lang.quotes.find? (·.mark == b)).map Opener.quoted) =
      s.head?.bind fun b => (lang.quotes.find? (·.mark == b)).map Opener.quoted := by
    rcases head?_crlf s with h | ⟨h, h'⟩
    · rw [h]
    · have hnone : ∀ {b : UInt8}, isSpace b = true → lang.quotes.find? (·.mark == b) = none := by
        intro b hb
        refine List.find?_eq_none.2 fun q hq heq => ?_
        obtain rfl : q.mark = b := by simpa using heq
        simp [(hc.marks q hq).1] at hb
      rw [h, h', Option.bind_some, Option.bind_some, hnone (by decide), hnone (by decide)]
  rw [opener?, opener?, embedded?_crlf hc, hc.blocks, hmarkers, hquotes]
  simp only [List.find?_cons, List.find?_nil,
    hpre (isLineEnd_of_mem_delimiter (d := Language.block) (by simp)).1]

end Opener

section Extent
variable {lang : Language}

theorem lineExtent_crlf (s : Bytes) : lineExtent (crlf s) = Extent.widen s (lineExtent s) := by
  have hsame : (crlf s).takeWhile (!isLineEnd ·) = s.takeWhile (!isLineEnd ·) := by
    induction s with
    | nil => rfl
    | cons b s ih =>
      by_cases hb : b = lf
      · subst hb
        rfl
      · rw [crlf_cons hb, List.takeWhile_cons, List.takeWhile_cons, ih]
  have hnone : lf ∉ s.takeWhile (!isLineEnd ·) := fun h => by
    simpa [isLineEnd] using List.mem_takeWhile_imp h
  rw [lineExtent, lineExtent, hsame, Extent.widen,
    ← List.prefix_iff_eq_take.1 (List.takeWhile_prefix _), crlf_of_notMem hnone]

theorem blockExtent_crlf {d : Delimiter} (ho : ∀ b ∈ d.opening, isLineEnd b = false)
    (hcl : ∀ b ∈ d.closing, isLineEnd b = false) (hne : d.closing ≠ []) {s : Bytes}
    (hp : d.opening <+: s) : blockExtent d (crlf s) = Extent.widen s (blockExtent d s) := by
  obtain ⟨t, rfl⟩ := hp
  rw [blockExtent, blockExtent, crlf_append, crlf_needle ho, List.drop_left, List.drop_left,
    indexOf?_crlf hcl hne]
  cases hi : indexOf? d.closing t with
  | none =>
    simp only [Option.map_none, Extent.widen, List.take_length, crlf_append, crlf_needle ho]
  | some i =>
    have hadd := crlf_take_add hcl (indexOf?_eq_some.1 hi).1
    simp only [Option.map_some, Extent.widen]
    rw [Nat.add_assoc, Nat.add_assoc, List.take_length_add_append, crlf_append, hadd, crlf_needle ho,
      List.length_append, List.length_append]

theorem codeLength_crlf (hs : lang.Scannable) (hc : lang.CLike) (s : Bytes) :
    codeLength lang (crlf s) = (crlf (s.take (codeLength lang s))).length := by
  induction s with
  | nil => rfl
  | cons b s ih =>
    cases ho : opener? lang (b :: s) with
    | some o =>
      rw [codeLength_of_some hs ho, codeLength_of_some hs ((opener?_crlf hc _).trans ho)]
      rfl
    | none =>
      rw [codeLength_of_none ho, List.take_succ_cons]
      by_cases hb : b = lf
      · have hcr := opener?_of_isSpace hc (c := cr) (by decide) (lf :: crlf s)
        have hlf := opener?_of_isSpace hc (c := lf) (by decide) (crlf s)
        rw [hb, crlf_lf, crlf_lf, codeLength_of_none hcr, codeLength_of_none hlf, ih]
        rfl
      · have hnone := (opener?_crlf hc (b :: s)).trans ho
        rw [crlf_cons hb] at hnone ⊢
        rw [crlf_cons hb, codeLength_of_none hnone, ih]
        rfl

end Extent

section Literal
variable {q : Quote} (hm : isLineEnd q.mark = false) (he : ∀ b ∈ q.escape, isLineEnd b = false)
include hm he

theorem literalExtent_lineEnd {b : UInt8} (hb : isLineEnd b = true) (t : Bytes) :
    literalExtent q (b :: t) = if q.multiline then (literalExtent q t).grow 1 else ⟨0, true⟩ := by
  have hesc : q.escape ≠ some b := fun heq => by simp [he b heq] at hb
  have hmark : b ≠ q.mark := fun heq => by simp [heq, hm] at hb
  split_ifs with hq
  · exact literalExtent_next hesc hmark (by simp [hq]) t
  · exact literalExtent_break hesc hmark ⟨by simpa using hq, hb⟩ t

/-- At a line feed the escape takes the carriage return, and the line feed stays in the literal. -/
theorem literalExtent_crlf_escape {b : UInt8} (hesc : q.escape = some b) {c : UInt8}
    (hc : c = lf → q.multiline = true) {rest : Bytes}
    (hrest : literalExtent q (crlf rest) = Extent.widen rest (literalExtent q rest)) :
    literalExtent q (crlf (b :: c :: rest)) =
      Extent.widen (b :: c :: rest) ((literalExtent q rest).grow 2) := by
  have hlf := @literalExtent_lineEnd q hm he lf (by decide)
  have hb : b ≠ lf := fun hb => by simpa [hb, isLineEnd] using he _ hesc
  by_cases hfeed : c = lf
  · rw [hfeed, crlf_cons hb, crlf_lf, literalExtent_escape hesc, hlf, if_pos (hc hfeed), hrest]
    simp [Extent.widen, Extent.grow, crlf_cons hb, crlf_lf]
  · rw [crlf_cons hb, crlf_cons hfeed, literalExtent_escape hesc, hrest]
    simp [Extent.widen, Extent.grow, crlf_cons hb, crlf_cons hfeed]

theorem literalExtent_crlf_next {b : UInt8} (hesc : q.escape ≠ some b) (hmark : b ≠ q.mark)
    (hbreak : ¬ (q.multiline = false ∧ isLineEnd b = true)) {rest : Bytes}
    (hrest : literalExtent q (crlf rest) = Extent.widen rest (literalExtent q rest)) :
    literalExtent q (crlf (b :: rest)) =
      Extent.widen (b :: rest) ((literalExtent q rest).grow 1) := by
  have hcr := @literalExtent_lineEnd q hm he cr (by decide)
  have hlf := @literalExtent_lineEnd q hm he lf (by decide)
  by_cases hfeed : b = lf
  · subst hfeed
    have hmulti : q.multiline = true := by simpa [isLineEnd] using hbreak
    rw [crlf_lf, hcr, hlf, if_pos hmulti, if_pos hmulti, hrest, Extent.widen_grow_lf]
    rfl
  · rw [crlf_cons hfeed, literalExtent_next hesc hmark hbreak, hrest, Extent.widen_grow hfeed]

/-- A literal takes the same bytes as before, unless it is of a single-line kind and holds a line
feed. -/
theorem literalExtent_crlf (s : Bytes)
    (h : q.multiline = false → lf ∉ s.take (literalExtent q s).length) :
    literalExtent q (crlf s) = Extent.widen s (literalExtent q s) := by
  fun_induction literalExtent q s with
  | case1 => rfl
  | case2 b heq =>
    have hb : b ≠ lf := fun hb => by simpa [hb, isLineEnd] using he _ heq
    rw [crlf_cons hb, crlf_nil, literalExtent.eq_def]
    simp [heq, Extent.widen, crlf_cons hb]
  | case3 b heq c rest ih =>
    simp only [Extent.grow, List.take_succ_cons, List.mem_cons, not_or] at h
    refine literalExtent_crlf_escape hm he heq (fun hc => ?_) (ih fun hq => (h hq).2.2)
    by_contra hq
    exact (h (by simpa using hq)).2.1 hc.symm
  | case4 b rest heq hb =>
    obtain rfl : b = q.mark := by simpa using hb
    have hne : q.mark ≠ lf := fun hlf => by simp [hlf, isLineEnd] at hm
    rw [crlf_cons hne, literalExtent_mark heq rfl]
    simp [Extent.widen, crlf_cons hne]
  | case5 b rest heq hb hbreak =>
    have hq : q.multiline = false ∧ isLineEnd b = true := by simpa using hbreak
    have hwiden : Extent.widen (b :: rest) ⟨0, true⟩ = ⟨0, true⟩ := rfl
    rw [hwiden]
    by_cases hfeed : b = lf
    · rw [hfeed, crlf_lf, literalExtent_lineEnd hm he (by decide), hq.1]
      rfl
    · rw [crlf_cons hfeed, literalExtent_lineEnd hm he hq.2, hq.1]
      rfl
  | case6 b rest heq hb hbreak ih =>
    simp only [Extent.grow, List.take_succ_cons, List.mem_cons, not_or] at h
    exact literalExtent_crlf_next hm he heq (by simpa using hb) (by simpa using hbreak)
      (ih fun hq => (h hq).2)

/-- A single-line literal with a line feed in it now ends before the line feed. -/
theorem literalExtent_crlf_lt (hq : q.multiline = false) (s : Bytes)
    (h : lf ∈ s.take (literalExtent q s).length) :
    (literalExtent q (crlf s)).length < (Extent.widen s (literalExtent q s)).length := by
  have hlf := @literalExtent_lineEnd q hm he lf (by decide)
  have hescape : ∀ {b : UInt8}, q.escape = some b → b ≠ lf :=
    fun heq hb => by simpa [hb, isLineEnd] using he _ heq
  fun_induction literalExtent q s with
  | case1 => simp at h
  | case2 b heq =>
    simp at h
    exact absurd h.symm (hescape heq)
  | case3 b heq c rest ih =>
    have hb := hescape heq
    by_cases hc : c = lf
    · subst hc
      rw [crlf_cons hb, crlf_lf, literalExtent_escape heq, hlf, hq]
      simp [Extent.widen, Extent.grow, crlf_cons hb, crlf_lf]
    · have hrest := ih (by simpa [Extent.grow, Ne.symm hb, Ne.symm hc] using h)
      rw [crlf_cons hb, crlf_cons hc, literalExtent_escape heq]
      simp only [Extent.widen, Extent.grow, List.take_succ_cons, crlf_cons hb, crlf_cons hc,
        List.length_cons] at hrest ⊢
      omega
  | case4 b rest heq hb =>
    obtain rfl : b = q.mark := by simpa using hb
    have hmark : lf = q.mark := by simpa using h
    simp [← hmark, isLineEnd] at hm
  | case5 b rest heq hb hbreak => simp at h
  | case6 b rest heq hb hbreak ih =>
    have hend : ¬ (q.multiline = false ∧ isLineEnd b = true) := by simpa using hbreak
    have hne : b ≠ lf := fun heq => hend ⟨hq, by rw [heq]; rfl⟩
    have hrest := ih (by simpa [Extent.grow, Ne.symm hne] using h)
    rw [crlf_cons hne, literalExtent_next heq (by simpa using hb) hend, Extent.widen_grow hne]
    exact Nat.succ_lt_succ hrest

theorem literalExtent_crlf_iff (s : Bytes) :
    literalExtent q (crlf s) = Extent.widen s (literalExtent q s) ↔
      (q.multiline = false → lf ∉ s.take (literalExtent q s).length) := by
  refine ⟨fun heq hq hmem => ?_, literalExtent_crlf hm he s⟩
  have hlt := literalExtent_crlf_lt hm he hq s hmem
  rw [heq] at hlt
  exact lt_irrefl _ hlt

end Literal

/-- A literal of a single-line kind holds no line feed, which it could after an escape. -/
def OnOneLine (lang : Language) (l : Lexeme) : Prop :=
  l.kind = .stringLiteral → ∀ q ∈ lang.quotes, l.bytes.head? = some q.mark → q.multiline = false →
    lf ∉ l.bytes

instance (lang : Language) (l : Lexeme) : Decidable (OnOneLine lang l) :=
  inferInstanceAs (Decidable (_ → ∀ q ∈ lang.quotes, _ → _ → _))

section Lexemes
variable {lang : Language} (hs : lang.Scannable) (hc : lang.CLike)
include hc

theorem onOneLine_quoted_iff {q : Quote} (hq : q ∈ lang.quotes) {body : Bytes} {terminated : Bool} :
    OnOneLine lang ⟨.stringLiteral, q.mark :: body, terminated⟩ ↔ (q.multiline = false → lf ∉ body) := by
  constructor
  · intro h hmulti hmem
    exact h rfl q hq rfl hmulti (List.mem_cons_of_mem _ hmem)
  · intro h _ q' hq' hhead hmulti hmem
    have hmark : q.mark = q'.mark := by simpa using hhead
    obtain rfl : q' = q := by
      have hfind := hc.quotes q hq
      rw [hmark, hc.quotes q' hq'] at hfind
      exact Option.some.inj hfind
    rcases List.mem_cons.1 hmem with hlf | hmem
    · simpa [← hlf, isSpace] using (hc.marks q' hq').1
    · exact h hmulti hmem

theorem Opener.extent_crlf_iff {s : Bytes} {o : Opener} (ho : opener? lang s = some o) :
    o.extent (crlf s) = Extent.widen s (o.extent s) ↔
      OnOneLine lang ⟨o.kind, s.take (o.extent s).length, (o.extent s).terminated⟩ := by
  rcases opener?_cases ho with ⟨d, rfl, hd⟩ | ⟨d, hd, rfl, hp⟩ | ⟨rfl, -⟩ | ⟨q, hq, rfl, hb⟩
  · obtain ⟨form, rfl⟩ := embedded?_eq_markupBlock hc hd
    obtain ⟨hopen, hclose⟩ := isLineEnd_of_mem_delimiter (d := Language.markupBlock) (by simp)
    refine iff_of_true ?_ fun hk => by cases hk
    exact blockExtent_crlf hopen hclose (by decide) (embedded?_eq_some hd).2.1
  · obtain rfl : d = Language.block := by simpa [hc.blocks] using hd
    obtain ⟨hopen, hclose⟩ := isLineEnd_of_mem_delimiter (d := Language.block) (by simp)
    refine iff_of_true ?_ fun hk => by cases hk
    exact blockExtent_crlf hopen hclose (by decide) hp
  · exact iff_of_true (lineExtent_crlf s) fun hk => by cases hk
  · obtain ⟨t, rfl⟩ := List.head?_eq_some_iff.1 hb
    have hmark := isLineEnd_of_isSpace (hc.marks q hq).1
    have hne : q.mark ≠ lf := fun heq => by simp [heq, isLineEnd] at hmark
    have hgrow : ∀ e e' : Extent, e.grow 1 = e'.grow 1 ↔ e = e' :=
      fun e e' => ⟨fun h => Extent.grow_inj h, fun h => by rw [h]⟩
    simp only [Opener.extent, Opener.kind, crlf_cons hne, List.drop_succ_cons, List.drop_zero]
    rw [Extent.widen_grow hne, hgrow, literalExtent_crlf_iff hmark (hc.escapes q hq) t]
    exact (onOneLine_quoted_iff hc hq).symm

include hs

theorem head_crlf_iff (s : Bytes) :
    head lang (crlf s) = ((head lang s).1, Extent.widen s (head lang s).2) ↔
      OnOneLine lang (first lang s) := by
  cases ho : opener? lang s with
  | none =>
    rw [first, head_of_none ho, head_of_none ((opener?_crlf hc s).trans ho), codeLength_crlf hs hc]
    exact iff_of_true rfl fun hk => by cases hk
  | some o =>
    rw [first, head_of_some ho, head_of_some ((opener?_crlf hc s).trans ho), Prod.mk.injEq,
      Opener.extent_crlf_iff hc ho]
    exact and_iff_right rfl

theorem first_crlf_iff (s : Bytes) :
    first lang (crlf s) = (first lang s).crlf ↔ OnOneLine lang (first lang s) := by
  rw [← head_crlf_iff hs hc]
  constructor
  · intro h
    have hkind : (head lang (crlf s)).1 = (head lang s).1 := congrArg Lexeme.kind h
    have hended : (head lang (crlf s)).2.terminated = (head lang s).2.terminated :=
      congrArg Lexeme.terminated h
    have hlength : (head lang (crlf s)).2.length = (crlf (s.take (head lang s).2.length)).length := by
      rw [← length_first hs, h]
      rfl
    rw [Extent.widen, ← hkind, ← hended, ← hlength]
  · intro h
    rw [first, h]
    simp only [Extent.widen, take_crlf]
    rfl

/-- The lexemes are the same ones exactly if no single-line literal goes over a line end. -/
theorem lexemes_crlf_iff (s : Bytes) :
    lexemes lang (crlf s) = (lexemes lang s).map Lexeme.crlf ↔
      ∀ l ∈ lexemes lang s, OnOneLine lang l := by
  induction s using scanInduction hs with
  | nil => simp
  | step s hne ih =>
    rw [lexemes_of_ne_nil hs hne, lexemes_of_ne_nil hs (crlf_ne_nil hne), List.map_cons,
      List.forall_mem_cons, List.cons.injEq, first_crlf_iff hs hc]
    refine and_congr_right fun hone => ?_
    rw [(head_crlf_iff hs hc s).2 hone, ← ih]
    simp only [Extent.widen, drop_crlf]

end Lexemes
end Scan

namespace Segment

/-- The same segment in the text with line ends of two bytes. -/
structure Widens (g h : Segment) : Prop extends Rewritten Bytes.crlf g h where
  startLine : h.startLine = g.startLine

theorem forall₂_widens {ls : List Lexeme} (h : ∀ l ∈ ls, cr ∉ l.bytes) (start start' line : Nat) :
    List.Forall₂ Widens (placeAll start line ls) (placeAll start' line (ls.map Lexeme.crlf)) := by
  induction ls generalizing start start' line with
  | nil => exact .nil
  | cons l ls ih =>
    refine .cons ⟨⟨rfl, rfl, .inr (h l List.mem_cons_self)⟩, rfl⟩ ?_
    have hlines : lineFeeds l.crlf.bytes = lineFeeds l.bytes := Bytes.count_crlf l.bytes
    rw [hlines]
    exact ih (fun m hm => h m (List.mem_cons_of_mem _ hm)) _ _ _

end Segment

open Bytes Scan Strip

section Strip
variable {lang : Language}

theorem alike_of_widens (hc : lang.CLike) {g h : Segment} (hgh : Segment.Widens g h) :
    Alike lang [] g h := by
  refine ⟨?_, fun last => ?_, fun next => ?_⟩
  · simp [removable, isProtected, Lexeme.isComment, hgh.kind]
  · rw [hgh.bytes]
    rcases head?_crlf g.bytes with heq | ⟨hcr, hlf⟩
    · rw [heq]
    · rw [hcr, hlf, meets_false_right hc (.inl (by decide)), meets_false_right hc (.inl (by decide))]
  · rw [hgh.bytes, getLast?_crlf]

theorem forall₂_fates_crlf (hs : lang.Scannable) (hc : lang.CLike) {x : Bytes} (hcr : cr ∉ x)
    (hone : ∀ g ∈ scan lang x, OnOneLine lang g.toLexeme) :
    List.Forall₂ (SameFate Segment.Widens) (fates lang [] none [] (scan lang x))
      (fates lang [] none [] (scan lang (crlf x))) := by
  have hlex : ∀ l ∈ lexemes lang x, OnOneLine lang l := by
    intro l hl
    rw [← map_toLexeme_scan] at hl
    obtain ⟨g, hg, rfl⟩ := List.mem_map.1 hl
    exact hone g hg
  have hnone : ∀ l ∈ lexemes lang x, cr ∉ l.bytes := by
    intro l hl hmem
    refine hcr ?_
    rw [← flatMap_lexemes hs x]
    exact List.mem_flatMap.2 ⟨l, hl, hmem⟩
  refine forall₂_fates (fun g h => alike_of_widens hc) ?_ .nil fun _ => rfl
  rw [scan, scan, (lexemes_crlf_iff hs hc x).2 hlex]
  exact Segment.forall₂_widens hnone 0 0 1

end Strip

/-- With line ends of two bytes a text is stripped as it is with line feeds, where no single-line
literal goes over a line end. -/
theorem strip_crlf [Clock] (lang : Language) (hlang : lang ∈ Language.all) (layout : Layout)
    (limit : Option Duration) (path : Path) (x : Bytes) (hcr : cr ∉ x)
    (hone : ∀ g ∈ scan lang x, OnOneLine lang g.toLexeme) :
    (limit = none → ∀ s, ∃ r, stripFile lang ⟨layout, [], limit⟩ path s = .ok r) ∧
    ∀ r r', stripFile lang ⟨layout, [], limit⟩ path x = .ok r →
      stripFile lang ⟨layout, [], limit⟩ path (crlf x) = .ok r' →
      r'.output = crlf r.output ∧ r'.commentsRemoved = r.commentsRemoved ∧
      r'.removed.map (·.line) = r.removed.map (·.line) := by
  refine ⟨fun htime s => ⟨_, stripFile_eq htime lang path s⟩, fun r r' hr hr' => ?_⟩
  obtain rfl := stripFile_eq_ok hr
  obtain rfl := stripFile_eq_ok hr'
  have hs := Language.scannable_of_mem_all hlang
  have hc := Language.cLike_of_mem_all hlang
  have hfates := forall₂_fates_crlf hs hc hcr hone
  obtain ⟨hout, hrem⟩ := @segments_eq lang ⟨layout, [], limit⟩ hc _ (scan_bytes_ne_nil hs x)
  obtain ⟨hout', hrem'⟩ := @segments_eq lang ⟨layout, [], limit⟩ hc _ (scan_bytes_ne_nil hs (crlf x))
  have hlines : (strip lang ⟨layout, [], limit⟩ (crlf x)).removed.map (·.line) =
      (strip lang ⟨layout, [], limit⟩ x).removed.map (·.line) := by
    rw [strip, strip, hrem, hrem', List.map_map, List.map_map]
    have hdropped := (forall₂_dropped hfates).flip
    rw [← List.forall₂_eq_eq_eq, List.forall₂_map_left_iff, List.forall₂_map_right_iff]
    exact hdropped.imp fun h g hgh => hgh.startLine
  refine ⟨?_, ?_, hlines⟩
  · rw [strip, strip, hout, hout']
    have hstart : Emitter.Follows [] crlf (.start layout) (.start layout) :=
      ⟨rfl, rfl, rfl, by simp [Emitter.start], fun _ => ⟨rfl, rfl, rfl⟩⟩
    have hrun := hstart.run lineWise_crlf (hfates.imp fun f k hfk => ⟨hfk.1.toRewritten, hfk.2⟩)
    exact hrun.finish lineWise_crlf
  · simpa [StripOutcome.commentsRemoved] using congrArg List.length hlines

/-- A template may go over a line end, also after an escape. -/
theorem strip_crlf_typescript :
    Language.typescript ∈ Language.all ∧
    cr ∉ Bytes.ofText "a `b\\\nc` // d\n /* e\nf */\ng" ∧
    (∀ g ∈ scan Language.typescript (Bytes.ofText "a `b\\\nc` // d\n /* e\nf */\ng"),
      OnOneLine Language.typescript g.toLexeme) ∧
    ∃ r r', stripFile Language.typescript ⟨.compact, [], none⟩ ⟨[]⟩
        (Bytes.ofText "a `b\\\nc` // d\n /* e\nf */\ng") = .ok r ∧
      stripFile Language.typescript ⟨.compact, [], none⟩ ⟨[]⟩
        (crlf (Bytes.ofText "a `b\\\nc` // d\n /* e\nf */\ng")) = .ok r' ∧
      r.output = Bytes.ofText "a `b\\\nc`\ng" ∧ r'.output = Bytes.ofText "a `b\\\r\nc`\r\ng" ∧
      r'.removed.map (·.line) = [2, 3] := by
  have hlang : Language.typescript ∈ Language.all := by simp [Language.all]
  have hcr : cr ∉ Bytes.ofText "a `b\\\nc` // d\n /* e\nf */\ng" := by decide +kernel
  have hone : ∀ g ∈ scan Language.typescript (Bytes.ofText "a `b\\\nc` // d\n /* e\nf */\ng"),
      OnOneLine Language.typescript g.toLexeme := by decide +kernel
  obtain ⟨hok, hsame⟩ := strip_crlf Language.typescript hlang .compact none ⟨[]⟩ _ hcr hone
  obtain ⟨r, hr⟩ := hok rfl (Bytes.ofText "a `b\\\nc` // d\n /* e\nf */\ng")
  obtain ⟨r', hr'⟩ := hok rfl (crlf (Bytes.ofText "a `b\\\nc` // d\n /* e\nf */\ng"))
  obtain ⟨hout, -, hlines⟩ := hsame r r' hr hr'
  have hfeeds : r.output = Bytes.ofText "a `b\\\nc`\ng" ∧ r.removed.map (·.line) = [2, 3] := by
    rw [stripFile_eq_ok hr]
    decide +kernel
  refine ⟨hlang, hcr, hone, r, r', hr, hr', hfeeds.1, ?_, hlines.trans hfeeds.2⟩
  rw [hout, hfeeds.1]
  decide +kernel

/-- After an escape the carriage return belongs to a single-line literal and the line feed ends it.
What was the rest of the literal is code again, here with a comment. -/
theorem strip_crlf_escape :
    Language.typescript ∈ Language.all ∧ cr ∉ Bytes.ofText "\"a\\\n//b\"" ∧
    ∃ r r', stripFile Language.typescript ⟨.preserve, [], none⟩ ⟨[]⟩
        (Bytes.ofText "\"a\\\n//b\"") = .ok r ∧
      stripFile Language.typescript ⟨.preserve, [], none⟩ ⟨[]⟩
        (crlf (Bytes.ofText "\"a\\\n//b\"")) = .ok r' ∧
      r.commentsRemoved = 0 ∧ r'.commentsRemoved = 1 ∧ r'.output ≠ crlf r.output := by
  refine ⟨by simp [Language.all], by decide +kernel, _, _, stripFile_eq rfl _ _ _,
    stripFile_eq rfl _ _ _, ?_⟩
  decide +kernel

end Uncomment
