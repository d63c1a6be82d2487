import Mathlib
import Uncomment.Proofs.Following
import Uncomment.Proofs.Layouts

/-! Texts one after the other. At the end of a line of code neither the scan nor the emitter
remembers anything of what came before, so a text that ends there and the text after it are stripped
apart from each other. -/
namespace Uncomment
open Ascii
open Bytes (FirstAt)

namespace Atom

theorem consByte_append (b : UInt8) {ls : List Lexeme} (h : ls ≠ []) (ms : List Lexeme) :
    consByte b (ls ++ ms) = consByte b ls ++ ms := by
  obtain ⟨l, ls, rfl⟩ := List.exists_cons_of_ne_nil h
  simp only [List.cons_append, consByte]
  split_ifs <;> rfl

theorem terminated_consByte (b : UInt8) {ls : List Lexeme} (h : ∀ l ∈ ls, l.terminated = true) :
    ∀ l ∈ consByte b ls, l.terminated = true := by
  intro l hl
  cases ls with
  | nil =>
    obtain rfl := List.mem_singleton.1 hl
    rfl
  | cons m ls =>
    simp only [consByte] at hl
    split_ifs at hl
    · rcases List.mem_cons.1 hl with rfl | hl
      · rfl
      · exact h l (List.mem_cons_of_mem _ hl)
    · rcases List.mem_cons.1 hl with rfl | hl
      · rfl
      · exact h l hl

theorem pack_map_byte {w : Bytes} (hw : w ≠ []) (ls : List Lexeme) :
    pack (w.map byte) ls = ⟨.code, w, true⟩ :: ls ∨
      ∃ l ls', ls = l :: ls' ∧ l.kind = .code ∧
        pack (w.map byte) ls = ⟨.code, w ++ l.bytes, true⟩ :: ls' := by
  induction w with
  | nil => exact absurd rfl hw
  | cons b w ih =>
    rw [List.map_cons, pack]
    by_cases hne : w = []
    · subst hne
      cases ls with
      | nil => exact .inl rfl
      | cons l ls =>
        by_cases hk : l.kind = .code
        · exact .inr ⟨l, ls, rfl, hk, by simp [pack, consByte, hk]⟩
        · exact .inl (by simp [pack, consByte, hk])
    · rcases ih hne with h | ⟨l, ls', hls, hk, h⟩
      · exact .inl (by rw [h]; rfl)
      · exact .inr ⟨l, ls', hls, hk, by rw [h]; rfl⟩

end Atom

namespace Scan
open Atom Strip

section Append
variable {lang : Language} (hs : lang.Scannable) (hc : lang.CLike)
include hs hc

/-- A block comment with something after it is closed before that. -/
theorem exists_firstAt_of_lexemes {t : Bytes} (hopens : Language.block.opening <+: t)
    (hlast : (explode (lexemes lang t)).getLast? = some (byte lf)) :
    ∃ i, FirstAt Language.block.closing (t.drop 2) i ∧ i + 4 < t.length := by
  have hblock := opener?_block hc hopens
  have hne : t ≠ [] := by
    rintro rfl
    simp [opener?_nil hs] at hblock
  have hkind : (first lang t).kind ≠ .code := by
    rw [first, head_of_some hblock]
    exact (Opener.block Language.block).kind_ne_code
  have hrest : t.drop (head lang t).2.length ≠ [] := by
    intro hnil
    rw [lexemes_of_ne_nil hs hne, hnil, lexemes_nil, explode_cons, ofLexeme_of_ne hkind] at hlast
    simp at hlast
  rw [head_of_some hblock, ne_eq, List.drop_eq_nil_iff, not_le, Opener.extent, blockExtent,
    show Language.block.opening.length = 2 from rfl] at hrest
  cases hi : Bytes.indexOf? Language.block.closing (t.drop 2) with
  | none => simp [hi] at hrest
  | some i =>
    rw [hi, show Language.block.closing.length = 2 from rfl] at hrest
    refine ⟨i, Bytes.indexOf?_eq_some.1 hi, ?_⟩
    simp only at hrest
    omega

/-- No embedded form opens over the end of a line of code: the end of its inner comment is not beyond
that line. -/
theorem embedded?_append {b : UInt8} {t : Bytes} (y : Bytes)
    (hlast : (explode (lexemes lang t)).getLast? = some (byte lf))
    (h : opener? lang (b :: t) = none) : embedded? lang (b :: (t ++ y)) = none := by
  by_contra hne
  obtain ⟨d, hd⟩ := Option.ne_none_iff_exists'.1 hne
  obtain ⟨form, rfl⟩ := embedded?_eq_markupBlock hc hd
  obtain ⟨hp, i, hfirst, hbrace⟩ := (embedded?_markup_iff form).1 hd
  obtain ⟨rfl, hopen⟩ : openBrace = b ∧ Language.block.opening <+: t ++ y :=
    List.cons_prefix_cons.1 hp
  rw [List.drop_succ_cons] at hfirst hbrace
  have hlf : t.getLast? = some lf := by
    have hflat := getLast?_flat_byte hlast
    rwa [flat_explode, flatMap_lexemes hs] at hflat
  have hopens : Language.block.opening <+: t := by
    match t, hlf, hopen with
    | [c], hlf, hopen =>
      obtain rfl : c = lf := by simpa using hlf
      have hslash : slash = lf := (List.cons_prefix_cons.1 hopen).1
      exact absurd hslash (by decide)
    | c :: d :: t, _, hopen =>
      exact List.prefix_of_prefix_length_le hopen (List.prefix_append _ _) (by simp [Language.block])
  -- the inner comment is closed inside `t`, and so the byte after its end is there as well
  obtain ⟨j, hj, hshort⟩ := exists_firstAt_of_lexemes hs hc hopens hlast
  rw [List.drop_append_of_le_length (by omega)] at hfirst hbrace
  obtain rfl := hfirst.unique (hj.append y)
  rw [List.getElem?_append_left (by simp only [List.length_drop]; omega)] at hbrace
  have hembedded : embedded? lang (openBrace :: t) = some Language.markupBlock :=
    (embedded?_markup_iff form).2 ⟨List.cons_prefix_cons.2 ⟨rfl, hopens⟩, i, hj, hbrace⟩
  simp [opener?_embedded hembedded] at h

omit hc in
theorem getLast?_explode_of_cons {a : Atom} {c : UInt8} {t : Bytes}
    (h : (a :: explode (lexemes lang (c :: t))).getLast? = some (byte lf)) :
    (explode (lexemes lang (c :: t))).getLast? = some (byte lf) := by
  have hne : explode (lexemes lang (c :: t)) ≠ [] := by
    intro hnil
    have hflat := congrArg flat hnil
    rw [flat_explode, flatMap_lexemes hs] at hflat
    cases hflat
  obtain ⟨d, A, hA⟩ := List.exists_cons_of_ne_nil hne
  rwa [hA, List.getLast?_cons_cons, ← hA] at h

omit hs hc in
/-- The lexemes of `x` with `y` behind it: those of `x` on its own, and the code at its end goes on
into `y`. -/
def Continues (lang : Language) (x y : Bytes) : Prop :=
  ∃ init w, w.getLast? = some lf ∧ (∀ l ∈ init, l.terminated = true) ∧
    lexemes lang x = init ++ [⟨.code, w, true⟩] ∧
    lexemes lang (x ++ y) = init ++ pack (w.map byte) (lexemes lang y)

omit hc in
theorem Continues.byte {b : UInt8} {t y : Bytes} (h : Continues lang t y)
    (ho : opener? lang (b :: t) = none) (ho' : opener? lang (b :: (t ++ y)) = none) :
    Continues lang (b :: t) y := by
  obtain ⟨init, w, hw, hterm, hlex, happ⟩ := h
  have hone : lexemes lang (b :: t) = consByte b (init ++ [⟨.code, w, true⟩]) := by
    rw [lexemes_cons_of_none hs ho, hlex]
  have hboth : lexemes lang (b :: t ++ y) =
      consByte b (init ++ pack (w.map Atom.byte) (lexemes lang y)) := by
    rw [List.cons_append, lexemes_cons_of_none hs ho', happ]
  by_cases hinit : init = []
  · subst hinit
    have hlast : (b :: w).getLast? = some lf := by
      rw [List.getLast?_cons, hw]
      rfl
    exact ⟨[], b :: w, hlast, by simp, hone, hboth⟩
  · refine ⟨consByte b init, w, hw, terminated_consByte b hterm, ?_, ?_⟩
    · rw [hone, consByte_append b hinit]
    · rw [hboth, consByte_append b hinit]

theorem Continues.lexeme {l : Lexeme} {c : UInt8} {t y : Bytes} (h : Continues lang (c :: t) y)
    (hl : Stands lang l (some c)) : Continues lang (l.bytes ++ c :: t) y := by
  obtain ⟨init, w, hw, hterm, hlex, happ⟩ := h
  have hne := hl.bytes_ne_nil hc
  have hclosed : l.terminated = true := by cases hl <;> rfl
  have hone := lexemes_append_of_head hs hne (Stands.head_eq hc (t := c :: t) hl)
  have hboth := lexemes_append_of_head hs hne (Stands.head_eq hc (t := c :: t ++ y) hl)
  refine ⟨l :: init, w, hw, ?_, ?_, ?_⟩
  · intro m hm
    rcases List.mem_cons.1 hm with rfl | hm
    · exact hclosed
    · exact hterm m hm
  · rw [hone, hlex, List.cons_append]
  · rw [List.append_assoc, hboth, happ, List.cons_append]

/-- A text that ends with a line of code is scanned as it is on its own, whatever follows it. -/
theorem continues_of_getLast? (y x : Bytes)
    (h : (explode (lexemes lang x)).getLast? = some (byte lf)) : Continues lang x y := by
  -- along the scan: what comes first is decided without `y`, and the rest ends as `x` does
  induction hn : x.length using Nat.strong_induction_on generalizing x with
  | _ n ih =>
    cases x with
    | nil => simp at h
    | cons b t =>
      cases ho : opener? lang (b :: t) with
      | none =>
        rw [lexemes_cons_of_none hs ho, explode_consByte] at h
        cases t with
        | nil =>
          obtain rfl : b = lf := by simpa using h
          have happ := lexemes_cons_of_none hs (opener?_of_isSpace hc (c := lf) (by decide) y)
          refine ⟨[], [lf], rfl, by simp, ?_, happ⟩
          rw [lexemes_cons_of_none hs ho, lexemes_nil]
          rfl
        | cons c t =>
          have hlast := getLast?_explode_of_cons hs h
          obtain ⟨hmeets, hmarks⟩ := (opener?_eq_none_iff hc (embedded?_of_opener? ho)).1 ho
          have ho' : opener? lang (b :: (c :: t ++ y)) = none :=
            (opener?_eq_none_iff hc (embedded?_append hs hc y hlast ho)).2 ⟨hmeets, hmarks⟩
          exact (ih _ (by simp [← hn]) (c :: t) hlast rfl).byte hs ho ho'
      | some o =>
        obtain ⟨l, rest, hsplit, hshort, hkind, hstands, hlex⟩ := exists_stands hs hc ho
        rw [hlex, explode_cons, ofLexeme_of_ne hkind, List.singleton_append] at h
        cases rest with
        | nil => simp at h
        | cons c u =>
          have hlast := getLast?_explode_of_cons hs h
          rw [hsplit]
          exact (ih _ (hn ▸ hshort) (c :: u) hlast rfl).lexeme hs hc hstands

end Append
end Scan

namespace Segment

theorem placeAll_append (start line : Nat) (ls ms : List Lexeme) :
    placeAll start line (ls ++ ms) = placeAll start line ls ++
      placeAll (start + (ls.flatMap Lexeme.bytes).length)
        (line + lineFeeds (ls.flatMap Lexeme.bytes)) ms := by
  induction ls generalizing start line with
  | nil => simp [placeAll, lineFeeds]
  | cons l ls ih =>
    simp only [List.cons_append, placeAll, ih, List.flatMap_cons, List.length_append, lineFeeds,
      List.count_append, Nat.add_assoc]

/-- The same segment `n` bytes and `k` lines further on. -/
def later (n k : Nat) (g : Segment) : Segment :=
  { g with start := g.start + n, startLine := g.startLine + k, endLine := g.endLine + k }

theorem place_later (n k start line : Nat) (l : Lexeme) :
    place (start + n) (line + k) l = (place start line l).later n k := by
  have hend : line + k + lineFeeds l.bytes - (if l.bytes.getLast? == some lf then 1 else 0) =
      line + lineFeeds l.bytes - (if l.bytes.getLast? == some lf then 1 else 0) + k := by
    split_ifs with h
    · have hmem : lf ∈ l.bytes := List.mem_of_getLast? (by simpa using h)
      have hpos : 0 < lineFeeds l.bytes := List.count_pos_iff.2 hmem
      omega
    · omega
  simp only [place, later, hend]

theorem placeAll_later (n k start line : Nat) (ls : List Lexeme) :
    placeAll (start + n) (line + k) ls = (placeAll start line ls).map (later n k) := by
  induction ls generalizing start line with
  | nil => rfl
  | cons l ls ih =>
    rw [placeAll, placeAll, List.map_cons, ← ih, place_later, Nat.add_right_comm start,
      Nat.add_right_comm line]

end Segment

namespace Emitter

section Lines
variable {e : Emitter}

theorem code_nil (e : Emitter) : e.code [] = e := by
  cases hl : e.layout with
  | preserve => simp [code_preserve hl]
  | compact => simp [code_of_notMem hl, text]

/-- Code up to a line feed and the code after it may be written apart. -/
theorem code_append {a : Bytes} (ha : a.getLast? = some lf) (b : Bytes) :
    e.code (a ++ b) = (e.code a).code b := by
  cases hl : e.layout with
  | preserve =>
    have hassoc : e.settled ++ (a ++ b) = e.settled ++ a ++ b := by
      apply Array.toList_inj.1
      simp
    simp [code_preserve, hl, hassoc]
  | compact =>
    induction a using Bytes.lineInduction generalizing e with
    | last t ht => exact absurd (List.mem_of_getLast? ha) ht
    | line t rest ht ih =>
      have hl' : (e.codeLine t).layout = .compact := by rw [codeLine_layout, hl]
      rw [List.append_assoc, List.cons_append, code_line hl ht, code_line hl ht]
      by_cases hrest : rest = []
      · subst hrest
        rw [code_nil, List.nil_append]
      · refine ih ?_ hl'
        obtain ⟨c, u, rfl⟩ := List.exists_cons_of_ne_nil hrest
        simpa [List.getLast?_append] using ha

/-- The emitter is at the start of a line and has nothing to remember. -/
structure Fresh (e : Emitter) : Prop where
  line : e.line = #[]
  flags : e.layout = .compact → e.removal = false ∧ e.content = false ∧ e.trailing = false

theorem Regular.fresh_code (h : e.Regular) {bytes : Bytes} (hb : bytes.getLast? = some lf) :
    (e.code bytes).Fresh := by
  cases hl : e.layout with
  | preserve =>
    obtain ⟨hreg, hlay, -⟩ := h.code bytes
    rw [hl] at hlay
    exact ⟨hreg.preserve hlay, fun hc => by simp [hlay] at hc⟩
  | compact =>
    induction bytes using Bytes.lineInduction generalizing e with
    | last t ht => exact absurd (List.mem_of_getLast? hb) ht
    | line t rest ht ih =>
      obtain ⟨body, term, -, hterm, hline⟩ := codeLine_eq e t
      have hreg := ((h.text hl body).endLine (by rw [text_layout, hl]) hterm).1
      rw [code_line hl ht]
      by_cases hrest : rest = []
      · subst hrest
        rw [code_nil, hline]
        exact ⟨rfl, fun _ => ⟨rfl, rfl, rfl⟩⟩
      · refine ih (hline ▸ hreg) ?_ (by rw [codeLine_layout, hl])
        obtain ⟨c, u, rfl⟩ := List.exists_cons_of_ne_nil hrest
        simpa [List.getLast?_append] using hb

theorem Fresh.finish (h : e.Fresh) : e.finish = e.settled.toList := by
  cases hl : e.layout with
  | preserve => simp [Emitter.finish, hl, output, h.line]
  | compact => simp [Emitter.finish, hl, settle, (h.flags hl).1, h.line]

theorem Fresh.follows (h : e.Fresh) : Follows e.settled.toList id (.start e.layout) e where
  layout := rfl
  settled := by simp [start]
  line := h.line
  noFeed := by simp [start]
  flags := h.flags

end Lines
end Emitter

namespace Strip
open Atom Scan

section Steps
variable {lang : Language} {options : StripOptions}

theorem flush_of_pending_nil {p : Progress} (h : p.pending = []) (next : Option UInt8) :
    p.flush lang next = p := by
  obtain ⟨emitter, pending, removed, malformed, glued⟩ := p
  obtain rfl : pending = [] := h
  unfold Progress.flush
  split_ifs <;> rfl

theorem flush_pending (p : Progress) (next : Option UInt8) : (p.flush lang next).pending = [] := by
  unfold Progress.flush
  simp only [foldl_dropComment]
  split_ifs
  · split <;> rfl
  · rfl

theorem write_code {g : Segment} (hk : g.kind = .code) (p : Progress) :
    p.write g = { p with emitter := p.emitter.code g.bytes } := by
  unfold Progress.write
  rw [hk]

theorem step_code {g : Segment} (hk : g.kind = .code) (ht : g.terminated = true) (p : Progress) :
    p.step lang options g = (p.flush lang g.bytes.head?).write g := by
  have hstay : removes options g = false := by
    simp [removes, Lexeme.isComment, hk, SegmentKind.isComment]
  have hnote : p.note g = p := by simp [Progress.note, ht]
  simp [Progress.step, hstay, hnote]

/-- Code up to a line feed and the code after it may be two segments or one. -/
theorem step_code_append {f g h : Segment} (hf : f.kind = .code ∧ f.terminated = true)
    (hg : g.kind = .code ∧ g.terminated = true) (hh : h.kind = .code ∧ h.terminated = true)
    (hbytes : h.bytes = f.bytes ++ g.bytes) (hlf : f.bytes.getLast? = some lf) (p : Progress) :
    p.step lang options h = (p.step lang options f).step lang options g := by
  have hhead : h.bytes.head? = f.bytes.head? := by
    have hne : f.bytes ≠ [] := by
      intro hnil
      simp [hnil] at hlf
    obtain ⟨b, t, hb⟩ := List.exists_cons_of_ne_nil hne
    rw [hbytes, hb]
    rfl
  have hpending : ((p.flush lang f.bytes.head?).write f).pending = [] := by
    rw [write_code hf.1]
    exact flush_pending p _
  rw [step_code hh.1 hh.2, step_code hf.1 hf.2, step_code hg.1 hg.2, hhead,
    flush_of_pending_nil hpending, write_code hh.1, write_code hg.1, write_code hf.1, hbytes,
    Emitter.code_append hlf]

theorem foldl_step_placeAll {w : Bytes} {l : Lexeme} (hw : w.getLast? = some lf)
    (hl : l.kind = .code ∧ l.terminated = true) (ls : List Lexeme) (start line : Nat) (p : Progress) :
    (Segment.placeAll start line (⟨.code, w ++ l.bytes, true⟩ :: ls)).foldl
        (Progress.step lang options) p =
      (Segment.placeAll start line (⟨.code, w, true⟩ :: l :: ls)).foldl
        (Progress.step lang options) p := by
  have hstep := @step_code_append lang options (Segment.place start line ⟨.code, w, true⟩)
    (Segment.place (start + w.length) (line + Segment.lineFeeds w) l)
    (Segment.place start line ⟨.code, w ++ l.bytes, true⟩) ⟨rfl, rfl⟩ hl ⟨rfl, rfl⟩ rfl hw p
  simp only [Segment.placeAll, List.foldl_cons, hstep, List.length_append, Segment.lineFeeds,
    List.count_append, Nat.add_assoc]

end Steps

section Append
variable {lang : Language} {x y : Bytes}

theorem terminated_of_lexemes_cons (hs : lang.Scannable) {l : Lexeme} {ls : List Lexeme}
    (h : lexemes lang y = l :: ls) (hk : l.kind = .code) : l.terminated = true := by
  have hne : y ≠ [] := by
    rintro rfl
    simp at h
  rw [lexemes_of_ne_nil hs hne] at h
  obtain ⟨rfl, -⟩ := List.cons.inj h
  cases ho : opener? lang y with
  | none => rw [first, head_of_none ho]
  | some o =>
    rw [first, head_of_some ho] at hk
    exact absurd hk o.kind_ne_code

/-- A run over two texts, the first of them up to a line feed of code, is a run over the segments of
the one and then of the other. -/
theorem foldl_step_append (hs : lang.Scannable) (h : Continues lang x y) (options : StripOptions)
    (p : Progress) :
    (scan lang (x ++ y)).foldl (Progress.step lang options) p =
      (scan lang x ++ (scan lang y).map (Segment.later x.length (x.count lf))).foldl
        (Progress.step lang options) p := by
  obtain ⟨init, w, hw, -, hlex, happ⟩ := h
  have hx : x = init.flatMap Lexeme.bytes ++ w := by
    rw [← flatMap_lexemes hs x, hlex]
    simp
  have hne : w ≠ [] := by
    rintro rfl
    simp at hw
  have hlater : (scan lang y).map (Segment.later x.length (x.count lf)) =
      Segment.placeAll (0 + (init.flatMap Lexeme.bytes).length + w.length)
        (1 + Segment.lineFeeds (init.flatMap Lexeme.bytes) + Segment.lineFeeds w) (lexemes lang y) := by
    rw [scan, ← Segment.placeAll_later, hx, List.length_append, List.count_append, Nat.add_assoc,
      Nat.add_assoc]
    rfl
  rw [hlater, scan, scan, hlex, happ, Segment.placeAll_append, Segment.placeAll_append,
    List.append_assoc, List.foldl_append, List.foldl_append]
  rcases pack_map_byte hne (lexemes lang y) with hpack | ⟨l, ls, hls, hk, hpack⟩
  · rw [hpack]
    rfl
  · rw [hpack, foldl_step_placeAll hw ⟨hk, terminated_of_lexemes_cons hs hls hk⟩, ← hls]
    rfl

theorem cutOff?_of_continues (h : Continues lang x y) : (scan lang x).findSome? cutOff? = none := by
  obtain ⟨init, w, -, hterm, hlex, -⟩ := h
  rw [List.findSome?_eq_none_iff]
  intro g hg
  have hmem : g.toLexeme ∈ init ++ [⟨.code, w, true⟩] := by
    rw [← hlex, ← map_toLexeme_scan]
    exact List.mem_map_of_mem hg
  have hclosed : g.terminated = true := by
    rcases List.mem_append.1 hmem with hmem | hmem
    · exact hterm _ hmem
    · rw [List.mem_singleton.1 hmem]
  simp [cutOff?, hclosed]

theorem findSome?_cutOff?_later (n k : Nat) (gs : List Segment) :
    (gs.map (Segment.later n k)).findSome? cutOff? =
      (gs.findSome? cutOff?).map fun m => { m with line := m.line + k } := by
  induction gs with
  | nil => rfl
  | cons g gs ih =>
    have hg : cutOff? (g.later n k) = (cutOff? g).map fun m => { m with line := m.line + k } := by
      cases ht : g.terminated <;> simp [cutOff?, Segment.later, ht]
    rw [List.map_cons, List.findSome?_cons, List.findSome?_cons, hg, ih]
    cases cutOff? g <;> rfl

end Append
end Strip
open Atom Strip

section Append
variable {lang : Language} (hs : lang.Scannable) (hc : lang.CLike) {x y : Bytes}
include hs hc

theorem continues_of_scan {g : Segment} (hg : (scan lang x).getLast? = some g) (hk : g.kind = .code)
    (hlf : g.bytes.getLast? = some lf) (y : Bytes) : Scan.Continues lang x y := by
  refine Scan.continues_of_getLast? hs hc y x ?_
  obtain ⟨gs, hgs⟩ := List.getLast?_eq_some_iff.1 hg
  rw [← map_toLexeme_scan, hgs, List.map_append, explode_append, List.map_singleton, explode_cons,
    ofLexeme_of_code hk, explode_nil, List.append_nil, List.getLast?_append, List.getLast?_map, hlf]
  rfl

omit hs in
/-- The same segments further on have the same fates. -/
theorem forall₂_fates_later (keep : List Bytes) (n k : Nat) (gs : List Segment) :
    List.Forall₂ (SameFate fun g h => h = g.later n k) (fates lang keep none [] gs)
      (fates lang keep (some lf) [] (gs.map (Segment.later n k))) := by
  refine forall₂_fates ?_ ?_ .nil ?_
  · rintro g h rfl
    exact ⟨rfl, fun _ => rfl, fun _ => rfl⟩
  · rw [List.forall₂_map_right_iff]
    exact List.forall₂_same.2 fun _ _ => rfl
  · intro next
    rw [meets_none_left, meets_false_left hc (.inl (by decide))]

omit hs hc in
/-- Behind a segment of code that ends with a line feed, the emitter is at the start of a line. -/
theorem fresh_foldl_emit {g : Segment} (hk : g.kind = .code) (hlf : g.bytes.getLast? = some lf)
    (options : StripOptions) (before : List Segment) :
    ((fates lang options.keep none [] (before ++ [g])).foldl Emitter.emit
      (.start options.layout)).Fresh := by
  have hstay : removable options.keep g.toLexeme = false := by
    simp [removable, Lexeme.isComment, hk, SegmentKind.isComment]
  obtain ⟨E, hE⟩ := @fates_concat lang options.keep g hstay before none []
  rw [hE, List.foldl_append, List.foldl_cons, List.foldl_nil, Emitter.emit_code hk]
  exact (Regular.foldl_emit (Emitter.regular_start options.layout) E).fresh_code hlf

omit hs in
/-- Behind a line of code nothing waits and the emitter is at the start of a line, so what is written
and what is removed from there on is that of the text there. -/
theorem segments_append {gs ks : List Segment} {g : Segment} (hgs : ∀ g ∈ gs, g.bytes ≠ [])
    (hks : ∀ k ∈ ks, k.bytes ≠ []) (hg : gs.getLast? = some g) (hk : g.kind = .code)
    (hlf : g.bytes.getLast? = some lf) (options : StripOptions) (n m : Nat) :
    (segments lang options (gs ++ ks.map (Segment.later n m))).output =
        (segments lang options gs).output ++ (segments lang options ks).output ∧
      (segments lang options (gs ++ ks.map (Segment.later n m))).removed =
        (segments lang options gs).removed ++
          (segments lang options ks).removed.map fun c => { c with line := c.line + m } := by
  obtain ⟨init, rfl⟩ := List.getLast?_eq_some_iff.1 hg
  have hstay : removable options.keep g.toLexeme = false := by
    simp [removable, Lexeme.isComment, hk, SegmentKind.isComment]
  have hboth : ∀ h ∈ init ++ [g] ++ ks.map (Segment.later n m), h.bytes ≠ [] := by
    intro h hh
    rcases List.mem_append.1 hh with hh | hh
    · exact hgs h hh
    · obtain ⟨k, hmem, rfl⟩ := List.mem_map.1 hh
      exact hks k hmem
  have hfates := @fates_append_cons lang options.keep g hstay init (ks.map (Segment.later n m)) none []
  rw [hlf, ← List.singleton_append, ← List.append_assoc] at hfates
  obtain ⟨hout, hrem⟩ := @segments_eq lang options hc _ hgs
  obtain ⟨hout', hrem'⟩ := @segments_eq lang options hc _ hks
  obtain ⟨hout'', hrem''⟩ := @segments_eq lang options hc _ hboth
  have hlater := forall₂_fates_later hc options.keep n m ks
  rw [hout'', hrem'', hfates, hout, hrem, hout', hrem']
  constructor
  · have hfresh := @fresh_foldl_emit lang g hk hlf options init
    have hlayout := Regular.foldl_emit_layout (Emitter.regular_start options.layout)
      (fates lang options.keep none [] (init ++ [g]))
    have hfollows := hfresh.follows
    rw [hlayout] at hfollows
    have hsame : List.Forall₂ (SameFate (Segment.Rewritten id)) (fates lang options.keep none [] ks)
        (fates lang options.keep (some lf) [] (ks.map (Segment.later n m))) := by
      refine hlater.imp fun f k hfk => ?_
      obtain ⟨hk, hstays⟩ := hfk
      exact ⟨⟨by rw [hk]; rfl, by rw [hk]; rfl, .inl rfl⟩, hstays⟩
    rw [hfresh.finish, List.foldl_append]
    exact (hfollows.run lineWise_id hsame).finish lineWise_id
  · rw [dropped_append, List.map_append, List.map_map]
    congr 1
    symm
    rw [← List.forall₂_eq_eq_eq, List.forall₂_map_left_iff, List.forall₂_map_right_iff]
    exact (forall₂_dropped hlater).imp fun h k hhk => by rw [hhk]; rfl

theorem strip_eq_segments {g : Segment} (hg : (scan lang x).getLast? = some g) (hk : g.kind = .code)
    (hlf : g.bytes.getLast? = some lf) (options : StripOptions) (y : Bytes) :
    strip lang options (x ++ y) =
      segments lang options (scan lang x ++ (scan lang y).map (Segment.later x.length (x.count lf))) := by
  rw [strip, segments, segments, foldl_step_append hs (continues_of_scan hs hc hg hk hlf y)]

/-- A text that ends with a line of code is closed, so the first construct that is cut off is one of
what follows. -/
theorem malformed_append {g : Segment} (hg : (scan lang x).getLast? = some g) (hk : g.kind = .code)
    (hlf : g.bytes.getLast? = some lf) (options : StripOptions) (y : Bytes) :
    (strip lang options (x ++ y)).malformed =
      (strip lang options y).malformed.map fun m => { m with line := m.line + x.count lf } := by
  have hclosed := cutOff?_of_continues (continues_of_scan hs hc hg hk hlf y)
  rw [strip_eq_segments hs hc hg hk hlf, segments, outcome_malformed, strip_malformed,
    List.findSome?_append, hclosed, findSome?_cutOff?_later]
  rfl

end Append

/-- Behind a line feed of code a text is stripped as if it stood alone. -/
theorem strip_append [Clock] (lang : Language) (hlang : lang ∈ Language.all) (options : StripOptions)
    (path : Path) (x y : Bytes) (g : Segment) (hg : (scan lang x).getLast? = some g)
    (hk : g.kind = .code) (hlf : g.bytes.getLast? = some lf) :
    (options.timeout = none → ∀ s, ∃ r, stripFile lang options path s = .ok r) ∧
    ∀ rx ry r, stripFile lang options path x = .ok rx → stripFile lang options path y = .ok ry →
      stripFile lang options path (x ++ y) = .ok r →
      r.output = rx.output ++ ry.output ∧
      r.commentsRemoved = rx.commentsRemoved + ry.commentsRemoved ∧
      r.removed = rx.removed ++ ry.removed.map (fun c => { c with line := c.line + x.count lf }) ∧
      r.malformed = ry.malformed.map fun m => { m with line := m.line + x.count lf } := by
  refine ⟨fun htime s => ⟨_, stripFile_eq htime lang path s⟩, fun rx ry r hx hy hr => ?_⟩
  obtain rfl := stripFile_eq_ok hx
  obtain rfl := stripFile_eq_ok hy
  obtain rfl := stripFile_eq_ok hr
  have hs := Language.scannable_of_mem_all hlang
  have hc := Language.cLike_of_mem_all hlang
  obtain ⟨hout, hremoved⟩ := segments_append hc (scan_bytes_ne_nil hs x) (scan_bytes_ne_nil hs y)
    hg hk hlf options x.length (x.count lf)
  rw [← strip_eq_segments hs hc hg hk hlf] at hout hremoved
  refine ⟨hout, ?_, hremoved, malformed_append hs hc hg hk hlf options y⟩
  rw [StripOutcome.commentsRemoved, hremoved, List.length_append, List.length_map]
  rfl

/-- The texts share a segment of code. The literal that is cut off is on the fourth line of the
whole. -/
theorem strip_append_tsx :
    Language.tsx ∈ Language.all ∧
    (scan Language.tsx (Bytes.ofText "a // b\n\x7b/\n")).getLast? =
      some ⟨⟨.code, Bytes.ofText "\n\x7b/\n", true⟩, 6, 1, 2⟩ ∧
    ∃ rx ry r,
      stripFile Language.tsx ⟨.compact, [], none⟩ ⟨[]⟩ (Bytes.ofText "a // b\n\x7b/\n") = .ok rx ∧
      stripFile Language.tsx ⟨.compact, [], none⟩ ⟨[]⟩ (Bytes.ofText " /* c */\n*/\x7d`") = .ok ry ∧
      stripFile Language.tsx ⟨.compact, [], none⟩ ⟨[]⟩
        (Bytes.ofText "a // b\n\x7b/\n /* c */\n*/\x7d`") = .ok r ∧
      ry.malformed = some ⟨.stringLiteral, 2⟩ ∧
      r.output = rx.output ++ ry.output ∧ r.output = Bytes.ofText "a\n\x7b/\n*/\x7d`" ∧
      r.malformed = some ⟨.stringLiteral, 4⟩ := by
  have hlang : Language.tsx ∈ Language.all := by simp [Language.all]
  have hg : (scan Language.tsx (Bytes.ofText "a // b\n\x7b/\n")).getLast? =
      some ⟨⟨.code, Bytes.ofText "\n\x7b/\n", true⟩, 6, 1, 2⟩ := by decide +kernel
  obtain ⟨hok, happ⟩ := strip_append Language.tsx hlang ⟨.compact, [], none⟩ ⟨[]⟩
    (Bytes.ofText "a // b\n\x7b/\n") (Bytes.ofText " /* c */\n*/\x7d`") _ hg rfl (by decide +kernel)
  obtain ⟨rx, hx⟩ := hok rfl (Bytes.ofText "a // b\n\x7b/\n")
  obtain ⟨ry, hy⟩ := hok rfl (Bytes.ofText " /* c */\n*/\x7d`")
  obtain ⟨r, hr⟩ := hok rfl (Bytes.ofText "a // b\n\x7b/\n" ++ Bytes.ofText " /* c */\n*/\x7d`")
  obtain ⟨hout, -, -, hmalformed⟩ := happ rx ry r hx hy hr
  have hy' : ry.malformed = some ⟨.stringLiteral, 2⟩ := by
    rw [stripFile_eq_ok hy]
    decide +kernel
  have hr' : r.output = Bytes.ofText "a\n\x7b/\n*/\x7d`" := by
    rw [stripFile_eq_ok hr]
    decide +kernel
  refine ⟨hlang, hg, rx, ry, r, hx, hy, hr, hy', hout, hr', ?_⟩
  rw [hmalformed, hy']
  decide +kernel

end Uncomment
