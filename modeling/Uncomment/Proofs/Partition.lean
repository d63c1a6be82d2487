import Mathlib
import Uncomment.Proofs.Lexemes

/-! The scan is a partition. The segments of a text follow each other from its first byte to its
last, and their offsets and line numbers are those of the text. A cursor that reads one segment
at a time, carrying its position, its line and the opener it has already met, gives the same
segments, with every access in range. -/
namespace Uncomment

/-- Consecutive non-empty pieces of `s` with true offsets and line numbers. -/
structure Partitions (segments : List Segment) (s : Bytes) : Prop where
  concat : segments.flatMap (·.bytes) = s
  nonempty : ∀ g ∈ segments, g.bytes ≠ []
  first : ∀ g ∈ segments.head?, g.start = 0
  contiguous : segments.IsChain fun g h => g.stop = h.start
  last : ∀ g ∈ segments.getLast?, g.stop = s.length
  slice : ∀ g ∈ segments, g.stop ≤ s.length ∧ g.bytes = (s.take g.stop).drop g.start
  startLine : ∀ g ∈ segments, g.startLine = 1 + (s.take g.start).count Ascii.lf
  endLine : ∀ g ∈ segments, g.endLine = 1 + (s.take (g.stop - 1)).count Ascii.lf

namespace Segment

@[simp] theorem place_toLexeme (start line : Nat) (l : Lexeme) :
    (place start line l).toLexeme = l := rfl

@[simp] theorem place_start (start line : Nat) (l : Lexeme) : (place start line l).start = start := rfl

@[simp] theorem place_stop (start line : Nat) (l : Lexeme) :
    (place start line l).stop = start + l.bytes.length := rfl

@[simp] theorem map_toLexeme_placeAll (start line : Nat) (ls : List Lexeme) :
    (placeAll start line ls).map (·.toLexeme) = ls := by
  induction ls generalizing start line with
  | nil => rfl
  | cons l ls ih => simp [placeAll, ih]

theorem flatMap_placeAll (start line : Nat) (ls : List Lexeme) :
    (placeAll start line ls).flatMap (·.bytes) = ls.flatMap Lexeme.bytes := by
  conv_rhs => rw [← map_toLexeme_placeAll start line ls, List.flatMap_map]

theorem mem_placeAll {start line : Nat} {ls : List Lexeme} {g : Segment}
    (h : g ∈ placeAll start line ls) :
    ∃ before l after, ls = before ++ l :: after ∧
      g = place (start + (before.flatMap Lexeme.bytes).length)
        (line + lineFeeds (before.flatMap Lexeme.bytes)) l := by
  induction ls generalizing start line with
  | nil => simp [placeAll] at h
  | cons l ls ih =>
    rcases List.mem_cons.1 h with rfl | h
    · exact ⟨[], l, ls, rfl, by simp [lineFeeds]⟩
    · obtain ⟨before, m, after, rfl, rfl⟩ := ih h
      refine ⟨l :: before, m, after, rfl, ?_⟩
      simp only [List.flatMap_cons, List.length_append, lineFeeds, List.count_append, Nat.add_assoc]

theorem placeAll_contiguous (start line : Nat) (ls : List Lexeme) :
    (placeAll start line ls).IsChain fun g h => g.stop = h.start := by
  induction ls generalizing start line with
  | nil => exact .nil
  | cons l ls ih =>
    cases ls with
    | nil => exact .singleton _
    | cons m ls => exact .cons_cons rfl (ih _ _)

theorem placeAll_last (start line : Nat) (ls : List Lexeme) :
    ∀ g ∈ (placeAll start line ls).getLast?, g.stop = start + (ls.flatMap Lexeme.bytes).length := by
  induction ls generalizing start line with
  | nil => simp [placeAll]
  | cons l ls ih =>
    cases ls with
    | nil => simp [placeAll]
    | cons m ls =>
      intro g hg
      rw [placeAll, placeAll, List.getLast?_cons_cons] at hg
      rw [ih _ _ g hg]
      simp only [List.flatMap_cons, List.length_append, Nat.add_assoc]

/-- The last line holds the last byte: a line feed in that place is not counted. -/
theorem place_endLine (start line : Nat) {l : Lexeme} (hne : l.bytes ≠ []) :
    (place start line l).endLine = line + lineFeeds l.bytes.dropLast := by
  have hcount : lineFeeds l.bytes =
      lineFeeds l.bytes.dropLast + if l.bytes.getLast? == some Ascii.lf then 1 else 0 := by
    conv_lhs => rw [← List.dropLast_append_getLast hne]
    rw [lineFeeds, List.count_append, List.getLast?_eq_some_getLast hne]
    simp [lineFeeds, List.count_singleton]
  simp only [place]
  omega

end Segment

theorem Partitions.bytes_eq {segments : List Segment} {s : Bytes} (h : Partitions segments s)
    {g : Segment} (hg : g ∈ segments) : (s.drop g.start).take g.bytes.length = g.bytes := by
  conv_rhs => rw [(h.slice g hg).2, List.drop_take, Segment.stop, Nat.add_sub_cancel_left]

theorem Partitions.eq_place {segments : List Segment} {s : Bytes} (h : Partitions segments s)
    {g : Segment} (hg : g ∈ segments) :
    g = Segment.place g.start (1 + (s.take g.start).count Ascii.lf) g.toLexeme := by
  have hne := h.nonempty g hg
  have hpos := List.length_pos_iff.2 hne
  have hstop : g.stop - 1 = g.start + (g.bytes.length - 1) := by
    simp only [Segment.stop]
    omega
  have hbytes : (s.drop g.start).take (g.bytes.length - 1) = g.bytes.dropLast := by
    calc (s.drop g.start).take (g.bytes.length - 1)
        = ((s.drop g.start).take g.bytes.length).take (g.bytes.length - 1) := by
          rw [List.take_take, min_eq_left (by omega)]
      _ = g.bytes.dropLast := by rw [h.bytes_eq hg, List.dropLast_eq_take]
  have hend : g.endLine =
      (Segment.place g.start (1 + (s.take g.start).count Ascii.lf) g.toLexeme).endLine := by
    rw [h.endLine g hg, Segment.place_endLine _ _ hne, hstop, List.take_add, List.count_append,
      hbytes, Nat.add_assoc, Segment.lineFeeds]
  calc g = ⟨g.toLexeme, g.start, g.startLine, g.endLine⟩ := rfl
    _ = _ := by rw [h.startLine g hg, hend]; rfl

namespace Scan

theorem partitions_placeAll {ls : List Lexeme} {s : Bytes} (hs : ls.flatMap Lexeme.bytes = s)
    (hne : ∀ l ∈ ls, l.bytes ≠ []) : Partitions (Segment.placeAll 0 1 ls) s := by
  have hmem : ∀ g ∈ Segment.placeAll 0 1 ls, ∃ a b : Bytes, s = a ++ g.bytes ++ b ∧
      g = Segment.place a.length (1 + a.count Ascii.lf) g.toLexeme ∧ g.bytes ≠ [] := by
    intro g hg
    obtain ⟨before, l, after, rfl, rfl⟩ := Segment.mem_placeAll hg
    refine ⟨before.flatMap Lexeme.bytes, after.flatMap Lexeme.bytes, ?_, ?_, hne l (by simp)⟩
    · simp [← hs]
    · simp [Segment.lineFeeds]
  refine ⟨?_, ?_, ?_, Segment.placeAll_contiguous 0 1 ls, ?_, ?_, ?_, ?_⟩
  · rw [Segment.flatMap_placeAll, hs]
  · intro g hg
    obtain ⟨a, b, -, -, h⟩ := hmem g hg
    exact h
  · cases ls <;> simp [Segment.placeAll]
  · intro g hg
    rw [Segment.placeAll_last 0 1 ls g hg, hs, Nat.zero_add]
  · intro g hg
    obtain ⟨a, b, hab, hg, -⟩ := hmem g hg
    rw [hg, Segment.place_start, Segment.place_stop, Segment.place_toLexeme, hab, List.append_assoc,
      List.take_length_add_append, List.drop_left, List.take_left]
    simp
  · intro g hg
    obtain ⟨a, b, hab, hg, -⟩ := hmem g hg
    rw [hg, hab]
    simp [Segment.place]
  · intro g hg
    obtain ⟨a, b, hab, hg, h⟩ := hmem g hg
    have hl := List.length_pos_iff.2 h
    rw [hg, Segment.place_endLine _ _ h, Segment.place_stop, hab]
    rw [List.append_assoc, Nat.add_sub_assoc hl, List.take_length_add_append,
      List.take_append_of_le_length (by omega), List.count_append, ← List.dropLast_eq_take,
      Segment.lineFeeds, Nat.add_assoc]

/-- What a reading of the text can trip over. -/
inductive Fault where
  | outOfRange
  | underflow
  deriving DecidableEq, Repr

def slice (s : Bytes) (start stop : Nat) : Except Fault Bytes :=
  if start ≤ stop ∧ stop ≤ s.length then .ok ((s.take stop).drop start) else .error .outOfRange

/-- Where a reading stands: its offset, its line, and an opener seen ahead at that offset. -/
structure Cursor where
  pos : Nat := 0
  line : Nat := 1
  ahead : Option Opener := none
  deriving DecidableEq, Repr

namespace Cursor

/-- Length of the code at the head of a text, with the opener that ends it. -/
def codeStop (lang : Language) : Bytes → Nat × Option Opener
  | [] => (0, none)
  | b :: rest =>
    match if lang.mayOpen b then opener? lang (b :: rest) else none with
    | some o => (0, some o)
    | none => ((codeStop lang rest).1 + 1, (codeStop lang rest).2)

/-- The literal automaton, one byte at a time; the flag says that an escape came last. -/
def literalStop (q : Quote) : Bool → Bytes → Extent
  | _, [] => ⟨0, false⟩
  | true, _ :: rest => (literalStop q false rest).grow 1
  | false, b :: rest =>
    if q.escape = some b then (literalStop q true rest).grow 1
    else if b == q.mark then ⟨1, true⟩
    else if !q.multiline && Ascii.isLineEnd b then ⟨0, true⟩
    else (literalStop q false rest).grow 1

/-- Where the construct that opens at `pos` ends, and whether it is closed there. -/
def stopOf (s : Bytes) (pos : Nat) : Opener → Except Fault (Nat × Bool)
  | .line => do
    let rest ← slice s pos s.length
    .ok (pos + (rest.takeWhile (!Ascii.isLineEnd ·)).length, true)
  | .block d | .embedded d => do
    let body ← slice s (pos + d.opening.length) s.length
    match Bytes.indexOf? d.closing body with
    | some i => .ok (pos + d.opening.length + i + d.closing.length, true)
    | none => .ok (s.length, false)
  | .quoted q => do
    let body ← slice s (pos + 1) s.length
    let extent := literalStop q false body
    .ok (pos + 1 + extent.length, extent.terminated)

def cut (s : Bytes) (c : Cursor) (kind : SegmentKind) (stop : Nat) (terminated : Bool)
    (ahead : Option Opener) : Except Fault (Option (Segment × Cursor)) := do
  let bytes ← slice s c.pos stop
  let feeds := Segment.lineFeeds bytes
  let final := if bytes.getLast? == some Ascii.lf then 1 else 0
  if c.line + feeds < final then .error .underflow
  else .ok (some (⟨⟨kind, bytes, terminated⟩, c.pos, c.line, c.line + feeds - final⟩,
    ⟨stop, c.line + feeds, ahead⟩))

/-- The next segment and the cursor after it, or nothing at the end of the text. -/
def next (lang : Language) (s : Bytes) (c : Cursor) : Except Fault (Option (Segment × Cursor)) :=
  if s.length ≤ c.pos then .ok none
  else do
    let rest ← slice s c.pos s.length
    match c.ahead.or (opener? lang rest) with
    | none => cut s c .code (c.pos + (codeStop lang rest).1) true (codeStop lang rest).2
    | some o => do
      let (stop, terminated) ← stopOf s c.pos o
      cut s c o.kind stop terminated none

/-- A cursor reads these segments and then reaches the end, without a fault. -/
inductive Reads (lang : Language) (s : Bytes) : Cursor → List Segment → Prop
  | done {c} : next lang s c = .ok none → Reads lang s c []
  | step {c d g gs} : next lang s c = .ok (some (g, d)) → Reads lang s d gs →
      Reads lang s c (g :: gs)

theorem slice_eq_ok {s : Bytes} {start stop : Nat} (h : start ≤ stop) (hl : stop ≤ s.length) :
    slice s start stop = .ok ((s.take stop).drop start) := by
  simp [slice, h, hl]

theorem slice_to_end {s : Bytes} {start : Nat} (h : start ≤ s.length) :
    slice s start s.length = .ok (s.drop start) := by
  rw [slice_eq_ok h le_rfl, List.take_length]

/-- The opener that stops the code is the one a fresh look finds there. -/
theorem codeStop_eq {lang : Language} (hs : lang.Scannable) (s : Bytes) :
    codeStop lang s = (codeLength lang s, opener? lang (s.drop (codeLength lang s))) := by
  induction s with
  | nil => simp [codeStop, codeLength, opener?_nil hs]
  | cons b rest ih =>
    cases h : opener? lang (b :: rest) with
    | some o => simp [codeStop, codeLength, h, mayOpen_of_opener? hs h]
    | none =>
      rw [codeLength_of_none h, List.drop_succ_cons]
      simp [codeStop, h, ih]

theorem literalStop_eq (q : Quote) (s : Bytes) : literalStop q false s = literalExtent q s := by
  fun_induction literalExtent q s with
  | case1 => rfl
  | case2 b h => simp [literalStop, h, Extent.grow]
  | case3 b h c rest ih => simp [literalStop, h, ih, Extent.grow]
  | case4 b rest h hm => simp [literalStop, h, hm]
  | case5 b rest h hm hl => simp_all [literalStop]
  | case6 b rest h hm hl ih => simp_all [literalStop]

theorem stopOf_eq {lang : Language} {s : Bytes} {pos : Nat} {o : Opener} (hp : pos < s.length)
    (ho : opener? lang (s.drop pos) = some o) :
    stopOf s pos o =
      .ok (pos + (o.extent (s.drop pos)).length, (o.extent (s.drop pos)).terminated) := by
  have hblock : ∀ d : Delimiter, d.opening <+: s.drop pos →
      (do
        let body ← slice s (pos + d.opening.length) s.length
        match Bytes.indexOf? d.closing body with
        | some i => .ok (pos + d.opening.length + i + d.closing.length, true)
        | none => .ok (s.length, false) : Except Fault (Nat × Bool)) =
      .ok (pos + (blockExtent d (s.drop pos)).length, (blockExtent d (s.drop pos)).terminated) := by
    intro d hd
    have hl := hd.length_le
    rw [List.length_drop] at hl
    rw [slice_to_end (by omega), blockExtent, List.drop_drop]
    simp only [bind, Except.bind]
    cases Bytes.indexOf? d.closing (s.drop (pos + d.opening.length)) with
    | some i => simp only [Nat.add_assoc]
    | none =>
      simp only [List.length_drop]
      rw [Nat.add_sub_of_le hp.le]
  rcases opener?_cases ho with ⟨d, rfl, he⟩ | ⟨d, -, rfl, hd⟩ | ⟨rfl, -⟩ | ⟨q, -, rfl, -⟩
  · exact hblock d (embedded?_eq_some he).2.1
  · exact hblock d hd
  · rw [stopOf, slice_to_end hp.le]
    rfl
  · rw [stopOf, slice_to_end hp]
    simp [bind, Except.bind, literalStop_eq, Opener.extent, Extent.grow, Nat.add_assoc, Nat.add_comm]

/-- The cursor is inside the text, and an opener it carries is the one at its position. -/
structure Sound (lang : Language) (s : Bytes) (c : Cursor) : Prop where
  pos_le : c.pos ≤ s.length
  ahead : ∀ o ∈ c.ahead, opener? lang (s.drop c.pos) = some o

theorem Sound.or_eq {lang : Language} {s : Bytes} {c : Cursor} (h : Sound lang s c) :
    c.ahead.or (opener? lang (s.drop c.pos)) = opener? lang (s.drop c.pos) := by
  cases ho : c.ahead with
  | none => rfl
  | some o => rw [h.ahead o ho, Option.or_self]

theorem cut_eq {s : Bytes} (c : Cursor) (kind : SegmentKind) {n : Nat} (terminated : Bool)
    (ahead : Option Opener) (hl : c.pos + n ≤ s.length) (hline : 1 ≤ c.line) :
    cut s c kind (c.pos + n) terminated ahead =
      .ok (some (Segment.place c.pos c.line ⟨kind, (s.drop c.pos).take n, terminated⟩,
        ⟨c.pos + n, c.line + Segment.lineFeeds ((s.drop c.pos).take n), ahead⟩)) := by
  have hfinal : ¬ c.line + Segment.lineFeeds ((s.drop c.pos).take n) <
      if ((s.drop c.pos).take n).getLast? == some Ascii.lf then 1 else 0 := by
    split_ifs <;> omega
  rw [cut, slice_eq_ok (Nat.le_add_right _ _) hl, List.drop_take, Nat.add_sub_cancel_left]
  simp only [bind, Except.bind]
  rw [if_neg hfinal]
  rfl

/-- One step: the segment is the first lexeme at the cursor, and the cursor stays sound. -/
theorem Sound.next {lang : Language} (hs : lang.Scannable) {s : Bytes} {c : Cursor}
    (h : Sound lang s c) (hline : 1 ≤ c.line) (hp : c.pos < s.length) :
    ∃ d : Cursor, Cursor.next lang s c =
        .ok (some (Segment.place c.pos c.line (first lang (s.drop c.pos)), d)) ∧
      Sound lang s d ∧ d.pos = c.pos + (first lang (s.drop c.pos)).bytes.length ∧
      d.line = c.line + Segment.lineFeeds (first lang (s.drop c.pos)).bytes := by
  have hle := head_length_le hs (s.drop c.pos)
  have hlen := length_first hs (s.drop c.pos)
  rw [List.length_drop] at hle
  have hnext : Cursor.next lang s c = match opener? lang (s.drop c.pos) with
      | none => cut s c .code (c.pos + (codeStop lang (s.drop c.pos)).1) true
          (codeStop lang (s.drop c.pos)).2
      | some o => (stopOf s c.pos o).bind fun e => cut s c o.kind e.1 e.2 none := by
    rw [Cursor.next, if_neg (by omega), slice_to_end hp.le]
    simp only [bind, Except.bind]
    rw [h.or_eq]
  cases ho : opener? lang (s.drop c.pos) with
  | none =>
    simp only [head_of_none ho] at hle hlen
    simp only [ho] at hnext
    rw [codeStop_eq hs, cut_eq c .code true _ (by omega) hline] at hnext
    refine ⟨_, by rw [hnext, first, head_of_none ho], ⟨by simp only; omega, ?_⟩, ?_, ?_⟩
    · intro o ho
      simpa [List.drop_drop] using ho
    · rw [hlen]
    · rw [first, head_of_none ho]
  | some o =>
    simp only [head_of_some ho] at hle hlen
    simp only [ho, stopOf_eq hp ho, Except.bind] at hnext
    rw [cut_eq c o.kind _ none (by omega) hline] at hnext
    refine ⟨_, by rw [hnext, first, head_of_some ho], ⟨by simp only; omega, by simp⟩, ?_, ?_⟩
    · rw [hlen]
    · rw [first, head_of_some ho]

/-- From a sound cursor every step succeeds, and the steps end at the end of the text. -/
theorem Sound.reads {lang : Language} (hs : lang.Scannable) {s : Bytes} (rest : Bytes) {c : Cursor}
    (h : Sound lang s c) (hline : 1 ≤ c.line) (hrest : s.drop c.pos = rest) :
    Reads lang s c (Segment.placeAll c.pos c.line (lexemes lang rest)) := by
  induction rest using scanInduction hs generalizing c with
  | nil =>
    rw [lexemes_nil]
    refine .done ?_
    rw [Cursor.next, if_pos (List.drop_eq_nil_iff.1 hrest)]
  | step rest hne ih =>
    have hp : c.pos < s.length := by
      by_contra hge
      exact hne (hrest ▸ List.drop_eq_nil_iff.2 (by omega))
    obtain ⟨d, hnext, hd, hpos, hl⟩ := h.next hs hline hp
    rw [hrest] at hnext hpos hl
    rw [lexemes_of_ne_nil hs hne]
    have htail := ih hd (by omega) (by
      rw [hpos, ← List.drop_drop, hrest, length_first hs])
    rw [hpos, hl] at htail
    exact .step hnext htail

end Cursor
end Scan

/-- Every supported language is scannable, and scanning any text with a scannable language cuts
it into consecutive non-empty segments with true offsets and lines. Read segment by segment, the
scan ends after these segments with no access out of range and no underflow. -/
theorem scan_partitions :
    (∀ lang ∈ Language.all, lang.Scannable) ∧
    ∀ (lang : Language) (s : Bytes), lang.Scannable →
      Partitions (scan lang s) s ∧ Scan.Cursor.Reads lang s {} (scan lang s) := by
  refine ⟨fun lang h => Language.scannable_of_mem_all h, fun lang s hs => ⟨?_, ?_⟩⟩
  · exact Scan.partitions_placeAll (Scan.flatMap_lexemes hs s) (Scan.lexemes_ne_nil hs s)
  · exact Scan.Cursor.Sound.reads hs s ⟨Nat.zero_le _, by simp⟩ le_rfl List.drop_zero

/-- A block comment that the end of the text cuts off, after a line of code. -/
theorem scan_partitions_go :
    Language.go.Scannable ∧
      Partitions (scan Language.go (Bytes.ofText "a\n/*b")) (Bytes.ofText "a\n/*b") ∧
      Scan.Cursor.Reads Language.go (Bytes.ofText "a\n/*b") {}
        (scan Language.go (Bytes.ofText "a\n/*b")) :=
  have hs : Language.go.Scannable := scan_partitions.1 _ (by simp [Language.all])
  ⟨hs, scan_partitions.2 Language.go (Bytes.ofText "a\n/*b") hs⟩

end Uncomment
