import Mathlib
import Uncomment.Lines
import Uncomment.Proofs.Removal

/-! Line numbers and line counts. Both are counts of line feeds with a correction at the end of the
text: the scan takes the line feed off that ends a segment, the line count adds the last line when no
line feed ends it. What a run writes is part of its input, so no lines are added. -/
namespace Uncomment
open Ascii Atom Strip

section Count

/-- All lines but the last end in a line feed. -/
theorem lineCount_concat (s : Bytes) (b : UInt8) : lineCount (s ++ [b]) = s.count lf + 1 := by
  rw [lineCount, List.getLast?_concat, List.count_append, List.count_singleton]
  dsimp only
  split_ifs <;> rfl

theorem lineCount_le (s : Bytes) : lineCount s ≤ s.count lf + 1 := by
  obtain rfl | ⟨s, b, rfl⟩ := List.eq_nil_or_concat' s
  · simp [lineCount]
  · rw [lineCount_concat, List.count_append]
    omega

/-- Leaving bytes out adds no line, even when the line feed at the end is among them. -/
theorem lineCount_le_of_sublist {s t : Bytes} (h : s.Sublist t) : lineCount s ≤ lineCount t := by
  obtain rfl | ⟨t, b, rfl⟩ := List.eq_nil_or_concat' t
  · rw [List.sublist_nil.1 h]
  · obtain ⟨front, back, rfl, hfront, hback⟩ := List.sublist_append_iff.1 h
    have hcount := hfront.count_le lf
    rw [lineCount_concat]
    obtain rfl | rfl := List.sublist_singleton.1 hback
    · have hlines := lineCount_le front
      rw [List.append_nil]
      omega
    · rw [lineCount_concat]
      omega

end Count

section Segments
variable {segments : List Segment} {s : Bytes}

/-- The last line of the last segment is the last line of the text. -/
theorem Partitions.endLine_eq_lineCount (h : Partitions segments s) :
    ∀ g ∈ segments.getLast?, g.endLine = lineCount s := by
  intro g hg
  have hmem : g ∈ segments := List.mem_of_getLast? hg
  have hpos := List.length_pos_iff.2 (h.nonempty g hmem)
  have hstop := h.last g hg
  obtain rfl | ⟨s, b, rfl⟩ := List.eq_nil_or_concat' s
  · simp only [Segment.stop, List.length_nil] at hstop
    omega
  · rw [h.endLine g hmem, hstop, lineCount_concat, List.length_append, List.length_singleton,
      Nat.add_sub_cancel, List.take_left, Nat.add_comm]

theorem Partitions.startLine_le_lineCount (h : Partitions segments s) {g : Segment}
    (hg : g ∈ segments) : 1 ≤ g.startLine ∧ g.startLine ≤ lineCount s := by
  have hpos := List.length_pos_iff.2 (h.nonempty g hg)
  have hstop := (h.slice g hg).1
  rw [Segment.stop] at hstop
  rw [h.startLine g hg]
  refine ⟨by omega, ?_⟩
  obtain rfl | ⟨s, b, rfl⟩ := List.eq_nil_or_concat' s
  · rw [List.length_nil] at hstop
    omega
  · rw [List.length_append, List.length_singleton] at hstop
    have hcount := (List.take_sublist g.start s).count_le lf
    rw [lineCount_concat, List.take_append_of_le_length (by omega)]
    omega

/-- Segments are in the order of their lines. -/
theorem Partitions.pairwise_startLine (h : Partitions segments s) :
    segments.Pairwise fun g k => g.startLine ≤ k.startLine := by
  have hchain : segments.IsChain fun g k => g.startLine ≤ k.startLine := by
    refine h.contiguous.imp_of_mem_imp fun g k hg hk hgk => ?_
    have hstart : g.start ≤ k.start := by
      rw [← hgk, Segment.stop]
      omega
    rw [h.startLine g hg, h.startLine k hk]
    exact Nat.add_le_add_left ((List.take_prefix_take_left hstart).sublist.count_le lf) 1
  have hlines : (segments.map (·.startLine)).IsChain (· ≤ ·) := (List.isChain_map _).2 hchain
  exact List.pairwise_map.1 hlines.pairwise

end Segments

section Run
variable {lang : Language} (hs : lang.Scannable) (hc : lang.CLike)
include hs hc

/-- The output is part of the input. -/
theorem output_sublist (options : StripOptions) (s : Bytes) :
    (strip lang options s).output.Sublist s := by
  obtain ⟨A, hout, hthin, -, -⟩ := strip_survivors hs hc options s
  have hflat := hthin.sublist.1.flatMap bytes
  have hlexemes := (survivors_sublist lang options.keep s).flatMap Lexeme.bytes
  rw [Scan.flatMap_lexemes hs, ← flat_explode] at hlexemes
  rw [hout]
  exact hflat.trans hlexemes

/-- The lines of the removed comments are first lines of segments, in the order of the text. -/
theorem lines_removed_sublist (options : StripOptions) (s : Bytes) :
    ((strip lang options s).removed.map RemovedComment.line).Sublist
      ((scan lang s).map (·.startLine)) := by
  obtain ⟨A, -, -, -, hremoved⟩ := strip_survivors hs hc options s
  have hdropped : (dropped (fates lang options.keep none [] (scan lang s))).Sublist (scan lang s) := by
    have hgone := (List.filter_sublist (p := fun f : Segment × Bool => !f.2)
      (l := fates lang options.keep none [] (scan lang s))).map Prod.fst
    rwa [map_fst_fates_scan] at hgone
  rw [hremoved, List.map_map]
  exact hdropped.map _

end Run

/-- Line numbers and line counts agree. No lines are added; the last segment of a text ends on its
last line; and the removed comments are reported with lines of the text, in order. -/
theorem strip_lines [Clock] (lang : Language) (hlang : lang ∈ Language.all) (options : StripOptions)
    (path : Path) (s : Bytes) :
    (options.timeout = none → ∃ r, stripFile lang options path s = .ok r) ∧
    ∀ r, stripFile lang options path s = .ok r →
      (LineStats.of s r.output).output ≤ (LineStats.of s r.output).input ∧
      (s ≠ [] → ∃ g, (scan lang s).getLast? = some g ∧
        g.endLine = (LineStats.of s r.output).input) ∧
      (∀ c ∈ r.removed, 1 ≤ c.line ∧ c.line ≤ (LineStats.of s r.output).input) ∧
      (r.removed.map RemovedComment.line).Pairwise (· ≤ ·) := by
  refine ⟨fun h => ⟨_, stripFile_eq h lang path s⟩, fun r hr => ?_⟩
  obtain rfl := stripFile_eq_ok hr
  have hs := Language.scannable_of_mem_all hlang
  have hc := Language.cLike_of_mem_all hlang
  have hp := partitions_scan hs s
  have hlines := lines_removed_sublist hs hc options s
  refine ⟨lineCount_le_of_sublist (output_sublist hs hc options s), fun hne => ?_, fun c hcomment => ?_,
    ((List.pairwise_map.2 hp.pairwise_startLine).sublist hlines)⟩
  · have hsegments : scan lang s ≠ [] := by
      intro hnil
      exact hne (by rw [← hp.concat, hnil]; rfl)
    exact ⟨_, List.getLast?_eq_some_getLast hsegments,
      hp.endLine_eq_lineCount _ (List.getLast?_eq_some_getLast hsegments)⟩
  · obtain ⟨g, hg, hline⟩ := List.mem_map.1 (hlines.subset (List.mem_map_of_mem hcomment))
    rw [← hline]
    exact hp.startLine_le_lineCount hg

/-- A comment over two lines, lines that go, and a last line without a line feed. -/
theorem strip_lines_sql :
    Language.sql ∈ Language.all ∧
    ∃ r, stripFile Language.sql ⟨.compact, [], none⟩ ⟨[]⟩
        (Bytes.ofText "/* a\n b */\nselect 1 -- c\n-- d") = .ok r ∧
      LineStats.of (Bytes.ofText "/* a\n b */\nselect 1 -- c\n-- d") r.output = ⟨4, 1⟩ ∧
      r.removed.map RemovedComment.line = [1, 3, 4] ∧
      (∀ c ∈ r.removed, 1 ≤ c.line ∧
        c.line ≤ (LineStats.of (Bytes.ofText "/* a\n b */\nselect 1 -- c\n-- d") r.output).input) := by
  have hlang : Language.sql ∈ Language.all := by simp [Language.all]
  obtain ⟨hok, hlines⟩ := strip_lines Language.sql hlang ⟨.compact, [], none⟩ ⟨[]⟩
    (Bytes.ofText "/* a\n b */\nselect 1 -- c\n-- d")
  obtain ⟨r, hr⟩ := hok rfl
  refine ⟨hlang, r, hr, ?_, ?_, (hlines r hr).2.2.1⟩
  · rw [stripFile_eq_ok hr]
    decide +kernel
  · rw [stripFile_eq_ok hr]
    decide +kernel

end Uncomment
