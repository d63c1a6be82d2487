import Mathlib
import Uncomment.Emitter
import Uncomment.Proofs.Atoms

/-! What the emitter writes. Code is written line by line. Without a removal the output is what
came in; with removals some white space of the code is cut, at the start of a line together with
the line or at its end. -/
namespace Uncomment
open Ascii

namespace Bytes

theorem split_ne_nil (c : UInt8) (bytes : Bytes) : split c bytes ≠ [] := by
  cases bytes with
  | nil => simp [split]
  | cons b bytes =>
    simp only [split]
    split_ifs
    · simp
    · split <;> simp

theorem split_of_notMem {c : UInt8} {bytes : Bytes} (h : c ∉ bytes) : split c bytes = [bytes] := by
  induction bytes with
  | nil => rfl
  | cons b bytes ih =>
    simp only [List.mem_cons, not_or] at h
    simp [split, ih h.2, Ne.symm h.1]

theorem split_append_cons {c : UInt8} {line : Bytes} (h : c ∉ line) (rest : Bytes) :
    split c (line ++ c :: rest) = line :: split c rest := by
  induction line with
  | nil => simp [split]
  | cons b line ih =>
    simp only [List.mem_cons, not_or] at h
    simp [split, ih h.2, Ne.symm h.1]

theorem lineInduction {motive : Bytes → Prop} (last : ∀ t, lf ∉ t → motive t)
    (line : ∀ t rest, lf ∉ t → motive rest → motive (t ++ lf :: rest)) (bytes : Bytes) :
    motive bytes := by
  induction hn : bytes.length using Nat.strong_induction_on generalizing bytes with
  | _ n ih =>
    by_cases h : lf ∈ bytes
    · obtain ⟨t, rest, rfl, ht⟩ := List.eq_append_cons_of_mem h
      refine line t rest ht (ih rest.length ?_ rest rfl)
      rw [← hn, List.length_append, List.length_cons]
      omega
    · exact last bytes h

theorem exists_last_line {bytes : Bytes} (h : lf ∈ bytes) :
    ∃ front tail, bytes = front ++ tail ∧ front.getLast? = some lf ∧ lf ∉ tail := by
  obtain ⟨t, rest, hsplit, ht⟩ := List.eq_append_cons_of_mem (List.mem_reverse.2 h)
  refine ⟨rest.reverse ++ [lf], t.reverse, ?_, by simp, by simpa using ht⟩
  have hrev := congrArg List.reverse hsplit
  simpa using hrev

end Bytes

namespace Emitter
open Atom

section Lines
variable {e : Emitter}

theorem code_of_notMem (he : e.layout = .compact) {t : Bytes} (h : lf ∉ t) : e.code t = e.text t := by
  simp [code, he, Bytes.split_of_notMem h, codeLines]

@[simp] theorem text_layout (t : Bytes) : (e.text t).layout = e.layout := by
  unfold text
  split_ifs <;> rfl

@[simp] theorem endLine_layout (term : Bytes) : (e.endLine term).layout = e.layout := rfl

/-- A line of code is its text and its end, a line feed or the two bytes that end with one. -/
theorem codeLine_eq (e : Emitter) (t : Bytes) :
    ∃ body term, body ++ term = t ++ [lf] ∧ (term = [lf] ∨ term = [cr, lf]) ∧
      e.codeLine t = (e.text body).endLine term := by
  unfold codeLine
  split_ifs with h
  · refine ⟨t.dropLast, [cr, lf], ?_, .inr rfl, rfl⟩
    have ht : t.dropLast ++ [cr] = t := List.dropLast_append_getLast? cr (by simpa using h)
    rw [List.append_cons, ht]
  · exact ⟨t, [lf], rfl, .inl rfl, rfl⟩

theorem code_line (he : e.layout = .compact) {t : Bytes} (h : lf ∉ t) (rest : Bytes) :
    e.code (t ++ lf :: rest) = (e.codeLine t).code rest := by
  have hl : (e.codeLine t).layout = .compact := by
    obtain ⟨body, term, -, -, hline⟩ := codeLine_eq e t
    rw [hline, endLine_layout, text_layout, he]
  obtain ⟨x, xs, hx⟩ := List.exists_cons_of_ne_nil (Bytes.split_ne_nil lf rest)
  simp only [code, he, hl, Bytes.split_append_cons h, hx, codeLines]

theorem codeLine_layout (t : Bytes) : (e.codeLine t).layout = e.layout := by
  obtain ⟨body, term, -, -, hline⟩ := codeLine_eq e t
  rw [hline, endLine_layout, text_layout]

theorem codeLine_of_notMem {t : Bytes} (h : cr ∉ t) : e.codeLine t = (e.text t).endLine [lf] := by
  have hlast : t.getLast? ≠ some cr := fun heq => h (List.mem_of_getLast? heq)
  simp [codeLine, hlast]

theorem codeLine_concat (t : Bytes) : e.codeLine (t ++ [cr]) = (e.text t).endLine [cr, lf] := by
  simp [codeLine]

theorem code_preserve (hl : e.layout = .preserve) (bytes : Bytes) :
    e.code bytes = { e with settled := e.settled ++ bytes } := by
  unfold code
  rw [hl]

theorem literal_preserve (hl : e.layout = .preserve) (bytes : Bytes) :
    e.literal bytes = { e with settled := e.settled ++ bytes } := by
  unfold literal
  rw [hl]

theorem literal_of_notMem (hl : e.layout = .compact) {bytes : Bytes} (h : lf ∉ bytes) :
    e.literal bytes = { e with line := e.line ++ bytes, content := true, trailing := false } := by
  have htail : bytes.reverse.takeWhile (· != lf) = bytes.reverse := by
    rw [List.takeWhile_eq_self_iff]
    intro b hb
    have hne : b ≠ lf := fun heq => h (heq ▸ List.mem_reverse.1 hb)
    simpa using hne
  unfold literal
  simp [hl, htail]

/-- Of a literal over several lines only what follows its last line feed is on the open line. -/
theorem literal_append (hl : e.layout = .compact) {front tail : Bytes}
    (hfront : front.getLast? = some lf) (htail : lf ∉ tail) :
    e.literal (front ++ tail) =
      { e with
        settled := e.settled ++ e.line ++ front, line := tail.toArray, content := true,
        trailing := false, removal := false } := by
  obtain ⟨t, rfl⟩ := List.getLast?_eq_some_iff.1 hfront
  have hlast : ((t ++ [lf] ++ tail).reverse.takeWhile (· != lf)).reverse = tail := by
    have hall : ∀ b ∈ tail.reverse, (b != lf) = true := by
      intro b hb
      have hne : b ≠ lf := fun heq => htail (heq ▸ List.mem_reverse.1 hb)
      simpa using hne
    simp [List.takeWhile_append_of_pos hall]
  unfold literal
  simp only [hl, hlast]
  have hshort : tail.length < (t ++ [lf] ++ tail).length := by
    simp only [List.length_append, List.length_singleton]
    omega
  rw [if_pos hshort, List.length_append, Nat.add_sub_cancel, List.take_left]

@[simp] theorem output_text (t : Bytes) : (e.text t).output = e.output ++ t := by
  unfold text output
  split_ifs <;> simp

theorem lastByte?_eq (e : Emitter) : e.lastByte? = e.output.getLast? := by
  simp [lastByte?, output, List.getLast?_append]

theorem literal_split (bytes : Bytes) :
    let tail := (bytes.reverse.takeWhile (· != lf)).reverse
    bytes.take (bytes.length - tail.length) ++ tail = bytes ∧
      ∀ b ∈ (bytes.take (bytes.length - tail.length)).getLast?, b = lf := by
  intro tail
  have hsplit : (bytes.reverse.dropWhile (· != lf)).reverse ++ tail = bytes := by
    rw [← List.reverse_append, List.takeWhile_append_dropWhile, List.reverse_reverse]
  have hlen := congrArg List.length hsplit
  rw [List.length_append] at hlen
  have htake : bytes.take (bytes.length - tail.length) =
      (bytes.reverse.dropWhile (· != lf)).reverse := by
    rw [← hlen, Nat.add_sub_cancel]
    conv_lhs => arg 2; rw [← hsplit]
    exact List.take_left
  refine ⟨by rw [htake, hsplit], fun b hb => ?_⟩
  rw [htake, List.getLast?_reverse] at hb
  have := List.head?_dropWhile_not (· != lf) bytes.reverse
  rw [Option.mem_def.1 hb] at this
  simpa using this

@[simp] theorem output_literal (bytes : Bytes) (he : e.layout = .compact) :
    (e.literal bytes).output = e.output ++ bytes := by
  obtain ⟨hsplit, -⟩ := literal_split bytes
  unfold literal
  rw [he]
  simp only
  split_ifs with h
  · simp only [output, Array.toList_append, Array.toList_appendList, List.append_assoc]
    rw [hsplit]
  · simp [output]

end Lines

section Removals
variable {e : Emitter}

theorem output_endLine (he : e.removal = false) (term : Bytes) :
    (e.endLine term).output = e.output ++ term := by
  simp [endLine, settle, he, output]

@[simp] theorem removal_text (t : Bytes) : (e.text t).removal = e.removal := by
  unfold text
  split_ifs <;> rfl

theorem output_code (he : e.removal = false) (hl : e.layout = .compact) (bytes : Bytes) :
    (e.code bytes).output = e.output ++ bytes ∧ (e.code bytes).removal = false ∧
      (e.code bytes).layout = .compact := by
  induction bytes using Bytes.lineInduction generalizing e with
  | last t ht =>
    rw [code_of_notMem hl ht]
    exact ⟨output_text t, by rw [removal_text, he], by rw [text_layout, hl]⟩
  | line t rest ht ih =>
    obtain ⟨body, term, hbody, -, hline⟩ := codeLine_eq e t
    have hremoval : (e.text body).removal = false := by rw [removal_text, he]
    have hcode := @ih (e.codeLine t) (by rw [hline]; rfl) (by rw [hline]; simpa using hl)
    rw [code_line hl ht]
    refine ⟨?_, hcode.2⟩
    rw [hcode.1, hline, output_endLine hremoval, output_text, List.append_assoc, List.append_assoc,
      ← List.append_assoc body, hbody]
    simp

theorem literal_removal (he : e.removal = false) (bytes : Bytes) :
    (e.literal bytes).removal = false ∧ (e.literal bytes).layout = e.layout := by
  unfold literal
  split
  · exact ⟨he, rfl⟩
  · simp only
    split_ifs
    · exact ⟨rfl, rfl⟩
    · exact ⟨he, rfl⟩

theorem finish_eq_output (he : e.removal = false) : e.finish = e.output := by
  unfold finish
  split
  · rfl
  · simp [settle, he, output]

end Removals

section LastByte
variable {e : Emitter}

/-- Between two segments the finished text ends with a line feed, if there is any, and in the
`preserve` layout there is no open line. -/
structure Regular (e : Emitter) : Prop where
  preserve : e.layout = .preserve → e.line = #[]
  compact : e.layout = .compact → ∀ b ∈ e.settled.back?, b = lf

theorem regular_start (layout : Layout) : (Emitter.start layout).Regular :=
  ⟨fun _ => rfl, fun _ b hb => by simp [start] at hb⟩

theorem Regular.remove (h : e.Regular) : e.remove.Regular := ⟨h.preserve, h.compact⟩

/-- The last byte written is `y`, or it is a line feed that went with its line. -/
def Agrees (x y : Option UInt8) : Prop := x = y ∨ x = none ∧ y = some lf

theorem Regular.text (h : e.Regular) (hl : e.layout = .compact) (t : Bytes) : (e.text t).Regular := by
  have hs : (e.text t).settled = e.settled := by
    unfold Emitter.text
    split_ifs <;> rfl
  exact ⟨fun hp => by simp [hl] at hp, fun _ => hs ▸ h.compact hl⟩

theorem Regular.endLine (h : e.Regular) (hl : e.layout = .compact) {term : Bytes}
    (ht : term = [lf] ∨ term = [cr, lf]) :
    (e.endLine term).Regular ∧ ∀ b ∈ (e.endLine term).lastByte?, b = lf := by
  have hs : ∀ b ∈ (e.endLine term).settled.back?, b = lf := by
    intro b hb
    simp only [Emitter.endLine, ← Array.getLast?_toList, Array.toList_appendList] at hb
    by_cases hd : e.settle.2 = true
    · have hnil : e.settle.1 = [] := by
        unfold settle at hd ⊢
        split_ifs at hd ⊢
        rfl
      rw [if_pos hd, hnil] at hb
      exact h.compact hl b (by simpa [← Array.getLast?_toList] using hb)
    · rw [if_neg hd] at hb
      rcases ht with rfl | rfl <;> simpa [eq_comm] using hb
  exact ⟨⟨fun hp => by simp [hl] at hp, fun _ => hs⟩, hs⟩

theorem Regular.code (h : e.Regular) (bytes : Bytes) :
    (e.code bytes).Regular ∧ (e.code bytes).layout = e.layout ∧
      Agrees (e.code bytes).lastByte? (bytes.getLast?.or e.lastByte?) := by
  cases hl : e.layout with
  | preserve =>
    have hline := h.preserve hl
    refine ⟨⟨fun _ => ?_, fun hc => ?_⟩, ?_, .inl ?_⟩
    · simp [Emitter.code, hl, hline]
    · simp [Emitter.code, hl] at hc
    · simp [Emitter.code, hl]
    · simp [Emitter.code, hl, lastByte?_eq, output, hline, List.getLast?_append]
  | compact =>
    induction bytes using Bytes.lineInduction generalizing e with
    | last t ht =>
      rw [code_of_notMem hl ht]
      refine ⟨h.text hl t, by rw [text_layout, hl], .inl ?_⟩
      rw [lastByte?_eq, output_text, List.getLast?_append, lastByte?_eq]
    | line t rest ht ih =>
      obtain ⟨body, term, -, hterm, hline⟩ := codeLine_eq e t
      obtain ⟨hreg, hlast⟩ := (h.text hl body).endLine (by rw [text_layout, hl]) hterm
      rw [code_line hl ht, hline]
      obtain ⟨hr, hlay, hagree⟩ := ih hreg (by rw [endLine_layout, text_layout, hl])
      refine ⟨hr, hlay, ?_⟩
      have hend : (t ++ lf :: rest).getLast?.or e.lastByte? = rest.getLast?.or (some lf) := by
        rw [List.getLast?_append, List.getLast?_cons]
        cases rest.getLast? <;> simp
      rw [hend]
      cases hrest : rest.getLast? with
      | some b => simpa [hrest] using hagree
      | none =>
        rw [hrest, Option.none_or] at hagree
        rw [Option.none_or]
        cases hb : ((e.text body).endLine term).lastByte? with
        | none =>
          rw [hb] at hagree
          exact .inr ⟨by simpa [Agrees] using hagree, rfl⟩
        | some b => rwa [hb, hlast b hb] at hagree

theorem Regular.literal (h : e.Regular) (bytes : Bytes) :
    (e.literal bytes).Regular ∧ (e.literal bytes).layout = e.layout ∧
      (e.literal bytes).lastByte? = bytes.getLast?.or e.lastByte? := by
  cases hl : e.layout with
  | preserve =>
    have hline := h.preserve hl
    refine ⟨⟨fun _ => ?_, fun hc => ?_⟩, ?_, ?_⟩
    · simp [Emitter.literal, hl, hline]
    · simp [Emitter.literal, hl] at hc
    · simp [Emitter.literal, hl]
    · simp [Emitter.literal, hl, lastByte?_eq, output, hline, List.getLast?_append]
  | compact =>
    have hlay : (e.literal bytes).layout = .compact := by
      unfold Emitter.literal
      rw [hl]
      simp only
      split_ifs <;> rfl
    refine ⟨⟨fun hp => by simp [hlay] at hp, fun _ b hb => ?_⟩, hlay, ?_⟩
    · have hfront := (literal_split bytes).2
      unfold Emitter.literal at hb
      rw [hl] at hb
      simp only at hb
      split_ifs at hb with hlt
      · rw [← Array.getLast?_toList, Array.toList_appendList, List.getLast?_append] at hb
        cases hf : (bytes.take (bytes.length -
            (bytes.reverse.takeWhile (· != lf)).reverse.length)).getLast? with
        | none =>
          rw [List.getLast?_eq_none_iff, List.take_eq_nil_iff] at hf
          rcases hf with hf | hf
          · omega
          · simp [hf] at hlt
        | some c =>
          rw [hf, Option.some_or] at hb
          obtain rfl : c = b := by simpa using hb
          exact hfront c hf
      · exact h.compact hl b hb
    · rw [lastByte?_eq, output_literal bytes hl, List.getLast?_append, lastByte?_eq]

end LastByte
end Emitter
end Uncomment
