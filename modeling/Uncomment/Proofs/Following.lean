import Mathlib
import Uncomment.Proofs.Fates

/-! Two runs of the emitter side by side. The second one writes behind what was there before, or with
other line ends: the line it has open is that of the first one, and so it settles its lines as the
first one does. -/
namespace Uncomment
open Ascii

/-- A change of line ends and of nothing else. -/
structure LineWise (w : Bytes → Bytes) : Prop where
  append : ∀ s t, w (s ++ t) = w s ++ w t
  line : ∀ t, lf ∉ t → w t = t
  feed : w [lf] = [lf] ∨ w [lf] = [cr, lf]

theorem lineWise_id : LineWise id := ⟨fun _ _ => rfl, fun _ _ => rfl, .inl rfl⟩

section LineWise
variable {w : Bytes → Bytes} (hw : LineWise w)
include hw

theorem LineWise.nil : w [] = [] := hw.line [] (by simp)

theorem LineWise.getLast?_eq {bytes : Bytes} (h : bytes.getLast? = some lf) :
    (w bytes).getLast? = some lf := by
  obtain ⟨t, rfl⟩ := List.getLast?_eq_some_iff.1 h
  rw [hw.append, List.getLast?_append]
  rcases hw.feed with hfeed | hfeed <;> rw [hfeed] <;> rfl

end LineWise

namespace Segment

/-- The segment `k` is `g` with other line ends. There is no carriage return in `g` that could be
taken for one of them. -/
structure Rewritten (w : Bytes → Bytes) (g k : Segment) : Prop where
  kind : k.kind = g.kind
  bytes : k.bytes = w g.bytes
  plain : w [lf] = [lf] ∨ cr ∉ g.bytes

end Segment

namespace Emitter
open Strip (SameFate)
open Segment (Rewritten)

/-- The emitter `e'` has written what `e` has, behind `S` and with other line ends, and both have the
same line open. The flags matter in the `compact` layout only. -/
structure Follows (S : Bytes) (w : Bytes → Bytes) (e e' : Emitter) : Prop where
  layout : e'.layout = e.layout
  settled : e'.settled.toList = S ++ w e.settled.toList
  line : e'.line = e.line
  noFeed : lf ∉ e.line.toList
  flags : e.layout = .compact →
    e'.removal = e.removal ∧ e'.content = e.content ∧ e'.trailing = e.trailing

section Steps
variable {S : Bytes} {w : Bytes → Bytes} {e e' : Emitter}

theorem Follows.remove (h : Follows S w e e') : Follows S w e.remove e'.remove where
  layout := h.layout
  settled := h.settled
  line := h.line
  noFeed := h.noFeed
  flags hl := ⟨rfl, (h.flags hl).2.1, rfl⟩

theorem Follows.text (h : Follows S w e e') {t : Bytes} (ht : lf ∉ t) :
    Follows S w (e.text t) (e'.text t) := by
  have hline : e'.line ++ t = e.line ++ t := by rw [h.line]
  have hfeed : lf ∉ (e.line ++ t).toList := by simpa using ⟨by simpa using h.noFeed, ht⟩
  unfold Emitter.text
  split_ifs
  · exact ⟨h.layout, h.settled, hline, hfeed, fun hl => ⟨(h.flags hl).1, rfl, rfl⟩⟩
  · exact ⟨h.layout, h.settled, hline, hfeed, h.flags⟩

theorem Follows.settle_eq (h : Follows S w e e') (hl : e.layout = .compact) :
    e'.settle = e.settle := by
  obtain ⟨hremoval, hcontent, htrailing⟩ := h.flags hl
  rw [settle, settle, hremoval, hcontent, htrailing, h.line]

theorem Follows.notMem_settle (h : Follows S w e e') : lf ∉ e.settle.1 := by
  rcases settle_cases e with hs | ⟨-, hs⟩ | ⟨-, hs⟩
  · rw [hs]
    exact h.noFeed
  · simp [hs]
  · obtain ⟨V, hV, -⟩ := dropEndWhile_append isPadding e.line.toList
    rw [hs]
    exact fun hmem => h.noFeed (hV ▸ List.mem_append_left V hmem)

variable (hw : LineWise w)
include hw

theorem Follows.endLine (h : Follows S w e e') (hl : e.layout = .compact) (term : Bytes) :
    Follows S w (e.endLine term) (e'.endLine (w term)) := by
  refine ⟨h.layout, ?_, rfl, by simp [Emitter.endLine], fun _ => ⟨rfl, rfl, rfl⟩⟩
  simp only [Emitter.endLine, h.settle_eq hl, Array.toList_appendList, h.settled, hw.append,
    hw.line _ h.notMem_settle, List.append_assoc]
  split_ifs
  · rw [hw.nil]
  · rfl

/-- The line end is another one, and the text before it is the same. -/
theorem Follows.codeLine (h : Follows S w e e') (hl : e.layout = .compact) {t : Bytes} (ht : lf ∉ t)
    (hplain : w [lf] = [lf] ∨ cr ∉ t) :
    ∃ t', w (t ++ [lf]) = t' ++ [lf] ∧ lf ∉ t' ∧ Follows S w (e.codeLine t) (e'.codeLine t') := by
  have hline : w (t ++ [lf]) = t ++ w [lf] := by rw [hw.append, hw.line t ht]
  rcases hw.feed with hfeed | hfeed
  · refine ⟨t, by rw [hline, hfeed], ht, ?_⟩
    unfold Emitter.codeLine
    split_ifs with hlast
    · -- a carriage return of the text itself stays in front of the line feed
      have hbody : lf ∉ t.dropLast := fun hmem => ht (List.mem_of_mem_dropLast hmem)
      have hterm : w [cr, lf] = [cr, lf] := by
        rw [← List.singleton_append, hw.append, hw.line [cr] (by decide), hfeed]
      have hend := (h.text hbody).endLine hw (by rw [text_layout, hl]) [cr, lf]
      rwa [hterm] at hend
    · have hend := (h.text ht).endLine hw (by rw [text_layout, hl]) [lf]
      rwa [hfeed] at hend
  · have hcr : cr ∉ t := hplain.resolve_left (by rw [hfeed]; decide)
    refine ⟨t ++ [cr], by rw [hline, hfeed, List.append_assoc]; rfl, ?_, ?_⟩
    · simpa using ⟨ht, by decide⟩
    · have hend := (h.text ht).endLine hw (by rw [text_layout, hl]) [lf]
      rw [codeLine_of_notMem hcr, codeLine_concat]
      rwa [hfeed] at hend

theorem Follows.code (h : Follows S w e e') {bytes : Bytes} (hplain : w [lf] = [lf] ∨ cr ∉ bytes) :
    Follows S w (e.code bytes) (e'.code (w bytes)) := by
  cases hl : e.layout with
  | preserve =>
    have hl' : e'.layout = .preserve := by rw [h.layout, hl]
    rw [code_preserve hl, code_preserve hl']
    exact ⟨h.layout, by simp [h.settled, hw.append], h.line, h.noFeed, h.flags⟩
  | compact =>
    induction bytes using Bytes.lineInduction generalizing e e' with
    | last t ht =>
      have hl' : e'.layout = .compact := by rw [h.layout, hl]
      rw [hw.line t ht, code_of_notMem hl ht, code_of_notMem hl' ht]
      exact h.text ht
    | line t rest ht ih =>
      have hl' : e'.layout = .compact := by rw [h.layout, hl]
      have hfirst : w [lf] = [lf] ∨ cr ∉ t :=
        hplain.imp_right fun hcr hmem => hcr (List.mem_append_left _ hmem)
      have hrest : w [lf] = [lf] ∨ cr ∉ rest :=
        hplain.imp_right fun hcr hmem => hcr (List.mem_append_right _ (List.mem_cons_of_mem _ hmem))
      obtain ⟨t', hw', ht', hline⟩ := h.codeLine hw hl ht hfirst
      have hsplit : w (t ++ lf :: rest) = t' ++ lf :: w rest := by
        rw [List.append_cons, hw.append, hw', List.append_assoc, List.singleton_append]
      rw [hsplit, code_line hl ht, code_line hl' ht']
      exact ih hline hrest (by rw [codeLine_layout, hl])

theorem Follows.literal (h : Follows S w e e') (bytes : Bytes) :
    Follows S w (e.literal bytes) (e'.literal (w bytes)) := by
  cases hl : e.layout with
  | preserve =>
    have hl' : e'.layout = .preserve := by rw [h.layout, hl]
    rw [literal_preserve hl, literal_preserve hl']
    exact ⟨h.layout, by simp [h.settled, hw.append], h.line, h.noFeed, h.flags⟩
  | compact =>
    have hl' : e'.layout = .compact := by rw [h.layout, hl]
    by_cases hmem : lf ∈ bytes
    · obtain ⟨front, tail, rfl, hfront, htail⟩ := Bytes.exists_last_line hmem
      rw [hw.append, hw.line tail htail, literal_append hl hfront htail,
        literal_append hl' (hw.getLast?_eq hfront) htail]
      refine ⟨h.layout, ?_, rfl, by simpa using htail, fun _ => ⟨rfl, rfl, rfl⟩⟩
      simp [h.settled, h.line, hw.append, hw.line _ h.noFeed]
    · rw [hw.line bytes hmem, literal_of_notMem hl hmem, literal_of_notMem hl' hmem]
      refine ⟨h.layout, h.settled, by simp only [h.line], ?_, fun hl => ⟨(h.flags hl).1, rfl, rfl⟩⟩
      simpa using ⟨by simpa using h.noFeed, hmem⟩

theorem Follows.emit (h : Follows S w e e') {f f' : Segment × Bool}
    (hf : SameFate (Rewritten w) f f') : Follows S w (e.emit f) (e'.emit f') := by
  obtain ⟨g, stays⟩ := f
  obtain ⟨k, stays'⟩ := f'
  obtain ⟨hgk, rfl⟩ : Rewritten w g k ∧ stays = stays' := hf
  cases stays with
  | false => exact h.remove
  | true =>
    by_cases hk : g.kind = .code
    · rw [emit_code hk, emit_code (by rw [hgk.kind, hk]), hgk.bytes]
      exact h.code hw hgk.plain
    · rw [emit_literal hk, emit_literal (by rwa [hgk.kind]), hgk.bytes]
      exact h.literal hw g.bytes

theorem Follows.run (h : Follows S w e e') {E E' : List (Segment × Bool)}
    (hE : List.Forall₂ (SameFate (Rewritten w)) E E') :
    Follows S w (E.foldl Emitter.emit e) (E'.foldl Emitter.emit e') := by
  induction hE generalizing e e' with
  | nil => exact h
  | cons hf _ ih => exact ih (h.emit hw hf)

theorem Follows.finish (h : Follows S w e e') : e'.finish = S ++ w e.finish := by
  cases hl : e.layout with
  | preserve =>
    have hl' : e'.layout = .preserve := by rw [h.layout, hl]
    simp [Emitter.finish, hl, hl', output, h.settled, h.line, hw.append, hw.line _ h.noFeed]
  | compact =>
    have hl' : e'.layout = .compact := by rw [h.layout, hl]
    simp [Emitter.finish, hl, hl', h.settled, h.settle_eq hl, hw.append, hw.line _ h.notMem_settle]

end Steps
end Emitter
end Uncomment
