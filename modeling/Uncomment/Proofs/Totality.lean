import Mathlib
import Uncomment.Proofs.Layouts
import Uncomment.Proofs.Buffer

/-! Runs over any segments, those that no scan gives included: empty ones, comments without a line
end, code that looks like a comment. No position of the emitter leaves its range, and the output is
made of the bytes that stay without some of their white space. -/
namespace Uncomment
open Ascii Strip
open Emitter (Regular emit)

/-- `part` is `whole` with some white space left out. -/
structure Thinned (whole part : Bytes) : Prop where
  sublist : part.Sublist whole
  visible : part.filter (!isSpace ·) = whole.filter (!isSpace ·)

namespace Thinned
variable {s t x y : Bytes}

theorem refl (s : Bytes) : Thinned s s := ⟨.refl s, rfl⟩

theorem append (hx : Thinned s x) (hy : Thinned t y) : Thinned (s ++ t) (x ++ y) :=
  ⟨hx.sublist.append hy.sublist, by simp only [List.filter_append, hx.visible, hy.visible]⟩

/-- White space may go from the end. -/
theorem of_append {W : Bytes} (h : Thinned s (x ++ W)) (hW : ∀ w ∈ W, isSpace w = true) :
    Thinned s x := by
  have hblank : W.filter (!isSpace ·) = [] :=
    List.filter_eq_nil_iff.2 fun w hw => by simp [hW w hw]
  have hvisible := h.visible
  rw [List.filter_append, hblank, List.append_nil] at hvisible
  exact ⟨(List.sublist_append_left x W).trans h.sublist, hvisible⟩

theorem eq_nil (h : Thinned [] x) : x = [] := List.sublist_nil.1 h.sublist

theorem split (h : Thinned (s ++ t) x) : ∃ a b, x = a ++ b ∧ Thinned s a ∧ Thinned t b := by
  obtain ⟨a, b, hx, ⟨ha, hva⟩, hb, hvb⟩ := split_sublist h.sublist h.visible
  exact ⟨a, b, hx, ⟨ha, hva⟩, hb, hvb⟩

/-- Pieces put together and thinned are the pieces thinned and put together. -/
theorem exists_pieces {α : Type} (f : α → Bytes) (xs : List α) {out : Bytes}
    (h : Thinned (xs.flatMap f) out) :
    ∃ pieces, out = pieces.flatten ∧ List.Forall₂ (fun x piece => Thinned (f x) piece) xs pieces := by
  induction xs generalizing out with
  | nil => exact ⟨[], h.eq_nil, .nil⟩
  | cons x xs ih =>
    rw [List.flatMap_cons] at h
    obtain ⟨piece, rest, rfl, hpiece, hrest⟩ := h.split
    obtain ⟨pieces, rfl, hpieces⟩ := ih hrest
    exact ⟨piece :: pieces, by rw [List.flatten_cons], .cons hpiece hpieces⟩

end Thinned

namespace Emitter

/-- The output is `s` without some white space, and a line without content is blank. -/
structure Writes (e : Emitter) (s : Bytes) : Prop where
  thinned : Thinned s e.output
  blank : e.content = false → ∀ b ∈ e.line.toList, isSpace b = true

theorem writes_start (layout : Layout) : (Emitter.start layout).Writes [] :=
  ⟨.refl [], fun _ b hb => by simp [start] at hb⟩

section Writes
variable {e : Emitter} {s : Bytes}

theorem Writes.remove (h : e.Writes s) : e.remove.Writes s := ⟨h.thinned, h.blank⟩

theorem Writes.text (h : e.Writes s) (t : Bytes) : (e.text t).Writes (s ++ t) := by
  refine ⟨by rw [output_text]; exact h.thinned.append (.refl t), ?_⟩
  unfold Emitter.text
  split_ifs with hany
  · simp
  · intro hcontent b hb
    rw [Array.toList_appendList, List.mem_append] at hb
    rcases hb with hb | hb
    · exact h.blank hcontent b hb
    · simp only [List.any_eq_true, not_exists, not_and, Bool.not_eq_true'] at hany
      simpa using hany b hb

/-- What goes from a line when it is settled is white space. -/
theorem Writes.settle (h : e.Writes s) :
    ∃ W, e.settle.1 ++ W = e.line.toList ∧ ∀ w ∈ W, isSpace w = true := by
  rcases settle_cases e with hs | ⟨hcontent, hs⟩ | ⟨-, hs⟩
  · exact ⟨[], by rw [hs, List.append_nil], by simp⟩
  · exact ⟨e.line.toList, by rw [hs, List.nil_append], h.blank hcontent⟩
  · obtain ⟨W, hline, hW⟩ := dropEndWhile_append isPadding e.line.toList
    exact ⟨W, by rw [hs, hline], fun w hw => Atom.isSpace_of_isPadding (hW w hw)⟩

theorem Writes.settled (h : e.Writes s) : Thinned s (e.settled.toList ++ e.settle.1) := by
  obtain ⟨W, hline, hW⟩ := h.settle
  have hthinned := h.thinned
  rw [output, ← hline, ← List.append_assoc] at hthinned
  exact hthinned.of_append hW

theorem Writes.endLine (h : e.Writes s) {term : Bytes} (hterm : ∀ w ∈ term, isSpace w = true) :
    (e.endLine term).Writes (s ++ term) := by
  refine ⟨?_, fun _ b hb => by simp [Emitter.endLine] at hb⟩
  have hout : (e.endLine term).output =
      e.settled.toList ++ e.settle.1 ++ if e.settle.2 then [] else term := by
    simp [Emitter.endLine, output]
  rw [hout]
  refine h.settled.append ?_
  split_ifs
  · exact (Thinned.refl term).of_append (x := []) hterm
  · exact .refl term

theorem Writes.codeLine (h : e.Writes s) (t : Bytes) : (e.codeLine t).Writes (s ++ (t ++ [lf])) := by
  obtain ⟨body, term, hbody, hterm, hline⟩ := codeLine_eq e t
  have hspace : ∀ w ∈ term, isSpace w = true := by
    rcases hterm with rfl | rfl <;> decide +kernel
  rw [hline, ← hbody, ← List.append_assoc]
  exact (h.text body).endLine hspace

theorem Writes.code (h : e.Writes s) (hr : e.Regular) (t : Bytes) : (e.code t).Writes (s ++ t) := by
  cases hl : e.layout with
  | preserve =>
    have hline := hr.preserve hl
    rw [code_preserve hl]
    have hthinned := h.thinned.append (.refl t)
    refine ⟨?_, fun _ b hb => by simp [hline] at hb⟩
    simpa [output, hline] using hthinned
  | compact =>
    induction t using Bytes.lineInduction generalizing e s with
    | last t ht =>
      rw [code_of_notMem hl ht]
      exact h.text t
    | line t rest ht ih =>
      obtain ⟨body, term, -, hterm, hline⟩ := codeLine_eq e t
      have hreg : (e.codeLine t).Regular := by
        rw [hline]
        exact ((hr.text hl body).endLine (by rw [text_layout, hl]) hterm).1
      have hrest := ih (h.codeLine t) hreg (by rw [codeLine_layout, hl])
      rw [code_line hl ht]
      simpa using hrest

theorem Writes.literal (h : e.Writes s) (hr : e.Regular) (t : Bytes) :
    (e.literal t).Writes (s ++ t) := by
  have hthinned := h.thinned.append (.refl t)
  cases hl : e.layout with
  | preserve =>
    have hline := hr.preserve hl
    rw [literal_preserve hl]
    refine ⟨?_, fun _ b hb => by simp [hline] at hb⟩
    simpa [output, hline] using hthinned
  | compact =>
    have hcontent : (e.literal t).content = true := by
      unfold Emitter.literal
      rw [hl]
      simp only
      split_ifs <;> rfl
    exact ⟨by rw [output_literal t hl]; exact hthinned, by simp [hcontent]⟩

theorem Writes.finish (h : e.Writes s) : Thinned s e.finish := by
  unfold Emitter.finish
  split
  · exact h.thinned
  · exact h.settled

end Writes

/-- What the text holds of a segment after its event. -/
def written (f : Segment × Bool) : Bytes := if f.2 then f.1.bytes else []

theorem Writes.emit {e : Emitter} {s : Bytes} (h : e.Writes s) (hr : e.Regular)
    (f : Segment × Bool) : (e.emit f).Writes (s ++ written f) := by
  obtain ⟨g, stays⟩ := f
  cases stays with
  | false =>
    have hremove := h.remove
    rwa [← List.append_nil s] at hremove
  | true =>
    by_cases hk : g.kind = .code
    · rw [emit_code hk]
      exact h.code hr g.bytes
    · rw [emit_literal hk]
      exact h.literal hr g.bytes

/-- A run writes what stays of its segments, without some white space. -/
theorem Writes.run {e : Emitter} {s : Bytes} (h : e.Writes s) (hr : e.Regular)
    (events : List (Segment × Bool)) :
    Thinned (s ++ events.flatMap written) (events.foldl Emitter.emit e).finish := by
  induction events generalizing e s with
  | nil => simpa using h.finish
  | cons f events ih =>
    rw [List.flatMap_cons, ← List.append_assoc]
    exact ih (h.emit hr f) (Regular.emit hr f)

end Emitter

namespace Buffer

/-- The call that an event makes. -/
def Call.ofEvent (f : Segment × Bool) : Call :=
  if f.2 then
    match f.1.kind with
    | .code => .code f.1.bytes
    | _ => .literal f.1.bytes
  else .remove

theorem call?_ofEvent {e : Emitter} (hr : e.Regular) (f : Segment × Bool) :
    e.buffer.call? (.ofEvent f) = some (e.emit f).buffer := by
  obtain ⟨g, stays⟩ := f
  cases stays with
  | false => exact Emitter.buffer_remove e
  | true =>
    by_cases hk : g.kind = .code
    · have hcall : Call.ofEvent (g, true) = .code g.bytes := by simp [Call.ofEvent, hk]
      rw [hcall, Emitter.emit_code hk]
      exact hr.buffer_code g.bytes
    · have hcall : Call.ofEvent (g, true) = .literal g.bytes := by
        cases hkind : g.kind <;> simp_all [Call.ofEvent]
      rw [hcall, Emitter.emit_literal hk]
      exact hr.buffer_literal g.bytes

/-- On the buffer a run has the same result, so each of its calls stayed in range. -/
theorem foldlM_call? {e : Emitter} (hr : e.Regular) (events : List (Segment × Bool)) :
    (events.map Call.ofEvent).foldlM call? e.buffer = some (events.foldl emit e).buffer := by
  induction events generalizing e with
  | nil => rfl
  | cons f events ih =>
    rw [List.map_cons, List.foldlM_cons, call?_ofEvent hr, List.foldl_cons]
    exact ih (Regular.emit hr f)

end Buffer

namespace Strip

section Decisions
variable {lang : Language} {options : StripOptions}

/-- Each segment is decided once, in the order of the segments. -/
theorem map_fst_decisions (gs : List Segment) {p : Progress} (hp : ∀ g ∈ p.pending, g.kind ≠ .code) :
    (decisions lang options p gs).map (·.1) = p.pending.reverse ++ gs := by
  induction gs generalizing p with
  | nil => rw [decisions, map_fst_resolve, List.append_nil]
  | cons g gs ih =>
    have hrest := ih (@step_pending_kind lang options _ g hp)
    rw [decisions]
    cases hg : removes options g with
    | true =>
      rw [if_pos rfl, hrest, step_waits hg]
      simp
    | false =>
      obtain ⟨-, -, hpend⟩ := @step_writes lang _ _ _ hg hp
      rw [if_neg (by simp), List.map_append, List.map_cons, hrest, hpend, map_fst_resolve]
      simp

/-- Only comments without a protected text go. -/
theorem removes_of_decisions (gs : List Segment) {p : Progress}
    (hp : ∀ g ∈ p.pending, removes options g = true) :
    ∀ f ∈ decisions lang options p gs, f.2 = false → removes options f.1 = true := by
  induction gs generalizing p with
  | nil => exact fun f hf _ => hp f.1 (mem_of_mem_resolve hf)
  | cons g gs ih =>
    have hkind : ∀ h ∈ p.pending, h.kind ≠ .code := fun h hh => kind_ne_code_of_removes (hp h hh)
    have hp' : ∀ h ∈ (p.step lang options g).pending, removes options h = true :=
      forall_step_pending g hkind id hp
    intro f hf hfalse
    rw [decisions] at hf
    split_ifs at hf
    · exact ih hp' f hf hfalse
    · rcases List.mem_append.1 hf with hf | hf
      · exact hp f.1 (mem_of_mem_resolve hf)
      · rcases List.mem_cons.1 hf with rfl | hf
        · simp at hfalse
        · exact ih hp' f hf hfalse

theorem length_dropped_le {events : List (Segment × Bool)}
    (h : ∀ f ∈ events, f.2 = false → f.1.isComment = true) :
    (dropped events).length ≤ (events.map (·.1)).countP (·.isComment) := by
  have hsub : (dropped events).Sublist (events.map (·.1)) := List.filter_sublist.map _
  have hall : (dropped events).countP (·.isComment) = (dropped events).length := by
    rw [List.countP_eq_length]
    intro g hg
    obtain ⟨f, hf, rfl⟩ := List.mem_map.1 hg
    obtain ⟨hf, hfalse⟩ := List.mem_filter.1 hf
    exact h f hf (by simpa using hfalse)
  rw [← hall]
  exact hsub.countP_le

end Decisions

/-- What the output holds of a segment: its bytes without some white space, or nothing of a comment
that has no protected text. -/
def Holds (options : StripOptions) (g : Segment) (piece : Bytes) : Prop :=
  Thinned g.bytes piece ∨ removes options g = true ∧ piece = []

section Holds
variable {options : StripOptions} {g : Segment} {piece : Bytes} {gs : List Segment}
  {pieces : List Bytes}

theorem isComment_of_removes (h : removes options g = true) : g.isComment = true :=
  (Bool.and_eq_true_iff.1 h).1

theorem Holds.sublist (h : Holds options g piece) : piece.Sublist g.bytes := by
  rcases h with h | ⟨-, rfl⟩
  · exact h.sublist
  · exact List.nil_sublist _

theorem Holds.thinned (h : Holds options g piece) (hg : g.isComment = false) :
    Thinned g.bytes piece := by
  rcases h with h | ⟨hremoves, -⟩
  · exact h
  · simp [isComment_of_removes hremoves] at hg

theorem flatten_sublist (h : List.Forall₂ (Holds options) gs pieces) :
    pieces.flatten.Sublist (gs.flatMap (·.bytes)) := by
  induction h with
  | nil => exact .refl []
  | cons hg _ ih =>
    rw [List.flatten_cons, List.flatMap_cons]
    exact hg.sublist.append ih

theorem visible_sublist (h : List.Forall₂ (Holds options) gs pieces) :
    (((gs.filter (!·.isComment)).flatMap (·.bytes)).filter (!isSpace ·)).Sublist pieces.flatten := by
  induction h with
  | nil => exact .refl []
  | @cons g piece gs pieces hg _ ih =>
    rw [List.flatten_cons]
    cases hcomment : g.isComment with
    | true =>
      rw [List.filter_cons_of_neg (by simp [hcomment])]
      exact ih.trans (List.sublist_append_right piece _)
    | false =>
      rw [List.filter_cons_of_pos (by simp [hcomment]), List.flatMap_cons, List.filter_append,
        ← (hg.thinned hcomment).visible]
      exact List.filter_sublist.append ih

theorem forall₂_holds {events : List (Segment × Bool)}
    (hremoves : ∀ f ∈ events, f.2 = false → removes options f.1 = true)
    (h : List.Forall₂ (fun f piece => Thinned (Emitter.written f) piece) events pieces) :
    List.Forall₂ (Holds options) (events.map (·.1)) pieces := by
  induction h with
  | nil => exact .nil
  | @cons f piece events pieces hf _ ih =>
    obtain ⟨g, stays⟩ := f
    refine .cons ?_ (ih fun f hmem => hremoves f (List.mem_cons_of_mem _ hmem))
    cases stays with
    | true => exact .inl hf
    | false => exact .inr ⟨hremoves _ List.mem_cons_self rfl, hf.eq_nil⟩

end Holds

/-- The calls of a run over `ss` are in range and give the output. What it holds of each segment is
thinned, only comments may be missing, and those are counted. -/
structure Accounts (lang : Language) (options : StripOptions) (ss : List Segment)
    (o : StripOutcome) : Prop where
  calls : (((decisions lang options (.start options.layout) ss).map .ofEvent).foldlM Buffer.call?
    (.start options.layout) >>= Buffer.finish?) = some o.output
  pieces : ∃ pieces, o.output = pieces.flatten ∧ List.Forall₂ (Holds options) ss pieces
  sublist : o.output.Sublist (ss.flatMap (·.bytes))
  visible : (((ss.filter (!·.isComment)).flatMap (·.bytes)).filter (!isSpace ·)).Sublist o.output
  count : o.commentsRemoved = o.removed.length
  count_le : o.removed.length ≤ ss.countP (·.isComment)

theorem accounts_segments (lang : Language) (options : StripOptions) (ss : List Segment) :
    Accounts lang options ss (segments lang options ss) := by
  have hreg := Emitter.regular_start options.layout
  have hstart : (Emitter.start options.layout).buffer = .start options.layout := by
    cases options.layout <;> rfl
  have hkind : ∀ g ∈ (Progress.start options.layout).pending, g.kind ≠ .code := by
    simp [Progress.start]
  have hsegments : (decisions lang options (.start options.layout) ss).map (·.1) = ss :=
    map_fst_decisions ss hkind
  have hremoves := @removes_of_decisions lang options ss (.start options.layout)
    (by simp [Progress.start])
  obtain ⟨hout, hremoved⟩ := @outcome_decisions lang options ss _ hkind
  have hthinned := (Emitter.writes_start options.layout).run hreg
    (decisions lang options (.start options.layout) ss)
  obtain ⟨pieces, hflatten, hpieces⟩ := Thinned.exists_pieces Emitter.written _ hthinned
  have hholds := forall₂_holds hremoves hpieces
  rw [hsegments] at hholds
  have houtput := hout.trans hflatten
  refine ⟨?_, ⟨pieces, houtput, hholds⟩, houtput ▸ flatten_sublist hholds,
    houtput ▸ visible_sublist hholds, rfl, ?_⟩
  · have hrun := Buffer.foldlM_call? hreg (decisions lang options (.start options.layout) ss)
    rw [hstart] at hrun
    rw [hrun, Option.bind_eq_bind, Option.bind_some, Emitter.buffer_finish]
    exact congrArg some hout.symm
  · have hcomments := length_dropped_le fun f hf hfalse => isComment_of_removes (hremoves f hf hfalse)
    rw [hsegments] at hcomments
    have hlength := congrArg List.length hremoved
    rw [List.length_append, List.length_map] at hlength
    have hnil : (Progress.start options.layout).removed.reverse.length = 0 := rfl
    rw [hnil, Nat.zero_add] at hlength
    exact hlength.trans_le hcomments

/-- Called in any order, the emitter keeps the start of the line inside its buffer, and no slice or
subtraction leaves its range. So a run over any segments without a time limit has an outcome, and
the outcome accounts for each of them. -/
theorem timed_anySegments [Clock] (lang : Language) (layout : Layout) (keep : List Bytes) (path : Path)
    (ss : List Segment) :
    (∀ calls : List Buffer.Call, ∃ b, calls.foldlM Buffer.call? (.start layout) = some b ∧
      b.lineStart ≤ b.out.length ∧ ∃ out, b.finish? = some out) ∧
    ∃ o, timed lang { layout, keep } path ss = .ok o ∧ Accounts lang { layout, keep } ss o := by
  have hbounded : (Buffer.start layout).Bounded := le_rfl
  have htimed : timed lang { layout, keep } path ss = .ok (segments lang { layout, keep } ss) := by
    cases ss <;> rfl
  refine ⟨fun calls => ?_, _, htimed, accounts_segments lang _ ss⟩
  obtain ⟨b, hcalls, hb⟩ := hbounded.calls? calls
  exact ⟨b, hcalls, hb, hb.finish?⟩

end Strip
end Uncomment
