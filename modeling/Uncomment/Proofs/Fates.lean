import Mathlib
import Uncomment.Proofs.Standing
import Uncomment.Proofs.Thinning

/-! What becomes of each segment. A comment without a protected text waits until the next segment
that stays: then it goes, unless it is the last one waiting and the bytes around the gap would
meet. The run of `strip` is the run of the emitter over these fates. -/
namespace Uncomment.Strip
open Ascii Atom
open Emitter (Agrees Regular emit kept Sealed)

def removable (keep : List Bytes) (l : Lexeme) : Bool := l.isComment && !isProtected keep l.bytes

/-- The fates of the comments that wait, the last one first. -/
def resolve (stays : Bool) : List Segment → List (Segment × Bool)
  | [] => []
  | last :: before => before.reverse.map (·, false) ++ [(last, stays)]

/-- Each segment with whether it stays, given the last byte that stayed and the comments that
wait. -/
def fates (lang : Language) (keep : List Bytes) :
    Option UInt8 → List Segment → List Segment → List (Segment × Bool)
  | _, waiting, [] => resolve false waiting
  | last, waiting, g :: gs =>
    if removable keep g.toLexeme then fates lang keep last (g :: waiting) gs
    else resolve (meets lang last g.bytes.head?) waiting
      ++ (g, true) :: fates lang keep g.bytes.getLast? [] gs

/-- What a run from `p` does with the segments, in the order in which it calls the emitter. -/
def decisions (lang : Language) (options : StripOptions) :
    Progress → List Segment → List (Segment × Bool)
  | p, [] => resolve false p.pending
  | p, g :: gs =>
    if removes options g then decisions lang options (p.step lang options g) gs
    else resolve (Progress.joins lang p.emitter g.bytes.head?) p.pending
      ++ (g, true) :: decisions lang options (p.step lang options g) gs

def dropped (events : List (Segment × Bool)) : List Segment :=
  (events.filter (!·.2)).map (·.1)

def RemovedComment.ofSegment (g : Segment) : RemovedComment := .of g.startLine g.text

def survivors (lang : Language) (keep : List Bytes) (s : Bytes) : List Lexeme :=
  kept (fates lang keep none [] (scan lang s))

section Lists
variable {lang : Language} {keep : List Bytes}

@[simp] theorem kept_nil : kept [] = [] := rfl

@[simp] theorem kept_append (E F : List (Segment × Bool)) : kept (E ++ F) = kept E ++ kept F := by
  simp [kept]

@[simp] theorem kept_cons_true (g : Segment) (E : List (Segment × Bool)) :
    kept ((g, true) :: E) = g.toLexeme :: kept E := by
  simp [kept]

@[simp] theorem kept_resolve_false (waiting : List Segment) : kept (resolve false waiting) = [] := by
  cases waiting <;> simp [resolve, kept]

@[simp] theorem kept_resolve_true (last : Segment) (before : List Segment) :
    kept (resolve true (last :: before)) = [last.toLexeme] := by
  simp [resolve, kept]

@[simp] theorem dropped_append (E F : List (Segment × Bool)) :
    dropped (E ++ F) = dropped E ++ dropped F := by
  simp [dropped]

@[simp] theorem dropped_map_false (gs : List Segment) : dropped (gs.map (·, false)) = gs := by
  induction gs with
  | nil => rfl
  | cons g gs ih => simpa [dropped] using ih

theorem resolve_false (waiting : List Segment) :
    resolve false waiting = waiting.reverse.map (·, false) := by
  cases waiting <;> simp [resolve]

theorem map_fst_resolve (stays : Bool) (waiting : List Segment) :
    (resolve stays waiting).map (·.1) = waiting.reverse := by
  cases waiting with
  | nil => rfl
  | cons last before => simp [resolve, Function.comp_def]

theorem mem_of_mem_resolve {stays : Bool} {waiting : List Segment} {f : Segment × Bool}
    (hf : f ∈ resolve stays waiting) : f.1 ∈ waiting := by
  rw [← List.mem_reverse, ← map_fst_resolve stays waiting]
  exact List.mem_map_of_mem hf

theorem map_fst_fates (last : Option UInt8) (waiting gs : List Segment) :
    (fates lang keep last waiting gs).map (·.1) = waiting.reverse ++ gs := by
  induction gs generalizing last waiting with
  | nil => simp [fates, map_fst_resolve]
  | cons g gs ih =>
    simp only [fates]
    split_ifs
    · simp [ih]
    · simp [map_fst_resolve, ih]

theorem removable_of_dropped {last : Option UInt8} {waiting gs : List Segment}
    (hw : ∀ g ∈ waiting, removable keep g.toLexeme = true) :
    ∀ f ∈ fates lang keep last waiting gs, f.2 = false → removable keep f.1.toLexeme = true := by
  induction gs generalizing last waiting with
  | nil => exact fun f hf _ => hw f.1 (mem_of_mem_resolve hf)
  | cons g gs ih =>
    simp only [fates]
    split_ifs with hg
    · exact ih (by simpa [hg] using hw)
    · intro f hf hfalse
      rcases List.mem_append.1 hf with hf | hf
      · exact hw f.1 (mem_of_mem_resolve hf)
      · rcases List.mem_cons.1 hf with rfl | hf
        · simp at hfalse
        · exact ih (by simp) f hf hfalse

/-- After a segment that stays nothing waits, so the fates of what follows it are its own. -/
theorem fates_append_cons {g : Segment} (hg : removable keep g.toLexeme = false)
    (before gs : List Segment) {last : Option UInt8} {waiting : List Segment} :
    fates lang keep last waiting (before ++ g :: gs) =
      fates lang keep last waiting (before ++ [g]) ++ fates lang keep g.bytes.getLast? [] gs := by
  induction before generalizing last waiting with
  | nil => simp [fates, hg, resolve]
  | cons h before ih =>
    simp only [List.cons_append, fates]
    split_ifs with hh
    · exact ih
    · rw [ih, List.append_assoc, List.cons_append]

theorem fates_concat {g : Segment} (hg : removable keep g.toLexeme = false) (before : List Segment)
    (last : Option UInt8) (waiting : List Segment) :
    ∃ E, fates lang keep last waiting (before ++ [g]) = E ++ [(g, true)] := by
  induction before generalizing last waiting with
  | nil => exact ⟨resolve (meets lang last g.bytes.head?) waiting, by simp [fates, hg, resolve]⟩
  | cons h before ih =>
    simp only [List.cons_append, fates]
    split_ifs with hh
    · exact ih last (h :: waiting)
    · obtain ⟨E, hE⟩ := ih h.bytes.getLast? []
      refine ⟨resolve (meets lang last h.bytes.head?) waiting ++ (h, true) :: E, ?_⟩
      rw [hE, List.append_assoc, List.cons_append]

theorem fates_comments {run : List Segment} (hrun : ∀ g ∈ run, removable keep g.toLexeme = true)
    (gs : List Segment) {last : Option UInt8} {waiting : List Segment} :
    fates lang keep last waiting (run ++ gs) = fates lang keep last (run.reverse ++ waiting) gs := by
  induction run generalizing waiting with
  | nil => rfl
  | cons g run ih =>
    rw [List.cons_append, fates, if_pos (hrun g List.mem_cons_self),
      ih fun h hh => hrun h (List.mem_cons_of_mem _ hh), List.reverse_cons, List.append_assoc]
    rfl

/-- Two segments that no decision tells apart. -/
structure Alike (lang : Language) (keep : List Bytes) (g h : Segment) : Prop where
  removable : removable keep h.toLexeme = removable keep g.toLexeme
  head : ∀ last, meets lang last h.bytes.head? = meets lang last g.bytes.head?
  last : ∀ next, meets lang h.bytes.getLast? next = meets lang g.bytes.getLast? next

/-- Segments in the relation `R` with the same fate. -/
def SameFate (R : Segment → Segment → Prop) (f k : Segment × Bool) : Prop := R f.1 k.1 ∧ f.2 = k.2

section Alike
variable {R : Segment → Segment → Prop}

theorem forall₂_resolve (stays : Bool) {waiting waiting' : List Segment}
    (hw : List.Forall₂ R waiting waiting') :
    List.Forall₂ (SameFate R) (resolve stays waiting) (resolve stays waiting') := by
  cases hw with
  | nil => exact .nil
  | @cons last last' before before' hlast hbefore =>
    have hgone : List.Forall₂ (SameFate R) (before.reverse.map (·, false))
        (before'.reverse.map (·, false)) := by
      rw [List.forall₂_map_left_iff, List.forall₂_map_right_iff]
      exact (List.forall₂_reverse_iff.2 hbefore).imp fun g h hgh => ⟨hgh, rfl⟩
    exact List.rel_append hgone (.cons ⟨hlast, rfl⟩ .nil)

/-- Segments that no decision tells apart have the same fates. -/
theorem forall₂_fates (hR : ∀ g h, R g h → Alike lang keep g h) {gs hs waiting waiting' : List Segment}
    {last last' : Option UInt8} (hgs : List.Forall₂ R gs hs) (hw : List.Forall₂ R waiting waiting')
    (hlast : ∀ next, meets lang last' next = meets lang last next) :
    List.Forall₂ (SameFate R) (fates lang keep last waiting gs) (fates lang keep last' waiting' hs) := by
  induction hgs generalizing last last' waiting waiting' with
  | nil => exact forall₂_resolve false hw
  | @cons g h gs hs hgh hrest ih =>
    obtain ⟨hremovable, hhead, hend⟩ := hR g h hgh
    simp only [fates, hremovable, hlast, hhead]
    split_ifs
    · exact ih (.cons hgh hw) hlast
    · exact List.rel_append (forall₂_resolve _ hw) (.cons ⟨hgh, rfl⟩ (ih .nil hend))

theorem forall₂_dropped {E F : List (Segment × Bool)} (h : List.Forall₂ (SameFate R) E F) :
    List.Forall₂ R (dropped E) (dropped F) := by
  induction h with
  | nil => exact .nil
  | @cons f k E F hfk _ ih =>
    obtain ⟨g, stays⟩ := f
    obtain ⟨g', stays'⟩ := k
    obtain ⟨hR, rfl⟩ : R g g' ∧ stays = stays' := hfk
    cases stays with
    | false => exact .cons hR ih
    | true => exact ih

end Alike

end Lists

section Run
variable {lang : Language} {options : StripOptions}

theorem Agrees.meets_eq (hc : lang.CLike) {x y : Option UInt8} (h : Agrees x y) (next : Option UInt8) :
    meets lang x next = meets lang y next := by
  rcases h with rfl | ⟨rfl, rfl⟩
  · rfl
  · rw [meets_none_left, meets_false_left hc (.inl (by decide))]

theorem Regular.emit {e : Emitter} (h : e.Regular) (f : Segment × Bool) : (e.emit f).Regular := by
  obtain ⟨g, stays⟩ := f
  cases stays with
  | false => exact h.remove
  | true =>
    by_cases hk : g.kind = .code
    · rw [Emitter.emit_code hk]
      exact (h.code g.bytes).1
    · rw [Emitter.emit_literal hk]
      exact (h.literal g.bytes).1

theorem Regular.foldl_emit {e : Emitter} (h : e.Regular) (E : List (Segment × Bool)) :
    (E.foldl Emitter.emit e).Regular := by
  induction E generalizing e with
  | nil => exact h
  | cons f E ih => exact ih (Regular.emit h f)

theorem Regular.emit_layout {e : Emitter} (h : e.Regular) (f : Segment × Bool) :
    (e.emit f).layout = e.layout := by
  obtain ⟨g, stays⟩ := f
  cases stays with
  | false => rfl
  | true =>
    by_cases hk : g.kind = .code
    · rw [Emitter.emit_code hk]
      exact (h.code g.bytes).2.1
    · rw [Emitter.emit_literal hk]
      exact (h.literal g.bytes).2.1

theorem Regular.foldl_emit_layout {e : Emitter} (h : e.Regular) (E : List (Segment × Bool)) :
    (E.foldl Emitter.emit e).layout = e.layout := by
  induction E generalizing e with
  | nil => rfl
  | cons f E ih => rw [List.foldl_cons, ih (Regular.emit h f), Regular.emit_layout h]

/-- After a segment was written its last byte is the last one, up to a line feed that went. -/
theorem Regular.agrees_emit {e : Emitter} (h : e.Regular) {g : Segment} (hne : g.bytes ≠ []) :
    Agrees (e.emit (g, true)).lastByte? g.bytes.getLast? := by
  have hlast : ∀ x, g.bytes.getLast?.or x = g.bytes.getLast? := by
    simp [List.getLast?_eq_some_getLast hne]
  by_cases hk : g.kind = .code
  · rw [Emitter.emit_code hk]
    simpa [hlast] using (h.code g.bytes).2.2
  · rw [Emitter.emit_literal hk]
    exact .inl (by rw [(h.literal g.bytes).2.2, hlast])

theorem foldl_dropComment (p : Progress) (gs : List Segment) :
    gs.foldl Progress.dropComment p =
      { p with
        emitter := (gs.map (·, false)).foldl emit p.emitter,
        removed := (gs.map RemovedComment.ofSegment).reverse ++ p.removed } := by
  induction gs generalizing p with
  | nil => rfl
  | cons g gs ih =>
    rw [List.foldl_cons, ih]
    simp [Progress.dropComment, emit, RemovedComment.ofSegment]

theorem flush_eq {p : Progress} {next : Option UInt8} {stays : Bool}
    (h : Progress.joins lang p.emitter next = stays) (hp : ∀ g ∈ p.pending, g.kind ≠ .code) :
    (p.flush lang next).emitter = (resolve stays p.pending).foldl emit p.emitter ∧
      (p.flush lang next).removed =
        ((dropped (resolve stays p.pending)).map RemovedComment.ofSegment).reverse ++ p.removed ∧
      (p.flush lang next).pending = [] := by
  unfold Progress.flush
  rw [h]
  cases stays with
  | false =>
    simp only [foldl_dropComment, resolve_false, Bool.false_eq_true, if_false]
    exact ⟨trivial, by rw [dropped_map_false], trivial⟩
  | true =>
    cases hq : p.pending with
    | nil => exact ⟨rfl, rfl, rfl⟩
    | cons last before =>
      have hlast : last.kind ≠ .code := hp last (by simp [hq])
      simp only [foldl_dropComment, resolve, Progress.keepComment, if_true, List.foldl_append,
        List.foldl_cons, List.foldl_nil, Emitter.emit_literal hlast, dropped_append,
        dropped_map_false]
      exact ⟨trivial, by simp [dropped], trivial⟩

theorem kind_ne_code_of_removes {g : Segment} (h : removes options g = true) : g.kind ≠ .code :=
  fun hk => by simp [removes, Lexeme.isComment, hk, SegmentKind.isComment] at h

theorem step_waits {p : Progress} {g : Segment} (hg : removes options g = true) :
    p.step lang options g = { p.note g with pending := g :: p.pending } := if_pos hg

/-- A segment that stays is written after the comments that waited for it. -/
theorem step_writes {p : Progress} {g : Segment} (hg : removes options g = false)
    (hp : ∀ h ∈ p.pending, h.kind ≠ .code) :
    let settled := resolve (Progress.joins lang p.emitter g.bytes.head?) p.pending
    (p.step lang options g).emitter = (settled.foldl emit p.emitter).emit (g, true) ∧
      (p.step lang options g).removed =
        ((dropped settled).map RemovedComment.ofSegment).reverse ++ p.removed ∧
      (p.step lang options g).pending = [] := by
  have hstep : p.step lang options g = ((p.note g).flush lang g.bytes.head?).write g :=
    if_neg (by simp [hg])
  have hwrite : ∀ q : Progress, (q.write g).emitter = q.emitter.emit (g, true) ∧
      (q.write g).removed = q.removed ∧ (q.write g).pending = q.pending := by
    intro q
    unfold Progress.write emit
    split <;> simp_all
  obtain ⟨hemit, hrem, hpend⟩ := @flush_eq lang (p.note g) g.bytes.head? _ rfl hp
  obtain ⟨hemit', hrem', hpend'⟩ := hwrite ((p.note g).flush lang g.bytes.head?)
  intro settled
  rw [hstep, hemit', hrem', hpend', hemit, hrem, hpend]
  exact ⟨rfl, rfl, rfl⟩

theorem step_pending {p : Progress} (g : Segment) (hp : ∀ h ∈ p.pending, h.kind ≠ .code) :
    (p.step lang options g).pending = if removes options g then g :: p.pending else [] := by
  cases hg : removes options g with
  | true => rw [step_waits hg, if_pos rfl]
  | false => rw [(@step_writes lang _ _ _ hg hp).2.2, if_neg (by simp)]

theorem forall_step_pending {P : Segment → Prop} {p : Progress} (g : Segment)
    (hp : ∀ h ∈ p.pending, h.kind ≠ .code) (hg : removes options g = true → P g)
    (hP : ∀ h ∈ p.pending, P h) : ∀ h ∈ (p.step lang options g).pending, P h := by
  rw [step_pending g hp]
  split_ifs with hremoves
  · exact List.forall_mem_cons.2 ⟨hg hremoves, hP⟩
  · simp

theorem step_pending_kind {p : Progress} (g : Segment) (hp : ∀ h ∈ p.pending, h.kind ≠ .code) :
    ∀ h ∈ (p.step lang options g).pending, h.kind ≠ .code :=
  forall_step_pending g hp kind_ne_code_of_removes hp

/-- A run is the run of the emitter over the decisions. -/
theorem outcome_decisions (gs : List Segment) {p : Progress} (hp : ∀ g ∈ p.pending, g.kind ≠ .code) :
    let outcome := (gs.foldl (Progress.step lang options) p).outcome lang
    outcome.output = ((decisions lang options p gs).foldl emit p.emitter).finish ∧
      outcome.removed = p.removed.reverse ++
        (dropped (decisions lang options p gs)).map RemovedComment.ofSegment := by
  induction gs generalizing p with
  | nil =>
    have hjoins : Progress.joins lang p.emitter none = false := meets_none_right lang _
    obtain ⟨hemit, hrem, -⟩ := flush_eq hjoins hp
    exact ⟨by rw [decisions, ← hemit]; rfl, by rw [decisions]; simp [Progress.outcome, hrem]⟩
  | cons g gs ih =>
    have hp' : ∀ h ∈ (p.step lang options g).pending, h.kind ≠ .code := step_pending_kind g hp
    obtain ⟨hout, hremoved⟩ := ih hp'
    rw [List.foldl_cons, decisions]
    cases hg : removes options g with
    | true =>
      simp only [step_waits hg, if_true] at hout hremoved ⊢
      exact ⟨hout, hremoved⟩
    | false =>
      obtain ⟨hemit, hrem, -⟩ := @step_writes lang _ _ _ hg hp
      rw [if_neg (by simp)]
      constructor
      · rw [hout, hemit, List.foldl_append, List.foldl_cons]
      · rw [hremoved, hrem]
        simp [dropped]

/-- The decisions are the fates: the last byte of a segment that stayed may be gone from the output,
but then it was a line feed, and that meets nothing. -/
theorem decisions_eq_fates (hc : lang.CLike) (gs : List Segment) {p : Progress} {last : Option UInt8}
    (hr : p.emitter.Regular) (hl : Agrees p.emitter.lastByte? last)
    (hp : ∀ g ∈ p.pending, g.kind ≠ .code) (hne : ∀ g ∈ gs, g.bytes ≠ []) :
    decisions lang options p gs = fates lang options.keep last p.pending gs := by
  induction gs generalizing p last with
  | nil => rfl
  | cons g gs ih =>
    have hne' : ∀ g ∈ gs, g.bytes ≠ [] := fun g hg => hne g (List.mem_cons_of_mem _ hg)
    have hp' : ∀ h ∈ (p.step lang options g).pending, h.kind ≠ .code := step_pending_kind g hp
    rw [decisions, fates]
    cases hg : removes options g with
    | true =>
      have hremovable : removable options.keep g.toLexeme = true := hg
      rw [step_waits hg] at hp' ⊢
      rw [if_pos rfl, if_pos hremovable]
      exact ih hr hl hp' hne'
    | false =>
      have hremovable : removable options.keep g.toLexeme = false := hg
      have hjoins : Progress.joins lang p.emitter g.bytes.head? = meets lang last g.bytes.head? :=
        Agrees.meets_eq hc hl _
      obtain ⟨hemit, -, hpend⟩ := @step_writes lang _ _ _ hg hp
      have hreg := Regular.foldl_emit hr
        (resolve (Progress.joins lang p.emitter g.bytes.head?) p.pending)
      have hrest := @ih (p.step lang options g) g.bytes.getLast?
        (hemit ▸ Regular.emit hreg _) (hemit ▸ Regular.agrees_emit hreg (hne g List.mem_cons_self))
        hp' hne'
      rw [if_neg (by simp), if_neg (by simp [hremovable]), hrest, hpend, hjoins]

theorem segments_eq (hc : lang.CLike) {gs : List Segment} (hne : ∀ g ∈ gs, g.bytes ≠ []) :
    (segments lang options gs).output =
        ((fates lang options.keep none [] gs).foldl emit (.start options.layout)).finish ∧
      (segments lang options gs).removed =
        (dropped (fates lang options.keep none [] gs)).map RemovedComment.ofSegment := by
  have hpending : ∀ g ∈ (Progress.start options.layout).pending, g.kind ≠ .code := by
    simp [Progress.start]
  have hfates := @decisions_eq_fates lang options hc gs (.start options.layout) none
    (Emitter.regular_start options.layout) (.inl rfl) hpending hne
  have hrun := @outcome_decisions lang options gs _ hpending
  rwa [hfates] at hrun

/-- The note of a segment that the end of the text cuts off. -/
def cutOff? (g : Segment) : Option Malformed :=
  if g.terminated then none else some ⟨g.kind, g.startLine⟩

theorem flush_malformed (p : Progress) (next : Option UInt8) :
    (p.flush lang next).malformed = p.malformed := by
  unfold Progress.flush
  simp only [foldl_dropComment]
  split_ifs
  · split <;> rfl
  · rfl

theorem step_malformed (p : Progress) (g : Segment) :
    (p.step lang options g).malformed = p.malformed.or (cutOff? g) := by
  have hwrite : ∀ q : Progress, (q.write g).malformed = q.malformed := by
    intro q
    unfold Progress.write
    split <;> rfl
  unfold Progress.step
  simp only
  split_ifs
  · rfl
  · rw [hwrite, flush_malformed]
    rfl

/-- The note of a run is that of the first segment that is cut off. -/
theorem outcome_malformed (gs : List Segment) (p : Progress) :
    ((gs.foldl (Progress.step lang options) p).outcome lang).malformed =
      p.malformed.or (gs.findSome? cutOff?) := by
  induction gs generalizing p with
  | nil => simp [Progress.outcome, flush_malformed]
  | cons g gs ih =>
    rw [List.foldl_cons, ih, step_malformed, List.findSome?_cons, Option.or_assoc]
    cases cutOff? g <;> rfl

theorem emit_output {e : Emitter} (hr : e.Regular)
    (he : e.layout = .preserve ∨ e.layout = .compact ∧ e.removal = false) (g : Segment) :
    (e.emit (g, true)).output = e.output ++ g.bytes ∧ (e.emit (g, true)).layout = e.layout ∧
      (e.removal = false → (e.emit (g, true)).removal = false) := by
  by_cases hk : g.kind = .code
  · rw [Emitter.emit_code hk]
    rcases he with hl | ⟨hl, hrem⟩
    · simp [Emitter.code, hl, Emitter.output, hr.preserve hl]
    · obtain ⟨hout, hrem', hl'⟩ := Emitter.output_code hrem hl g.bytes
      exact ⟨hout, by rw [hl', hl], fun _ => hrem'⟩
  · rw [Emitter.emit_literal hk]
    rcases he with hl | ⟨hl, hrem⟩
    · simp [Emitter.literal, hl, Emitter.output, hr.preserve hl]
    · obtain ⟨hrem', hl'⟩ := Emitter.literal_removal hrem g.bytes
      exact ⟨Emitter.output_literal g.bytes hl, hl', fun _ => hrem'⟩

/-- A run that removes nothing, or that keeps the layout, writes what stays as it is. -/
theorem foldl_emit_faithful {e : Emitter} (hr : e.Regular) (events : List (Segment × Bool))
    (he : e.layout = .preserve ∨ e.layout = .compact ∧ e.removal = false ∧ ∀ f ∈ events, f.2 = true) :
    (events.foldl emit e).finish = e.output ++ flat (explode (kept events)) := by
  induction events generalizing e with
  | nil =>
    rcases he with hl | ⟨-, hrem, -⟩
    · simp [Emitter.finish, hl]
    · simpa using Emitter.finish_eq_output hrem
  | cons f events ih =>
    obtain ⟨g, stays⟩ := f
    rw [List.foldl_cons]
    cases stays with
    | false =>
      have hl : e.layout = .preserve := by
        rcases he with hl | ⟨-, -, hf⟩
        · exact hl
        · simpa using hf _ List.mem_cons_self
      rw [@ih (e.emit (g, false)) (Regular.emit hr _) (.inl hl)]
      rfl
    | true =>
      obtain ⟨hout, hlay, hrem⟩ := emit_output hr (he.imp_right fun h => ⟨h.1, h.2.1⟩) g
      rw [ih (Regular.emit hr _), hout]
      · simp
      · rw [hlay]
        exact he.imp_right fun h =>
          ⟨h.1, hrem h.2.1, fun f hf => h.2.2 f (List.mem_cons_of_mem _ hf)⟩

end Run

section Scan
variable {lang : Language}

/-- In a scanned text a padded comment or literal has a line end after it. -/
theorem isChain_sealed (hc : lang.CLike) (gs : List Segment) (hne : ∀ g ∈ gs, g.bytes ≠ [])
    (h : Linked lang none (explode (gs.map (·.toLexeme)))) : gs.IsChain Sealed := by
  induction gs with
  | nil => exact .nil
  | cons g gs ih =>
    rw [List.map_cons, explode_cons, Linked, along_append] at h
    have htail := ih (fun g hg => hne g (List.mem_cons_of_mem _ hg)) h.2
    cases gs with
    | nil => exact .singleton _
    | cons k gs =>
      refine .cons_cons (fun hg hp => ?_) htail
      obtain ⟨c, t, hk⟩ := List.exists_cons_of_ne_nil (hne k (by simp))
      have hstands := h.1
      rw [ofLexeme_of_ne hg, List.map_cons, explode_cons, flat_append, flat_ofLexeme, hk] at hstands
      have hend : isLineEnd c = true := by
        by_contra hcon
        obtain ⟨b, hb, hpad⟩ := hp
        have := Scan.Stands.getLast?_of_ne hc hstands.1 (by simpa using hcon) b hb
        simp [isSpace_of_isPadding hpad] at this
      refine ⟨?_, by simpa [hk] using hend⟩
      by_contra hkind
      have hwhole := h.2
      rw [List.map_cons, explode_cons, ofLexeme_of_ne hkind] at hwhole
      obtain ⟨b, hb, hspace, -⟩ := Scan.Stands.exists_head? hc hwhole.1
      obtain rfl : c = b := by simpa [hk] using hb
      simp [Scan.isLineEnd_of_isSpace hspace] at hend

end Scan
end Uncomment.Strip

namespace Uncomment
open Atom Strip

@[simp] theorem map_toLexeme_scan (lang : Language) (s : Bytes) :
    (scan lang s).map (·.toLexeme) = Scan.lexemes lang s :=
  Segment.map_toLexeme_placeAll 0 1 _

theorem scan_bytes_ne_nil {lang : Language} (hs : lang.Scannable) (s : Bytes) :
    ∀ g ∈ scan lang s, g.bytes ≠ [] := by
  intro g hg
  refine Scan.lexemes_ne_nil hs s g.toLexeme ?_
  rw [← map_toLexeme_scan]
  exact List.mem_map_of_mem hg

section Survivors
variable {lang : Language} (hs : lang.Scannable) (hc : lang.CLike)
include hs hc

/-- What stays is written as it is in the `preserve` layout, and in both where everything stays. -/
theorem strip_output_faithful {options : StripOptions} {s : Bytes}
    (hall : options.layout = .preserve ∨
      ∀ f ∈ fates lang options.keep none [] (scan lang s), f.2 = true) :
    (strip lang options s).output = flat (explode (survivors lang options.keep s)) := by
  have hlayout : (Emitter.start options.layout).layout = .preserve ∨
      (Emitter.start options.layout).layout = .compact ∧
        (Emitter.start options.layout).removal = false ∧
          ∀ f ∈ fates lang options.keep none [] (scan lang s), f.2 = true := by
    cases hl : options.layout with
    | preserve => exact .inl rfl
    | compact => exact .inr ⟨rfl, rfl, hall.resolve_left (by simp [hl])⟩
  exact (segments_eq hc (scan_bytes_ne_nil hs s)).1.trans
    (foldl_emit_faithful (Emitter.regular_start options.layout) _ hlayout)

/-- In the `compact` layout what stays is written with cuts. -/
theorem strip_output_thins {options : StripOptions} (hl : options.layout = .compact) (s : Bytes) :
    ∃ A, (strip lang options s).output = flat A ∧
      Thins (explode (survivors lang options.keep s)) A := by
  have hne := scan_bytes_ne_nil hs s
  have hfates : (fates lang options.keep none [] (scan lang s)).map (·.1) = scan lang s := by
    simpa using @map_fst_fates lang options.keep none [] (scan lang s)
  have hgap : ∀ f ∈ fates lang options.keep none [] (scan lang s), f.2 = false →
      f.1.kind ≠ .code := by
    intro f hf hfalse hk
    have := removable_of_dropped (by simp) f hf hfalse
    simp [removable, Lexeme.isComment, hk, SegmentKind.isComment] at this
  have hnonempty : ∀ f ∈ fates lang options.keep none [] (scan lang s), f.1.bytes ≠ [] :=
    fun f hf => hne f.1 (hfates ▸ List.mem_map_of_mem hf)
  have hchain : ((fates lang options.keep none [] (scan lang s)).map (·.1)).IsChain Emitter.Sealed := by
    rw [hfates]
    exact isChain_sealed hc _ hne (by rw [map_toLexeme_scan]; exact linked_explode hs hc s)
  obtain ⟨A, hA, hthin⟩ := Emitter.tracks_start.run _ hnonempty hgap hchain (by
    rintro ⟨B, l, hB, -⟩
    simp at hB)
  refine ⟨A, ?_, hthin⟩
  rw [← hA, ← hl]
  exact (segments_eq hc hne).1

/-- The output of a run is what stays of the text, in the `compact` layout with cuts. The removed
comments are the rest. -/
theorem strip_survivors (options : StripOptions) (s : Bytes) :
    ∃ A, (strip lang options s).output = flat A ∧
      Thins (explode (survivors lang options.keep s)) A ∧
      (options.layout = .preserve ∨
        (∀ f ∈ fates lang options.keep none [] (scan lang s), f.2 = true) →
        A = explode (survivors lang options.keep s)) ∧
      (strip lang options s).removed =
        (dropped (fates lang options.keep none [] (scan lang s))).map RemovedComment.ofSegment := by
  have hremoved := (@segments_eq lang options hc _ (scan_bytes_ne_nil hs s)).2
  by_cases hall : options.layout = .preserve ∨
      ∀ f ∈ fates lang options.keep none [] (scan lang s), f.2 = true
  · exact ⟨_, strip_output_faithful hs hc hall, .refl, fun _ => rfl, hremoved⟩
  · have hl : options.layout = .compact := by
      cases hl : options.layout with
      | preserve => exact absurd (.inl hl) hall
      | compact => rfl
    obtain ⟨A, hout, hthin⟩ := strip_output_thins hs hc hl s
    exact ⟨A, hout, hthin, fun h => absurd h hall, hremoved⟩

end Survivors

end Uncomment
