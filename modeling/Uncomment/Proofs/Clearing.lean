import Mathlib
import Uncomment.Proofs.Rescan

/-! Where every comment goes. A byte of code before a comment would have opened it if it were a
slash, and a literal ends in its mark or before a line end. So in a language whose comments all
begin with a slash nothing that stays can meet anything across the comments after it. -/
namespace Uncomment
open Ascii Atom Scan

namespace Strip
open Emitter (kept)

section Decisions
variable {lang : Language} {keep : List Bytes}

theorem removable_nil (l : Lexeme) : removable [] l = l.isComment := by
  simp [removable, isProtected]

theorem kept_map (gs : List Segment) (stays : Segment → Bool) :
    kept (gs.map fun g => (g, stays g)) = (gs.filter stays).map (·.toLexeme) := by
  simp [kept, List.filter_map, Function.comp_def]

theorem dropped_map (gs : List Segment) (stays : Segment → Bool) :
    dropped (gs.map fun g => (g, stays g)) = gs.filter (!stays ·) := by
  simp [dropped, List.filter_map, Function.comp_def]

/-- When `g` stays and `h` may go, nothing after `h` can meet the end of `g`. -/
def Parted (lang : Language) (keep : List Bytes) (g h : Segment) : Prop :=
  removable keep g.toLexeme = false → removable keep h.toLexeme = true →
    ∀ next, meets lang g.bytes.getLast? next = false

/-- Where neighbours are parted, every comment without a protected text goes. -/
theorem fates_of_parted (gs : List Segment) {last : Option UInt8} {waiting : List Segment}
    (hlast : waiting ≠ [] ∨ (∃ g ∈ gs.head?, removable keep g.toLexeme = true) →
      ∀ next, meets lang last next = false)
    (h : gs.IsChain (Parted lang keep)) :
    fates lang keep last waiting gs =
      waiting.reverse.map (·, false) ++ gs.map fun g => (g, !removable keep g.toLexeme) := by
  induction gs generalizing last waiting with
  | nil => simp [fates, resolve_false]
  | cons g gs ih =>
    rw [fates, List.map_cons]
    split_ifs with hg
    · rw [ih (fun _ => hlast (.inr ⟨g, rfl, hg⟩)) h.tail]
      simp [hg]
    · have hstays : removable keep g.toLexeme = false := by simpa using hg
      have hgone : resolve (meets lang last g.bytes.head?) waiting =
          waiting.reverse.map (·, false) := by
        cases waiting with
        | nil => rfl
        | cons k waiting => rw [hlast (.inl (by simp)), resolve_false]
      have hnext : [] ≠ ([] : List Segment) ∨ (∃ k ∈ gs.head?, removable keep k.toLexeme = true) →
          ∀ next, meets lang g.bytes.getLast? next = false := by
        rintro (hnil | ⟨k, hk, hremovable⟩)
        · exact absurd rfl hnil
        · obtain ⟨gs', rfl⟩ := List.head?_eq_some_iff.1 hk
          exact (List.isChain_cons_cons.1 h).1 hstays hremovable
      rw [hgone, ih hnext h.tail, hstays]
      simp

end Decisions

section Slashes
variable {lang : Language} (hc : lang.CLike) (hm : lang.lineMarkers = [Language.slashes])
include hc hm

variable (he : lang.embedded = none)
include he

theorem head?_comment {l : Lexeme} {next : Option UInt8} (h : Stands lang l next)
    (hl : l.isComment = true) : l.bytes.head? = some slash := by
  rcases h.head?_of_isComment hc hl with ⟨-, a, ha, hb⟩ | ⟨-, hb⟩ | ⟨-, hemb, -⟩
  · obtain rfl : a = slash := by simpa [hm, Language.slashes] using ha
    exact hb
  · exact hb
  · exact absurd he hemb

/-- What stands before a slash and is not a comment does not end in one. -/
theorem getLast?_ne_slash {l : Lexeme} (hl : l.isComment = false)
    (h : Along (Fits lang) (some slash) (ofLexeme l)) : ∀ b ∈ l.bytes.getLast?, b ≠ slash := by
  intro b hb
  by_cases hk : l.kind = .code
  · obtain ⟨bytes, hbytes⟩ := List.getLast?_eq_some_iff.1 hb
    rw [ofLexeme_of_code hk, hbytes, List.map_append, along_append] at h
    have hapart : meets lang (some b) (some slash) = false :=
      Bool.eq_false_iff.2 fun hmeets => (h.2.1.2 hmeets).1 he
    rintro rfl
    simp [(meets_iff hc).2 (.inl (show [slash, slash] ∈ lang.lineMarkers by
      simp [hm, Language.slashes]))] at hapart
  · rw [ofLexeme_of_ne hk] at h
    have hstands : Stands lang l (some slash) := h.1
    generalize hnext : some slash = next at hstands
    cases hstands with
    | line | block | openBlock | embedded => simp [Lexeme.isComment, SegmentKind.isComment] at hl
    | @quoted q body _ mem _ mark =>
      obtain rfl : q.mark = b := by simpa [List.getLast?_cons, mark] using hb
      exact fun heq => (hc.marks q mem).2 (by simp [heq])
    | broken _ _ stop =>
      obtain rfl := Option.some.inj hnext
      exact absurd stop (by decide)
    | openQuoted => cases hnext

/-- In a scanned text the neighbours are parted. -/
theorem isChain_parted (gs : List Segment)
    (h : Linked lang none (explode (gs.map (·.toLexeme)))) : gs.IsChain (Parted lang []) := by
  induction gs with
  | nil => exact .nil
  | cons g gs ih =>
    rw [List.map_cons, explode_cons, Linked, along_append] at h
    cases gs with
    | nil => exact .singleton _
    | cons k gs =>
      refine .cons_cons (fun hg hk next => ?_) (ih h.2)
      rw [removable_nil] at hg hk
      have hrest := h.2
      rw [List.map_cons, explode_cons, ofLexeme_of_ne (kind_ne_code_of_isComment hk)] at hrest
      have hslash := head?_comment hc hm he hrest.1 hk
      have hbefore := h.1
      rw [List.map_cons, explode_cons, flat_append, flat_ofLexeme, List.head?_append, hslash]
        at hbefore
      cases hlast : g.bytes.getLast? with
      | none => rfl
      | some b => exact meets_of_ne_slash hc hm (getLast?_ne_slash hc hm he hg hbefore b hlast) next

theorem fates_scan (hs : lang.Scannable) (s : Bytes) :
    fates lang [] none [] (scan lang s) = (scan lang s).map fun g => (g, !g.isComment) := by
  have hlinked : Linked lang none (explode ((scan lang s).map (·.toLexeme))) := by
    rw [map_toLexeme_scan]
    exact linked_explode hs hc s
  have hall := @fates_of_parted lang [] (scan lang s) none [] (fun _ _ => rfl)
    (isChain_parted hc hm he _ hlinked)
  simpa [removable_nil] using hall

end Slashes

section Balance
variable {lang : Language} {options : StripOptions}

/-- How many comments were decided about so far, and how many wait. -/
def Progress.seen (p : Progress) : Nat := p.removed.length + p.glued.length + p.pending.length

theorem seen_flush (p : Progress) (next : Option UInt8) :
    (p.flush lang next).seen = p.seen ∧ (p.flush lang next).pending = [] := by
  unfold Progress.flush
  simp only [foldl_dropComment]
  split_ifs
  · cases hp : p.pending with
    | nil => simp [Progress.seen, hp]
    | cons last before =>
      simp only [Progress.keepComment, Progress.seen, hp, List.length_append, List.length_reverse,
        List.length_map, List.length_cons, List.length_nil]
      exact ⟨by omega, trivial⟩
  · simp only [Progress.seen, List.length_append, List.length_reverse, List.length_map,
      List.length_nil]
    exact ⟨by omega, trivial⟩

theorem seen_step (p : Progress) (g : Segment) :
    (p.step lang options g).seen = p.seen + if removes options g then 1 else 0 := by
  have hwrite : ∀ q : Progress, (q.write g).seen = q.seen := by
    intro q
    unfold Progress.write
    split <;> rfl
  unfold Progress.step
  simp only
  split_ifs
  · simp [Progress.seen, Progress.note, Nat.add_assoc]
  · rw [hwrite, (seen_flush _ _).1]
    rfl

theorem seen_foldl_step (gs : List Segment) (p : Progress) :
    (gs.foldl (Progress.step lang options) p).seen = p.seen + gs.countP (removes options) := by
  induction gs generalizing p with
  | nil => rfl
  | cons g gs ih =>
    rw [List.foldl_cons, ih, seen_step, List.countP_cons]
    omega

/-- A comment that may go is removed or kept to hold the bytes around it apart. -/
theorem length_removed_add_glued (gs : List Segment) :
    (segments lang options gs).removed.length + (segments lang options gs).glued.length =
      gs.countP (removes options) := by
  have hrun := @seen_foldl_step lang options gs (.start options.layout)
  obtain ⟨hflush, hpending⟩ :=
    @seen_flush lang (gs.foldl (Progress.step lang options) (.start options.layout)) none
  rw [hrun, Progress.seen, hpending] at hflush
  simpa [segments, Progress.outcome, Progress.seen, Progress.start] using hflush

end Balance
end Strip

open Strip

/-- Where all comments begin with a slash, every comment goes and none stays to keep the bytes around
it apart. The `preserve` layout writes the code and the literals as they are. -/
theorem strip_clears [Clock] (lang : Language)
    (hlang : lang ∈ [Language.typescript, Language.go, Language.json]) (layout : Layout)
    (limit : Option Duration) (path : Path) (s : Bytes) :
    (limit = none → ∃ r, stripFile lang ⟨layout, [], limit⟩ path s = .ok r) ∧
    ∀ r, stripFile lang ⟨layout, [], limit⟩ path s = .ok r →
      r.commentsRemoved = (scan lang s).countP (·.isComment) ∧
      r.removed = ((scan lang s).filter (·.isComment)).map RemovedComment.ofSegment ∧
      r.glued = [] ∧
      (layout = .preserve → r.output = ((scan lang s).filter fun g =>
        g.kind = .code ∨ g.kind = .stringLiteral).flatMap (·.bytes)) := by
  refine ⟨fun htime => ⟨_, stripFile_eq htime lang path s⟩, fun r hr => ?_⟩
  obtain rfl := stripFile_eq_ok hr
  obtain ⟨hmem, hmarkers, hembedded⟩ : lang ∈ Language.all ∧
      lang.lineMarkers = [Language.slashes] ∧ lang.embedded = none := by
    simp only [List.mem_cons, List.not_mem_nil, or_false] at hlang
    rcases hlang with rfl | rfl | rfl <;> exact ⟨by simp [Language.all], rfl, rfl⟩
  have hs := Language.scannable_of_mem_all hmem
  have hc := Language.cLike_of_mem_all hmem
  have hfates := fates_scan hc hmarkers hembedded hs s
  obtain ⟨A, hout, -, hfaithful, hremoved⟩ := strip_survivors hs hc ⟨layout, [], limit⟩ s
  simp only [hfates, dropped_map, Bool.not_not] at hremoved
  have hcount : (strip lang ⟨layout, [], limit⟩ s).removed.length =
      (scan lang s).countP (·.isComment) := by
    rw [hremoved, List.length_map, List.countP_eq_length_filter]
  refine ⟨hcount, hremoved, ?_, fun hlayout => ?_⟩
  · have hbalance := @length_removed_add_glued lang ⟨layout, [], limit⟩ (scan lang s)
    have hremoves : removes ⟨layout, [], limit⟩ = fun g => g.isComment :=
      funext fun g => removable_nil g.toLexeme
    rw [hremoves, ← hcount] at hbalance
    exact List.length_eq_zero_iff.1 (Nat.add_left_cancel hbalance)
  · have hkinds : ∀ g ∈ scan lang s,
        (!g.isComment) = decide (g.kind = .code ∨ g.kind = .stringLiteral) := by
      intro g _
      cases hk : g.kind <;> simp [Lexeme.isComment, hk, SegmentKind.isComment]
    rw [hout, hfaithful (.inl hlayout), flat_explode, survivors, hfates, kept_map, List.flatMap_map,
      List.filter_congr hkinds]

/-- Comments of both kinds between slashes, behind a literal and behind one that the end of its line
broke off. -/
theorem strip_clears_go :
    Language.go ∈ [Language.typescript, Language.go, Language.json] ∧
    ∃ r, stripFile Language.go ⟨.preserve, [], none⟩ ⟨[]⟩
        (Bytes.ofText "a / /*b*/ / \"c/\"/*d*///e\n'f/\n//g") = .ok r ∧
      r.commentsRemoved = 4 ∧ r.glued = [] ∧
      r.output = Bytes.ofText "a /  / \"c/\"\n'f/\n" ∧
      r.commentsRemoved = (scan Language.go
        (Bytes.ofText "a / /*b*/ / \"c/\"/*d*///e\n'f/\n//g")).countP (·.isComment) := by
  have hlang : Language.go ∈ [Language.typescript, Language.go, Language.json] := by simp
  obtain ⟨hok, hclear⟩ := strip_clears Language.go hlang .preserve none ⟨[]⟩
    (Bytes.ofText "a / /*b*/ / \"c/\"/*d*///e\n'f/\n//g")
  obtain ⟨r, hr⟩ := hok rfl
  obtain ⟨hcount, -, hglued, -⟩ := hclear r hr
  refine ⟨hlang, r, hr, ?_, hglued, ?_, hcount⟩
  · rw [stripFile_eq_ok hr]
    decide +kernel
  · rw [stripFile_eq_ok hr]
    decide +kernel

end Uncomment
