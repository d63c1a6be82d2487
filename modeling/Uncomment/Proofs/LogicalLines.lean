import Mathlib
import Uncomment.Proofs.Rescan

/-! The `compact` layout line by line. What stays of a text and the gaps where comments went are cut
into logical lines at the line feeds of the code, and what is written of a line depends on that line
alone. -/
namespace Uncomment
open Ascii

namespace Bytes
variable {α : Type} {p : α → Bool}

theorem rtakeWhile_append {xs ys : List α} (h : ∀ y ∈ ys, p y = true) :
    (xs ++ ys).rtakeWhile p = xs.rtakeWhile p ++ ys := by
  simp only [List.rtakeWhile, List.reverse_append]
  rw [List.takeWhile_append_of_pos (by simpa using h)]
  simp

theorem dropEndWhile_append_of_getLast? {xs ys : List α} (h : ∀ x ∈ xs.getLast?, p x = false) :
    dropEndWhile p (xs ++ ys) = xs ++ dropEndWhile p ys := by
  have hxs : xs.reverse.dropWhile p = xs.reverse := by
    rw [List.dropWhile_eq_self_iff]
    intro hpos
    rw [List.getElem_zero, List.head_reverse]
    simpa using h _ (List.getLast?_eq_some_getLast _)
  simp only [dropEndWhile, List.reverse_append, List.dropWhile_append, hxs]
  split_ifs with hall
  · rw [List.isEmpty_iff.1 hall]
    simp
  · simp

end Bytes

/-- What stands on a logical line: a byte of code, a literal or comment that stays, or the gap where
a comment was. -/
inductive LineItem where
  | code (b : UInt8)
  | literal (bytes : Bytes)
  | gap
  deriving DecidableEq, Repr

namespace LineItem

def bytes : LineItem → Bytes
  | code b => [b]
  | literal bytes => bytes
  | gap => []

def holdsFeed : LineItem → Bool
  | literal bytes => lf ∈ bytes
  | code _ | gap => false

def isBlankCode : LineItem → Bool
  | code b => isSpace b
  | literal _ | gap => false

/-- A comment went missing after the last literal that holds a line feed. -/
def isGapped (items : List LineItem) : Bool := gap ∈ items.rtakeWhile (!·.holdsFeed)

/-- There is no literal, and no code but white space. -/
def isBlank (items : List LineItem) : Bool := items.all fun i => i.isBlankCode || i == gap

/-- Only white space of the code follows the last gap. -/
def endsInGap (items : List LineItem) : Bool := (items.rtakeWhile (· != gap)).all isBlankCode

section Append
variable (items : List LineItem)

@[simp] theorem isGapped_gap : isGapped (items ++ [gap]) = true := by
  have h := List.rtakeWhile_concat_pos (!·.holdsFeed) items gap rfl
  simp [isGapped, h]

@[simp] theorem isGapped_code (t : Bytes) : isGapped (items ++ t.map code) = isGapped items := by
  have h := @Bytes.rtakeWhile_append _ (!·.holdsFeed) items (t.map code) (by simp [holdsFeed])
  simp [isGapped, h]

theorem isGapped_literal_of_mem {bytes : Bytes} (hb : lf ∈ bytes) :
    isGapped (items ++ [literal bytes]) = false := by
  have h := List.rtakeWhile_concat_neg (!·.holdsFeed) items (literal bytes) (by simp [holdsFeed, hb])
  simp [isGapped, h]

theorem isGapped_literal_of_notMem {bytes : Bytes} (hb : lf ∉ bytes) :
    isGapped (items ++ [literal bytes]) = isGapped items := by
  have h := List.rtakeWhile_concat_pos (!·.holdsFeed) items (literal bytes) (by simp [holdsFeed, hb])
  simp [isGapped, h]

@[simp] theorem isBlank_gap : isBlank (items ++ [gap]) = isBlank items := by
  simp [isBlank]

@[simp] theorem isBlank_code (t : Bytes) :
    isBlank (items ++ t.map code) = (isBlank items && t.all isSpace) := by
  have hgap : ∀ b, (code b == gap) = false := by simp
  simp [isBlank, isBlankCode, Function.comp_def, hgap]

@[simp] theorem isBlank_literal (bytes : Bytes) : isBlank (items ++ [literal bytes]) = false := by
  simp [isBlank, isBlankCode]

@[simp] theorem endsInGap_gap : endsInGap (items ++ [gap]) = true := by
  have h := List.rtakeWhile_concat_neg (· != gap) items gap (by simp)
  simp [endsInGap, h]

@[simp] theorem endsInGap_code (t : Bytes) :
    endsInGap (items ++ t.map code) = (endsInGap items && t.all isSpace) := by
  have h := @Bytes.rtakeWhile_append _ (· != gap) items (t.map code) (by simp)
  simp [endsInGap, h, isBlankCode, Function.comp_def]

@[simp] theorem endsInGap_literal (bytes : Bytes) : endsInGap (items ++ [literal bytes]) = false := by
  have h := List.rtakeWhile_concat_pos (· != gap) items (literal bytes) (by simp)
  simp [endsInGap, h, isBlankCode]

@[simp] theorem flatMap_bytes_code (t : Bytes) : (t.map code).flatMap bytes = t := by
  simp [List.flatMap_map, bytes]

end Append
end LineItem

/-- A logical line and its line end, which is empty for the last line. -/
structure LogicalLine where
  items : List LineItem
  terminator : Bytes
  deriving DecidableEq, Repr

namespace LogicalLine
open LineItem

def bytes (l : LogicalLine) : Bytes := l.items.flatMap LineItem.bytes

/-- What is written of a line. -/
def output (l : LogicalLine) : Bytes :=
  if !isGapped l.items then l.bytes ++ l.terminator
  else if isBlank l.items then []
  else if endsInGap l.items then Bytes.dropEndWhile Emitter.isPadding l.bytes ++ l.terminator
  else l.bytes ++ l.terminator

/-- An item, or the end of a logical line. -/
inductive Piece where
  | item (i : LineItem)
  | lineEnd (terminator : Bytes)
  deriving DecidableEq, Repr

/-- A line feed ends the line, together with a carriage return right before it. -/
def codePieces : Bytes → List Piece
  | [] => []
  | [b] => if b = lf then [.lineEnd [lf]] else [.item (.code b)]
  | b :: c :: rest =>
    if b = cr ∧ c = lf then .lineEnd [cr, lf] :: codePieces rest
    else if b = lf then .lineEnd [lf] :: codePieces (c :: rest)
    else .item (.code b) :: codePieces (c :: rest)

/-- A segment that stays is its code or a literal, one that does not is a gap. -/
def pieces (f : Segment × Bool) : List Piece :=
  if f.2 then
    if f.1.kind = .code then codePieces f.1.bytes else [.item (.literal f.1.bytes)]
  else [.item .gap]

/-- Cut into lines, the first of which begins with `front`. -/
def cut (front : List LineItem) : List Piece → List LogicalLine
  | [] => [⟨front, []⟩]
  | .item i :: rest => cut (front ++ [i]) rest
  | .lineEnd terminator :: rest => ⟨front, terminator⟩ :: cut [] rest

/-- The logical lines of segments, given for each segment whether it stays. -/
def ofEvents (events : List (Segment × Bool)) : List LogicalLine := cut [] (events.flatMap pieces)

section Pieces

def ofCode (t : Bytes) : List Piece := t.map fun b => .item (.code b)

theorem cut_ofCode (front : List LineItem) (t : Bytes) (rest : List Piece) :
    cut front (ofCode t ++ rest) = cut (front ++ t.map .code) rest := by
  induction t generalizing front with
  | nil => simp [ofCode]
  | cons b t ih =>
    have h := ih (front ++ [.code b])
    rw [List.append_assoc] at h
    exact h

theorem codePieces_lf (rest : Bytes) : codePieces (lf :: rest) = .lineEnd [lf] :: codePieces rest := by
  cases rest with
  | nil => simp [codePieces]
  | cons c rest =>
    have hne : ¬ (lf = cr ∧ c = lf) := fun h => absurd h.1 (by decide)
    rw [codePieces, if_neg hne, if_pos rfl]

theorem codePieces_crlf (rest : Bytes) :
    codePieces (cr :: lf :: rest) = .lineEnd [cr, lf] :: codePieces rest := by
  rw [codePieces, if_pos ⟨rfl, rfl⟩]

theorem codePieces_cons {b : UInt8} {rest : Bytes} (hb : b ≠ lf)
    (hcr : ¬ (b = cr ∧ rest.head? = some lf)) :
    codePieces (b :: rest) = .item (.code b) :: codePieces rest := by
  cases rest with
  | nil => simp [codePieces, hb]
  | cons c rest =>
    rw [List.head?_cons, Option.some.injEq] at hcr
    rw [codePieces, if_neg hcr, if_neg hb]

/-- Code without a line feed is its bytes, unless it ends in a carriage return that belongs to the
line feed behind it. -/
theorem codePieces_append {t rest : Bytes} (ht : lf ∉ t)
    (hcr : t.getLast? = some cr → rest.head? ≠ some lf) :
    codePieces (t ++ rest) = ofCode t ++ codePieces rest := by
  induction t with
  | nil => rfl
  | cons b t ih =>
    simp only [List.mem_cons, not_or] at ht
    have hrest := ih ht.2 fun hlast => hcr (by simp [List.getLast?_cons, hlast])
    rw [List.cons_append, codePieces_cons (Ne.symm ht.1), hrest]
    · rfl
    · rintro ⟨rfl, hhead⟩
      cases t with
      | nil => exact hcr rfl hhead
      | cons c t =>
        obtain rfl : c = lf := by simpa using hhead
        exact ht.2 List.mem_cons_self

end Pieces
end LogicalLine

namespace Emitter
open LineItem (isGapped isBlank endsInGap)

/-- The emitter has written `out` for the lines before this one, and what it knows of this line can be
read off the items on it. Of a literal with line feeds only what follows the last of them can still
change. -/
structure Shows (e : Emitter) (out : Bytes) (items : List LineItem) : Prop where
  layout : e.layout = .compact
  removal : e.removal = isGapped items
  content : e.content = !isBlank items
  trailing : e.removal = true → e.trailing = endsInGap items
  written : ∃ front, e.settled.toList = out ++ front ∧
    front ++ e.line.toList = items.flatMap LineItem.bytes ∧ (∀ b ∈ front.getLast?, b = lf) ∧
    (front = [] ∨ isBlank items = false)

theorem shows_nil {e : Emitter} (hl : e.layout = .compact) (hline : e.line = #[])
    (hflags : e.removal = false ∧ e.content = false) : Shows e e.settled.toList [] where
  layout := hl
  removal := hflags.1
  content := hflags.2
  trailing h := by simp [hflags.1] at h
  written := ⟨[], by simp, by simp [hline], by simp, .inl rfl⟩

section Steps
variable {e : Emitter} {out : Bytes} {items : List LineItem}

theorem Shows.remove (h : Shows e out items) : Shows e.remove out (items ++ [.gap]) where
  layout := h.layout
  removal := by rw [LineItem.isGapped_gap]; rfl
  content := by rw [LineItem.isBlank_gap, ← h.content]; rfl
  trailing _ := by rw [LineItem.endsInGap_gap]; rfl
  written := by
    obtain ⟨front, hsettled, hline, hlast, hblank⟩ := h.written
    refine ⟨front, hsettled, ?_, hlast, by simpa using hblank⟩
    rw [List.flatMap_append, ← hline]
    simp [LineItem.bytes, Emitter.remove]

theorem Shows.text (h : Shows e out items) (t : Bytes) :
    Shows (e.text t) out (items ++ t.map .code) := by
  obtain ⟨front, hsettled, hline, hlast, hblank⟩ := h.written
  have hline' : front ++ (e.line ++ t).toList =
      (items ++ t.map LineItem.code).flatMap LineItem.bytes := by
    simp [← hline]
  have hblank' : front = [] ∨ isBlank (items ++ t.map LineItem.code) = false :=
    hblank.imp_right fun hfalse => by simp [hfalse]
  have hspace : t.any (!isSpace ·) = !t.all isSpace := List.not_all_eq_any_not.symm
  unfold Emitter.text
  rw [hspace]
  cases hall : t.all isSpace with
  | true =>
    refine ⟨h.layout, ?_, ?_, ?_, front, hsettled, hline', hlast, hblank'⟩
    · simpa using h.removal
    · simpa [hall] using h.content
    · simpa [hall] using h.trailing
  | false =>
    refine ⟨h.layout, ?_, ?_, ?_, front, hsettled, hline', hlast, hblank'⟩
    · simpa using h.removal
    · simp [hall]
    · simp [hall]

theorem Shows.literal (h : Shows e out items) (bytes : Bytes) :
    Shows (e.literal bytes) out (items ++ [.literal bytes]) := by
  obtain ⟨front, hsettled, hline, hlast, -⟩ := h.written
  by_cases hmem : lf ∈ bytes
  · obtain ⟨lead, tail, rfl, hlead, htail⟩ := Bytes.exists_last_line hmem
    rw [literal_append h.layout hlead htail]
    refine ⟨h.layout, (LineItem.isGapped_literal_of_mem items hmem).symm, by simp, by simp,
      front ++ e.line.toList ++ lead, ?_, ?_, ?_, by simp⟩
    · simp [hsettled]
    · simp [hline, LineItem.bytes]
    · simp [List.getLast?_append, hlead]
  · rw [literal_of_notMem h.layout hmem]
    refine ⟨h.layout, ?_, by simp, by simp, front, hsettled, ?_, hlast, by simp⟩
    · rw [LineItem.isGapped_literal_of_notMem items hmem, ← h.removal]
    · simp [← hline, LineItem.bytes]

/-- When a line is settled, what its items say is written. -/
theorem Shows.settle (h : Shows e out items) (term : Bytes) :
    e.settled.toList ++ (e.settle.1 ++ if e.settle.2 then [] else term) =
      out ++ LogicalLine.output ⟨items, term⟩ := by
  obtain ⟨front, hsettled, hline, hlast, hblank⟩ := h.written
  have hpadding : ∀ b ∈ front.getLast?, isPadding b = false := fun b hb => hlast b hb ▸ by decide
  unfold Emitter.settle LogicalLine.output LogicalLine.bytes
  rw [← h.removal, ← hline, hsettled]
  cases hremoval : e.removal with
  | false => simp
  | true =>
    rw [h.content, h.trailing hremoval]
    cases hb : isBlank items with
    | true =>
      obtain rfl : front = [] := hblank.resolve_right (by simp [hb])
      simp
    | false =>
      cases endsInGap items with
      | true => simp [Bytes.dropEndWhile_append_of_getLast? hpadding]
      | false => simp

theorem Shows.endLine (h : Shows e out items) (term : Bytes) :
    Shows (e.endLine term) (out ++ LogicalLine.output ⟨items, term⟩) [] := by
  have hsettled : (e.endLine term).settled.toList = out ++ LogicalLine.output ⟨items, term⟩ := by
    rw [← h.settle term]
    simp [Emitter.endLine]
  rw [← hsettled]
  exact shows_nil h.layout rfl ⟨rfl, rfl⟩

theorem Shows.finish (h : Shows e out items) :
    e.finish = out ++ LogicalLine.output ⟨items, []⟩ := by
  rw [← h.settle []]
  simp [Emitter.finish, h.layout]

open LogicalLine (codePieces ofCode cut)

/-- The text of a line of code and its line end are those of the emitter. -/
theorem codePieces_line (e : Emitter) {t : Bytes} (ht : lf ∉ t) (rest : Bytes) :
    ∃ body term, e.codeLine t = (e.text body).endLine term ∧
      codePieces (t ++ lf :: rest) = ofCode body ++ .lineEnd term :: codePieces rest := by
  by_cases hcr : t.getLast? = some cr
  · obtain ⟨body, rfl⟩ := List.getLast?_eq_some_iff.1 hcr
    refine ⟨body, [cr, lf], codeLine_concat body, ?_⟩
    have hbody : lf ∉ body := fun hmem => ht (by simp [hmem])
    have hcut := @LogicalLine.codePieces_append body (cr :: lf :: rest) hbody fun _ => by
      simp [show cr ≠ lf by decide]
    rw [List.append_assoc, List.singleton_append, hcut, LogicalLine.codePieces_crlf]
  · refine ⟨t, [lf], by simp [codeLine, hcr], ?_⟩
    rw [LogicalLine.codePieces_append ht fun hlast => absurd hlast hcr, LogicalLine.codePieces_lf]

theorem Shows.code (h : Shows e out items) (bytes : Bytes) :
    ∃ out' items', Shows (e.code bytes) out' items' ∧ ∀ rest,
      out ++ (cut items (codePieces bytes ++ rest)).flatMap LogicalLine.output =
        out' ++ (cut items' rest).flatMap LogicalLine.output := by
  induction bytes using Bytes.lineInduction generalizing e out items with
  | last t ht =>
    refine ⟨out, items ++ t.map .code, ?_, fun rest => ?_⟩
    · rw [code_of_notMem h.layout ht]
      exact h.text t
    · have hcode := @LogicalLine.codePieces_append t [] ht (by simp)
      rw [List.append_nil] at hcode
      rw [hcode, LogicalLine.codePieces, List.append_nil, LogicalLine.cut_ofCode]
  | line t more ht ih =>
    obtain ⟨body, term, hline, hpieces⟩ := codePieces_line e ht more
    obtain ⟨out', items', hshows, hcut⟩ := ih ((h.text body).endLine term)
    refine ⟨out', items', ?_, fun rest => ?_⟩
    · rw [code_line h.layout ht, hline]
      exact hshows
    · rw [← hcut rest, hpieces, List.append_assoc, LogicalLine.cut_ofCode, List.cons_append, cut,
        List.flatMap_cons, List.append_assoc]

/-- A run over segments writes the logical lines they are cut into. -/
theorem Shows.run (h : Shows e out items) (events : List (Segment × Bool)) :
    (events.foldl emit e).finish =
      out ++ (cut items (events.flatMap LogicalLine.pieces)).flatMap LogicalLine.output := by
  induction events generalizing e out items with
  | nil => simpa [cut] using h.finish
  | cons f events ih =>
    obtain ⟨g, stays⟩ := f
    rw [List.foldl_cons, List.flatMap_cons]
    cases stays with
    | false => exact ih h.remove
    | true =>
      by_cases hk : g.kind = .code
      · obtain ⟨out', items', hshows, hcut⟩ := h.code g.bytes
        have hpieces : LogicalLine.pieces (g, true) = codePieces g.bytes := by
          simp [LogicalLine.pieces, hk]
        rw [emit_code hk, ih hshows, hpieces, hcut]
      · have hpieces : LogicalLine.pieces (g, true) = [.item (.literal g.bytes)] := by
          simp [LogicalLine.pieces, hk]
        rw [emit_literal hk, ih (h.literal g.bytes), hpieces]
        rfl

end Steps
end Emitter

open Strip

/-- The `compact` layout writes the logical lines of a text one by one. They are cut from the segments
of the scan, of which some comments went and left a gap. -/
theorem strip_logicalLines [Clock] (lang : Language) (hlang : lang ∈ Language.all) (keep : List Bytes)
    (limit : Option Duration) (path : Path) (s : Bytes) :
    (limit = none → ∃ r, stripFile lang ⟨.compact, keep, limit⟩ path s = .ok r) ∧
    ∀ r, stripFile lang ⟨.compact, keep, limit⟩ path s = .ok r →
      r.output = (LogicalLine.ofEvents (fates lang keep none [] (scan lang s))).flatMap
        LogicalLine.output ∧
      (fates lang keep none [] (scan lang s)).map (·.1) = scan lang s ∧
      r.removed = (dropped (fates lang keep none [] (scan lang s))).map RemovedComment.ofSegment := by
  refine ⟨fun htime => ⟨_, stripFile_eq htime lang path s⟩, fun r hr => ?_⟩
  obtain rfl := stripFile_eq_ok hr
  have hne := scan_bytes_ne_nil (Language.scannable_of_mem_all hlang) s
  obtain ⟨hout, hremoved⟩ := @segments_eq lang ⟨.compact, keep, limit⟩
    (Language.cLike_of_mem_all hlang) (scan lang s) hne
  have hstart : Emitter.Shows (.start .compact) [] [] := Emitter.shows_nil rfl rfl ⟨rfl, rfl⟩
  refine ⟨hout.trans (hstart.run _), ?_, hremoved⟩
  simpa using @map_fst_fates lang keep none [] (scan lang s)

/-- A line of each kind: one that goes with its line end, two that lose their padding, one of them
behind a literal over two lines, and two that stay, one of them with its gap before such a literal.
The last line has no line end and goes too. -/
theorem strip_logicalLines_typescript :
    Language.typescript ∈ Language.all ∧
    ∃ r, stripFile Language.typescript ⟨.compact, [], none⟩ ⟨[]⟩ (Bytes.ofText
        "//a\r\nb /*c*/ \t\r\n`d \n` //e\nf /*g*/ h \n/*i*/ `j\nk` \n /*l*/ ") = .ok r ∧
      r.output = Bytes.ofText "b\r\n`d \n`\nf  h \n `j\nk` \n" ∧
      r.output = (LogicalLine.ofEvents (fates Language.typescript [] none [] (scan Language.typescript
        (Bytes.ofText "//a\r\nb /*c*/ \t\r\n`d \n` //e\nf /*g*/ h \n/*i*/ `j\nk` \n /*l*/ ")))).flatMap
          LogicalLine.output := by
  have hlang : Language.typescript ∈ Language.all := by simp [Language.all]
  obtain ⟨hok, hlines⟩ := strip_logicalLines Language.typescript hlang [] none ⟨[]⟩ (Bytes.ofText
    "//a\r\nb /*c*/ \t\r\n`d \n` //e\nf /*g*/ h \n/*i*/ `j\nk` \n /*l*/ ")
  obtain ⟨r, hr⟩ := hok rfl
  refine ⟨hlang, r, hr, ?_, (hlines r hr).1⟩
  rw [stripFile_eq_ok hr]
  decide +kernel

end Uncomment
