import Mathlib
import Uncomment.Proofs.Emission

/-! The emitter as one buffer that grows, with the place where the current line begins in it. A
slice, a subtraction or a line start that is out of range makes a call fail. From a buffer whose line
start is in range no call fails, and on the buffer of an emitter a call does what the emitter does. -/
namespace Uncomment
open Ascii
open Emitter (isPadding)

namespace Bytes

/-- The bytes from `start` up to `stop`. -/
def slice? (bytes : Bytes) (start stop : Nat) : Option Bytes :=
  if start ≤ stop ∧ stop ≤ bytes.length then some ((bytes.take stop).drop start) else none

/-- The place of the last byte that satisfies `p`. -/
def lastIdx? (p : UInt8 → Bool) (bytes : Bytes) : Option Nat :=
  (bytes.reverse.findIdx? p).map (bytes.length - 1 - ·)

theorem slice?_append (x y z : Bytes) :
    slice? (x ++ y ++ z) x.length (x.length + y.length) = some y := by
  have hrange : x.length ≤ x.length + y.length ∧ x.length + y.length ≤ (x ++ y ++ z).length := by
    simp only [List.length_append]
    omega
  rw [slice?, if_pos hrange, ← List.length_append, List.take_left, List.drop_left]

theorem length_lt_of_slice? {bytes rest : Bytes} {n : Nat}
    (h : slice? bytes (n + 1) bytes.length = some rest) : rest.length < bytes.length := by
  unfold slice? at h
  split_ifs at h with hrange
  obtain rfl := Option.some.inj h
  rw [List.take_length, List.length_drop]
  omega

theorem findIdx?_of_notMem {c : UInt8} {t : Bytes} (h : c ∉ t) : t.findIdx? (· == c) = none := by
  rw [List.findIdx?_eq_none_iff]
  exact fun b hb => beq_eq_false_iff_ne.2 fun heq => h (heq ▸ hb)

theorem findIdx?_append_cons {c : UInt8} {t : Bytes} (h : c ∉ t) (rest : Bytes) :
    (t ++ c :: rest).findIdx? (· == c) = some t.length := by
  simp [List.findIdx?_append, findIdx?_of_notMem h, List.findIdx?_cons]

theorem lastIdx?_of_forall {p : UInt8 → Bool} {bytes : Bytes} (h : ∀ b ∈ bytes, p b = false) :
    lastIdx? p bytes = none := by
  rw [lastIdx?, Option.map_eq_none_iff, List.findIdx?_eq_none_iff]
  exact fun b hb => h b (List.mem_reverse.1 hb)

theorem lastIdx?_append_cons {p : UInt8 → Bool} {b : UInt8} (front : Bytes) {tail : Bytes}
    (hb : p b = true) (htail : ∀ c ∈ tail, p c = false) :
    lastIdx? p (front ++ b :: tail) = some front.length := by
  have hnone : tail.reverse.findIdx? p = none := by
    rw [List.findIdx?_eq_none_iff]
    exact fun c hc => htail c (List.mem_reverse.1 hc)
  have hfirst : (front ++ b :: tail).reverse.findIdx? p = some tail.length := by
    simp [List.findIdx?_append, hnone, List.findIdx?_cons, hb]
  rw [lastIdx?, hfirst, Option.map_some, List.length_append, List.length_cons]
  congr 1
  omega

theorem exists_last_of_mem {p : UInt8 → Bool} {bytes : Bytes} (h : ∃ b ∈ bytes, p b = true) :
    ∃ front b tail, bytes = front ++ b :: tail ∧ p b = true ∧ ∀ c ∈ tail, p c = false := by
  induction bytes with
  | nil => simp at h
  | cons a bytes ih =>
    by_cases hrest : ∃ b ∈ bytes, p b = true
    · obtain ⟨front, b, tail, rfl, hb, htail⟩ := ih hrest
      exact ⟨a :: front, b, tail, rfl, hb, htail⟩
    · have ha : p a = true := by
        obtain ⟨b, hb, hp⟩ := h
        rcases List.mem_cons.1 hb with rfl | hb
        · exact hp
        · exact absurd ⟨b, hb, hp⟩ hrest
      exact ⟨[], a, bytes, rfl, ha, fun c hc => by simpa using fun hp => hrest ⟨c, hc, hp⟩⟩

/-- The bytes up to the last one that does not satisfy `p`. -/
theorem take_lastIdx? (p : UInt8 → Bool) (bytes : Bytes) :
    bytes.take (((lastIdx? (!p ·) bytes).map (· + 1)).getD 0) = dropEndWhile p bytes := by
  by_cases h : ∃ b ∈ bytes, (!p b) = true
  · obtain ⟨front, b, tail, rfl, hb, htail⟩ := exists_last_of_mem h
    have hdrop : ∀ c ∈ tail.reverse, p c = true := fun c hc => by
      simpa using htail c (List.mem_reverse.1 hc)
    have hstop : p b = false := by simpa using hb
    have hlast := @lastIdx?_append_cons (!p ·) b front tail hb htail
    rw [hlast, Option.map_some, Option.getD_some, dropEndWhile, List.reverse_append,
      List.reverse_cons, List.append_assoc, List.dropWhile_append_of_pos hdrop]
    simp [hstop, List.take_append]
  · have hall : ∀ b ∈ bytes, p b = true := by
      intro b hb
      by_contra hp
      exact h ⟨b, hb, by simpa using hp⟩
    have hnone : lastIdx? (!p ·) bytes = none := lastIdx?_of_forall fun b hb => by simpa using hall b hb
    have hdrop : bytes.reverse.dropWhile p = [] :=
      List.dropWhile_eq_nil_iff.2 fun b hb => hall b (List.mem_reverse.1 hb)
    rw [hnone, dropEndWhile, hdrop]
    rfl

end Bytes

/-- Output so far in one piece, where the line being written begins in it, and what happened on
that line. -/
structure Buffer where
  layout : Layout
  out : Bytes := []
  lineStart : Nat := 0
  removal : Bool := false
  content : Bool := false
  trailing : Bool := false
  deriving DecidableEq, Repr

namespace Buffer

def start (layout : Layout) : Buffer := { layout }

/-- The line being written begins inside the buffer or at its end. -/
def Bounded (b : Buffer) : Prop := b.lineStart ≤ b.out.length

instance (b : Buffer) : Decidable b.Bounded := inferInstanceAs (Decidable (_ ≤ _))

/-- Every call ends here: it fails when it leaves the line start out of range. -/
def ensure (b : Buffer) : Option Buffer := if b.Bounded then some b else none

def sub? (m n : Nat) : Option Nat := if n ≤ m then some (m - n) else none

/-- Keep the first `n` bytes. -/
def truncate (b : Buffer) (n : Nat) : Buffer := { b with out := b.out.take n }

def remove? (b : Buffer) : Option Buffer := ensure { b with removal := true, trailing := true }

def text? (b : Buffer) (bytes : Bytes) : Option Buffer :=
  if bytes.any (!isSpace ·) then
    ensure { b with out := b.out ++ bytes, content := true, trailing := false }
  else ensure { b with out := b.out ++ bytes }

/-- Cut the padding before a gap at the end of the line. -/
def trim? (b : Buffer) : Option Buffer :=
  if b.trailing then do
    let line ← Bytes.slice? b.out b.lineStart b.out.length
    let last := Bytes.lastIdx? (!isPadding ·) line
    ensure (b.truncate (b.lineStart + (last.map (· + 1)).getD 0))
  else some b

/-- Cut what a gap leaves behind, and tell whether the line goes with its end. -/
def settleLine? (b : Buffer) : Option (Buffer × Bool) :=
  if !b.removal then some (b, false)
  else do
    let b ← b.trim?
    if !b.content then (ensure (b.truncate b.lineStart)).map (·, true) else some (b, false)

def endLine? (b : Buffer) (terminator : Bytes) : Option Buffer := do
  let (b, dropped) ← b.settleLine?
  let out := if dropped then b.out else b.out ++ terminator
  ensure { layout := b.layout, out, lineStart := out.length }

def codeLine? (b : Buffer) (line : Bytes) : Option Buffer :=
  if line.getLast? == some cr then b.text? line.dropLast >>= (·.endLine? [cr, lf])
  else b.text? line >>= (·.endLine? [lf])

/-- Look for the next line feed, write the line before it and go on after it. -/
def codeLines? (b : Buffer) (bytes : Bytes) : Option Buffer :=
  match bytes.findIdx? (· == lf) with
  | none => b.text? bytes
  | some nl =>
    match Bytes.slice? bytes 0 nl, _hrest : Bytes.slice? bytes (nl + 1) bytes.length with
    | some line, some rest =>
      match b.codeLine? line with
      | some b => b.codeLines? rest
      | none => none
    | _, _ => none
termination_by bytes.length
decreasing_by exact Bytes.length_lt_of_slice? _hrest

def code? (b : Buffer) (bytes : Bytes) : Option Buffer :=
  match b.layout with
  | .preserve => ensure { b with out := b.out ++ bytes }
  | .compact => b.codeLines? bytes

def literal? (b : Buffer) (bytes : Bytes) : Option Buffer :=
  let out := b.out ++ bytes
  match b.layout with
  | .preserve => ensure { b with out }
  | .compact =>
    match Bytes.lastIdx? (· == lf) bytes with
    | none => ensure { b with out, content := true, trailing := false }
    | some nl => do
      let after ← sub? bytes.length nl
      let tail ← sub? after 1
      let lineStart ← sub? out.length tail
      ensure { b with out, lineStart, removal := false, content := true, trailing := false }

def finish? (b : Buffer) : Option Bytes :=
  match b.layout with
  | .preserve => some b.out
  | .compact => b.settleLine?.map (·.1.out)

/-- A call, those that other calls make included. -/
inductive Call where
  | remove
  | text (bytes : Bytes)
  | settleLine
  | endLine (terminator : Bytes)
  | code (bytes : Bytes)
  | literal (bytes : Bytes)
  deriving DecidableEq, Repr

def call? (b : Buffer) : Call → Option Buffer
  | .remove => b.remove?
  | .text bytes => b.text? bytes
  | .settleLine => b.settleLine?.map (·.1)
  | .endLine terminator => b.endLine? terminator
  | .code bytes => b.code? bytes
  | .literal bytes => b.literal? bytes

section Bounds
variable {b : Buffer}

theorem Bounded.ensure (h : b.Bounded) : b.ensure = some b := if_pos h

theorem bounded_append (h : b.Bounded) (bytes : Bytes) : b.lineStart ≤ (b.out ++ bytes).length := by
  rw [List.length_append]
  exact Nat.le_add_right_of_le h

theorem Bounded.remove? (h : b.Bounded) : ∃ b', b.remove? = some b' ∧ b'.Bounded :=
  ⟨_, Bounded.ensure h, h⟩

theorem Bounded.text? (h : b.Bounded) (bytes : Bytes) :
    ∃ b', b.text? bytes = some b' ∧ b'.Bounded := by
  have happend := bounded_append h bytes
  unfold Buffer.text?
  split_ifs
  · exact ⟨_, Bounded.ensure happend, happend⟩
  · exact ⟨_, Bounded.ensure happend, happend⟩

section Line
variable {front line : Bytes}

theorem Bounded.split (h : b.Bounded) :
    ∃ front line, b.out = front ++ line ∧ b.lineStart = front.length :=
  ⟨b.out.take b.lineStart, b.out.drop b.lineStart, (List.take_append_drop _ _).symm,
    (List.length_take_of_le h).symm⟩

theorem bounded_of_split (hout : b.out = front ++ line) (hstart : b.lineStart = front.length) :
    b.Bounded := by
  rw [Bounded, hout, hstart, List.length_append]
  exact Nat.le_add_right _ _

theorem truncate_split (hout : b.out = front ++ line) (hstart : b.lineStart = front.length)
    (n : Nat) : b.truncate (b.lineStart + n) = { b with out := front ++ line.take n } := by
  rw [truncate, hout, hstart, List.take_length_add_append]

theorem trim?_eq (hout : b.out = front ++ line) (hstart : b.lineStart = front.length) :
    b.trim? = some { b with
      out := front ++ if b.trailing then Bytes.dropEndWhile isPadding line else line } := by
  have hline : Bytes.slice? b.out b.lineStart b.out.length = some line := by
    rw [hout, hstart, List.length_append]
    simpa using Bytes.slice?_append front line []
  unfold trim?
  split_ifs
  · simp only [hline, Option.bind_eq_bind, Option.bind_some, truncate_split hout hstart,
      Bytes.take_lastIdx?]
    exact (@bounded_of_split { b with out := _ } front _ rfl hstart).ensure
  · rw [← hout]

/-- The emitter whose only line is `line`, with the flags of the buffer. -/
def withLine (b : Buffer) (line : Bytes) : Emitter where
  layout := b.layout
  line := line.toArray
  removal := b.removal
  content := b.content
  trailing := b.trailing

/-- Positions settle a line as the emitter settles it. -/
theorem settleLine?_eq (hout : b.out = front ++ line) (hstart : b.lineStart = front.length) :
    b.settleLine? = some
      ({ b with out := front ++ (b.withLine line).settle.1 }, (b.withLine line).settle.2) := by
  have hcut : ∀ rest : Bytes, (({ b with out := front ++ rest } : Buffer).truncate b.lineStart).ensure =
      some { b with out := front } := by
    intro rest
    have htruncate := @truncate_split { b with out := front ++ rest } front rest rfl hstart 0
    rw [Nat.add_zero, List.take_zero, List.append_nil] at htruncate
    rw [htruncate]
    exact (@bounded_of_split { b with out := front } front [] (by simp) hstart).ensure
  have htrim := trim?_eq hout hstart
  obtain ⟨layout, out, lineStart, removal, content, trailing⟩ := b
  obtain rfl : out = front ++ line := hout
  unfold settleLine? Emitter.settle
  rw [htrim, Option.bind_eq_bind, Option.bind_some]
  cases removal with
  | false => simp [withLine]
  | true =>
    cases content with
    | false => simp [withLine, hcut]
    | true => cases trailing <;> simp [withLine]

end Line

theorem Bounded.settleLine? (h : b.Bounded) :
    ∃ b' dropped, b.settleLine? = some (b', dropped) ∧ b'.Bounded := by
  obtain ⟨front, line, hout, hstart⟩ := h.split
  exact ⟨_, _, settleLine?_eq hout hstart, bounded_of_split rfl hstart⟩

theorem Bounded.endLine? (h : b.Bounded) (terminator : Bytes) :
    ∃ b', b.endLine? terminator = some b' ∧ b'.Bounded := by
  obtain ⟨b₁, dropped, hsettle, -⟩ := h.settleLine?
  have hend : ∀ out : Bytes, Bounded { layout := b₁.layout, out, lineStart := out.length } :=
    fun out => le_refl out.length
  refine ⟨_, ?_, hend (if dropped then b₁.out else b₁.out ++ terminator)⟩
  rw [Buffer.endLine?, hsettle]
  exact Bounded.ensure (hend _)

theorem Bounded.codeLine? (h : b.Bounded) (line : Bytes) :
    ∃ b', b.codeLine? line = some b' ∧ b'.Bounded := by
  have hline : ∀ body terminator, ∃ b', (b.text? body >>= (·.endLine? terminator)) = some b' ∧
      b'.Bounded := by
    intro body terminator
    obtain ⟨b₁, htext, h₁⟩ := h.text? body
    rw [htext]
    exact h₁.endLine? terminator
  unfold Buffer.codeLine?
  split_ifs
  · exact hline _ _
  · exact hline _ _

theorem codeLines?_of_notMem {t : Bytes} (ht : lf ∉ t) : b.codeLines? t = b.text? t := by
  rw [codeLines?, Bytes.findIdx?_of_notMem ht]

theorem codeLines?_line {t : Bytes} (ht : lf ∉ t) (rest : Bytes) :
    b.codeLines? (t ++ lf :: rest) = b.codeLine? t >>= (·.codeLines? rest) := by
  have hline : Bytes.slice? (t ++ lf :: rest) 0 t.length = some t := by
    simpa using Bytes.slice?_append [] t (lf :: rest)
  have hrest : Bytes.slice? (t ++ lf :: rest) (t.length + 1) (t ++ lf :: rest).length = some rest := by
    have := Bytes.slice?_append (t ++ [lf]) rest []
    simpa [Nat.add_assoc, Nat.add_comm, Nat.add_left_comm] using this
  rw [codeLines?, Bytes.findIdx?_append_cons ht]
  simp only
  split
  · next line rest' hline' hrest' =>
    obtain rfl := Option.some.inj (hline.symm.trans hline')
    obtain rfl := Option.some.inj (hrest.symm.trans hrest')
    cases b.codeLine? t <;> rfl
  · next hnone => exact absurd hrest (hnone t rest hline)

theorem Bounded.codeLines? (h : b.Bounded) (bytes : Bytes) :
    ∃ b', b.codeLines? bytes = some b' ∧ b'.Bounded := by
  induction bytes using Bytes.lineInduction generalizing b with
  | last t ht =>
    rw [codeLines?_of_notMem ht]
    exact h.text? t
  | line t rest ht ih =>
    obtain ⟨b₁, hline, h₁⟩ := h.codeLine? t
    rw [codeLines?_line ht, hline]
    exact ih h₁

theorem Bounded.code? (h : b.Bounded) (bytes : Bytes) :
    ∃ b', b.code? bytes = some b' ∧ b'.Bounded := by
  unfold Buffer.code?
  split
  · exact ⟨_, Bounded.ensure (bounded_append h bytes), bounded_append h bytes⟩
  · exact h.codeLines? bytes

/-- Behind the last line feed of a literal there is no more than the literal itself. -/
theorem literal?_append_cons (hl : b.layout = .compact) (front : Bytes) {tail : Bytes}
    (htail : lf ∉ tail) :
    b.literal? (front ++ lf :: tail) =
      some { b with
        out := b.out ++ (front ++ lf :: tail),
        lineStart := b.out.length + (front.length + 1),
        removal := false, content := true, trailing := false } := by
  have hlast : (front ++ lf :: tail).lastIdx? (· == lf) = some front.length :=
    Bytes.lastIdx?_append_cons front (by simp) fun c hc =>
      beq_eq_false_iff_ne.2 fun heq => htail (heq ▸ hc)
  have hafter : sub? (front ++ lf :: tail).length front.length = some (tail.length + 1) := by
    rw [sub?, List.length_append, List.length_cons, if_pos (Nat.le_add_right _ _),
      Nat.add_sub_cancel_left]
  have htail' : sub? (tail.length + 1) 1 = some tail.length := rfl
  have hstart : sub? (b.out ++ (front ++ lf :: tail)).length tail.length =
      some (b.out.length + (front.length + 1)) := by
    simp only [sub?, List.length_append, List.length_cons]
    rw [if_pos (by omega)]
    congr 1
    omega
  unfold literal?
  simp only [hl, hlast, hafter, htail', hstart, Option.bind_eq_bind, Option.bind_some]
  refine Bounded.ensure ?_
  simp only [Bounded, List.length_append, List.length_cons]
  omega

theorem literal?_of_notMem (hl : b.layout = .compact) (h : b.Bounded) {bytes : Bytes}
    (hbytes : lf ∉ bytes) :
    b.literal? bytes = some { b with out := b.out ++ bytes, content := true, trailing := false } := by
  have hlast : bytes.lastIdx? (· == lf) = none :=
    Bytes.lastIdx?_of_forall fun c hc => beq_eq_false_iff_ne.2 fun heq => hbytes (heq ▸ hc)
  unfold literal?
  simp only [hl, hlast]
  exact Bounded.ensure (bounded_append h bytes)

theorem Bounded.literal? (h : b.Bounded) (bytes : Bytes) :
    ∃ b', b.literal? bytes = some b' ∧ b'.Bounded := by
  have happend := bounded_append h bytes
  cases hl : b.layout with
  | preserve =>
    refine ⟨{ b with out := b.out ++ bytes }, ?_, happend⟩
    unfold Buffer.literal?
    simp only [hl]
    exact Bounded.ensure happend
  | compact =>
    by_cases hbytes : lf ∈ bytes
    · obtain ⟨front, c, tail, rfl, hc, htail⟩ :=
        @Bytes.exists_last_of_mem (· == lf) bytes ⟨lf, hbytes, by simp⟩
      obtain rfl : c = lf := by simpa using hc
      refine ⟨_, literal?_append_cons hl front fun hmem => ?_, ?_⟩
      · simpa using htail lf hmem
      · simp only [Bounded, List.length_append, List.length_cons]
        omega
    · exact ⟨_, literal?_of_notMem hl h hbytes, happend⟩

/-- No call fails on a buffer with its line start in range, and the call leaves such a buffer. -/
theorem Bounded.call? (h : b.Bounded) (c : Call) : ∃ b', b.call? c = some b' ∧ b'.Bounded := by
  cases c with
  | remove => exact h.remove?
  | text bytes => exact h.text? bytes
  | settleLine =>
    obtain ⟨b', dropped, hsettle, h'⟩ := h.settleLine?
    exact ⟨b', congrArg (Option.map _) hsettle, h'⟩
  | endLine terminator => exact h.endLine? terminator
  | code bytes => exact h.code? bytes
  | literal bytes => exact h.literal? bytes

theorem Bounded.calls? (h : b.Bounded) (calls : List Call) :
    ∃ b', calls.foldlM Buffer.call? b = some b' ∧ b'.Bounded := by
  induction calls generalizing b with
  | nil => exact ⟨b, rfl, h⟩
  | cons c calls ih =>
    obtain ⟨b₁, hcall, h₁⟩ := h.call? c
    rw [List.foldlM_cons, hcall]
    exact ih h₁

theorem Bounded.finish? (h : b.Bounded) : ∃ out, b.finish? = some out := by
  obtain ⟨b', dropped, hsettle, -⟩ := h.settleLine?
  unfold Buffer.finish?
  split
  · exact ⟨_, rfl⟩
  · exact ⟨_, congrArg (Option.map _) hsettle⟩

end Bounds

end Buffer

namespace Emitter
open Buffer (Bounded)

/-- The output of an emitter in one piece. In the `preserve` layout no line is begun. -/
def buffer (e : Emitter) : Buffer where
  layout := e.layout
  out := e.output
  lineStart := match e.layout with
    | .preserve => 0
    | .compact => e.settled.size
  removal := e.removal
  content := e.content
  trailing := e.trailing

section Calls
variable {e : Emitter}

theorem bounded_buffer (e : Emitter) : e.buffer.Bounded := by
  unfold buffer Bounded
  cases e.layout with
  | preserve => exact Nat.zero_le _
  | compact => simp [output]

theorem ensure_buffer (e : Emitter) : e.buffer.ensure = some e.buffer :=
  (bounded_buffer e).ensure

theorem buffer_remove (e : Emitter) : e.buffer.remove? = some e.remove.buffer :=
  ensure_buffer e.remove

theorem buffer_text (hl : e.layout = .compact) (t : Bytes) :
    e.buffer.text? t = some (e.text t).buffer := by
  have hout : ∀ e' : Emitter, e'.layout = .compact → e'.settled = e.settled →
      e'.line = e.line ++ t → ({ e'.buffer with out := e.output ++ t } : Buffer) = e'.buffer := by
    intro e' hl' hsettled hline
    simp [buffer, output, hl', hsettled, hline]
  rw [← ensure_buffer]
  unfold Buffer.text? text
  split_ifs
  · rw [← hout { e with line := e.line ++ t, content := true, trailing := false } hl rfl rfl]
    simp [buffer, hl]
  · rw [← hout { e with line := e.line ++ t } hl rfl rfl]
    simp [buffer, hl]

theorem buffer_settleLine (hl : e.layout = .compact) :
    e.buffer.settleLine? =
      some ({ e.buffer with out := e.settled.toList ++ e.settle.1 }, e.settle.2) := by
  have hstart : e.buffer.lineStart = e.settled.toList.length := by simp [buffer, hl]
  exact @Buffer.settleLine?_eq e.buffer _ e.line.toList rfl hstart

theorem buffer_endLine (hl : e.layout = .compact) (term : Bytes) :
    e.buffer.endLine? term = some (e.endLine term).buffer := by
  have hend : (e.endLine term).buffer =
      { layout := e.layout,
        out := e.settled.toList ++ e.settle.1 ++ (if e.settle.2 then [] else term),
        lineStart := (e.settled.toList ++ e.settle.1 ++ (if e.settle.2 then [] else term)).length } := by
    simp [buffer, endLine, output, hl, ← Array.length_toList]
  rw [← ensure_buffer, hend, Buffer.endLine?, buffer_settleLine hl]
  cases e.settle.2 <;> simp [buffer]

theorem buffer_codeLine (hl : e.layout = .compact) (line : Bytes) :
    e.buffer.codeLine? line = some (e.codeLine line).buffer := by
  have hline : ∀ body term, (e.buffer.text? body >>= (·.endLine? term)) =
      some ((e.text body).endLine term).buffer := by
    intro body term
    rw [buffer_text hl, Option.bind_eq_bind, Option.bind_some,
      buffer_endLine (by rw [text_layout, hl])]
  unfold Buffer.codeLine? codeLine
  split_ifs
  · exact hline _ _
  · exact hline _ _

theorem buffer_codeLines (hl : e.layout = .compact) (bytes : Bytes) :
    e.buffer.codeLines? bytes = some (e.code bytes).buffer := by
  induction bytes using Bytes.lineInduction generalizing e with
  | last t ht => rw [Buffer.codeLines?_of_notMem ht, code_of_notMem hl ht, buffer_text hl]
  | line t rest ht ih =>
    rw [Buffer.codeLines?_line ht, code_line hl ht, buffer_codeLine hl, Option.bind_eq_bind,
      Option.bind_some, ih (by rw [codeLine_layout, hl])]

theorem Regular.buffer_append (h : e.Regular) (hl : e.layout = .preserve) (bytes : Bytes) :
    Buffer.ensure { e.buffer with out := e.buffer.out ++ bytes } =
      some ({ e with settled := e.settled ++ bytes } : Emitter).buffer := by
  rw [← ensure_buffer]
  simp [buffer, output, hl, h.preserve hl]

theorem Regular.buffer_code (h : e.Regular) (bytes : Bytes) :
    e.buffer.code? bytes = some (e.code bytes).buffer := by
  cases hl : e.layout with
  | preserve =>
    rw [code_preserve hl, ← h.buffer_append hl, Buffer.code?]
    simp only [buffer, hl]
  | compact =>
    rw [← buffer_codeLines hl, Buffer.code?]
    simp only [buffer, hl]

theorem Regular.buffer_literal (h : e.Regular) (bytes : Bytes) :
    e.buffer.literal? bytes = some (e.literal bytes).buffer := by
  cases hl : e.layout with
  | preserve =>
    rw [literal_preserve hl, ← h.buffer_append hl, Buffer.literal?]
    simp only [buffer, hl]
  | compact =>
    by_cases hbytes : lf ∈ bytes
    · obtain ⟨front, tail, rfl, hfront, htail⟩ := Bytes.exists_last_line hbytes
      obtain ⟨t, rfl⟩ := List.getLast?_eq_some_iff.1 hfront
      rw [literal_append hl hfront htail, List.append_assoc, List.singleton_append,
        Buffer.literal?_append_cons hl t htail]
      simp [buffer, output, hl, ← Array.length_toList]
      omega
    · rw [literal_of_notMem hl hbytes, Buffer.literal?_of_notMem hl (bounded_buffer e) hbytes]
      simp [buffer, output, hl]

theorem buffer_finish (e : Emitter) : e.buffer.finish? = some e.finish := by
  unfold Buffer.finish? finish
  cases hl : e.layout with
  | preserve => simp [buffer, hl]
  | compact =>
    have hlayout : e.buffer.layout = .compact := hl
    rw [hlayout, buffer_settleLine hl]
    rfl

end Calls
end Emitter
end Uncomment
