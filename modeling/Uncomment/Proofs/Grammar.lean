import Mathlib
import Uncomment.Proofs.Partition

/-! The lexical grammar. What opens at a position is said of the bytes from there on, with no
table and no memory of the scan, and where a construct ends is said by the first occurrence of
its end. The scan of a text is the only partition of it into segments of the grammar. -/
namespace Uncomment.Grammar
open Bytes (FirstAt)
open Scan (Opener)

/-- The embedded form opens when the first inner end after it is followed by the last byte of
its closing token. -/
def OpensEmbedded (lang : Language) (s : Bytes) (d : Delimiter) : Prop :=
  lang.embedded = some d ∧ d.opening <+: s ∧
    ∃ inner last i, d.closing = inner ++ [last] ∧ FirstAt inner (s.drop d.opening.length) i ∧
      (s.drop d.opening.length)[i + inner.length]? = some last

/-- The opener at the head of a text, each kind only where no kind before it opens. -/
inductive Opens (lang : Language) (s : Bytes) : Opener → Prop
  | embedded {d} (here : OpensEmbedded lang s d) : Opens lang s (.embedded d)
  | block {d} (noEmbedded : ∀ d, ¬ OpensEmbedded lang s d) (mem : d ∈ lang.blocks)
      (here : d.opening <+: s) : Opens lang s (.block d)
  | line {m} (noEmbedded : ∀ d, ¬ OpensEmbedded lang s d)
      (noBlock : ∀ d ∈ lang.blocks, ¬ d.opening <+: s) (mem : m ∈ lang.lineMarkers)
      (here : m <+: s) : Opens lang s .line
  | quoted {q} (noEmbedded : ∀ d, ¬ OpensEmbedded lang s d)
      (noBlock : ∀ d ∈ lang.blocks, ¬ d.opening <+: s)
      (noLine : ∀ m ∈ lang.lineMarkers, ¬ m <+: s) (mem : q ∈ lang.quotes)
      (here : s.head? = some q.mark) : Opens lang s (.quoted q)

/-- The offsets of a literal's body that no escape has taken with it. -/
inductive Unescaped (q : Quote) (body : Bytes) : Nat → Prop
  | start : Unescaped q body 0
  | next {i b} : Unescaped q body i → body[i]? = some b → q.escape ≠ some b → Unescaped q body (i + 1)
  | skip {i b} : Unescaped q body i → body[i]? = some b → q.escape = some b → Unescaped q body (i + 2)

def MarkAt (q : Quote) (body : Bytes) (i : Nat) : Prop :=
  Unescaped q body i ∧ body[i]? = some q.mark

def BreakAt (q : Quote) (body : Bytes) (i : Nat) : Prop :=
  q.multiline = false ∧ Unescaped q body i ∧ ∃ b, body[i]? = some b ∧ Ascii.isLineEnd b = true

def StopAt (q : Quote) (body : Bytes) (i : Nat) : Prop := MarkAt q body i ∨ BreakAt q body i

/-- The construct that opens at the head of a text is not closed in it. -/
def Unclosed (s : Bytes) : Opener → Prop
  | .line => False
  | .block d | .embedded d => ∀ i, ¬ d.closing <+: (s.drop d.opening.length).drop i
  | .quoted q => ∀ i, ¬ StopAt q (s.drop 1) i

/-- How many bytes the construct that opens at the head of a text takes when it ends there. -/
inductive Closes (s : Bytes) : Opener → Nat → Prop
  | line {n} (inside : ∀ b ∈ s.take n, Ascii.isLineEnd b = false)
      (stop : n = s.length ∨ ∃ b, s[n]? = some b ∧ Ascii.isLineEnd b = true) : Closes s .line n
  | block {d i} (first : FirstAt d.closing (s.drop d.opening.length) i) :
      Closes s (.block d) (d.opening.length + i + d.closing.length)
  | embedded {d i} (first : FirstAt d.closing (s.drop d.opening.length) i) :
      Closes s (.embedded d) (d.opening.length + i + d.closing.length)
  | mark {q i} (here : MarkAt q (s.drop 1) i) (first : ∀ j < i, ¬ StopAt q (s.drop 1) j) :
      Closes s (.quoted q) (1 + i + 1)
  | lineBreak {q i} (here : BreakAt q (s.drop 1) i) (first : ∀ j < i, ¬ StopAt q (s.drop 1) j) :
      Closes s (.quoted q) (1 + i)

/-- A segment of the grammar: code without an opener that runs up to an opener or the end, or a
construct from its opener to its end, unterminated when it has none. -/
inductive Lexed (lang : Language) (s : Bytes) (g : Segment) : Prop
  | code (kind : g.kind = .code) (terminated : g.terminated = true)
      (inside : ∀ i, g.start ≤ i → i < g.stop → ∀ o, ¬ Opens lang (s.drop i) o)
      (maximal : g.stop = s.length ∨ ∃ o, Opens lang (s.drop g.stop) o)
  | closed (o : Opener) (here : Opens lang (s.drop g.start) o) (kind : g.kind = o.kind)
      (terminated : g.terminated = true) (stop : Closes (s.drop g.start) o g.bytes.length)
  | unclosed (o : Opener) (here : Opens lang (s.drop g.start) o) (kind : g.kind = o.kind)
      (terminated : g.terminated = false) (stop : g.stop = s.length)
      (never : Unclosed (s.drop g.start) o)

section Openers
variable {lang : Language}

theorem closesEmbedded_iff (closing body : Bytes) :
    Scan.closesEmbedded closing body = true ↔
      ∃ inner last i, closing = inner ++ [last] ∧ FirstAt inner body i ∧
        body[i + inner.length]? = some last := by
  rcases List.eq_nil_or_concat closing with rfl | ⟨inner, last, rfl⟩
  · simp [Scan.closesEmbedded]
  · simp only [Scan.closesEmbedded, List.concat_eq_append, List.getLast?_concat,
      List.dropLast_concat, List.length_append, List.length_singleton, Nat.add_sub_cancel]
    constructor
    · intro h
      split at h
      · simp at h
      · next i hi =>
        exact ⟨inner, last, i, rfl, Bytes.indexOf?_eq_some.1 hi, by simpa using h⟩
    · rintro ⟨inner', last', i, he, hf, hl⟩
      obtain ⟨rfl, hlast⟩ := List.append_inj' he rfl
      obtain rfl : last = last' := by simpa using hlast
      rw [Bytes.indexOf?_eq_some.2 hf]
      simpa using hl

theorem opensEmbedded_iff {s : Bytes} {d : Delimiter} :
    OpensEmbedded lang s d ↔ Scan.embedded? lang s = some d := by
  rw [OpensEmbedded, ← closesEmbedded_iff, Scan.embedded?, Option.filter_eq_some_iff,
    Bool.and_eq_true, List.isPrefixOf_iff_prefix]

theorem no_opensEmbedded_iff {s : Bytes} :
    (∀ d, ¬ OpensEmbedded lang s d) ↔ Scan.embedded? lang s = none := by
  simp [opensEmbedded_iff, Option.eq_none_iff_forall_ne_some]

/-- In the supported languages two block openers or two quotes are never confused. -/
structure Unambiguous (lang : Language) : Prop where
  blocks : ∀ d ∈ lang.blocks, ∀ e ∈ lang.blocks, d = e
  quotes : ∀ q ∈ lang.quotes, ∀ r ∈ lang.quotes, q.mark = r.mark → q = r
  escape : ∀ q ∈ lang.quotes, q.escape ≠ some q.mark
  breaks : ∀ q ∈ lang.quotes, ∀ b ∈ q.escape, Ascii.isLineEnd b = false
  mark : ∀ q ∈ lang.quotes, Ascii.isLineEnd q.mark = false

theorem unambiguous_of_mem_all (h : lang ∈ Language.all) : Unambiguous lang := by
  simp only [Language.all, List.mem_cons, List.not_mem_nil, or_false] at h
  rcases h with rfl | rfl | rfl | rfl | rfl <;> constructor <;> decide +kernel

theorem no_block_iff {s : Bytes} : (∀ d ∈ lang.blocks, ¬ d.opening <+: s) ↔
    lang.blocks.find? (fun d => d.opening.isPrefixOf s) = none := by
  simp [List.find?_eq_none]

theorem no_line_iff {s : Bytes} :
    (∀ m ∈ lang.lineMarkers, ¬ m <+: s) ↔ ¬ lang.lineMarkers.any (·.isPrefixOf s) := by
  simp

theorem find?_block (hu : Unambiguous lang) {s : Bytes} {d : Delimiter} (hd : d ∈ lang.blocks)
    (hp : d.opening <+: s) : lang.blocks.find? (fun d => d.opening.isPrefixOf s) = some d := by
  obtain ⟨e, he⟩ : ∃ e, lang.blocks.find? (fun d => d.opening.isPrefixOf s) = some e := by
    rw [← Option.isSome_iff_exists, List.find?_isSome]
    exact ⟨d, hd, List.isPrefixOf_iff_prefix.2 hp⟩
  rw [he, hu.blocks e (List.mem_of_find?_eq_some he) d hd]

theorem find?_quote (hu : Unambiguous lang) {q : Quote} (hq : q ∈ lang.quotes) :
    lang.quotes.find? (·.mark == q.mark) = some q := by
  obtain ⟨r, hr⟩ : ∃ r, lang.quotes.find? (·.mark == q.mark) = some r := by
    rw [← Option.isSome_iff_exists, List.find?_isSome]
    exact ⟨q, hq, by simp⟩
  rw [hr, hu.quotes r (List.mem_of_find?_eq_some hr) q hq (by simpa using List.find?_some hr)]

theorem Opens.opener?_eq (hu : Unambiguous lang) {s : Bytes} {o : Opener} (h : Opens lang s o) :
    Scan.opener? lang s = some o := by
  cases h with
  | embedded h => simp [Scan.opener?, opensEmbedded_iff.1 h]
  | block he hd hp => simp only [Scan.opener?, no_opensEmbedded_iff.1 he, find?_block hu hd hp]
  | line he hb hm hp =>
    have hany : lang.lineMarkers.any (·.isPrefixOf s) = true :=
      List.any_eq_true.2 ⟨_, hm, List.isPrefixOf_iff_prefix.2 hp⟩
    simp only [Scan.opener?, no_opensEmbedded_iff.1 he, no_block_iff.1 hb, hany, if_true]
  | quoted he hb hm hq hp =>
    simp only [Scan.opener?, no_opensEmbedded_iff.1 he, no_block_iff.1 hb, if_neg (no_line_iff.1 hm), hp]
    simp [find?_quote hu hq]

theorem opens_of_opener? {s : Bytes} {o : Opener} (h : Scan.opener? lang s = some o) :
    Opens lang s o := by
  unfold Scan.opener? at h
  split at h
  · next d hd =>
    obtain rfl := Option.some.inj h
    exact .embedded (opensEmbedded_iff.2 hd)
  · next he =>
    split at h
    · next d hd =>
      obtain rfl := Option.some.inj h
      have hp := List.find?_some hd
      exact .block (no_opensEmbedded_iff.2 he) (List.mem_of_find?_eq_some hd)
        (List.isPrefixOf_iff_prefix.1 hp)
    · next hb =>
      split_ifs at h with hm
      · obtain rfl := Option.some.inj h
        obtain ⟨m, hm, hp⟩ := List.any_eq_true.1 hm
        exact .line (no_opensEmbedded_iff.2 he) (no_block_iff.2 hb) hm (List.isPrefixOf_iff_prefix.1 hp)
      · obtain ⟨b, hb', hq⟩ := Option.bind_eq_some_iff.1 h
        obtain ⟨q, hf, rfl⟩ := Option.map_eq_some_iff.1 hq
        have hmark : q.mark = b := by simpa using List.find?_some hf
        exact .quoted (no_opensEmbedded_iff.2 he) (no_block_iff.2 hb) (no_line_iff.2 hm)
          (List.mem_of_find?_eq_some hf) (by rw [hb', hmark])

theorem opens_iff (hu : Unambiguous lang) {s : Bytes} {o : Opener} :
    Opens lang s o ↔ Scan.opener? lang s = some o :=
  ⟨Opens.opener?_eq hu, opens_of_opener?⟩

theorem no_opens_iff (hu : Unambiguous lang) {s : Bytes} :
    (∀ o, ¬ Opens lang s o) ↔ Scan.opener? lang s = none := by
  simp [opens_iff hu, Option.eq_none_iff_forall_ne_some]

end Openers

section Literals
variable {q : Quote}

def width (q : Quote) (b : UInt8) : Nat := if q.escape = some b then 2 else 1

theorem unescaped_cons {b : UInt8} {rest : Bytes} {j : Nat} :
    Unescaped q (b :: rest) j ↔
      j = 0 ∨ ∃ i, j = i + width q b ∧ Unescaped q ((b :: rest).drop (width q b)) i := by
  constructor
  · intro h
    induction h with
    | start => exact .inl rfl
    | @next i c _ hc he ih =>
      rcases ih with rfl | ⟨k, rfl, hk⟩
      · obtain rfl : b = c := by simpa using hc
        exact .inr ⟨0, by simp [width, he], .start⟩
      · exact .inr ⟨k + 1, by omega, .next hk (by rwa [List.getElem?_drop, Nat.add_comm]) he⟩
    | @skip i c _ hc he ih =>
      rcases ih with rfl | ⟨k, rfl, hk⟩
      · obtain rfl : b = c := by simpa using hc
        exact .inr ⟨0, by simp [width, he], .start⟩
      · exact .inr ⟨k + 2, by omega, .skip hk (by rwa [List.getElem?_drop, Nat.add_comm]) he⟩
  · rintro (rfl | ⟨i, rfl, hi⟩)
    · exact .start
    · induction hi with
      | start =>
        unfold width
        split_ifs with hb
        · exact .skip .start (by simp) hb
        · exact .next .start (by simp) hb
      | @next k c _ hc he ih =>
        rw [List.getElem?_drop, Nat.add_comm] at hc
        exact Nat.add_right_comm k _ 1 ▸ .next ih hc he
      | @skip k c _ hc he ih =>
        rw [List.getElem?_drop, Nat.add_comm] at hc
        exact Nat.add_right_comm k _ 2 ▸ .skip ih hc he

/-- Stops inside a body are the stop at its first byte and the stops of what follows that byte. -/
theorem stopAt_cons {b : UInt8} {rest : Bytes} {j : Nat} :
    StopAt q (b :: rest) j ↔
      (j = 0 ∧ (b = q.mark ∨ q.multiline = false ∧ Ascii.isLineEnd b = true)) ∨
      ∃ i, j = i + width q b ∧ StopAt q ((b :: rest).drop (width q b)) i := by
  simp only [StopAt, MarkAt, BreakAt, unescaped_cons]
  constructor
  · rintro (⟨rfl | ⟨i, rfl, hi⟩, hm⟩ | ⟨hl, rfl | ⟨i, rfl, hi⟩, c, hc, he⟩)
    · exact .inl ⟨rfl, .inl (by simpa using hm)⟩
    · exact .inr ⟨i, rfl, .inl ⟨hi, by rwa [List.getElem?_drop, Nat.add_comm]⟩⟩
    · obtain rfl : b = c := by simpa using hc
      exact .inl ⟨rfl, .inr ⟨hl, he⟩⟩
    · exact .inr ⟨i, rfl, .inr ⟨hl, hi, c, by rwa [List.getElem?_drop, Nat.add_comm], he⟩⟩
  · rintro (⟨rfl, rfl | ⟨hl, he⟩⟩ | ⟨i, rfl, ⟨hi, hm⟩ | ⟨hl, hi, c, hc, he⟩⟩)
    · exact .inl ⟨.inl rfl, by simp⟩
    · exact .inr ⟨hl, .inl rfl, b, by simp, he⟩
    · exact .inl ⟨.inr ⟨i, rfl, hi⟩, by rwa [List.getElem?_drop, Nat.add_comm] at hm⟩
    · exact .inr ⟨hl, .inr ⟨i, rfl, hi⟩, c, by rwa [List.getElem?_drop, Nat.add_comm] at hc, he⟩

/-- The extent of a literal's body is measured by its first stop. -/
inductive Measures (q : Quote) (body : Bytes) : Scan.Extent → Prop
  | mark {i} : MarkAt q body i → (∀ j < i, ¬ StopAt q body j) → Measures q body ⟨i + 1, true⟩
  | lineBreak {i} : BreakAt q body i → (∀ j < i, ¬ StopAt q body j) → Measures q body ⟨i, true⟩
  | unclosed : (∀ j, ¬ StopAt q body j) → Measures q body ⟨body.length, false⟩

theorem Measures.cons {b : UInt8} {rest : Bytes} {e : Scan.Extent}
    (h : Measures q ((b :: rest).drop (width q b)) e) (hw : width q b ≤ (b :: rest).length)
    (hm : b ≠ q.mark) (hl : ¬ (q.multiline = false ∧ Ascii.isLineEnd b = true)) :
    Measures q (b :: rest) (e.grow (width q b)) := by
  have hstop : ∀ {j}, StopAt q (b :: rest) j →
      ∃ i, j = i + width q b ∧ StopAt q ((b :: rest).drop (width q b)) i := by
    intro j hj
    rcases stopAt_cons.1 hj with ⟨-, h | h⟩ | h
    · exact absurd h hm
    · exact absurd h hl
    · exact h
  have hfirst : ∀ {i}, (∀ j < i, ¬ StopAt q ((b :: rest).drop (width q b)) j) →
      ∀ j < i + width q b, ¬ StopAt q (b :: rest) j := by
    intro i hi j hj hs
    obtain ⟨k, rfl, hk⟩ := hstop hs
    exact hi k (by omega) hk
  cases h with
  | @mark i hi hf =>
    have hmark : MarkAt q (b :: rest) (i + width q b) :=
      ⟨unescaped_cons.2 (.inr ⟨i, rfl, hi.1⟩), by rw [← hi.2, List.getElem?_drop, Nat.add_comm]⟩
    have hm := Measures.mark hmark (hfirst hf)
    rwa [Nat.add_right_comm] at hm
  | @lineBreak i hi hf =>
    obtain ⟨hml, hu, c, hc, he⟩ := hi
    rw [List.getElem?_drop, Nat.add_comm] at hc
    exact .lineBreak ⟨hml, unescaped_cons.2 (.inr ⟨i, rfl, hu⟩), c, hc, he⟩ (hfirst hf)
  | unclosed hf =>
    have hlen : ((b :: rest).drop (width q b)).length + width q b = (b :: rest).length := by
      rw [List.length_drop]
      omega
    rw [Scan.Extent.grow, hlen]
    refine .unclosed fun j hj => ?_
    obtain ⟨k, rfl, hk⟩ := hstop hj
    exact hf k hk

theorem not_stopAt_nil {j : Nat} : ¬ StopAt q [] j := by
  simp [StopAt, MarkAt, BreakAt]

theorem measures_literalExtent (he : q.escape ≠ some q.mark)
    (hb : ∀ b ∈ q.escape, Ascii.isLineEnd b = false) (body : Bytes) :
    Measures q body (Scan.literalExtent q body) := by
  have hesc : ∀ {b}, q.escape = some b →
      b ≠ q.mark ∧ ¬ (q.multiline = false ∧ Ascii.isLineEnd b = true) := by
    intro b h
    exact ⟨fun hm => he (hm ▸ h), fun hl => by simp [hb b h] at hl⟩
  fun_induction Scan.literalExtent q body with
  | case1 => exact .unclosed fun j => not_stopAt_nil
  | case2 b h =>
    refine .unclosed fun j hj => ?_
    rcases stopAt_cons.1 hj with ⟨-, hm | hl⟩ | ⟨i, -, hi⟩
    · exact (hesc h).1 hm
    · exact (hesc h).2 hl
    · rw [width, if_pos h] at hi
      exact not_stopAt_nil hi
  | case3 b h c rest ih =>
    have hw : width q b = 2 := if_pos h
    have hc := @Measures.cons q b (c :: rest) _ (by rwa [hw]) (by simp [hw])
      (hesc h).1 (hesc h).2
    rwa [hw] at hc
  | case4 b rest h hm =>
    obtain rfl : b = q.mark := by simpa using hm
    exact .mark ⟨.start, by simp⟩ (by simp)
  | case5 b rest h hm hl =>
    simp only [Bool.and_eq_true, Bool.not_eq_true'] at hl
    exact .lineBreak ⟨hl.1, .start, b, by simp, hl.2⟩ (by simp)
  | case6 b rest h hm hl ih =>
    have hw : width q b = 1 := if_neg h
    have hc := @Measures.cons q b rest _ (by rwa [hw]) (by simp [hw])
      (by simpa using hm) (by simpa using hl)
    rwa [hw] at hc

theorem first_stop_unique {body : Bytes} {i j : Nat} (hi : StopAt q body i) (hj : StopAt q body j)
    (hfi : ∀ k < i, ¬ StopAt q body k) (hfj : ∀ k < j, ¬ StopAt q body k) : i = j := by
  rcases Nat.lt_trichotomy i j with h | h | h
  · exact absurd hi (hfj i h)
  · exact h
  · exact absurd hj (hfi j h)

theorem Measures.unique {body : Bytes} {e f : Scan.Extent} (hm : Ascii.isLineEnd q.mark = false)
    (he : Measures q body e) (hf : Measures q body f) : e = f := by
  have hne : ∀ {i}, MarkAt q body i → ¬ BreakAt q body i := by
    rintro i ⟨-, hmark⟩ ⟨-, -, b, hb, hl⟩
    obtain rfl : q.mark = b := by simpa [hmark] using hb
    simp [hm] at hl
  cases he with
  | mark hi hfi =>
    cases hf with
    | mark hj hfj => rw [first_stop_unique (.inl hi) (.inl hj) hfi hfj]
    | lineBreak hj hfj =>
      exact absurd hj (first_stop_unique (.inl hi) (.inr hj) hfi hfj ▸ hne hi)
    | unclosed hn => exact absurd (.inl hi) (hn _)
  | lineBreak hi hfi =>
    cases hf with
    | mark hj hfj => exact absurd hi (first_stop_unique (.inr hi) (.inl hj) hfi hfj ▸ hne hj)
    | lineBreak hj hfj => rw [first_stop_unique (.inr hi) (.inr hj) hfi hfj]
    | unclosed hn => exact absurd (.inr hi) (hn _)
  | unclosed hn =>
    cases hf with
    | mark hj => exact absurd (.inl hj) (hn _)
    | lineBreak hj => exact absurd (.inr hj) (hn _)
    | unclosed => rfl

end Literals

section Ends
variable {lang : Language} {s : Bytes}

theorem takeWhile_length_iff {n : Nat} :
    (s.takeWhile (!Ascii.isLineEnd ·)).length = n ↔
      (∀ b ∈ s.take n, Ascii.isLineEnd b = false) ∧
        (n = s.length ∨ ∃ b, s[n]? = some b ∧ Ascii.isLineEnd b = true) := by
  induction s generalizing n with
  | nil => cases n <;> simp
  | cons b rest ih =>
    cases hb : Ascii.isLineEnd b with
    | true => cases n <;> simp [hb]
    | false =>
      cases n with
      | zero => simp [hb]
      | succ n => simp [hb, ih]

/-- A bracketed comment is measured by the first end behind its opening. -/
theorem blockExtent_closed_iff {d : Delimiter} {n : Nat} : Scan.blockExtent d s = ⟨n, true⟩ ↔
    ∃ i, FirstAt d.closing (s.drop d.opening.length) i ∧
      d.opening.length + i + d.closing.length = n := by
  unfold Scan.blockExtent
  cases hi : Bytes.indexOf? d.closing (s.drop d.opening.length) with
  | some i =>
    have hf := Bytes.indexOf?_eq_some.1 hi
    simp only [Scan.Extent.mk.injEq, and_true]
    constructor
    · exact fun h => ⟨i, hf, h⟩
    · rintro ⟨j, hj, hn⟩
      rwa [hf.unique hj]
  | none =>
    simp only [Scan.Extent.mk.injEq, Bool.false_eq_true, and_false, false_iff, not_exists, not_and]
    exact fun i hf => absurd hf.1 (Bytes.indexOf?_eq_none.1 hi i)

theorem blockExtent_unclosed_iff {d : Delimiter} : Scan.blockExtent d s = ⟨s.length, false⟩ ↔
    ∀ i, ¬ d.closing <+: (s.drop d.opening.length).drop i := by
  unfold Scan.blockExtent
  cases hi : Bytes.indexOf? d.closing (s.drop d.opening.length) with
  | some i => simpa using ⟨i, by simpa using (Bytes.indexOf?_eq_some.1 hi).1⟩
  | none => exact iff_of_true rfl (Bytes.indexOf?_eq_none.1 hi)

theorem blockExtent_of_unterminated {d : Delimiter} (h : (Scan.blockExtent d s).terminated = false) :
    Scan.blockExtent d s = ⟨s.length, false⟩ := by
  unfold Scan.blockExtent at h ⊢
  cases hi : Bytes.indexOf? d.closing (s.drop d.opening.length) with
  | some i => simp [hi] at h
  | none => rfl

section Quoted
variable {q : Quote} (hu : Unambiguous lang) (hq : q ∈ lang.quotes)
include hu hq

/-- A literal is measured by its first stop. -/
theorem quotedExtent_closed_iff {n : Nat} :
    Closes s (.quoted q) n ↔ (Scan.Opener.quoted q).extent s = ⟨n, true⟩ := by
  have hmeasures := measures_literalExtent (hu.escape q hq) (hu.breaks q hq) (s.drop 1)
  rw [Scan.Opener.extent, Scan.Extent.grow, Scan.Extent.mk.injEq]
  constructor
  · intro h
    cases h with
    | mark hi hf =>
      rw [Measures.unique (hu.mark q hq) hmeasures (.mark hi hf)]
      exact ⟨by simp only; omega, rfl⟩
    | lineBreak hi hf =>
      rw [Measures.unique (hu.mark q hq) hmeasures (.lineBreak hi hf)]
      exact ⟨Nat.add_comm _ _, rfl⟩
  · rintro ⟨hn, ht⟩
    generalize Scan.literalExtent q (s.drop 1) = e at hmeasures hn ht
    cases hmeasures with
    | @mark i hi hf =>
      rw [← hn, show i + 1 + 1 = 1 + i + 1 by omega]
      exact .mark hi hf
    | @lineBreak i hi hf =>
      rw [← hn, Nat.add_comm]
      exact .lineBreak hi hf
    | unclosed => simp at ht

theorem quotedExtent_of_unclosed (hb : s.head? = some q.mark) (h : Unclosed s (.quoted q)) :
    (Scan.Opener.quoted q).extent s = ⟨s.length, false⟩ := by
  have hmeasures := measures_literalExtent (hu.escape q hq) (hu.breaks q hq) (s.drop 1)
  have hlen : (s.drop 1).length + 1 = s.length := by
    cases s <;> simp_all
  rw [Scan.Opener.extent, Measures.unique (hu.mark q hq) hmeasures (.unclosed h), Scan.Extent.grow, hlen]

theorem unclosed_of_unterminated (h : ((Scan.Opener.quoted q).extent s).terminated = false) :
    Unclosed s (.quoted q) := by
  have hmeasures := measures_literalExtent (hu.escape q hq) (hu.breaks q hq) (s.drop 1)
  rw [Scan.Opener.extent] at h
  generalize Scan.literalExtent q (s.drop 1) = e at hmeasures h
  cases hmeasures with
  | mark => simp [Scan.Extent.grow] at h
  | lineBreak => simp [Scan.Extent.grow] at h
  | unclosed hn => exact hn

end Quoted

/-- A construct has an end exactly when its extent is terminated, and the two agree. -/
theorem closes_iff (hu : Unambiguous lang) {o : Opener} (ho : Opens lang s o) {n : Nat} :
    Closes s o n ↔ o.extent s = ⟨n, true⟩ := by
  cases ho with
  | embedded h =>
    rw [Scan.Opener.extent, blockExtent_closed_iff]
    constructor
    · intro h
      cases h with
      | embedded h => exact ⟨_, h, rfl⟩
    · rintro ⟨i, h, hn⟩
      exact hn ▸ .embedded h
  | block _ _ _ =>
    rw [Scan.Opener.extent, blockExtent_closed_iff]
    constructor
    · intro h
      cases h with
      | block h => exact ⟨_, h, rfl⟩
    · rintro ⟨i, h, hn⟩
      exact hn ▸ .block h
  | line _ _ _ _ =>
    rw [Scan.Opener.extent, Scan.lineExtent, Scan.Extent.mk.injEq, takeWhile_length_iff]
    simp only [and_true]
    constructor
    · intro h
      cases h with
      | line inside stop => exact ⟨inside, stop⟩
    · exact fun h => .line h.1 h.2
  | quoted _ _ _ hq _ => exact quotedExtent_closed_iff hu hq

theorem unclosed_iff (hu : Unambiguous lang) {o : Opener} (ho : Opens lang s o) :
    Unclosed s o ↔ o.extent s = ⟨s.length, false⟩ := by
  cases ho with
  | embedded h => exact blockExtent_unclosed_iff.symm
  | block _ _ _ => exact blockExtent_unclosed_iff.symm
  | line _ _ _ _ => simp [Unclosed, Scan.Opener.extent, Scan.lineExtent]
  | quoted _ _ _ hq hb =>
    exact ⟨quotedExtent_of_unclosed hu hq hb,
      fun h => unclosed_of_unterminated hu hq (congrArg Scan.Extent.terminated h)⟩

theorem extent_of_unterminated (hu : Unambiguous lang) {o : Opener} (ho : Opens lang s o)
    (ht : (o.extent s).terminated = false) : o.extent s = ⟨s.length, false⟩ := by
  cases ho with
  | embedded h => exact blockExtent_of_unterminated ht
  | block _ _ _ => exact blockExtent_of_unterminated ht
  | line _ _ _ _ => simp [Scan.Opener.extent, Scan.lineExtent] at ht
  | quoted _ _ _ hq hb =>
    exact quotedExtent_of_unclosed hu hq hb (unclosed_of_unterminated hu hq ht)

end Ends

section Segments
variable {lang : Language}

theorem codeLength_eq_iff (hs : lang.Scannable) {t : Bytes} {n : Nat} :
    Scan.codeLength lang t = n ↔
      n ≤ t.length ∧ (∀ i < n, Scan.opener? lang (t.drop i) = none) ∧
        (n = t.length ∨ ∃ o, Scan.opener? lang (t.drop n) = some o) := by
  induction t generalizing n with
  | nil =>
    simp only [Scan.codeLength, List.length_nil, List.drop_nil, Scan.opener?_nil hs]
    constructor
    · rintro rfl
      simp
    · rintro ⟨hn, -⟩
      omega
  | cons b rest ih =>
    cases ho : Scan.opener? lang (b :: rest) with
    | some o =>
      rw [Scan.codeLength_of_some hs ho]
      constructor
      · rintro rfl
        exact ⟨Nat.zero_le _, by simp, .inr ⟨o, ho⟩⟩
      · rintro ⟨-, hn, -⟩
        by_contra hne
        have := hn 0 (by omega)
        simp [ho] at this
    | none =>
      rw [Scan.codeLength_of_none ho]
      cases n with
      | zero => simp [ho]
      | succ n =>
        rw [Nat.add_right_cancel_iff, ih]
        simp only [List.length_cons, Nat.add_le_add_iff_right, Nat.add_right_cancel_iff,
          List.drop_succ_cons]
        refine and_congr_right fun _ => and_congr_left fun _ => ?_
        constructor
        · intro h i hi
          cases i with
          | zero => exact ho
          | succ i => exact h i (by omega)
        · exact fun h i hi => h (i + 1) (by omega)

/-- A segment of the grammar is the lexeme that the scan cuts off at its start. -/
theorem Lexed.toLexeme_eq (hs : lang.Scannable) (hu : Unambiguous lang) {s : Bytes} {g : Segment}
    (h : Lexed lang s g) (hne : g.bytes ≠ []) (hle : g.stop ≤ s.length)
    (hbytes : (s.drop g.start).take g.bytes.length = g.bytes) :
    g.toLexeme = Scan.first lang (s.drop g.start) := by
  have hpos := List.length_pos_iff.2 hne
  have hstop : g.stop = g.start + g.bytes.length := rfl
  have hfirst : Scan.head lang (s.drop g.start) = (g.kind, ⟨g.bytes.length, g.terminated⟩) := by
    cases h with
    | code kind terminated inside maximal =>
      have hnone := (no_opens_iff hu).1 (inside g.start le_rfl (by omega))
      have hlen : Scan.codeLength lang (s.drop g.start) = g.bytes.length := by
        rw [codeLength_eq_iff hs]
        refine ⟨by simp only [List.length_drop]; omega, fun i hi => ?_, ?_⟩
        · rw [List.drop_drop]
          exact (no_opens_iff hu).1 (inside _ (by omega) (by omega))
        · rcases maximal with hend | ⟨o, ho⟩
          · exact .inl (by simp only [List.length_drop]; omega)
          · exact .inr ⟨o, by rw [List.drop_drop, ← hstop]; exact (opens_iff hu).1 ho⟩
      rw [Scan.head_of_none hnone, hlen, kind, terminated]
    | closed o here kind terminated stop =>
      rw [Scan.head_of_some ((opens_iff hu).1 here), (closes_iff hu here).1 stop, kind, terminated]
    | unclosed o here kind terminated stop never =>
      have hlen : (s.drop g.start).length = g.bytes.length := by
        simp only [List.length_drop]
        omega
      rw [Scan.head_of_some ((opens_iff hu).1 here), (unclosed_iff hu here).1 never, hlen, kind,
        terminated]
  rw [Scan.first, hfirst]
  simp only [hbytes]

/-- The lexeme that the scan cuts off at a position is a segment of the grammar. -/
theorem lexed_place_first (hs : lang.Scannable) (hu : Unambiguous lang) {s : Bytes} {start : Nat}
    (line : Nat) (hlt : start < s.length) :
    Lexed lang s (Segment.place start line (Scan.first lang (s.drop start))) := by
  have hne : s.drop start ≠ [] := by simpa using hlt
  have hlen := Scan.length_first hs (s.drop start)
  have hle := Scan.head_length_le hs (s.drop start)
  rw [List.length_drop] at hle
  cases ho : Scan.opener? lang (s.drop start) with
  | none =>
    have hhead := Scan.head_of_none ho
    obtain ⟨-, hinside, hmax⟩ := (codeLength_eq_iff hs).1 (rfl : Scan.codeLength lang (s.drop start) = _)
    simp only [hhead] at hlen hle
    refine .code (by simp [Scan.first, hhead]) (by simp [Scan.first, hhead]) ?_ ?_
    · intro i hi hstop
      rw [Segment.place_start] at hi
      rw [Segment.place_stop, hlen] at hstop
      have hi' := hinside (i - start) (by omega)
      rw [List.drop_drop, Nat.add_sub_of_le hi] at hi'
      exact (no_opens_iff hu).2 hi'
    · rw [Segment.place_stop, hlen]
      rcases hmax with hend | ⟨o, hmax⟩
      · rw [List.length_drop] at hend
        exact .inl (by omega)
      · rw [List.drop_drop] at hmax
        exact .inr ⟨o, (opens_iff hu).2 hmax⟩
  | some o =>
    have hhead := Scan.head_of_some ho
    have hopens := (opens_iff hu).2 ho
    rw [hhead] at hlen hle
    cases ht : (o.extent (s.drop start)).terminated with
    | true =>
      refine .closed o hopens (by simp [Scan.first, hhead]) (by simp [Scan.first, hhead, ht]) ?_
      rw [Segment.place_start, closes_iff hu hopens, Segment.place_toLexeme, hlen, ← ht]
    | false =>
      have hextent := extent_of_unterminated hu hopens ht
      refine .unclosed o hopens (by simp [Scan.first, hhead]) (by simp [Scan.first, hhead, ht]) ?_
        ((unclosed_iff hu hopens).2 hextent)
      rw [Segment.place_stop, hlen, hextent, List.length_drop]
      exact Nat.add_sub_of_le hlt.le

theorem lexed_of_mem_scan (hs : lang.Scannable) (hu : Unambiguous lang) {s : Bytes} {g : Segment}
    (hg : g ∈ scan lang s) : Lexed lang s g := by
  obtain ⟨before, l, after, hsplit, rfl⟩ := Segment.mem_placeAll hg
  obtain ⟨hne, rfl⟩ := Scan.eq_first_of_lexemes hs hsplit
  rw [Nat.zero_add]
  refine lexed_place_first hs hu _ ?_
  by_contra hge
  exact hne (List.drop_eq_nil_iff.2 (by omega))

/-- What is left of a partition into segments of the grammar is the scan of what is left. -/
theorem eq_placeAll_of_lexed (hs : lang.Scannable) (hu : Unambiguous lang) {s : Bytes}
    {segments gs : List Segment} {pos : Nat} (hp : Partitions segments s)
    (hl : ∀ g ∈ segments, Lexed lang s g) (hsub : ∀ g ∈ gs, g ∈ segments)
    (hchain : gs.IsChain fun g h => g.stop = h.start) (hpos : ∀ g ∈ gs.head?, g.start = pos)
    (hflat : gs.flatMap (·.bytes) = s.drop pos) :
    gs = Segment.placeAll pos (1 + (s.take pos).count Ascii.lf) (Scan.lexemes lang (s.drop pos)) := by
  induction gs generalizing pos with
  | nil =>
    rw [← hflat]
    simp [Segment.placeAll]
  | cons g gs ih =>
    obtain rfl := hpos g rfl
    have hg := hsub g (by simp)
    have hne := hp.nonempty g hg
    have hbytes := hp.bytes_eq hg
    have hfirst := (hl g hg).toLexeme_eq hs hu hne (hp.slice g hg).1 hbytes
    have hdrop : s.drop g.start ≠ [] := by
      rw [← hflat]
      simp [hne]
    have htake : s.take g.stop = s.take g.start ++ g.bytes := by
      rw [Segment.stop, List.take_add, hbytes]
    have hlen : (Scan.head lang (s.drop g.start)).2.length = g.bytes.length := by
      rw [← Scan.length_first hs, ← hfirst]
    have htail := @ih g.stop (fun h hh => hsub h (by simp [hh])) hchain.tail
      (fun h hh => (hchain.rel_head? hh).symm) (by
        have hcut := congrArg (List.drop g.bytes.length) hflat
        simpa [List.drop_drop, Segment.stop] using hcut)
    rw [htake, List.count_append, ← Nat.add_assoc] at htail
    rw [Scan.lexemes_of_ne_nil hs hdrop, Segment.placeAll, ← hfirst, hlen, List.drop_drop,
      ← hp.eq_place hg]
    exact congrArg (g :: ·) htail

/-- Two code segments never meet: the second would begin with an opener. -/
theorem no_adjacent_code {s : Bytes} {segments : List Segment} (hp : Partitions segments s)
    (hl : ∀ g ∈ segments, Lexed lang s g) :
    segments.IsChain fun g h => ¬ (g.kind = .code ∧ h.kind = .code) := by
  have hopener : ∀ {g : Segment} {o : Opener}, g.kind = o.kind → g.kind ≠ .code :=
    fun h => h ▸ Opener.kind_ne_code _
  refine hp.contiguous.imp_of_mem_imp fun g h hg hh hgh hcode => ?_
  have hlt := List.length_pos_iff.2 (hp.nonempty h hh)
  have hend := (hp.slice h hh).1
  have hstop : h.stop = h.start + h.bytes.length := rfl
  cases hl g hg with
  | closed o _ kind => exact hopener kind hcode.1
  | unclosed o _ kind => exact hopener kind hcode.1
  | code _ _ _ maximal =>
    rcases maximal with hmax | ⟨o, ho⟩
    · omega
    · cases hl h hh with
      | closed o _ kind => exact hopener kind hcode.2
      | unclosed o _ kind => exact hopener kind hcode.2
      | code _ _ inside => exact inside h.start le_rfl (by omega) o (hgh ▸ ho)

/-- A segment is unterminated when a construct opens at its start that the text does not close. -/
theorem Lexed.terminated_eq_false_iff (hu : Unambiguous lang) {s : Bytes} {g : Segment}
    (h : Lexed lang s g) (hne : g.bytes ≠ []) :
    g.terminated = false ↔ ∃ o, Opens lang (s.drop g.start) o ∧ Unclosed (s.drop g.start) o := by
  have hpos := List.length_pos_iff.2 hne
  have hstop : g.stop = g.start + g.bytes.length := rfl
  cases h with
  | code _ terminated inside _ =>
    simp only [terminated, Bool.true_eq_false, false_iff, not_exists, not_and]
    exact fun o ho => absurd ho (inside g.start le_rfl (by omega) o)
  | closed o here _ terminated stop =>
    simp only [terminated, Bool.true_eq_false, false_iff, not_exists, not_and]
    intro o' ho' hnever
    obtain rfl : o = o' :=
      Option.some.inj (((opens_iff hu).1 here).symm.trans ((opens_iff hu).1 ho'))
    have := ((closes_iff hu here).1 stop).symm.trans ((unclosed_iff hu here).1 hnever)
    simp at this
  | unclosed o here _ terminated _ never =>
    exact iff_of_true terminated ⟨o, here, never⟩

end Segments
end Uncomment.Grammar

namespace Uncomment

/-- The scan of a text is the one partition of it into segments of the lexical grammar. In it two
code segments are never neighbours, and the unterminated segments are those of the constructs
that the text does not close. -/
theorem scan_lexes (lang : Language) (hlang : lang ∈ Language.all) (s : Bytes) :
    (∀ segments : List Segment, segments = scan lang s ↔
      Partitions segments s ∧ ∀ g ∈ segments, Grammar.Lexed lang s g) ∧
    ((scan lang s).IsChain fun g h => ¬ (g.kind = .code ∧ h.kind = .code)) ∧
    ∀ g ∈ scan lang s, (g.terminated = false ↔
      ∃ o, Grammar.Opens lang (s.drop g.start) o ∧ Grammar.Unclosed (s.drop g.start) o) := by
  have hs := Language.scannable_of_mem_all hlang
  have hu := Grammar.unambiguous_of_mem_all hlang
  have hp : Partitions (scan lang s) s :=
    Scan.partitions_placeAll (Scan.flatMap_lexemes hs s) (Scan.lexemes_ne_nil hs s)
  have hl : ∀ g ∈ scan lang s, Grammar.Lexed lang s g :=
    fun g hg => Grammar.lexed_of_mem_scan hs hu hg
  refine ⟨fun segments => ⟨?_, ?_⟩, Grammar.no_adjacent_code hp hl, fun g hg => ?_⟩
  · rintro rfl
    exact ⟨hp, hl⟩
  · rintro ⟨hpart, hlexed⟩
    simpa [scan] using Grammar.eq_placeAll_of_lexed hs hu hpart hlexed (fun _ h => h)
      hpart.contiguous hpart.first (by simpa using hpart.concat)
  · exact (hl g hg).terminated_eq_false_iff hu (hp.nonempty g hg)

/-- A markup comment before a literal that the end of the text cuts off. -/
theorem scan_lexes_tsx :
    Language.tsx ∈ Language.all ∧
      ∀ segments : List Segment, segments = scan Language.tsx (Bytes.ofText "x{/* a */}'b") ↔
        Partitions segments (Bytes.ofText "x{/* a */}'b") ∧
          ∀ g ∈ segments, Grammar.Lexed Language.tsx (Bytes.ofText "x{/* a */}'b") g :=
  have hlang : Language.tsx ∈ Language.all := by simp [Language.all]
  ⟨hlang, (scan_lexes Language.tsx hlang (Bytes.ofText "x{/* a */}'b")).1⟩

end Uncomment
