import Mathlib
import Uncomment.Proofs.Quiet

/-! Stripping twice. Where the embedded form exists, taking comments out can put braces around a
comment, which the next scan reads as one comment with them, and it can leave a slash before a
comment that stays, which the next scan reads as a line comment. Without such a seam the output is
stripped already. -/
namespace Uncomment
open Ascii
open Bytes (FirstAt)

namespace Atom
open Scan Strip

/-- Braces around a block comment become one comment with it. -/
inductive Absorbs : List Atom → List Atom → Prop
  | nil : Absorbs [] []
  | cons (a : Atom) {A A' : List Atom} : Absorbs A A' → Absorbs (a :: A) (a :: A')
  | braces {l : Lexeme} {A A' : List Atom} (comment : l.isComment = true) : Absorbs A A' →
      Absorbs (byte openBrace :: whole l :: byte closeBrace :: A)
        (whole ⟨.embeddedComment, openBrace :: (l.bytes ++ [closeBrace]), true⟩ :: A')

section Markup
variable {lang : Language} {l : Lexeme} {next : Option UInt8}

theorem kind_of_opening (hc : lang.CLike) (h : Stands lang l next) {t : Bytes}
    (hp : Language.block.opening <+: l.bytes ++ t) :
    (∃ i, l = ⟨.blockComment, l.bytes, true⟩ ∧ Language.block.opening <+: l.bytes ∧
      FirstAt Language.block.closing (l.bytes.drop 2) i ∧ i + 4 = l.bytes.length) ∨
    (next = none ∧ l.isComment = true ∧
      Bytes.indexOf? Language.block.closing (l.bytes.drop 2) = none) := by
  obtain ⟨r, hr⟩ := hp
  cases h with
  | line marker opens =>
    obtain ⟨a, rfl, -⟩ := marker_eq hc marker
    obtain ⟨u, rfl⟩ := opens
    obtain ⟨rfl, hstar, -⟩ : slash = a ∧ Ascii.star = a ∧ _ := by simpa [Language.block] using hr
    exact absurd hstar (by decide)
  | @block bytes i _ opens first stop => exact .inl ⟨i, rfl, opens, first, stop⟩
  | openBlock opens never => exact .inr ⟨rfl, rfl, never⟩
  | embedded _ opens =>
    obtain ⟨u, rfl⟩ := opens
    have hbrace : slash = openBrace := (List.cons.inj hr).1
    exact absurd hbrace (by decide)
  | @quoted q _ _ mem | @broken q _ _ mem | @openQuoted q _ mem =>
    have hmark : slash = q.mark := (List.cons.inj hr).1
    exact absurd (by simp [← hmark]) (hc.marks q mem).2

/-- A closed block comment in braces is the embedded form. -/
theorem stands_braces (he : lang.embedded = some Language.markupBlock) {bytes : Bytes} {i : Nat}
    (opens : Language.block.opening <+: bytes)
    (first : FirstAt Language.block.closing (bytes.drop 2) i) (stop : i + 4 = bytes.length)
    (next : Option UInt8) :
    Stands lang ⟨.embeddedComment, openBrace :: (bytes ++ [closeBrace]), true⟩ next := by
  have hdrop : (openBrace :: (bytes ++ [closeBrace])).drop 3 = bytes.drop 2 ++ [closeBrace] := by
    rw [List.drop_succ_cons, List.drop_append_of_le_length (by omega)]
  have hlen : (bytes.drop 2).length = i + 2 := by
    rw [List.length_drop]
    omega
  refine @Stands.embedded lang _ i next he ?_ ?_ ?_ (by simp [← stop])
  · exact List.cons_prefix_cons.2 ⟨rfl, opens.trans (List.prefix_append _ _)⟩
  · rw [hdrop]
    exact first.append _
  · rw [hdrop, List.getElem?_append_right (by omega), hlen]
    simp

/-- Where a block comment opens at atoms without a seam, they begin with one in one piece. -/
theorem exists_whole_of_opening (hc : lang.CLike) {A : List Atom} {t : Bytes}
    (hs : Seamless lang t.head? A) (ht : t = [] ∨ Language.slashes <+: t)
    (hopen : Language.block.opening <+: flat A ++ t) : ∃ l C, A = whole l :: C := by
  obtain ⟨u, hu⟩ := hopen
  cases A with
  | nil =>
    rcases ht with rfl | ⟨v, rfl⟩
    · simp [Language.block] at hu
    · have hstar : Ascii.star = slash := (List.cons.inj (List.cons.inj hu).2).1
      exact absurd hstar (by decide)
  | cons a A =>
    cases a with
    | byte c =>
      have htail : Ascii.star :: u = flat A ++ t := (List.cons.inj hu).2
      have hapart : meets lang (some c) ((flat A).head?.or t.head?) = false := hs.1
      rw [← List.head?_append, ← htail, List.head?_cons,
        (meets_iff hc).2 (.inr ⟨(List.cons.inj hu).1.symm, rfl⟩)] at hapart
      cases hapart
    | whole l => exact ⟨l, A, rfl⟩

/-- A closing brace at linked atoms is a byte of code. -/
theorem exists_brace_of_head? (hc : lang.CLike) {C : List Atom} {t : Bytes}
    (h : Linked lang t.head? C) (ht : t = [] ∨ Language.slashes <+: t)
    (hbrace : (flat C ++ t).head? = some closeBrace) : ∃ C', C = byte closeBrace :: C' := by
  cases C with
  | nil =>
    rcases ht with rfl | ⟨u, rfl⟩
    · cases hbrace
    · exact absurd (Option.some.inj hbrace) (by decide)
  | cons a C =>
    cases a with
    | byte c =>
      obtain rfl : c = closeBrace := by simpa [bytes] using hbrace
      exact ⟨C, rfl⟩
    | whole k =>
      obtain ⟨c, hk, -, hne⟩ := Stands.exists_head? hc h.1
      obtain rfl : c = closeBrace := by
        simpa [bytes, List.head?_append, hk] using hbrace
      exact absurd rfl hne

/-- Where the embedded form opens at linked atoms, they are braces around a block comment. -/
theorem eq_braces_of_embedded? (hc : lang.CLike) {b : UInt8} {A : List Atom} {t : Bytes}
    {d : Delimiter} (h : Linked lang t.head? A) (hs : Seamless lang t.head? A)
    (ht : t = [] ∨ Language.slashes <+: t) (hd : embedded? lang (b :: (flat A ++ t)) = some d) :
    ∃ l C, b = openBrace ∧ A = whole l :: byte closeBrace :: C ∧ l.isComment = true ∧
      ∀ next, Stands lang ⟨.embeddedComment, openBrace :: (l.bytes ++ [closeBrace]), true⟩ next := by
  obtain ⟨form, rfl⟩ := embedded?_eq_markupBlock hc hd
  obtain ⟨hp, i, hf, hbrace⟩ := (embedded?_markup_iff form).1 hd
  obtain ⟨rfl, hopen⟩ : openBrace = b ∧ Language.block.opening <+: flat A ++ t :=
    List.cons_prefix_cons.1 hp
  obtain ⟨l, C, rfl⟩ := exists_whole_of_opening hc hs ht hopen
  have hstands : Stands lang l ((flat C).head?.or t.head?) := h.1
  rw [← List.head?_append] at hstands
  rw [List.drop_succ_cons] at hf hbrace
  rw [flat_cons, List.append_assoc] at hopen hf hbrace
  change Language.block.opening <+: l.bytes ++ (flat C ++ t) at hopen
  change FirstAt _ ((l.bytes ++ (flat C ++ t)).drop 2) i at hf
  change ((l.bytes ++ (flat C ++ t)).drop 2)[i + 2]? = _ at hbrace
  rcases kind_of_opening hc hstands hopen with ⟨j, hl, hopens, hfirst, hstop⟩ | ⟨hnone, -, hnever⟩
  · have hlen : (l.bytes.drop 2).length = j + 2 := by
      rw [List.length_drop]
      omega
    rw [List.drop_append_of_le_length (by omega)] at hf hbrace
    obtain rfl := hf.unique (hfirst.append _)
    rw [List.getElem?_append_right (by omega), hlen, Nat.sub_self, ← List.head?_eq_getElem?]
      at hbrace
    obtain ⟨C', rfl⟩ := exists_brace_of_head? hc h.2 ht hbrace
    have hcomment : l.isComment = true := by
      rw [hl]
      rfl
    exact ⟨l, C', rfl, rfl, hcomment, stands_braces form hopens hfirst hstop⟩
  · -- the comment runs to the end, so it has no end before a brace
    have hnil : flat C ++ t = [] := List.head?_eq_none_iff.1 hnone
    rw [hnil, List.append_nil] at hf
    rw [Bytes.indexOf?_eq_some.2 hf] at hnever
    cases hnever

/-- Linked atoms without a seam are read as they are, up to braces around comments. -/
theorem lexemes_absorbs (hs : lang.Scannable) (hc : lang.CLike) {t : Bytes}
    (ht : t = [] ∨ Language.slashes <+: t) (A : List Atom) (h : Linked lang t.head? A)
    (hsm : Seamless lang t.head? A) :
    ∃ A', Absorbs A A' ∧ (∀ k, whole k ∈ A' → k.kind ≠ .code) ∧
      lexemes lang (flat A ++ t) = pack A' (lexemes lang t) := by
  cases A with
  | nil => exact ⟨[], .nil, by simp, rfl⟩
  | cons a A =>
    cases a with
    | whole l =>
      obtain ⟨A', habs, hkind, hlex⟩ := lexemes_absorbs hs hc ht A h.2 hsm.2
      have hstands : Stands lang l ((flat A).head?.or t.head?) := h.1
      rw [← List.head?_append] at hstands
      refine ⟨whole l :: A', .cons _ habs, ?_, ?_⟩
      · intro k hk
        rcases List.mem_cons.1 hk with hk | hk
        · obtain rfl : k = l := by simpa using hk
          exact hstands.kind_ne_code
        · exact hkind k hk
      · rw [flat_cons, List.append_assoc, pack, ← hlex]
        exact lexemes_append_of_head hs (hstands.bytes_ne_nil hc) (hstands.head_eq hc)
    | byte b =>
      cases hemb : embedded? lang (b :: (flat A ++ t)) with
      | none =>
        obtain ⟨A', habs, hkind, hlex⟩ := lexemes_absorbs hs hc ht A h.2 hsm.2
        have hfit := h.1
        have hapart := hsm.1
        rw [← List.head?_append] at hfit hapart
        refine ⟨byte b :: A', .cons _ habs, by simpa using hkind, ?_⟩
        rw [pack, ← hlex]
        exact lexemes_cons_of_none hs (opener?_byte hc hfit hapart hemb)
      | some d =>
        -- three atoms are read as one, so the recursion goes on behind the closing brace
        obtain ⟨l, C, rfl, rfl, hl, hstands⟩ := eq_braces_of_embedded? hc h.2 hsm.2 ht hemb
        obtain ⟨A', habs, hkind, hlex⟩ := lexemes_absorbs hs hc ht C h.2.2.2 hsm.2.2.2
        refine ⟨_, .braces hl habs, ?_, ?_⟩
        · intro k hk
          rcases List.mem_cons.1 hk with hk | hk
          · obtain rfl := Atom.whole.inj hk
            simp
          · exact hkind k hk
        · have hhead := (hstands (flat C ++ t).head?).head_eq hc
          have hcut := lexemes_append_of_head hs (by simp) hhead
          rw [pack, ← hlex, ← hcut]
          simp [bytes]
termination_by A.length

end Markup

section Seams
variable {lang : Language} {keep : List Bytes} {last next : Option UInt8} {A A' T : List Atom}

theorem isProtected_mono {x y : Bytes} (h : x <:+: y) (hx : isProtected keep x = true) :
    isProtected keep y = true := by
  obtain ⟨text, hmem, ht⟩ := List.any_eq_true.1 hx
  rw [Bool.and_eq_true] at ht
  exact List.any_eq_true.2 ⟨text, hmem, Bool.and_eq_true .. ▸ ⟨ht.1, Bytes.includes_mono h ht.2⟩⟩

theorem Absorbs.flat_eq (h : Absorbs A A') : flat A' = flat A := by
  induction h with
  | nil => rfl
  | cons a _ ih => simp [ih]
  | braces _ _ ih => simp [bytes, ih]

/-- A comment that gets braces holds a protected text, and so it does with them. -/
theorem Absorbs.quiet (hc : lang.CLike) (h : Absorbs A A') (hq : Quiet lang keep last (A ++ T)) :
    Quiet lang keep last (A' ++ T) := by
  induction h generalizing last with
  | nil => exact hq
  | cons a h ih =>
    refine ⟨fun hgo => ?_, ih hq.2⟩
    obtain ⟨b, hb, hstay, hm⟩ := hq.1 hgo
    cases h with
    | nil => exact ⟨b, hb, hstay, hm⟩
    | cons d _ => exact ⟨b, hb, hstay, hm⟩
    | braces _ _ =>
      obtain rfl : byte openBrace = b := by simpa using hb
      have hfalse := @meets_false_right lang hc openBrace (.inr rfl) last
      simp [bytes, hfalse] at hm
  | @braces l A A' comment h ih =>
    have hq' := quiet_byte_cons.1 hq
    have hstay : removable keep l = false := by
      by_contra hgo
      obtain ⟨b, -, -, hm⟩ := hq'.1 (by simpa [mayGo] using hgo)
      rw [meets_false_left hc (.inr rfl)] at hm
      cases hm
    have hprot : isProtected keep l.bytes = true := by simpa [removable, comment] using hstay
    have hinfix : l.bytes <:+: openBrace :: (l.bytes ++ [closeBrace]) :=
      ⟨[openBrace], [closeBrace], by simp⟩
    refine ⟨fun hgo => ?_, ?_⟩
    · simp [mayGo, removable, isProtected_mono hinfix hprot] at hgo
    · have htail := ih (quiet_byte_cons.1 hq'.2)
      simpa [bytes, List.getLast?_cons] using htail

theorem exists_seam (h : ¬ Seamless lang next A) :
    ∃ B b C, A = B ++ byte b :: C ∧ Seamless lang (some b) B ∧
      meets lang (some b) ((flat C).head?.or next) = true := by
  induction A with
  | nil => exact absurd trivial h
  | cons a A ih =>
    by_cases ha : Apart lang a ((flat A).head?.or next)
    · obtain ⟨B, b, C, rfl, hB, hm⟩ := ih fun hA => h ⟨ha, hA⟩
      refine ⟨a :: B, b, C, rfl, ⟨?_, hB⟩, hm⟩
      have hhead : (flat (B ++ byte b :: C)).head?.or next = (flat B).head?.or (some b) := by
        simp [bytes, List.head?_append]
      rwa [hhead] at ha
    · cases a with
      | byte b => exact ⟨[], b, A, rfl, trivial, by simpa [Apart] using ha⟩
      | whole l => exact absurd trivial ha

end Seams
end Atom

namespace Strip
open Atom

section Twice
variable {lang : Language} (hs : lang.Scannable) (hc : lang.CLike) (options : StripOptions)
include hs hc

omit hc in
theorem fates_scan_iff (keep : List Bytes) (s : Bytes) :
    (∀ f ∈ fates lang keep none [] (scan lang s), f.2 = true) ↔
      Quiet lang keep none (explode (Scan.lexemes lang s)) := by
  have hall := @fates_true_iff lang keep (scan lang s) none (scan_bytes_ne_nil hs s)
  rwa [map_toLexeme_scan] at hall

/-- Nothing is removed from a text exactly when it is quiet. -/
theorem commentsRemoved_eq_zero_iff (s : Bytes) :
    (strip lang options s).commentsRemoved = 0 ↔
      Quiet lang options.keep none (explode (Scan.lexemes lang s)) := by
  obtain ⟨A, -, -, -, hrem⟩ := strip_survivors hs hc options s
  rw [StripOutcome.commentsRemoved, hrem, List.length_map, List.length_eq_zero_iff,
    ← fates_scan_iff hs, dropped, List.map_eq_nil_iff, List.filter_eq_nil_iff]
  simp

theorem output_eq_of_quiet {s : Bytes}
    (h : Quiet lang options.keep none (explode (Scan.lexemes lang s))) :
    (strip lang options s).output = s := by
  have hstay := (fates_scan_iff hs options.keep s).2 h
  obtain ⟨A, hout, -, hfaithful, -⟩ := strip_survivors hs hc options s
  have hkept : survivors lang options.keep s = Scan.lexemes lang s := by
    rw [survivors, Emitter.kept, List.filter_eq_self.2 hstay, lexemes_eq_map_fates]
  rw [hout, hfaithful (.inr hstay), hkept, flat_explode, Scan.flatMap_lexemes hs]

end Twice
end Strip

namespace Scan
open Atom Strip

section Line
variable {lang : Language} (hs : lang.Scannable) (hc : lang.CLike)
include hs hc

theorem lexemes_line {t m : Bytes} (hm : m ∈ lang.lineMarkers) (ht : m <+: t) :
    ∃ line rest, t = line ++ rest ∧ line.head? = t.head? ∧
      lexemes lang t = ⟨.lineComment, line, true⟩ :: lexemes lang rest ∧
      ∀ c ∈ rest.head?, isLineEnd c = true := by
  obtain ⟨a, rfl, ha⟩ := marker_eq hc hm
  have hopen := opener?_line hc hm ht
  obtain ⟨u, rfl⟩ := ht
  have hend : isLineEnd a = false := by rcases ha with rfl | rfl <;> decide
  have hsplit := List.takeWhile_append_dropWhile (p := (!isLineEnd ·)) (l := [a, a] ++ u)
  refine ⟨([a, a] ++ u).takeWhile (!isLineEnd ·), ([a, a] ++ u).dropWhile (!isLineEnd ·),
    hsplit.symm, by simp [hend], ?_, fun c hc => ?_⟩
  · rw [lexemes_of_ne_nil hs (by simp), first, head_of_some hopen]
    simp only [Opener.kind, Opener.extent, lineExtent]
    have htake := congrArg (List.take (([a, a] ++ u).takeWhile (!isLineEnd ·)).length) hsplit
    have hdrop := congrArg (List.drop (([a, a] ++ u).takeWhile (!isLineEnd ·)).length) hsplit
    rw [List.take_left] at htake
    rw [List.drop_left] at hdrop
    rw [← htake, ← hdrop]
  · have hstop := List.head?_dropWhile_not (!isLineEnd ·) ([a, a] ++ u)
    rw [Option.mem_def.1 hc] at hstop
    simpa using hstop

theorem explode_of_isSpace {c : UInt8} (hspace : isSpace c = true) (t : Bytes) :
    explode (lexemes lang (c :: t)) = byte c :: explode (lexemes lang t) := by
  rw [lexemes_cons_of_none hs (opener?_of_isSpace hc hspace t), explode_consByte]

/-- A line comment in the place of a byte of code is quiet when it is protected, and then what
follows it has to be quiet on its own. -/
theorem quiet_line_iff {keep : List Bytes} {B B' C : List Atom} {b : UInt8} {line rest : Bytes}
    (hB : Quiet lang keep none (B ++ byte b :: C)) (habs : Absorbs B B') (hline : line.head? = some b)
    (hrest : ∀ c ∈ rest.head?, isLineEnd c = true) :
    Quiet lang keep none (B' ++ whole ⟨.lineComment, line, true⟩ :: explode (lexemes lang rest)) ↔
      isProtected keep line = true ∧ Quiet lang keep none (explode (lexemes lang rest)) := by
  have hgo : mayGo keep (whole ⟨.lineComment, line, true⟩) = !isProtected keep line := rfl
  have hlast : ∀ x y, Quiet lang keep x (explode (lexemes lang rest)) →
      Quiet lang keep y (explode (lexemes lang rest)) := by
    intro x y hq
    cases rest with
    | nil => simp [Quiet]
    | cons c t =>
      rw [explode_of_isSpace hs hc (isSpace_of_isLineEnd (hrest c rfl)), quiet_byte_cons] at hq ⊢
      exact hq
  constructor
  · intro h
    obtain ⟨x, hmeets, hq⟩ := h.suffix
    refine ⟨?_, hlast _ _ hq⟩
    by_contra hprot
    obtain ⟨d, hd, -, hm⟩ := hmeets (by simpa [hgo] using hprot)
    cases rest with
    | nil => simp at hd
    | cons c t =>
      have hspace := isSpace_of_isLineEnd (hrest c rfl)
      rw [explode_of_isSpace hs hc hspace] at hd
      obtain rfl : byte c = d := by simpa using hd
      have hfalse := meets_false_right hc (.inl hspace) x
      simp [bytes, hfalse] at hm
  · rintro ⟨hprot, hq⟩
    refine habs.quiet hc (hB.replace (by simp [hgo, hprot]) ?_ (hlast _ _ hq))
    simpa [bytes] using hline

end Line
end Scan
open Atom Strip

/-- Stripping a text twice. When no byte of code that stayed opens a comment with what came to
stand after it, the second run changes nothing, and without an embedded form that is always so.
Else the first such byte begins a line comment of the output, and the second run changes nothing
exactly when this comment is protected and nothing is removed from what follows it. -/
theorem strip_twice [Clock] (lang : Language) (hlang : lang ∈ Language.all) (options : StripOptions)
    (htime : options.timeout = none) (path : Path) (s : Bytes) :
    ∃ r r', stripFile lang options path s = .ok r ∧ stripFile lang options path r.output = .ok r' ∧
      (lang.embedded = none → Seamless lang none (explode (survivors lang options.keep s))) ∧
      (Seamless lang none (explode (survivors lang options.keep s)) →
        r'.output = r.output ∧ r'.commentsRemoved = 0) ∧
      (¬ Seamless lang none (explode (survivors lang options.keep s)) →
        ∃ before line rest, r.output = before.flatMap Lexeme.bytes ++ line ++ rest ∧
          (scan lang r.output).map (·.toLexeme) =
            before ++ ⟨.lineComment, line, true⟩ :: (scan lang rest).map (·.toLexeme) ∧
          (r'.output = r.output ∧ r'.commentsRemoved = 0 ↔
            isProtected options.keep line = true ∧
              (strip lang options rest).commentsRemoved = 0)) := by
  have hs := Language.scannable_of_mem_all hlang
  have hc := Language.cLike_of_mem_all hlang
  obtain ⟨A, hout, hthin, -, -⟩ := strip_survivors hs hc options s
  have hlinked : Linked lang none A := hthin.linked hc (linked_survivors hs hc s)
  have hquiet : Quiet lang options.keep none A :=
    hthin.quiet hc (quiet_kept (scan lang s) (by simp) (scan_bytes_ne_nil hs s))
  have hfixed : (strip lang options (strip lang options s).output).output =
        (strip lang options s).output ∧
      (strip lang options (strip lang options s).output).commentsRemoved = 0 ↔
      Quiet lang options.keep none (explode (Scan.lexemes lang (strip lang options s).output)) :=
    ⟨fun h => (commentsRemoved_eq_zero_iff hs hc options _).1 h.2,
      fun h => ⟨output_eq_of_quiet hs hc options h, (commentsRemoved_eq_zero_iff hs hc options _).2 h⟩⟩
  refine ⟨strip lang options s, strip lang options (strip lang options s).output,
    stripFile_eq htime lang path s, stripFile_eq htime lang path _,
    fun he => (linked_survivors hs hc s).seamless he, fun hsm => ?_, fun hsm => ?_⟩
  · rw [hfixed, hout]
    have hsmA := (hthin.seamless_iff hc (linked_survivors hs hc s)).1 hsm
    obtain ⟨A', habs, hkind, hlex⟩ :=
      @lexemes_absorbs lang hs hc [] (.inl rfl) A hlinked hsmA
    rw [List.append_nil, Scan.lexemes_nil] at hlex
    rw [hlex, explode_pack hkind]
    simpa using habs.quiet (T := []) hc (by simpa using hquiet)
  · -- up to the first seam the output is read as its atoms, and there a line comment begins
    have hsmA := (hthin.seamless_iff hc (linked_survivors hs hc s)).not.1 hsm
    obtain ⟨B, b, C, rfl, hB, hm⟩ := exists_seam hsmA
    obtain ⟨hlinkB, hfit, -⟩ := along_append.1 hlinked
    obtain ⟨u, hu⟩ := List.head?_eq_some_iff.1 ((Option.or_none ..).symm.trans (hfit.2 hm).2)
    rw [hu, List.head?_cons, Option.some_or] at hm
    have hmem : [b, Ascii.slash] ∈ lang.lineMarkers :=
      ((meets_iff hc).1 hm).resolve_right fun h => absurd h.2 (by decide)
    obtain ⟨a, heq, -⟩ := Scan.marker_eq hc hmem
    obtain ⟨rfl, rfl⟩ : b = a ∧ Ascii.slash = a := by simpa using heq
    have hslashes : Language.slashes <+: Ascii.slash :: flat C := by
      rw [hu]
      exact ⟨u, rfl⟩
    obtain ⟨line, rest, ht, hhead, hlexT, hrest⟩ := Scan.lexemes_line hs hc hmem hslashes
    obtain ⟨B', habs, hkind, hlex⟩ :=
      @lexemes_absorbs lang hs hc (Ascii.slash :: flat C) (.inr hslashes) B hlinkB hB
    have hflat : (strip lang options s).output = flat B ++ (Ascii.slash :: flat C) := by
      rw [hout, flat_append]
      rfl
    rw [hlexT] at hlex
    refine ⟨merge B', line, rest, ?_, ?_, ?_⟩
    · rw [flatMap_merge, habs.flat_eq, hflat, List.append_assoc, ht]
    · rw [map_toLexeme_scan, map_toLexeme_scan, hflat, hlex, pack_cons_of_ne _ (by simp)]
    · rw [hfixed, hflat, hlex, explode_pack hkind, explode_cons, Atom.ofLexeme_of_ne (by simp),
        List.singleton_append, commentsRemoved_eq_zero_iff hs hc]
      exact Scan.quiet_line_iff hs hc hquiet habs hhead hrest

/-- A slash before a markup comment that goes, and a block comment behind it that stays: the two
slashes begin a line comment, and the second run removes it. -/
theorem strip_twice_markup :
    Language.tsx ∈ Language.all ∧
    ∃ r r', stripFile Language.tsx {} ⟨[]⟩ (Bytes.ofText "a /{/* x */}/* y *// b") = .ok r ∧
      stripFile Language.tsx {} ⟨[]⟩ r.output = .ok r' ∧
      r.output = Bytes.ofText "a //* y *// b" ∧ r'.output = Bytes.ofText "a " ∧
      ¬ Seamless Language.tsx none
        (explode (survivors Language.tsx [] (Bytes.ofText "a /{/* x */}/* y *// b"))) := by
  have hlang : Language.tsx ∈ Language.all := by simp [Language.all]
  obtain ⟨r, r', hr, hr', -, hfixed, -⟩ :=
    strip_twice Language.tsx hlang {} rfl ⟨[]⟩ (Bytes.ofText "a /{/* x */}/* y *// b")
  have hout : r.output = Bytes.ofText "a //* y *// b" := by
    rw [stripFile_eq_ok hr]
    decide +kernel
  have hout' : r'.output = Bytes.ofText "a " := by
    rw [stripFile_eq_ok hr', hout]
    decide +kernel
  refine ⟨hlang, r, r', hr, hr', hout, hout', fun hsm => ?_⟩
  have hsame := (hfixed hsm).1
  rw [hout, hout'] at hsame
  exact absurd hsame (by decide +kernel)

end Uncomment
