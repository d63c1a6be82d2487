import Mathlib
import Uncomment.Proofs.Layouts
import Uncomment.Proofs.Utf8

/-! Characters stay whole. Every token of the languages is ASCII, so a segment ends next to an ASCII
byte, and white space that goes from the code is ASCII too. -/
namespace Uncomment
open Ascii Atom Scan Strip
open Utf8 (Seam encode)

theorem Language.toNat_of_mayOpen {lang : Language} (hlang : lang ∈ Language.all) {b : UInt8}
    (h : lang.mayOpen b = true) : b.toNat < 0x80 := by
  have hall : ∀ lang ∈ Language.all, ∀ b ∈ lang.openingBytes, b.toNat < 0x80 := by
    decide +kernel
  exact hall lang hlang b (List.contains_iff_mem.1 h)

namespace Ascii

theorem toNat_of_isSpace {b : UInt8} (h : isSpace b = true) : b.toNat < 0x80 := by
  simp only [isSpace, Bool.or_eq_true, beq_iff_eq] at h
  rcases h with (((rfl | rfl) | rfl) | rfl) | rfl <;> decide

theorem toNat_of_isLineEnd {b : UInt8} (h : isLineEnd b = true) : b.toNat < 0x80 :=
  toNat_of_isSpace (Scan.isSpace_of_isLineEnd h)

end Ascii

section Segments
variable {lang : Language} (hlang : lang ∈ Language.all)
include hlang

theorem seam_stands {l : Lexeme} {rest : Bytes} (h : Stands lang l rest.head?) :
    Seam l.bytes rest := by
  generalize hnext : rest.head? = next at h
  cases h with
  | line _ _ _ after => exact .inr fun b hb => toNat_of_isLineEnd (after b (hnext ▸ hb))
  | block _ first stop =>
    refine .inl ?_
    rw [Stands.getLast?_block first stop]
    rintro b ⟨⟩
    decide
  | embedded _ _ _ brace stop =>
    refine .inl ?_
    rw [Stands.getLast?_embedded brace stop]
    rintro b ⟨⟩
    decide
  | @quoted q body _ mem _ mark =>
    refine .inl fun b hb => Language.toNat_of_mayOpen hlang (List.contains_iff_mem.2 ?_)
    obtain rfl : q.mark = b := by simpa [List.getLast?_cons, mark] using hb
    exact List.mem_append_right _ (List.mem_map_of_mem mem)
  | broken _ _ stop =>
    refine .inr fun b hb => toNat_of_isLineEnd ?_
    obtain rfl := Option.some.inj (hnext.symm.trans hb)
    exact stop
  | openBlock | openQuoted =>
    refine .inr fun b hb => ?_
    rw [hnext] at hb
    cases hb

theorem seam_code (s : Bytes) :
    Seam (s.take (codeLength lang s)) (s.drop (codeLength lang s)) := by
  have hs := Language.scannable_of_mem_all hlang
  refine .inr fun b hb => ?_
  obtain ⟨rest, hrest⟩ := List.head?_eq_some_iff.1 hb
  obtain ⟨-, -, hend | ⟨o, ho⟩⟩ := (Grammar.codeLength_eq_iff hs).1 (rfl : codeLength lang s = _)
  · rw [hend, List.drop_length] at hrest
    cases hrest
  · rw [hrest] at ho
    exact Language.toNat_of_mayOpen hlang (mayOpen_of_opener? hs ho)

/-- The scan cuts off its first lexeme between two characters. -/
theorem exists_seam_lexemes {s : Bytes} (hne : s ≠ []) :
    ∃ l rest, s = l.bytes ++ rest ∧ rest.length < s.length ∧ Seam l.bytes rest ∧
      lexemes lang s = l :: lexemes lang rest := by
  have hs := Language.scannable_of_mem_all hlang
  cases ho : opener? lang s with
  | none =>
    have hpos := head_length_pos hs hne
    have hlen := List.length_pos_iff.2 hne
    refine ⟨first lang s, s.drop (head lang s).2.length, (List.take_append_drop _ _).symm, ?_, ?_,
      lexemes_of_ne_nil hs hne⟩
    · rw [List.length_drop]
      omega
    · rw [first, head_of_none ho]
      exact seam_code hlang s
  | some o =>
    obtain ⟨l, rest, hsplit, hshort, -, hstands, hlex⟩ :=
      exists_stands hs (Language.cLike_of_mem_all hlang) ho
    exact ⟨l, rest, hsplit, hshort, seam_stands hlang hstands, hlex⟩

theorem isValid_lexemes {s : Bytes} (h : Utf8.isValid s = true) :
    ∀ l ∈ lexemes lang s, Utf8.isValid l.bytes = true := by
  induction hn : s.length using Nat.strong_induction_on generalizing s with
  | _ n ih =>
    by_cases hne : s = []
    · simp [hne]
    · obtain ⟨l, rest, rfl, hshort, hseam, hlex⟩ := exists_seam_lexemes hlang hne
      obtain ⟨hl, hrest⟩ := Utf8.isValid_of_seam h hseam
      rw [hlex]
      exact List.forall_mem_cons.2 ⟨hl, ih rest.length (hn ▸ hshort) hrest rfl⟩

end Segments

/-- Leaving out white space leaves characters. -/
theorem exists_of_sublist (cs : List Char) {piece : Bytes} (hsub : piece.Sublist (encode cs))
    (hvisible : piece.filter (!isSpace ·) = (encode cs).filter (!isSpace ·)) :
    ∃ ds, piece = encode ds := by
  induction cs generalizing piece with
  | nil => exact ⟨[], List.sublist_nil.1 hsub⟩
  | cons c cs ih =>
    rw [Utf8.encode_cons] at hsub hvisible
    obtain ⟨front, back, rfl, ⟨hfront, hfront'⟩, hback, hback'⟩ := split_sublist hsub hvisible
    obtain ⟨ds, rfl⟩ := ih hback hback'
    rcases (Utf8.spells_utf8EncodeChar c).single_or_high with ⟨b, hbytes⟩ | hhigh
    · rw [hbytes, List.sublist_singleton] at hfront
      rcases hfront with rfl | rfl
      · exact ⟨ds, rfl⟩
      · exact ⟨c :: ds, by rw [Utf8.encode_cons, hbytes]⟩
    · -- no byte of a longer character is white space
      have hvisible : ∀ x ∈ String.utf8EncodeChar c, (!isSpace x) = true := by
        intro x hx
        by_contra hspace
        exact absurd (hhigh x hx) (Nat.not_le.2 (toNat_of_isSpace (by simpa using hspace)))
      rw [List.filter_eq_self.2 hvisible,
        List.filter_eq_self.2 fun x hx => hvisible x (hfront.subset hx)] at hfront'
      exact ⟨c :: ds, by rw [Utf8.encode_cons, hfront']⟩

theorem isValid_pared {g : Segment} {piece : Bytes} (h : Pared g piece)
    (hg : Utf8.isValid g.bytes = true) : Utf8.isValid piece = true := by
  obtain ⟨cs, hcs⟩ := Utf8.isValid_iff.1 hg
  have hsub := h.sublist
  have hvisible := h.visible
  rw [hcs] at hsub hvisible
  exact Utf8.isValid_iff.2 (exists_of_sublist cs hsub hvisible)

theorem isValid_pieces {gs : List Segment} {pieces : List Bytes} (h : List.Forall₂ Pared gs pieces)
    (hgs : ∀ g ∈ gs, Utf8.isValid g.bytes = true) : Utf8.isValid pieces.flatten = true := by
  induction h with
  | nil => exact Utf8.isValid_encode []
  | cons hpared _ ih =>
    obtain ⟨hg, hgs⟩ := List.forall_mem_cons.1 hgs
    exact Utf8.isValid_append (isValid_pared hpared hg) (ih hgs)

/-- No character is cut. The segments of a text in UTF-8 are in UTF-8 and their texts put together
are the text, and the output is in UTF-8 whatever stays of the comments. -/
theorem strip_utf8 [Clock] (lang : Language) (hlang : lang ∈ Language.all) (s : Bytes)
    (hvalid : Utf8.isValid s = true) :
    (∀ g ∈ scan lang s, Utf8.isValid g.bytes = true ∧ Bytes.ofText g.text = g.bytes) ∧
    Bytes.ofText (String.join ((scan lang s).map (·.text))) = s ∧
    ∀ (options : StripOptions) (path : Path),
      (options.timeout = none → ∃ r, stripFile lang options path s = .ok r) ∧
      ∀ r, stripFile lang options path s = .ok r → Utf8.isValid r.output = true := by
  have hs := Language.scannable_of_mem_all hlang
  have hsegments : ∀ g ∈ scan lang s, Utf8.isValid g.bytes = true := by
    intro g hg
    refine isValid_lexemes hlang hvalid g.toLexeme ?_
    rw [← map_toLexeme_scan]
    exact List.mem_map_of_mem hg
  have htexts : ∀ g ∈ scan lang s, Bytes.ofText g.text = g.bytes :=
    fun g hg => Utf8.ofText_lossy (hsegments g hg)
  refine ⟨fun g hg => ⟨hsegments g hg, htexts g hg⟩, ?_, fun options path => ⟨?_, fun r hr => ?_⟩⟩
  · calc Bytes.ofText (String.join ((scan lang s).map (·.text)))
        = (scan lang s).flatMap fun g => Bytes.ofText g.text := by
          rw [Utf8.ofText_join, List.flatMap_map]
      _ = ((scan lang s).map (·.toLexeme)).flatMap Lexeme.bytes := by
          rw [List.flatMap_map, List.flatMap_congr htexts]
      _ = s := by rw [map_toLexeme_scan, flatMap_lexemes hs]
  · exact fun htime => ⟨_, stripFile_eq htime lang path s⟩
  · obtain rfl := stripFile_eq_ok hr
    obtain ⟨A, hout, hthin, -, -⟩ :=
      strip_survivors hs (Language.cLike_of_mem_all hlang) options s
    obtain ⟨hsub, hfilter⟩ := hthin.sublist
    simp only [← map_toLexeme_stays] at hsub hfilter
    obtain ⟨pieces, hflat, hpieces⟩ := exists_pieces _ hsub hfilter
    rw [hout, hflat]
    exact isValid_pieces hpieces fun g hg => hsegments g ((stays_sublist options.keep s).subset hg)

/-- The escape takes the first byte of a character with it, and the literal ends after the last. -/
theorem strip_utf8_typescript :
    Language.typescript ∈ Language.all ∧ Utf8.isValid (Bytes.ofText "\"\\é\"/*è*/ €// 𝄞") = true ∧
    ∃ r, stripFile Language.typescript ⟨.compact, [], none⟩ ⟨[]⟩
        (Bytes.ofText "\"\\é\"/*è*/ €// 𝄞") = .ok r ∧
      r.output = Bytes.ofText "\"\\é\" €" ∧ Utf8.isValid r.output = true ∧
      (scan Language.typescript (Bytes.ofText "\"\\é\"/*è*/ €// 𝄞")).map (·.text) =
        ["\"\\é\"", "/*è*/", " €", "// 𝄞"] := by
  have hlang : Language.typescript ∈ Language.all := by simp [Language.all]
  have hvalid : Utf8.isValid (Bytes.ofText "\"\\é\"/*è*/ €// 𝄞") = true :=
    Utf8.isValid_encode _
  obtain ⟨-, -, hstrip⟩ := strip_utf8 Language.typescript hlang _ hvalid
  obtain ⟨hok, hout⟩ := hstrip ⟨.compact, [], none⟩ ⟨[]⟩
  obtain ⟨r, hr⟩ := hok rfl
  refine ⟨hlang, hvalid, r, hr, ?_, hout r hr, ?_⟩
  · rw [stripFile_eq_ok hr]
    decide +kernel
  · decide +kernel

end Uncomment
