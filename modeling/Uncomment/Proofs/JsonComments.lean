import Mathlib
import Uncomment.Proofs.Clearing
import Uncomment.Proofs.JsonText
import Uncomment.Proofs.Layouts
import Uncomment.Proofs.Quiet

/-! JSON with comments keeps its meaning. Every comment goes, and what is left of the blanks separates
the same tokens. -/
namespace Uncomment
open Ascii Atom

namespace Strip

theorem explode_filter_removable {keep : List Bytes} (ls : List Lexeme) :
    explode (ls.filter (!removable keep ·)) = (explode ls).filter (!mayGo keep ·) := by
  induction ls with
  | nil => rfl
  | cons l ls ih =>
    rw [explode_cons, List.filter_append, ← ih]
    cases hl : removable keep l with
    | false =>
      have hall : (ofLexeme l).filter (!mayGo keep ·) = ofLexeme l :=
        List.filter_eq_self.2 fun a ha => by simp [mayGo_of_mem_ofLexeme hl a ha]
      simp [hl, hall]
    | true =>
      have hk := kind_ne_code_of_isComment (isComment_of_removable hl)
      simp [hl, ofLexeme_of_ne hk, mayGo]

end Strip

namespace Scan

theorem terminated_of_code {lang : Language} (hs : lang.Scannable) {s : Bytes} {l : Lexeme}
    (hl : l ∈ lexemes lang s) (hk : l.kind = .code) : l.terminated = true := by
  obtain ⟨before, after, hsplit⟩ := List.append_of_mem hl
  obtain ⟨-, rfl⟩ := eq_first_of_lexemes hs hsplit
  generalize s.drop (before.flatMap Lexeme.bytes).length = t at hk
  cases ho : opener? lang t with
  | none => rw [first, head_of_none ho]
  | some o =>
    rw [first, head_of_some ho] at hk
    exact absurd hk o.kind_ne_code

end Scan

namespace JsonText
open Scan Strip

section Strip
variable {ps : List Piece}

theorem atoms_eq_explode (ps : List Piece) : atoms ps = explode (ps.map Piece.lexeme) := by
  rw [explode, List.flatMap_map]
  rfl

theorem filter_kind_lexemes (h : EndsLines ps) :
    (lexemes Language.json (bytes ps)).filter (·.kind ≠ .code) =
      (ps.map Piece.lexeme).filter (·.kind ≠ .code) := by
  rw [← filterMap_lexeme?_explode, ← filterMap_lexeme?_explode, explode_lexemes_bytes h,
    atoms_eq_explode]

theorem countP_isComment_lexemes (h : EndsLines ps) :
    (lexemes Language.json (bytes ps)).countP (·.isComment) = ps.countP Piece.isComment := by
  have hsplit := Lexeme.countP_isComment (id : Lexeme → Lexeme)
  simp only [id_eq] at hsplit
  rw [hsplit, filter_kind_lexemes h, ← hsplit, List.countP_map]
  rfl

theorem terminated_of_mem (h : EndsLines ps) {l : Lexeme} (hl : l ∈ lexemes Language.json (bytes ps)) :
    l.terminated = true := by
  by_cases hk : l.kind = .code
  · exact terminated_of_code (Language.scannable_of_mem_all (by simp [Language.all])) hl hk
  · have hmem : l ∈ (lexemes Language.json (bytes ps)).filter (·.kind ≠ .code) :=
      List.mem_filter.2 ⟨hl, by simpa using hk⟩
    rw [filter_kind_lexemes h] at hmem
    obtain ⟨p, -, rfl⟩ := List.mem_map.1 (List.mem_of_mem_filter hmem)
    rfl

theorem fates_json (s : Bytes) :
    fates Language.json [] none [] (scan Language.json s) =
      (scan Language.json s).map fun g => (g, !g.isComment) :=
  fates_scan (Language.cLike_of_mem_all (by simp [Language.all])) rfl rfl
    (Language.scannable_of_mem_all (by simp [Language.all])) s

theorem length_dropped (h : EndsLines ps) :
    (dropped (fates Language.json [] none [] (scan Language.json (bytes ps)))).length =
      ps.countP Piece.isComment := by
  rw [fates_json, dropped_map, ← List.countP_eq_length_filter, ← countP_isComment_lexemes h,
    ← map_toLexeme_scan, List.countP_map]
  simp [Function.comp_def]

theorem malformed_bytes (h : EndsLines ps) (options : StripOptions) :
    (strip Language.json options (bytes ps)).malformed = none := by
  rw [strip_malformed, List.findSome?_eq_none_iff]
  intro g hg
  have hlex : g.toLexeme ∈ lexemes Language.json (bytes ps) := by
    rw [← map_toLexeme_scan]
    exact List.mem_map_of_mem hg
  rw [cutOff?, if_pos (terminated_of_mem h hlex)]

theorem tokens_filter (ps : List Piece) : tokens (ps.filter (!·.isComment)) = tokens ps := by
  rw [tokens, List.filterMap_filter]
  refine congrArg (List.filterMap · ps) (funext fun p => ?_)
  cases p with
  | token t => cases t <;> rfl
  | blank | line | block => rfl

/-- What stays of a text is its pieces without the comments. -/
theorem explode_survivors (h : EndsLines ps) :
    explode (survivors Language.json [] (bytes ps)) = atoms (ps.filter (!·.isComment)) := by
  have hfilter : ∀ ls : List Lexeme,
      explode (ls.filter (!·.isComment)) = (explode ls).filter (!mayGo [] ·) := by
    intro ls
    simpa [removable_nil] using @explode_filter_removable [] ls
  have hstay : survivors Language.json [] (bytes ps) =
      (lexemes Language.json (bytes ps)).filter (!·.isComment) := by
    rw [survivors, fates_json, kept_map, ← map_toLexeme_scan, List.filter_map]
    rfl
  rw [hstay, hfilter, explode_lexemes_bytes h, atoms_eq_explode, ← hfilter, List.filter_map,
    atoms_eq_explode]
  rfl

theorem endsLines_of_no_comments (h : ∀ p ∈ ps, p.isComment = false) : EndsLines ps := by
  induction ps with
  | nil => trivial
  | cons p ps ih =>
    refine ⟨fun hk => ?_, ih fun q hq => h q (List.mem_cons_of_mem _ hq)⟩
    have hp := h p List.mem_cons_self
    simp [Piece.isComment, hk, SegmentKind.isComment] at hp

theorem Piece.isBlank_of_mem {p : Piece} (h : ∀ b form, p ≠ .blank b form) :
    ∀ a ∈ p.atoms, a.isBlank = false := by
  have hbytes : ∀ b ∈ wordBytes ++ marks, isSpace b = false := by decide +kernel
  intro a ha
  by_cases hk : p.kind = .code
  · rw [Piece.atoms, ofLexeme_of_code hk] at ha
    obtain ⟨c, hc, rfl⟩ := List.mem_map.1 ha
    cases p with
    | token t =>
      refine hbytes c ?_
      cases t with
      | mark m =>
        rw [List.mem_singleton.1 hc]
        exact List.mem_append_right _ m.byte_mem
      | literal l => exact List.mem_append_left _ (Token.bytes_mem (t := .literal l) rfl c hc)
      | number bytes form => exact List.mem_append_left _ (form.bytes_mem c hc)
      | string bytes form => simp [kind] at hk
    | blank b form => exact absurd rfl (h b form)
    | line | block => simp [kind] at hk
  · rw [Piece.atoms, ofLexeme_of_ne hk] at ha
    rw [List.mem_singleton.1 ha]
    rfl

/-- Leaving out blanks from pieces leaves pieces with the same tokens. -/
theorem exists_pieces_of_sublist (ps : List Piece) {A : List Atom} (hsub : A.Sublist (atoms ps))
    (hfilter : A.filter (!·.isBlank) = (atoms ps).filter (!·.isBlank)) :
    ∃ qs, atoms qs = A ∧ qs.Sublist ps ∧ tokens qs = tokens ps := by
  induction ps generalizing A with
  | nil =>
    obtain rfl : A = [] := by simpa [atoms] using hsub
    exact ⟨[], rfl, .slnil, rfl⟩
  | cons p ps ih =>
    rw [atoms_cons] at hsub hfilter
    obtain ⟨A₁, A₂, rfl, ⟨hsub₁, hfilter₁⟩, hsub₂, hfilter₂⟩ := split_sublist hsub hfilter
    obtain ⟨qs, rfl, hqs, htokens⟩ := ih hsub₂ hfilter₂
    by_cases hstays : A₁ = p.atoms
    · refine ⟨p :: qs, by rw [atoms_cons, hstays], hqs.cons_cons p, ?_⟩
      rw [tokens, tokens, List.filterMap_cons, List.filterMap_cons, ← tokens, ← tokens, htokens]
    · obtain ⟨b, form, rfl⟩ : ∃ b form, p = .blank b form := by
        by_contra hblank
        have hall : p.atoms.filter (!·.isBlank) = p.atoms := by
          refine List.filter_eq_self.2 fun a ha => ?_
          simp [Piece.isBlank_of_mem (fun b form hp => hblank ⟨b, form, hp⟩) a ha]
        rw [hall] at hfilter₁
        exact hstays (hsub₁.antisymm (hfilter₁ ▸ List.filter_sublist))
      obtain rfl : A₁ = [] := (List.sublist_singleton.1 hsub₁).resolve_right hstays
      exact ⟨qs, rfl, hqs.cons _, htokens⟩

end Strip

end JsonText

open Strip

/-- JSON with comments keeps its meaning. From a text with comments every comment goes, and what is
left is a text without comments and with the same tokens, however it is read. A text without
comments stays as it is. -/
theorem strip_json [Clock] (d : JsonText.Document) (layout : Layout) (path : Path) :
    ∃ r, stripFile Language.json ⟨layout, [], none⟩ path d.bytes = .ok r ∧ r.malformed = none ∧
      r.commentsRemoved = d.comments ∧
      (∃ e : JsonText.Document, r.output = e.bytes ∧ e.comments = 0 ∧ e.tokens = d.tokens) ∧
      (∀ e : JsonText.Document, r.output = e.bytes → e.comments = 0 ∧ e.tokens = d.tokens) ∧
      (d.comments = 0 → r.output = d.bytes) := by
  have hmem : Language.json ∈ Language.all := by simp [Language.all]
  obtain ⟨A, hout, hthin, hfaithful, hremoved⟩ := strip_survivors (Language.scannable_of_mem_all hmem)
    (Language.cLike_of_mem_all hmem) ⟨layout, [], none⟩ d.bytes
  have hstay : explode (survivors Language.json [] d.bytes) =
      JsonText.atoms (d.pieces.filter (!·.isComment)) := JsonText.explode_survivors d.ends
  rw [hstay] at hthin hfaithful
  obtain ⟨hsub, hfilter⟩ := hthin.sublist
  obtain ⟨qs, rfl, hqs, htokens⟩ := JsonText.exists_pieces_of_sublist _ hsub hfilter
  rw [JsonText.flat_atoms] at hout
  have hnone : ∀ q ∈ qs, q.isComment = false := by
    intro q hq
    simpa using List.of_mem_filter (hqs.subset hq)
  have hsame : JsonText.tokens qs = d.tokens := htokens.trans (JsonText.tokens_filter d.pieces)
  let e : JsonText.Document := ⟨qs, JsonText.endsLines_of_no_comments hnone, hsame ▸ d.valid⟩
  have hzero : e.comments = 0 := List.countP_eq_zero.2 (by simpa [e] using hnone)
  refine ⟨_, stripFile_eq rfl Language.json path d.bytes, JsonText.malformed_bytes d.ends _, ?_,
    ⟨e, hout, hzero, hsame⟩, ?_, ?_⟩
  · rw [StripOutcome.commentsRemoved, hremoved, List.length_map]
    exact JsonText.length_dropped d.ends
  · intro e' he'
    obtain rfl : e' = e := JsonText.Document.bytes_injective (he'.symm.trans hout)
    exact ⟨hzero, hsame⟩
  · intro hnocomment
    have hall : ∀ p ∈ d.pieces, p.isComment = false := by
      simpa using List.countP_eq_zero.1 hnocomment
    have hscan : ∀ f ∈ fates Language.json [] none [] (scan Language.json d.bytes), f.2 = true := by
      have hgone := (JsonText.length_dropped d.ends).trans hnocomment
      rw [List.length_eq_zero_iff, dropped, List.map_eq_nil_iff, List.filter_eq_nil_iff] at hgone
      exact fun f hf => by simpa using hgone f hf
    have hatoms := hfaithful (.inr hscan)
    rw [List.filter_eq_self.2 (by simpa using hall)] at hatoms
    rw [hout, ← JsonText.flat_atoms, hatoms, JsonText.flat_atoms]
    rfl

/-- A comment of each kind, after a number and after a string that holds comment markers. -/
theorem strip_json_array :
    ∃ (d : JsonText.Document) (r : StripOutcome),
      d.bytes = Bytes.ofText "[-1.5e+2, // a\n\"\\\"//\"/*b*/]" ∧ d.comments = 2 ∧
      stripFile Language.json ⟨.compact, [], none⟩ ⟨[]⟩ d.bytes = .ok r ∧ r.commentsRemoved = 2 ∧
      r.output = Bytes.ofText "[-1.5e+2,\n\"\\\"//\"]" ∧
      ∀ e : JsonText.Document, r.output = e.bytes → e.tokens = d.tokens := by
  have hnumber : JsonText.IsNumber (Bytes.ofText "-1.5e+2") :=
    @JsonText.IsNumber.parts [dash] (Bytes.ofText "1") (Bytes.ofText ".5") (Bytes.ofText "e+2")
      (by decide) ⟨⟨by decide +kernel, by decide +kernel⟩, by decide +kernel⟩
      (.present ⟨by decide +kernel, by decide +kernel⟩)
      (@JsonText.IsExponent.present 0x65 [plus] (Bytes.ofText "2") (by decide +kernel) (by decide)
        ⟨by decide +kernel, by decide +kernel⟩)
  have hslash : JsonText.IsCharacter [slash] :=
    @JsonText.IsCharacter.plain '/' (by decide) (by decide) (by decide)
  have hstring : JsonText.IsString (Bytes.ofText "\"\\\"//\"") :=
    @JsonText.IsString.quoted [[backslash, quote], [slash], [slash]] (by
      simp only [List.forall_mem_cons, List.not_mem_nil, false_imp_iff, implies_true, and_true]
      exact ⟨.short (by decide +kernel), hslash, hslash⟩)
  let pieces : List JsonText.Piece :=
    [.token (.mark .openArray), .token (.number _ hnumber), .token (.mark .comma),
      .blank space (by decide), .line (Bytes.ofText " a") (by decide +kernel), .blank lf (by decide),
      .token (.string _ hstring), .block (Bytes.ofText "b") (by decide +kernel),
      .token (.mark .closeArray)]
  have hends : JsonText.EndsLines pieces := by
    simp [pieces, JsonText.EndsLines, JsonText.Piece.kind, JsonText.Piece.bytes, isLineEnd]
  have hvalid : JsonText.Derives .value (JsonText.tokens pieces) :=
    .array (.moreElements (.element (.number hnumber)) (.element (.string hstring)))
  let d : JsonText.Document := ⟨pieces, hends, hvalid⟩
  have hbytes : d.bytes = Bytes.ofText "[-1.5e+2, // a\n\"\\\"//\"/*b*/]" := rfl
  obtain ⟨r, hr, -, hcount, -, hunique, -⟩ := strip_json d .compact ⟨[]⟩
  refine ⟨d, r, hbytes, rfl, hr, hcount, ?_, fun e he => (hunique e he).2⟩
  rw [stripFile_eq_ok hr, hbytes]
  decide +kernel

end Uncomment
