import Mathlib
import Uncomment.Proofs.Fates
import Uncomment.Standard

/-! Scanning the output. The atoms of a text stay linked when comments are taken out as their fates
say and when white space is cut as the layout does, so the output is read as what stayed. -/
namespace Uncomment
open Ascii

namespace Atom
open Scan Strip
open Emitter (kept)

section Cuts
variable {lang : Language} (hc : lang.CLike)
include hc

theorem meets_of_stop {T : List Atom} (stop : ∀ a ∈ T.head?, ∃ c, a = byte c ∧ isLineEnd c = true)
    (last : Option UInt8) : meets lang last ((flat T).head?.or none) = false := by
  cases T with
  | nil => simp
  | cons a T =>
    obtain ⟨c, rfl, hend⟩ := stop a rfl
    simpa [bytes] using meets_false_right hc (.inl (isSpace_of_isLineEnd hend)) last

theorem Cut.linked {A A' : List Atom} (h : Cut A A') (hA : Linked lang none A) :
    Linked lang none A' := by
  have hne := hA.bytes_ne_nil hc
  cases h with
  | @lineStart B T W start blank =>
    rw [Linked, along_append, along_append] at hA
    refine along_append.2 ⟨hA.1.retarget (fun a ha => hne a (by simp [ha])) ?_, hA.2.2⟩
    intro a ha hfit
    rcases start with rfl | hB
    · simp at ha
    · obtain rfl : byte lf = a := by simpa [hB] using ha
      refine ⟨hfit.1, fun hm => ?_⟩
      rw [meets_false_left hc (.inl (by decide))] at hm
      cases hm
  | @lineEnd B T W blank stop =>
    cases W with
    | nil => simpa using hA
    | cons w W =>
      rw [Linked, along_append, along_append] at hA
      refine along_append.2 ⟨hA.1.retarget (fun a ha => hne a (by simp [ha])) ?_, hA.2.2⟩
      intro a _ hfit
      cases a with
      | byte b =>
        refine ⟨hfit.1, fun hm => ?_⟩
        rw [meets_of_stop hc stop] at hm
        cases hm
      | whole l => exact Stands.anywhere hfit (not_isLineEnd_of_isPadding (blank w (by simp))) _

/-- A cut neither makes nor mends a seam. -/
theorem Cut.seamless_iff {A A' : List Atom} (h : Cut A A') (hne : ∀ a ∈ A, a.bytes ≠ []) :
    Seamless lang none A ↔ Seamless lang none A' := by
  have hblank : ∀ (W : Bytes) (next : Option UInt8), (∀ w ∈ W, isSpace w = true) →
      Along (Apart lang) next (W.map byte) := by
    intro W next hW
    induction W with
    | nil => trivial
    | cons w W ih =>
      exact ⟨meets_false_left hc (.inl (hW w (by simp))) _, ih fun v hv => hW v (by simp [hv])⟩
  have hinsert : ∀ {B T : List Atom} {W : Bytes}, (∀ w ∈ W, isSpace w = true) →
      (∀ a ∈ B, a.bytes ≠ []) → Seamless lang none (B ++ T) →
      Seamless lang none (B ++ (W.map byte ++ T)) := by
    intro B T W hW hB hBT
    cases W with
    | nil => exact hBT
    | cons w W =>
      rw [Seamless, along_append] at hBT
      refine along_append.2 ⟨hBT.1.retarget hB ?_, along_append.2 ⟨hblank _ _ hW, hBT.2⟩⟩
      intro a _ _
      cases a with
      | byte b => exact meets_false_right hc (.inl (hW w (by simp))) _
      | whole l => trivial
  cases h with
  | @lineStart B T W start blank =>
    have hB : ∀ a ∈ B, a.bytes ≠ [] := fun a ha => hne a (by simp [ha])
    refine ⟨fun hA => ?_, hinsert blank hB⟩
    rw [Seamless, along_append, along_append] at hA
    refine along_append.2 ⟨hA.1.retarget hB ?_, hA.2.2⟩
    intro a ha _
    rcases start with rfl | hlf
    · simp at ha
    · obtain rfl : byte lf = a := by simpa [hlf] using ha
      exact meets_false_left hc (.inl (by decide)) _
  | @lineEnd B T W blank stop =>
    have hB : ∀ a ∈ B, a.bytes ≠ [] := fun a ha => hne a (by simp [ha])
    refine ⟨fun hA => ?_, hinsert (fun w hw => isSpace_of_isPadding (blank w hw)) hB⟩
    rw [Seamless, along_append, along_append] at hA
    refine along_append.2 ⟨hA.1.retarget hB ?_, hA.2.2⟩
    intro a _ _
    cases a with
    | byte b => exact meets_of_stop hc stop _
    | whole l => trivial

theorem Thins.linked {A A' : List Atom} (h : Thins A A') (hA : Linked lang none A) :
    Linked lang none A' := by
  induction h with
  | refl => exact hA
  | tail _ hcut ih => exact hcut.linked hc ih

theorem Thins.seamless_iff {A A' : List Atom} (h : Thins A A') (hA : Linked lang none A) :
    Seamless lang none A ↔ Seamless lang none A' := by
  induction h with
  | refl => exact Iff.rfl
  | tail hthin hcut ih =>
    exact ih.trans (hcut.seamless_iff hc ((Thins.linked hc hthin hA).bytes_ne_nil hc))

end Cuts

section Fates
variable {lang : Language} {keep : List Bytes}

theorem isLineEnd_of_line {l : Lexeme} {c : UInt8} (h : Stands lang l (some c))
    (hk : l.kind = .lineComment) : isLineEnd c = true := by
  cases h with
  | line _ _ _ after => exact after c rfl
  | block | embedded | quoted | broken => simp at hk

/-- Without an embedded form, a byte that may stand before a comment may stand before a slash. -/
theorem meets_slash_of_comment (hc : lang.CLike) (he : lang.embedded = none) {l : Lexeme}
    {next : Option UInt8} (h : Stands lang l next) (hl : l.isComment = true) {b : UInt8}
    (hm : meets lang (some b) l.bytes.head? = false) : meets lang (some b) (some slash) = false := by
  rcases h.head?_of_isComment hc hl with ⟨-, a, ha, hb⟩ | ⟨-, hb⟩ | ⟨-, hemb, -⟩
  · rcases hc.markers with hmark | hmark
    · obtain rfl : a = slash := by simpa [hmark, Language.slashes] using ha
      rwa [hb] at hm
    · rw [← Bool.not_eq_true, meets_iff hc, hmark]
      rintro (hmem | ⟨-, hstar⟩)
      · have hslash : slash = dash :=
          (List.cons.inj (List.cons.inj (List.mem_singleton.1 hmem)).2).1
        exact absurd hslash (by decide)
      · exact absurd hstar (by decide)
  · rwa [hb] at hm
  · exact absurd he hemb

theorem isComment_of_removable {l : Lexeme} (h : removable keep l = true) : l.isComment = true := by
  simp only [removable, Bool.and_eq_true] at h
  exact h.1

theorem kind_ne_code_of_isComment {l : Lexeme} (h : l.isComment = true) : l.kind ≠ .code :=
  fun hk => by simp [Lexeme.isComment, hk, SegmentKind.isComment] at h

theorem Linked.skip (hc : lang.CLike) {X C T : List Atom} {l : Lexeme}
    (h : Linked lang none (X ++ whole l :: C)) (hT : Linked lang none T)
    (hmeet : ∀ b, X.getLast? = some (byte b) →
      (lang.embedded = none → meets lang (some b) l.bytes.head? = false) →
      meets lang (some b) (flat T).head? = true →
      lang.embedded ≠ none ∧ (flat T).head? = some slash) :
    Linked lang none (X ++ T) := by
  have hne := h.bytes_ne_nil hc
  rw [Linked, along_append] at h
  obtain ⟨c, hhead, hspace, -⟩ := Stands.exists_head? hc h.2.1
  have hflat : (flat (whole l :: C)).head?.or none = some c := by
    simp [bytes, List.head?_append, hhead]
  rw [hflat] at h
  refine along_append.2 ⟨h.1.retarget (fun a ha => hne a (by simp [ha])) ?_, hT⟩
  intro a ha hfit
  rw [Option.or_none]
  cases a with
  | byte b =>
    refine ⟨hfit.1, hmeet b ha fun he => ?_⟩
    rw [hhead]
    exact Bool.eq_false_iff.2 fun hm => (hfit.2 hm).1 he
  | whole l => exact Stands.anywhere hfit (isLineEnd_of_isSpace hspace) _

/-- The comment that stays because of what comes after it meets nothing before it, unless there is
an embedded form. -/
theorem meets_of_stays (hc : lang.CLike) {first last : Lexeme} {next next' : Option UInt8} {c : UInt8}
    (hfirst : Stands lang first next') (hf : first.isComment = true)
    (hlast : Stands lang last (some c)) (hl : last.isComment = true)
    (hstays : meets lang next (some c) = true) {b : UInt8}
    (hb : lang.embedded = none → meets lang (some b) first.bytes.head? = false)
    (hm : meets lang (some b) last.bytes.head? = true) :
    lang.embedded ≠ none ∧ last.bytes.head? = some slash := by
  rcases hlast.head?_of_isComment hc hl with ⟨hk, -⟩ | ⟨-, hslash⟩ | ⟨-, -, hbrace⟩
  · have hend := isLineEnd_of_line hlast hk
    rw [meets_false_right hc (.inl (isSpace_of_isLineEnd hend))] at hstays
    cases hstays
  · refine ⟨fun he => ?_, hslash⟩
    rw [hslash, meets_slash_of_comment hc he hfirst hf (hb he)] at hm
    cases hm
  · rw [hbrace, meets_false_right hc (.inr rfl)] at hm
    cases hm

/-- With a comment waiting, what stood before it may stand before `T`. -/
theorem Linked.skip_waiting (hc : lang.CLike) {waiting : List Segment} {X rest T : List Atom}
    (hw : ∀ g ∈ waiting, removable keep g.toLexeme = true) (hne : waiting ≠ [])
    (h : Linked lang none (X ++ (explode (waiting.reverse.map (·.toLexeme)) ++ rest)))
    (hT : Linked lang none T)
    (hmeet : ∀ first next, Stands lang first next → first.isComment = true →
      ∀ b, X.getLast? = some (byte b) →
      (lang.embedded = none → meets lang (some b) first.bytes.head? = false) →
      meets lang (some b) (flat T).head? = true →
      lang.embedded ≠ none ∧ (flat T).head? = some slash) : Linked lang none (X ++ T) := by
  obtain ⟨first, more, hrev⟩ := List.exists_cons_of_ne_nil (List.reverse_eq_nil_iff.not.2 hne)
  have hcomment := isComment_of_removable (hw first (by rw [← List.mem_reverse, hrev]; simp))
  rw [hrev, List.map_cons, explode_cons, ofLexeme_of_ne (kind_ne_code_of_isComment hcomment)] at h
  have hstands := (along_append.1 h).2.1
  exact h.skip hc hT (hmeet first.toLexeme _ hstands hcomment)

theorem getLast?_flat_byte {X : List Atom} {b : UInt8} (h : X.getLast? = some (byte b)) :
    (flat X).getLast? = some b := by
  obtain ⟨Y, rfl⟩ := List.getLast?_eq_some_iff.1 h
  simp [bytes]

theorem linked_resolve (hc : lang.CLike) {waiting : List Segment} {X T : List Atom} {c : UInt8}
    (hw : ∀ g ∈ waiting, removable keep g.toLexeme = true) (hhead : (flat T).head? = some c)
    (h : Linked lang none (X ++ (explode (waiting.reverse.map (·.toLexeme)) ++ T))) :
    Linked lang none
      (X ++ (explode (kept (resolve (meets lang (flat X).getLast? (some c)) waiting)) ++ T)) := by
  have hT : Linked lang none T := (along_append.1 (along_append.1 h).2).2
  cases hstays : meets lang (flat X).getLast? (some c) with
  | false =>
    rw [kept_resolve_false, explode_nil, List.nil_append]
    by_cases hempty : waiting = []
    · simpa [hempty] using h
    · refine h.skip_waiting hc hw hempty hT fun _ _ _ _ b hb _ hm => ?_
      rw [getLast?_flat_byte hb] at hstays
      rw [hhead, hstays] at hm
      cases hm
  | true =>
    cases waiting with
    | nil => exact h
    | cons l waiting =>
      cases waiting with
      | nil => exact h
      | cons k before =>
        -- `l` stays behind comments that go, so it has to fit behind what stood before them
        have hl := isComment_of_removable (hw l (by simp))
        have hwhole := ofLexeme_of_ne (kind_ne_code_of_isComment hl)
        rw [List.reverse_cons, List.map_append, explode_append, List.append_assoc, List.map_cons,
          List.map_nil, explode_cons, hwhole, explode_nil, List.append_nil, List.singleton_append] at h
        have hT' : Linked lang none (whole l.toLexeme :: T) := (along_append.1 (along_append.1 h).2).2
        have hlast : Stands lang l.toLexeme (some c) := by
          have hfit := hT'.1
          rwa [hhead] at hfit
        obtain ⟨d, hd, -⟩ := Stands.exists_head? hc hlast
        have hflat : (flat (whole l.toLexeme :: T)).head? = l.bytes.head? := by
          simp [bytes, List.head?_append, hd]
        rw [kept_resolve_true, explode_cons, hwhole, explode_nil, List.append_nil,
          List.singleton_append]
        refine Linked.skip_waiting hc (fun g hg => hw g (List.mem_cons_of_mem _ hg))
          (List.cons_ne_nil k before) h hT' ?_
        intro first next hfirst hf b hb hmeets hm
        rw [hflat] at hm ⊢
        exact meets_of_stays hc hfirst hf hlast hl hstays hmeets hm

theorem linked_kept (hc : lang.CLike) (gs : List Segment) {waiting : List Segment} {X : List Atom}
    (hw : ∀ g ∈ waiting, removable keep g.toLexeme = true) (hne : ∀ g ∈ gs, g.bytes ≠ [])
    (h : Linked lang none (X ++ (explode (waiting.reverse.map (·.toLexeme))
      ++ explode (gs.map (·.toLexeme))))) :
    Linked lang none (X ++ explode (kept (fates lang keep (flat X).getLast? waiting gs))) := by
  induction gs generalizing waiting X with
  | nil =>
    rw [fates, kept_resolve_false, explode_nil]
    by_cases hempty : waiting = []
    · simpa [hempty] using h
    · exact h.skip_waiting hc hw hempty trivial (by simp)
  | cons g gs ih =>
    have hne' : ∀ g ∈ gs, g.bytes ≠ [] := fun g hg => hne g (List.mem_cons_of_mem _ hg)
    by_cases hg : removable keep g.toLexeme = true
    · rw [fates, if_pos hg]
      refine ih (by simpa [hg] using hw) hne' ?_
      simpa using h
    · obtain ⟨c, t, hbytes⟩ := List.exists_cons_of_ne_nil (hne g List.mem_cons_self)
      rw [fates, if_neg hg, hbytes, List.head?_cons]
      rw [List.map_cons, explode_cons] at h
      have hkept := @linked_resolve lang keep hc waiting X _ c hw (by simp [hbytes]) h
      have hrest := @ih [] (X ++ explode (kept (resolve (meets lang (flat X).getLast? (some c)) waiting))
        ++ ofLexeme g.toLexeme) (by simp) hne' (by simpa using hkept)
      rw [flat_append, flat_ofLexeme, hbytes, List.getLast?_append_cons] at hrest
      simpa using hrest

theorem linked_survivors (hs : lang.Scannable) (hc : lang.CLike) (s : Bytes) :
    Linked lang none (explode (survivors lang keep s)) :=
  @linked_kept lang keep hc (scan lang s) [] [] (by simp) (scan_bytes_ne_nil hs s)
    (by simpa using linked_explode hs hc s)

end Fates

section Blanks

def isBlank : Atom → Bool
  | byte b => isSpace b
  | whole _ => false

def lexeme? : Atom → Option Lexeme
  | byte _ => none
  | whole l => some l

theorem filter_map_byte_of_isSpace {W : Bytes} (hW : ∀ w ∈ W, isSpace w = true) :
    (W.map byte).filter (!·.isBlank) = [] := by
  rw [List.filter_eq_nil_iff]
  intro a ha
  obtain ⟨w, hw, rfl⟩ := List.mem_map.1 ha
  simp [isBlank, hW w hw]

theorem Thins.sublist {A A' : List Atom} (h : Thins A A') :
    A'.Sublist A ∧ A'.filter (!·.isBlank) = A.filter (!·.isBlank) := by
  induction h with
  | refl => exact ⟨.refl _, rfl⟩
  | tail _ hcut ih =>
    obtain ⟨B, W, T, rfl, rfl, hW⟩ := hcut.split
    refine ⟨.trans (.append_left (List.sublist_append_right _ _) B) ih.1, ?_⟩
    rw [← ih.2]
    simp [filter_map_byte_of_isSpace hW]

theorem filterMap_lexeme?_filter (A : List Atom) :
    (A.filter (!·.isBlank)).filterMap lexeme? = A.filterMap lexeme? := by
  rw [List.filterMap_filter]
  refine congrArg (List.filterMap · A) (funext fun a => ?_)
  cases a with
  | byte b => simp [lexeme?]
  | whole l => rfl

theorem filterMap_lexeme?_explode (ls : List Lexeme) :
    (explode ls).filterMap lexeme? = ls.filter (·.kind ≠ .code) := by
  induction ls with
  | nil => rfl
  | cons l ls ih =>
    by_cases hk : l.kind = .code
    · simp [ofLexeme_of_code hk, hk, ih, lexeme?]
    · simp [ofLexeme_of_ne hk, hk, ih, lexeme?]

end Blanks
end Atom

namespace Strip
open Atom

theorem stripFile_eq [Clock] {options : StripOptions} (h : options.timeout = none) (lang : Language)
    (path : Path) (s : Bytes) : stripFile lang options path s = .ok (strip lang options s) := by
  have hnone : expiry? options path (scan lang s) = none := by simp [expiry?, h]
  simp only [stripFile, timed, hnone]
  rfl

theorem stripFile_eq_ok [Clock] {options : StripOptions} {lang : Language} {path : Path} {s : Bytes}
    {r : StripOutcome} (h : stripFile lang options path s = .ok r) : r = strip lang options s := by
  unfold stripFile timed at h
  split at h
  · cases h
  · exact (Except.ok.inj h).symm

theorem lexemes_eq_map_fates (lang : Language) (keep : List Bytes) (s : Bytes) :
    Scan.lexemes lang s = (fates lang keep none [] (scan lang s)).map (·.1.toLexeme) := by
  have hfates := @map_fst_fates lang keep none [] (scan lang s)
  rw [List.reverse_nil, List.nil_append] at hfates
  rw [← map_toLexeme_scan]
  nth_rewrite 1 [← hfates]
  rw [List.map_map]
  rfl

/-- What stays of a text is some of its lexemes in their order. -/
theorem survivors_sublist (lang : Language) (keep : List Bytes) (s : Bytes) :
    (survivors lang keep s).Sublist (Scan.lexemes lang s) := by
  rw [survivors, Emitter.kept, lexemes_eq_map_fates lang keep s]
  exact List.Sublist.map _ List.filter_sublist

end Strip
open Atom Strip

/-- Scanning the output gives back what stayed of the text. In a language without an embedded form
the lexemes of the output are the surviving ones with neighbouring code merged; the `compact`
layout leaves out white space of the code. All comments and literals are there, and no others. -/
theorem strip_rescan [Clock] (lang : Language) (hlang : lang ∈ Language.all) (he : lang.embedded = none)
    (options : StripOptions) (path : Path) (s : Bytes) :
    (options.timeout = none → ∃ r, stripFile lang options path s = .ok r) ∧
    ∀ r, stripFile lang options path s = .ok r →
      ∃ A, r.output = flat A ∧ (scan lang r.output).map (·.toLexeme) = merge A ∧
        (options.layout = .preserve → A = explode (survivors lang options.keep s)) ∧
        A.Sublist (explode (survivors lang options.keep s)) ∧
        A.filter (!·.isBlank) = (explode (survivors lang options.keep s)).filter (!·.isBlank) ∧
        ((scan lang r.output).map (·.toLexeme)).filter (·.kind ≠ .code) =
          (survivors lang options.keep s).filter (·.kind ≠ .code) ∧
        (survivors lang options.keep s).Sublist ((scan lang s).map (·.toLexeme)) ∧
        r.removed = (dropped (fates lang options.keep none [] (scan lang s))).map
          RemovedComment.ofSegment := by
  refine ⟨fun htime => ⟨_, stripFile_eq htime lang path s⟩, fun r hr => ?_⟩
  obtain rfl := stripFile_eq_ok hr
  have hs := Language.scannable_of_mem_all hlang
  have hc := Language.cLike_of_mem_all hlang
  obtain ⟨A, hout, hthin, hfaithful, hremoved⟩ := strip_survivors hs hc options s
  have hlinked : Linked lang none A := hthin.linked hc (linked_survivors hs hc s)
  have hlex : Scan.lexemes lang (flat A) = merge A := by
    simpa [merge] using @Linked.lexemes_flat lang A hs hc he [] hlinked
  obtain ⟨hsub, hfilter⟩ := hthin.sublist
  refine ⟨A, hout, ?_, fun hl => hfaithful (.inl hl), hsub, hfilter, ?_, ?_, hremoved⟩
  · rw [map_toLexeme_scan, hout, hlex]
  · rw [map_toLexeme_scan, hout, hlex, ← filterMap_lexeme?_explode, ← filterMap_lexeme?_explode, merge,
      explode_pack hlinked.kind_ne_code, explode_nil, List.append_nil, ← filterMap_lexeme?_filter,
      hfilter, filterMap_lexeme?_filter]
  · rw [map_toLexeme_scan]
    exact survivors_sublist lang options.keep s

/-- A comment that stays between two dashes, and one that goes with the padding before it. -/
theorem strip_rescan_sql :
    Language.sql ∈ Language.all ∧ Language.sql.embedded = none ∧
    ∃ r A, stripFile Language.sql ⟨.compact, [], none⟩ ⟨[]⟩ (Bytes.ofText "1-/*a*/-2 --b\n") = .ok r ∧
      r.output = Bytes.ofText "1-/*a*/-2\n" ∧ r.output = flat A ∧
      (scan Language.sql r.output).map (·.toLexeme) = merge A := by
  have hlang : Language.sql ∈ Language.all := by simp [Language.all]
  obtain ⟨hok, hrescan⟩ :=
    strip_rescan Language.sql hlang rfl ⟨.compact, [], none⟩ ⟨[]⟩ (Bytes.ofText "1-/*a*/-2 --b\n")
  obtain ⟨r, hr⟩ := hok rfl
  obtain ⟨A, hflat, hscan, -⟩ := hrescan r hr
  have hout : r.output = Bytes.ofText "1-/*a*/-2\n" := by
    rw [stripFile_eq_ok hr]
    decide +kernel
  exact ⟨hlang, rfl, r, A, hr, hout, hflat, hscan⟩

end Uncomment
