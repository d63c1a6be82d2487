import Mathlib
import Uncomment.Proofs.Rescan

/-! Texts from which nothing is removed. They are the quiet ones: each comment without a protected
text stands alone between two bytes that it keeps apart. What stays of any text is quiet. -/
namespace Uncomment
open Ascii

namespace Atom
open Scan Strip
open Emitter (kept)

def mayGo (keep : List Bytes) : Atom → Bool
  | byte _ => false
  | whole l => removable keep l

/-- Each comment that may go has bytes around it that would meet, and `last` stands before the
atoms. -/
def Quiet (lang : Language) (keep : List Bytes) : Option UInt8 → List Atom → Prop
  | _, [] => True
  | last, a :: A =>
    (mayGo keep a = true →
      ∃ b ∈ A.head?, mayGo keep b = false ∧ meets lang last b.bytes.head? = true) ∧
    Quiet lang keep a.bytes.getLast? A

section Quiet
variable {lang : Language} {keep : List Bytes} {last last' : Option UInt8} {A A' B C : List Atom}

theorem Quiet.of_meets_false (h : Quiet lang keep last A) (hl : ∀ n, meets lang last n = false) :
    Quiet lang keep last' A := by
  cases A with
  | nil => trivial
  | cons a A =>
    refine ⟨fun ha => ?_, h.2⟩
    obtain ⟨b, -, -, hm⟩ := h.1 ha
    simp [hl] at hm

theorem quiet_byte_cons {b : UInt8} :
    Quiet lang keep last (byte b :: A) ↔ Quiet lang keep (some b) A := by
  simp [Quiet, mayGo, bytes]

theorem Quiet.suffix {a : Atom} (h : Quiet lang keep last (B ++ a :: C)) :
    ∃ x, (mayGo keep a = true →
      ∃ b ∈ C.head?, mayGo keep b = false ∧ meets lang x b.bytes.head? = true) ∧
      Quiet lang keep a.bytes.getLast? C := by
  induction B generalizing last with
  | nil => exact ⟨last, h⟩
  | cons b B ih => exact ih h.2

theorem Quiet.replace {a a' : Atom} {C' : List Atom} (h : Quiet lang keep last (B ++ a :: C))
    (ha' : mayGo keep a' = false) (hhead : a'.bytes.head? = a.bytes.head?)
    (hC : Quiet lang keep a'.bytes.getLast? C') : Quiet lang keep last (B ++ a' :: C') := by
  induction B generalizing last with
  | nil => exact ⟨fun hgo => by simp [ha'] at hgo, hC⟩
  | cons b B ih =>
    refine ⟨fun hgo => ?_, ih h.2⟩
    obtain ⟨d, hd, hstay, hm⟩ := h.1 hgo
    cases B with
    | nil =>
      obtain rfl : a = d := by simpa using hd
      exact ⟨a', rfl, ha', by rwa [hhead]⟩
    | cons e B => exact ⟨d, hd, hstay, hm⟩

theorem mayGo_of_mem_ofLexeme {l : Lexeme} (hl : removable keep l = false) :
    ∀ a ∈ ofLexeme l, mayGo keep a = false := by
  intro a ha
  unfold ofLexeme at ha
  split_ifs at ha
  · obtain ⟨b, -, rfl⟩ := List.mem_map.1 ha
    rfl
  · obtain rfl : a = whole l := by simpa using ha
    exact hl

theorem quiet_ofLexeme_append {l : Lexeme} (hl : removable keep l = false) (hne : l.bytes ≠ []) :
    Quiet lang keep last (ofLexeme l ++ A) ↔ Quiet lang keep l.bytes.getLast? A := by
  by_cases hk : l.kind = .code
  · rw [ofLexeme_of_code hk]
    generalize l.bytes = bs at hne
    induction bs generalizing last with
    | nil => exact absurd rfl hne
    | cons b bs ih =>
      rw [List.map_cons, List.cons_append, quiet_byte_cons]
      by_cases hbs : bs = []
      · subst hbs
        rfl
      · rw [ih hbs]
        obtain ⟨c, cs, rfl⟩ := List.exists_cons_of_ne_nil hbs
        rw [List.getLast?_cons_cons]
  · rw [ofLexeme_of_ne hk]
    simp [Quiet, mayGo, hl, bytes]

theorem head?_ofLexeme_append {l : Lexeme} (hne : l.bytes ≠ []) :
    ∃ b, (ofLexeme l ++ A).head? = some b ∧ b ∈ ofLexeme l ∧ b.bytes.head? = l.bytes.head? := by
  by_cases hk : l.kind = .code
  · obtain ⟨c, cs, hbytes⟩ := List.exists_cons_of_ne_nil hne
    refine ⟨byte c, ?_, ?_, ?_⟩ <;> simp [ofLexeme_of_code hk, hbytes, bytes]
  · refine ⟨whole l, ?_, ?_, ?_⟩ <;> simp [ofLexeme_of_ne hk, bytes]

/-- A comment in front of a segment that stays is quiet when the bytes around it meet. -/
theorem quiet_comment_append {l m : Lexeme} (hl : removable keep l = true)
    (hm : removable keep m = false) (hne : m.bytes ≠ []) :
    Quiet lang keep last (whole l :: (ofLexeme m ++ A)) ↔
      meets lang last m.bytes.head? = true ∧ Quiet lang keep m.bytes.getLast? A := by
  obtain ⟨b, hb, hmem, hbytes⟩ := @head?_ofLexeme_append A m hne
  have hstay := mayGo_of_mem_ofLexeme hm b hmem
  have hgo : mayGo keep (whole l) = true := hl
  rw [Quiet, quiet_ofLexeme_append hm hne, hb]
  simp [hgo, hstay, hbytes]

theorem Cut.quiet (hc : lang.CLike) (h : Cut A A') (hA : Quiet lang keep last A) :
    Quiet lang keep last A' := by
  obtain ⟨B, W, T, rfl, rfl, hW⟩ := h.split
  clear h
  induction B generalizing last with
  | nil =>
    rw [List.nil_append] at hA ⊢
    induction W generalizing last with
    | nil => exact hA
    | cons w W ih =>
      have htail := ih (fun v hv => hW v (by simp [hv])) (quiet_byte_cons.1 hA)
      exact htail.of_meets_false fun n => meets_false_left hc (.inl (hW w (by simp))) n
  | cons a B ih =>
    refine ⟨fun hgo => ?_, ih hA.2⟩
    obtain ⟨b, hb, hstay, hm⟩ := hA.1 hgo
    cases B with
    | cons d B => exact ⟨b, hb, hstay, hm⟩
    | nil =>
      cases W with
      | nil => exact ⟨b, hb, hstay, hm⟩
      | cons w W =>
        obtain rfl : byte w = b := by simpa using hb
        have := meets_false_right hc (.inl (hW w (by simp))) last
        simp [bytes, this] at hm

theorem Thins.quiet (hc : lang.CLike) (h : Thins A A') (hA : Quiet lang keep last A) :
    Quiet lang keep last A' := by
  induction h with
  | refl => exact hA
  | tail _ hcut ih => exact hcut.quiet hc ih

end Quiet

section Runs
variable {lang : Language} {keep : List Bytes}

theorem quiet_kept (gs : List Segment) {last : Option UInt8} {waiting : List Segment}
    (hw : ∀ g ∈ waiting, removable keep g.toLexeme = true) (hne : ∀ g ∈ gs, g.bytes ≠ []) :
    Quiet lang keep last (explode (kept (fates lang keep last waiting gs))) := by
  induction gs generalizing last waiting with
  | nil => simp [fates, Quiet]
  | cons g gs ih =>
    have hne' : ∀ g ∈ gs, g.bytes ≠ [] := fun g hg => hne g (List.mem_cons_of_mem _ hg)
    have hbytes := hne g List.mem_cons_self
    by_cases hg : removable keep g.toLexeme = true
    · rw [fates, if_pos hg]
      exact ih (by simpa [hg] using hw) hne'
    · have hstay : removable keep g.toLexeme = false := by simpa using hg
      have htail := @ih g.bytes.getLast? [] (by simp) hne'
      have hself := (@quiet_ofLexeme_append lang keep last _ _ hstay hbytes).2 htail
      rw [fates, if_neg hg, kept_append, kept_cons_true, explode_append, explode_cons]
      cases hm : meets lang last g.bytes.head? with
      | false => simpa using hself
      | true =>
        cases waiting with
        | nil => simpa [resolve] using hself
        | cons l before =>
          have hl := hw l (by simp)
          have hk := kind_ne_code_of_isComment (isComment_of_removable hl)
          rw [kept_resolve_true, explode_cons, ofLexeme_of_ne hk, explode_nil, List.append_nil,
            List.singleton_append]
          exact (quiet_comment_append hl hstay hbytes).2 ⟨hm, htail⟩

/-- Of two comments that wait one goes. -/
theorem exists_dropped (gs : List Segment) {last : Option UInt8} {g h : Segment}
    {waiting : List Segment} :
    ∃ f ∈ fates lang keep last (g :: h :: waiting) gs, f.2 = false := by
  induction gs generalizing last g h waiting with
  | nil => exact ⟨(h, false), by simp [fates, resolve], rfl⟩
  | cons k gs ih =>
    rw [fates]
    split_ifs
    · exact ih
    · exact ⟨(h, false), by simp [resolve], rfl⟩

/-- A run over segments removes nothing exactly when they are quiet. -/
theorem fates_true_iff (gs : List Segment) {last : Option UInt8} (hne : ∀ g ∈ gs, g.bytes ≠ []) :
    (∀ f ∈ fates lang keep last [] gs, f.2 = true) ↔
      Quiet lang keep last (explode (gs.map (·.toLexeme))) := by
  cases gs with
  | nil => simp [fates, resolve, Quiet]
  | cons g gs =>
    have hne' : ∀ g ∈ gs, g.bytes ≠ [] := fun g hg => hne g (List.mem_cons_of_mem _ hg)
    by_cases hg : removable keep g.toLexeme = true
    · have hk := kind_ne_code_of_isComment (isComment_of_removable hg)
      rw [fates, if_pos hg, List.map_cons, explode_cons, ofLexeme_of_ne hk, List.singleton_append]
      cases gs with
      | nil => simp [fates, resolve, Quiet, mayGo, hg]
      | cons h gs =>
        by_cases hh : removable keep h.toLexeme = true
        · -- two comments in a row are never both kept, and the first one is not quiet
          have hkh := kind_ne_code_of_isComment (isComment_of_removable hh)
          rw [fates, if_pos hh, List.map_cons, explode_cons, ofLexeme_of_ne hkh]
          refine iff_of_false (fun hall => ?_) (fun hquiet => ?_)
          · obtain ⟨f, hf, hfalse⟩ := @exists_dropped lang keep gs last h g []
            simp [hall f hf] at hfalse
          · obtain ⟨b, hb, hstay, -⟩ := hquiet.1 hg
            obtain rfl : whole h.toLexeme = b := by simpa using hb
            simp [mayGo, hh] at hstay
        · have hstay : removable keep h.toLexeme = false := by simpa using hh
          rw [fates, if_neg hh, List.map_cons, explode_cons,
            quiet_comment_append hg hstay (hne' h List.mem_cons_self),
            ← fates_true_iff gs fun g hg => hne' g (List.mem_cons_of_mem _ hg)]
          simp [resolve]
    · have hstay : removable keep g.toLexeme = false := by simpa using hg
      rw [fates, if_neg hg, List.map_cons, explode_cons,
        quiet_ofLexeme_append hstay (hne g List.mem_cons_self), ← fates_true_iff gs hne']
      simp [resolve]
termination_by gs.length

end Runs
end Atom
end Uncomment
