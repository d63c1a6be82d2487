import Mathlib
import Uncomment.Proofs.Paths

/-! Components and the text that spells them. The parts of a text between slashes are counted, components
are put behind each other, and texts that begin alike have the components in common that end before they
part. -/
namespace Uncomment
open Ascii

namespace Path

/-! ## Counting components -/

/-- What stands before the first slash. -/
def first (s : Bytes) : Bytes := s.takeWhile (· != slash)

/-- The number of components after the first part. -/
def later (s : Bytes) : Nat := ((Bytes.split slash s).tail.filter (!isFiller ·)).length

theorem split_eq_first (s : Bytes) : Bytes.split slash s = first s :: (Bytes.split slash s).tail := by
  induction s with
  | nil => rfl
  | cons b s ih =>
    by_cases hb : b = slash
    · subst hb
      rfl
    · have hne : (b == slash) = false := by simpa using hb
      rw [Bytes.split, hne, ih]
      simp [first, hb]

theorem split_cons {b : UInt8} (hb : b ≠ slash) (s : Bytes) :
    Bytes.split slash (b :: s) = (b :: first s) :: (Bytes.split slash s).tail := by
  rw [Bytes.split, split_eq_first s]
  simp [hb]

theorem first_cons {b : UInt8} (hb : b ≠ slash) (s : Bytes) : first (b :: s) = b :: first s := by
  simp [first, hb]

theorem first_append {x : Bytes} (hx : slash ∉ x) (s : Bytes) : first (x ++ s) = x ++ first s := by
  induction x with
  | nil => rfl
  | cons b x ih =>
    rw [List.mem_cons, not_or] at hx
    rw [List.cons_append, first_cons (Ne.symm hx.1), ih hx.2]
    rfl

theorem later_slash (s : Bytes) :
    later (slash :: s) = (if isFiller (first s) then 0 else 1) + later s := by
  have hsplit : (Bytes.split slash (slash :: s)).tail = first s :: (Bytes.split slash s).tail :=
    split_eq_first s
  rw [later, hsplit, List.filter_cons, later]
  cases isFiller (first s) <;> simp [Nat.add_comm]

theorem later_cons {b : UInt8} (hb : b ≠ slash) (s : Bytes) : later (b :: s) = later s := by
  rw [later, split_cons hb, later]
  rfl

theorem first_eq_nil {s : Bytes} : first s = [] ↔ s = [] ∨ s.head? = some slash := by
  cases s with
  | nil => simp [first]
  | cons b s => by_cases hb : b = slash <;> simp [first, hb]

/-- A first part that is no filler is a component like the others. -/
theorem components_of_first {s : Bytes} (h : isFiller (first s) = false) :
    components ⟨s⟩ =
      partComponent (first s) :: ((Bytes.split slash s).tail.filter (!isFiller ·)).map partComponent := by
  obtain ⟨b, s, rfl⟩ := List.exists_cons_of_ne_nil (show s ≠ [] by rintro rfl; cases h)
  have hroot : b ≠ slash := by
    rintro rfl
    cases h
  have hhere : ¬ (b = dot ∧ first s = []) := by
    rintro ⟨rfl, hnil⟩
    simp [first_cons hroot, hnil, isFiller] at h
  have hlead : lead ⟨b :: s⟩ = none := by
    rw [first_eq_nil] at hhere
    simpa [lead, hroot] using hhere
  have hparts : parts ⟨b :: s⟩ = first (b :: s) :: (Bytes.split slash (b :: s)).tail := by
    rw [parts, hlead]
    exact split_eq_first _
  rw [components, hlead, hparts, List.filter_cons, h]
  rfl

/-- The first part is always a component. -/
theorem length_components {p : Path} (hp : p.isEmpty = false) : p.components.length = later p.bytes + 1 := by
  obtain ⟨bytes⟩ := p
  obtain ⟨b, s, rfl⟩ := List.exists_cons_of_ne_nil (by simpa [isEmpty] using hp)
  have hcount : later (slash :: s) = ((Bytes.split slash s).filter (!isFiller ·)).length := rfl
  by_cases hroot : b = slash
  · subst hroot
    simp [components, lead, parts, hcount, Nat.add_comm]
  · rw [later_cons hroot]
    by_cases hhere : b = dot ∧ first s = []
    · obtain ⟨rfl, hfirst⟩ := hhere
      have hlead : lead ⟨dot :: s⟩ = some .here := by
        rcases first_eq_nil.1 hfirst with rfl | hslash
        · rfl
        · simp [lead, hroot, hslash]
      have hparts : parts ⟨dot :: s⟩ = first s :: (Bytes.split slash s).tail := by
        rw [parts, hlead]
        exact split_eq_first s
      simp [components, hlead, hparts, hfirst, isFiller, later, Nat.add_comm]
    · have hfiller : isFiller (first (b :: s)) = false := by
        rw [first_cons hroot]
        simpa [isFiller] using hhere
      rw [components_of_first hfiller, ← later_cons hroot s]
      simp [later]

theorem components_eq_nil {p : Path} : p.components = [] ↔ p.isEmpty = true := by
  constructor
  · intro h
    by_contra hne
    have hlen := length_components (Bool.eq_false_iff.2 hne)
    simp [h] at hlen
  · intro h
    obtain ⟨bytes⟩ := p
    obtain rfl : bytes = [] := by simpa [isEmpty] using h
    rfl

/-- `s` has no more components than `t`, and its first part is a filler where that of `t` is one. -/
structure Covers (t s : Bytes) : Prop where
  nil : t = [] → s = []
  later_le : later s ≤ later t
  first_eq : isFiller (first t) = true → first s = first t

namespace Covers
variable {s t u : Bytes}

theorem refl (s : Bytes) : Covers s s := ⟨id, le_rfl, fun _ => rfl⟩

theorem trans (h : Covers u t) (h' : Covers t s) : Covers u s := by
  refine ⟨fun hu => h'.nil (h.nil hu), h'.later_le.trans h.later_le, fun hu => ?_⟩
  have hfirst := h.first_eq hu
  rw [h'.first_eq (hfirst ▸ hu), hfirst]

theorem cons (h : Covers t s) (b : UInt8) : Covers (b :: t) (b :: s) := by
  by_cases hb : b = slash
  · subst hb
    refine ⟨by simp, ?_, fun _ => rfl⟩
    rw [later_slash, later_slash]
    have hle := h.later_le
    have hfirst := h.first_eq
    cases ht : isFiller (first t) with
    | true =>
      rw [hfirst ht, ht]
      simpa using hle
    | false =>
      simp only [Bool.false_eq_true, if_false]
      split_ifs <;> omega
  · refine ⟨by simp, ?_, fun hfiller => ?_⟩
    · rw [later_cons hb, later_cons hb]
      exact h.later_le
    · rw [first_cons hb] at hfiller
      obtain ⟨-, hnil⟩ : b = dot ∧ first t = [] := by simpa [isFiller] using hfiller
      rw [first_cons hb, first_cons hb, h.first_eq (by simp [hnil, isFiller])]

theorem append (h : Covers t s) (z : Bytes) : Covers (z ++ t) (z ++ s) := by
  induction z with
  | nil => exact h
  | cons b z ih => exact ih.cons b

theorem later_append_le (z t : Bytes) : later t ≤ later (z ++ t) := by
  induction z with
  | nil => exact le_rfl
  | cons b z ih =>
    by_cases hb : b = slash
    · subst hb
      rw [List.cons_append, later_slash]
      omega
    · rwa [List.cons_append, later_cons hb]

theorem later_append {x : Bytes} (hx : slash ∉ x) (s : Bytes) : later (x ++ s) = later s := by
  induction x with
  | nil => rfl
  | cons b x ih =>
    rw [List.cons_append, later_cons fun hb => hx (by simp [hb])]
    exact ih fun hmem => hx (List.mem_cons_of_mem _ hmem)

/-- A text without slashes goes in the place of one that begins with no slash and no dot. -/
theorem replace (h : Covers t s) {b : UInt8} (hb : b ≠ slash ∧ b ≠ dot) (z : Bytes) {x : Bytes}
    (hx : slash ∉ x) : Covers (b :: z ++ t) (x ++ s) := by
  refine ⟨by simp, ?_, fun hfiller => ?_⟩
  · rw [later_append hx]
    exact h.later_le.trans (later_append_le _ _)
  · rw [List.cons_append, first_cons hb.1] at hfiller
    simp [isFiller, hb.2] at hfiller

theorem length_le (h : Covers t s) :
    (components ⟨s⟩).length ≤ (components ⟨t⟩).length := by
  by_cases hs : s = []
  · subst hs
    exact Nat.zero_le _
  · have ht : t ≠ [] := fun ht => hs (h.nil ht)
    rw [length_components (by simpa [isEmpty] using hs), length_components (by simpa [isEmpty] using ht)]
    exact Nat.succ_le_succ h.later_le

end Covers

/-! ## Components behind each other -/

theorem bytes_partComponent (part : Bytes) : (partComponent part).bytes = part := by
  rw [partComponent]
  split_ifs with h
  · exact (beq_iff_eq.1 h).symm
  · rfl

theorem components_of_part {part : Bytes} (h : IsPart part) : components ⟨part⟩ = [partComponent part] := by
  have hlead : lead ⟨part⟩ = none := by
    obtain ⟨b, rest, rfl⟩ := List.exists_cons_of_ne_nil h.ne_nil
    have hb : b ≠ slash := fun hb => h.no_slash (by simp [hb])
    have hrest : rest.head? ≠ some slash := fun hrest =>
      h.no_slash (List.mem_cons_of_mem _ (List.mem_of_mem_head? hrest))
    have hhere := h.ne_here
    simp_all [lead]
  have hparts : parts ⟨part⟩ = [part] := by
    rw [parts, hlead]
    exact h.split_eq
  simp [components, hlead, hparts, h.not_isFiller]

theorem nil_join (p : Path) : (Path.mk []).join p = p := by
  simp [join, isEmpty]

theorem components_of_lead {p : Path} {l : Component} (h : p.lead = some l) :
    components ⟨l.bytes⟩ = [l] ∧ l.bytes ≠ [] := by
  have hl : l = .root ∨ l = .here := by
    rw [lead] at h
    split at h
    · cases h
    · split_ifs at h <;> cases h <;> simp
  rcases hl with rfl | rfl <;> exact ⟨by decide, by decide⟩

theorem components_foldl_join {p : Path} (hp : p.isEmpty = false) {parts : List Bytes}
    (h : ∀ part ∈ parts, IsPart part) :
    ((parts.map partComponent).foldl (fun p c => p.join ⟨c.bytes⟩) p).components =
      p.components ++ parts.map partComponent := by
  induction parts generalizing p with
  | nil => simp
  | cons part parts ih =>
    have hpart := h part List.mem_cons_self
    rw [List.map_cons, List.foldl_cons, bytes_partComponent,
      ih (join_not_isEmpty p hpart) fun q hq => h q (List.mem_cons_of_mem _ hq),
      components_join_part hp hpart]
    simp

theorem no_slash_of_mem_split {s part : Bytes} (h : part ∈ Bytes.split slash s) : slash ∉ part := by
  induction s generalizing part with
  | nil => simp_all [Bytes.split]
  | cons b s ih =>
    by_cases hb : b = slash
    · subst hb
      rcases List.mem_cons.1 h with rfl | h
      · simp
      · exact ih h
    · rw [split_cons hb] at h
      rw [split_eq_first s] at ih
      rcases List.mem_cons.1 h with rfl | h
      · simpa [Ne.symm hb] using ih List.mem_cons_self
      · exact ih (List.mem_cons_of_mem _ h)

theorem isPart_of_mem {p : Path} {part : Bytes} (h : part ∈ p.parts.filter (!isFiller ·)) :
    IsPart part := by
  obtain ⟨hmem, hfiller⟩ := List.mem_filter.1 h
  have hne : part ≠ [] ∧ part ≠ [dot] := by simpa [isFiller] using hfiller
  exact ⟨hne.1, hne.2, no_slash_of_mem_split hmem⟩

/-- Components put behind each other again make a path with these components. -/
theorem components_of_prefix {p : Path} {cs : List Component} (h : cs <+: p.components) :
    (cs.foldl (fun p c => p.join ⟨c.bytes⟩) (Path.mk [])).components = cs := by
  have htail : ∀ {tail : List Component} {fs : List Bytes},
      (∀ part ∈ fs, IsPart part) → tail <+: fs.map partComponent →
      ∃ parts : List Bytes, (∀ part ∈ parts, IsPart part) ∧ tail = parts.map partComponent := by
    intro tail fs hfs htail
    refine ⟨fs.take tail.length, fun part hpart => hfs part (List.mem_of_mem_take hpart), ?_⟩
    rw [List.map_take]
    exact List.prefix_iff_eq_take.1 htail
  cases cs with
  | nil => rfl
  | cons c cs =>
    obtain ⟨parts, hparts, rfl, hc, hne⟩ : ∃ parts : List Bytes, (∀ part ∈ parts, IsPart part) ∧
        cs = parts.map partComponent ∧ components ⟨c.bytes⟩ = [c] ∧ c.bytes ≠ [] := by
      rw [components] at h
      cases hlead : p.lead with
      | some l =>
        rw [hlead, Option.toList_some, List.singleton_append, List.cons_prefix_cons] at h
        obtain ⟨rfl, hcs⟩ := h
        obtain ⟨parts, hparts, rfl⟩ := htail (fun part => isPart_of_mem) hcs
        exact ⟨parts, hparts, rfl, components_of_lead hlead⟩
      | none =>
        rw [hlead, Option.toList_none, List.nil_append] at h
        obtain ⟨parts, hparts, hcs⟩ := htail (fun part => isPart_of_mem) h
        cases parts with
        | nil => simp at hcs
        | cons part parts =>
          obtain ⟨rfl, rfl⟩ := List.cons.inj hcs
          have hpart := hparts part List.mem_cons_self
          refine ⟨parts, fun q hq => hparts q (List.mem_cons_of_mem _ hq), rfl, ?_, ?_⟩
          · rw [bytes_partComponent, components_of_part hpart]
          · rw [bytes_partComponent]
            exact hpart.ne_nil
    rw [List.foldl_cons, nil_join, components_foldl_join (by simpa [isEmpty] using hne) hparts, hc]
    rfl

/-- Two bytes in a row that are no slashes stand in one part. -/
theorem exists_part_of_infix {b c : UInt8} (hb : b ≠ slash) (hc : c ≠ slash) {s : Bytes}
    (h : [b, c] <:+: s) : ∃ part ∈ Bytes.split slash s, [b, c] <:+: part := by
  induction s with
  | nil => simp at h
  | cons a s ih =>
    rcases List.infix_cons_iff.1 h with hprefix | hinfix
    · obtain ⟨t, ht⟩ := hprefix
      obtain ⟨rfl, rfl⟩ : a = b ∧ s = c :: t := by simpa [eq_comm] using ht
      refine ⟨a :: first (c :: t), by simp [split_cons hb], ?_⟩
      rw [first_cons hc]
      exact ⟨[], first t, rfl⟩
    · obtain ⟨part, hpart, hin⟩ := ih hinfix
      by_cases ha : a = slash
      · subst ha
        exact ⟨part, List.mem_cons_of_mem _ hpart, hin⟩
      · rw [split_cons ha]
        rw [split_eq_first s] at hpart
        rcases List.mem_cons.1 hpart with rfl | hpart
        · exact ⟨a :: first s, List.mem_cons_self, hin.trans (List.suffix_cons _ _).isInfix⟩
        · exact ⟨part, List.mem_cons_of_mem _ hpart, hin⟩

/-! ## Texts that begin alike -/

theorem mem_of_mem_split {s part : Bytes} (h : part ∈ Bytes.split slash s) {b : UInt8} (hb : b ∈ part) :
    b ∈ s := by
  induction s generalizing part with
  | nil => simp_all [Bytes.split]
  | cons a s ih =>
    by_cases ha : a = slash
    · subst ha
      rcases List.mem_cons.1 h with rfl | h
      · cases hb
      · exact List.mem_cons_of_mem _ (ih h hb)
    · rw [split_cons ha] at h
      rw [split_eq_first s] at ih
      rcases List.mem_cons.1 h with rfl | h
      · rcases List.mem_cons.1 hb with rfl | hb
        · exact List.mem_cons_self
        · exact List.mem_cons_of_mem _ (ih List.mem_cons_self hb)
      · exact List.mem_cons_of_mem _ (ih (List.mem_cons_of_mem _ h) hb)

/-- Components are spelt with the bytes of their path. -/
theorem mem_of_mem_components {p : Path} {c : Component} (h : c ∈ p.components) {b : UInt8}
    (hb : b ∈ c.bytes) : b ∈ p.bytes := by
  rcases List.mem_append.1 h with hlead | hrest
  · obtain ⟨bytes⟩ := p
    cases bytes with
    | nil => cases hlead
    | cons a s =>
      rw [lead] at hlead
      dsimp only at hlead
      split_ifs at hlead with hroot hhere
      · obtain rfl : c = .root := by simpa using hlead
        obtain rfl : b = slash := by simpa [Component.bytes] using hb
        simp [beq_iff_eq.1 hroot]
      · obtain rfl : c = .here := by simpa using hlead
        obtain rfl : b = dot := by simpa [Component.bytes] using hb
        simp only [Bool.and_eq_true, beq_iff_eq] at hhere
        simp [hhere.1]
      · cases hlead
  · obtain ⟨part, hpart, rfl⟩ := List.mem_map.1 hrest
    rw [bytes_partComponent] at hb
    have hmem := mem_of_mem_split (List.mem_filter.1 hpart).1 hb
    split_ifs at hmem
    · exact List.mem_of_mem_drop hmem
    · exact hmem

/-- What follows a slash adds components and leaves those before it alone. -/
theorem components_append_slash (front : Bytes) : ∃ cs, ∀ s,
    components ⟨front ++ slash :: s⟩ =
      cs ++ ((Bytes.split slash s).filter (!isFiller ·)).map partComponent := by
  by_cases hfront : front = []
  · subst hfront
    exact ⟨[.root], fun s => rfl⟩
  · refine ⟨components ⟨front⟩, fun s => ?_⟩
    rw [components, lead_append hfront, parts_append hfront, List.filter_append, List.map_append, components,
      List.append_assoc]

theorem takeWhile_prefix_of_false {α : Type} {p : α → Bool} (cs : List α) {c : α} (hc : p c = false)
    (rest : List α) : (cs ++ c :: rest).takeWhile p <+: cs := by
  induction cs with
  | nil => simp [hc]
  | cons a cs ih =>
    rw [List.cons_append, List.takeWhile_cons]
    split_ifs
    · exact List.cons_prefix_cons.2 ⟨rfl, ih⟩
    · exact List.nil_prefix

/-- The components of a text up to the first with a byte of its own in it do not depend on what follows
that byte. -/
theorem takeWhile_components_prefix {special : UInt8 → Bool}
    (hspecial : special slash = false ∧ special dot = false) (front : Bytes) {b : UInt8} (hb : special b = true) (s t : Bytes) :
    (components ⟨front ++ b :: s⟩).takeWhile (fun c => !c.bytes.any special) <+:
      components ⟨front ++ t⟩ := by
  have hslash : b ≠ slash := by
    rintro rfl
    simp [hspecial] at hb
  have hpart : ∀ x : Bytes, isFiller (x ++ b :: first s) = false ∧
      (!(partComponent (x ++ b :: first s)).bytes.any special) = false := by
    intro x
    have hmem : b ∈ x ++ b :: first s := by simp
    have hne : x ++ b :: first s ≠ [dot] := by
      intro hdot
      obtain rfl : b = dot := by simpa [hdot] using hmem
      simp [hspecial] at hb
    refine ⟨by simp [isFiller, hne], ?_⟩
    rw [bytes_partComponent, Bool.not_eq_false', List.any_eq_true]
    exact ⟨b, hmem, hb⟩
  have hfirst : ∀ x, slash ∉ x → first (x ++ b :: s) = x ++ b :: first s := by
    intro x hx
    rw [first_append hx, first_cons hslash]
  by_cases hfront : slash ∈ front
  · obtain ⟨y, x, hsplit, hy⟩ := List.eq_append_cons_of_mem (List.mem_reverse.2 hfront)
    obtain rfl : front = x.reverse ++ slash :: y.reverse := by
      rw [← List.reverse_reverse front, hsplit]
      simp
    obtain ⟨cs, hcs⟩ := components_append_slash x.reverse
    rw [List.append_assoc, List.append_assoc, List.cons_append, List.cons_append, hcs, hcs,
      split_eq_first (y.reverse ++ b :: s), hfirst _ (by simpa using hy), List.filter_cons,
      (hpart y.reverse).1]
    exact (takeWhile_prefix_of_false cs (hpart y.reverse).2 _).trans (List.prefix_append _ _)
  · rw [components_of_first (by rw [hfirst _ hfront]; exact (hpart front).1), hfirst _ hfront,
      List.takeWhile_cons, (hpart front).2]
    exact List.nil_prefix

end Path
end Uncomment
