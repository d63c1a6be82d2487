import Mathlib
import Uncomment.Batch
import Uncomment.Disk
import Uncomment.Proofs.Emission

/-! Paths and the text that spells them. A name put behind a path adds one component, whatever
the spelling of the path. Paths are ordered by their components, and so a list of results with
different paths has one order only. -/
namespace Uncomment
open Ascii

namespace Bytes

theorem split_append (c : UInt8) (s t : Bytes) : split c (s ++ c :: t) = split c s ++ split c t := by
  induction s with
  | nil => simp [split]
  | cons b s ih =>
    rw [List.cons_append, split, split, ih]
    split_ifs
    · rfl
    · obtain ⟨piece, more, h⟩ := List.exists_cons_of_ne_nil (split_ne_nil c s)
      simp [h]

theorem join_cons (c : UInt8) (piece : Bytes) {pieces : List Bytes} (h : pieces ≠ []) :
    join c (piece :: pieces) = piece ++ c :: join c pieces := by
  obtain ⟨next, pieces, rfl⟩ := List.exists_cons_of_ne_nil h
  simp [join, List.intercalate]

theorem split_join {c : UInt8} {pieces : List Bytes} (hne : pieces ≠ [])
    (h : ∀ piece ∈ pieces, c ∉ piece) : split c (join c pieces) = pieces := by
  induction pieces with
  | nil => exact absurd rfl hne
  | cons piece pieces ih =>
    have hpiece : c ∉ piece := h piece List.mem_cons_self
    by_cases hp : pieces = []
    · subst hp
      simpa [join] using split_of_notMem hpiece
    · rw [join_cons c piece hp, split_append_cons hpiece,
        ih hp fun p hm => h p (List.mem_cons_of_mem _ hm)]

theorem lexCompare_eq {α : Type} (cmp : α → α → Ordering) : lexCompare cmp = List.compareLex cmp := by
  funext xs ys
  induction xs generalizing ys with
  | nil => cases ys <;> rfl
  | cons x xs ih =>
    cases ys with
    | nil => rfl
    | cons y ys => rw [lexCompare, List.compareLex_cons_cons, ih]

theorem compareByte_eq : compareByte = (Ord.compare : UInt8 → UInt8 → Ordering) := by
  funext a b
  change _ = compareOfLessAndEq a b
  simp only [compareByte, compareOfLessAndEq, UInt8.lt_iff_toNat_lt, ← UInt8.toNat_inj]
  split_ifs <;> first | rfl | omega

instance : Std.TransCmp Bytes.compare := by
  unfold Bytes.compare
  rw [lexCompare_eq, compareByte_eq]
  infer_instance

instance : Std.LawfulEqCmp Bytes.compare := by
  unfold Bytes.compare
  rw [lexCompare_eq, compareByte_eq]
  infer_instance

end Bytes

namespace Component

theorem compare_eq (a b : Component) :
    compare a b = (Ord.compare a.rank b.rank).then (Bytes.compare a.bytes b.bytes) := by
  cases a <;> cases b <;> rfl

/-- Components are ordered by their rank first and by their bytes then. -/
theorem compare_eq_compareLex :
    compare = compareLex (compareOn rank) fun a b => Bytes.compare a.bytes b.bytes := by
  funext a b
  exact compare_eq a b

instance : Std.TransCmp compare := by
  have hbytes : Std.TransCmp fun a b : Component => Bytes.compare a.bytes b.bytes :=
    { eq_swap := Std.OrientedCmp.eq_swap
      isLE_trans := Std.TransCmp.isLE_trans }
  rw [compare_eq_compareLex]
  infer_instance

instance : Std.LawfulEqCmp compare where
  eq_of_compare {a b} h := by
    rw [compare_eq, Ordering.then_eq_eq] at h
    have hrank := Std.LawfulEqOrd.eq_of_compare h.1
    have hbytes := Std.LawfulEqCmp.eq_of_compare h.2
    cases a <;> cases b <;> simp_all [rank, bytes]

end Component

/-- What stands between slashes and is a component. -/
structure IsPart (part : Bytes) : Prop where
  ne_nil : part ≠ []
  ne_here : part ≠ [dot]
  no_slash : slash ∉ part

namespace IsPart
variable {part : Bytes} (h : IsPart part)
include h

theorem not_isFiller : Path.isFiller part = false := by
  simp [Path.isFiller, h.ne_nil, h.ne_here]

theorem split_eq : Bytes.split slash part = [part] := Bytes.split_of_notMem h.no_slash

theorem not_isAbsolute : Path.isAbsolute ⟨part⟩ = false := by
  obtain ⟨b, rest, rfl⟩ := List.exists_cons_of_ne_nil h.ne_nil
  have hb : b ≠ slash := fun hb => h.no_slash (hb ▸ List.mem_cons_self)
  simpa [Path.isAbsolute] using hb

end IsPart

/-- What an entry of a directory can be called. -/
structure IsName (name : Bytes) : Prop where
  ne_nil : name ≠ []
  ne_here : name ≠ [dot]
  ne_up : name ≠ [dot, dot]
  no_slash : slash ∉ name
  no_nul : nul ∉ name
  short : name.length ≤ Disk.nameLimit

namespace IsName

theorem iff_fields (name : Bytes) :
    IsName name ↔ name ≠ [] ∧ name ≠ [dot] ∧ name ≠ [dot, dot] ∧ slash ∉ name ∧ nul ∉ name ∧
      name.length ≤ Disk.nameLimit :=
  ⟨fun h => ⟨h.ne_nil, h.ne_here, h.ne_up, h.no_slash, h.no_nul, h.short⟩,
    fun ⟨h1, h2, h3, h4, h5, h6⟩ => ⟨h1, h2, h3, h4, h5, h6⟩⟩

instance (name : Bytes) : Decidable (IsName name) := decidable_of_iff _ (iff_fields name).symm

variable {name : Bytes} (h : IsName name)
include h

theorem isPart : IsPart name := ⟨h.ne_nil, h.ne_here, h.no_slash⟩

theorem not_isFiller : Path.isFiller name = false := h.isPart.not_isFiller

theorem partComponent_eq : Path.partComponent name = .name name := by
  simp [Path.partComponent, h.ne_up]

theorem split_eq : Bytes.split slash name = [name] := h.isPart.split_eq

theorem not_isAbsolute : Path.isAbsolute ⟨name⟩ = false := h.isPart.not_isAbsolute

end IsName

namespace Path

theorem compare_eq_eq {p q : Path} : compare p q = .eq ↔ p.components = q.components := by
  rw [compare, Bytes.lexCompare_eq, Std.LawfulEqCmp.compare_eq_iff_eq]

theorem le_trans {p q r : Path} (hpq : p.le q) (hqr : q.le r) : p.le r := by
  simp only [le, compare, Bytes.lexCompare_eq, bne_iff_ne, Ordering.ne_gt_iff_isLE] at *
  exact Std.TransCmp.isLE_trans hpq hqr

theorem le_total (p q : Path) : p.le q || q.le p := by
  simp only [le, compare, Bytes.lexCompare_eq, Bool.or_eq_true, bne_iff_ne, Ordering.ne_gt_iff_isLE]
  by_cases h : (List.compareLex Component.compare p.components q.components).isLE
  · exact .inl h
  · exact .inr (Ordering.isLE_of_eq_lt (Std.OrientedCmp.lt_of_not_isLE (by simpa using h)))

theorem le_of_components_eq {p q : Path} (h : p.components = q.components) : p.le q := by
  rw [le, compare_eq_eq.2 h]
  rfl

theorem le_antisymm {p q : Path} (hpq : p.le q) (hqp : q.le p) : p.components = q.components := by
  simp only [le, compare, Bytes.lexCompare_eq, bne_iff_ne, Ordering.ne_gt_iff_isLE] at *
  exact Std.LawfulEqCmp.eq_of_compare (Std.OrientedCmp.isLE_antisymm hpq hqp)

/-! ## Names behind a path -/

/-- The lead is read off what stands before the first slash. -/
theorem lead_append {front : Bytes} (h : front ≠ []) (s : Bytes) :
    lead ⟨front ++ slash :: s⟩ = lead ⟨front⟩ := by
  obtain ⟨b, front, rfl⟩ := List.exists_cons_of_ne_nil h
  cases front <;> simp [lead]

theorem parts_append {front : Bytes} (h : front ≠ []) (s : Bytes) :
    parts ⟨front ++ slash :: s⟩ = parts ⟨front⟩ ++ Bytes.split slash s := by
  simp only [parts, lead_append h]
  split_ifs with hlead
  · obtain ⟨b, front, rfl⟩ := List.exists_cons_of_ne_nil h
    simp [Bytes.split_append]
  · rw [Bytes.split_append]

theorem join_of_slash {front part : Bytes} (h : IsPart part) :
    (Path.mk (front ++ [slash])).join ⟨part⟩ = ⟨front ++ slash :: part⟩ := by
  simp [join, h.not_isAbsolute, isEmpty]

theorem join_of_ne_slash {p : Path} (hp : p.isEmpty = false) (hlast : p.bytes.getLast? ≠ some slash)
    {part : Bytes} (h : IsPart part) : p.join ⟨part⟩ = ⟨p.bytes ++ slash :: part⟩ := by
  simp [join, h.not_isAbsolute, hp, hlast]

/-- What is put behind a path is one more part. A slash that ends the path is used up. -/
theorem parts_join {p : Path} (hp : p.isEmpty = false) {part : Bytes} (h : IsPart part) :
    (p.join ⟨part⟩).lead = p.lead ∧
      ((p.join ⟨part⟩).parts = p.parts ++ [part] ∨
        ∃ before, p.parts = before ++ [[]] ∧ (p.join ⟨part⟩).parts = before ++ [part]) := by
  have hne : p.bytes ≠ [] := by simpa [isEmpty] using hp
  by_cases hlast : p.bytes.getLast? = some slash
  · obtain ⟨front, hfront⟩ := List.getLast?_eq_some_iff.1 hlast
    obtain ⟨bytes⟩ := p
    subst hfront
    rw [join_of_slash h]
    by_cases hfront : front = []
    · subst hfront
      exact ⟨by simp [lead], .inr ⟨[], by simp [parts, lead, Bytes.split], by simp [parts, lead, h.split_eq]⟩⟩
    · refine ⟨by rw [lead_append hfront, lead_append hfront], .inr ⟨parts ⟨front⟩, ?_, ?_⟩⟩
      · rw [parts_append hfront]
        rfl
      · rw [parts_append hfront, h.split_eq]
  · rw [join_of_ne_slash hp hlast h]
    refine ⟨lead_append hne _, .inl ?_⟩
    rw [parts_append hne, h.split_eq]

theorem mem_join {p : Path} {name : Bytes} (h : IsName name) {b : UInt8}
    (hb : b ∈ (p.join ⟨name⟩).bytes) : b ∈ p.bytes ∨ b = slash ∨ b ∈ name := by
  simp only [join, h.not_isAbsolute] at hb
  split_ifs at hb <;> simp at hb <;> tauto

theorem join_not_isEmpty (p : Path) {part : Bytes} (h : IsPart part) :
    (p.join ⟨part⟩).isEmpty = false := by
  simp only [join, h.not_isAbsolute]
  split_ifs <;> simp [isEmpty, h.ne_nil]

theorem getLast?_join (p : Path) {name : Bytes} (h : IsName name) :
    (p.join ⟨name⟩).bytes.getLast? ≠ some slash := by
  obtain ⟨before, b, rfl⟩ := (List.eq_nil_or_concat' name).resolve_left h.ne_nil
  have hb : b ≠ slash := fun hb => h.no_slash (by simp [hb])
  have hbytes : ∃ front, (p.join ⟨before ++ [b]⟩).bytes = front ++ [b] := by
    simp only [join, h.not_isAbsolute, Bool.false_eq_true, if_false]
    split_ifs
    · exact ⟨p.bytes ++ before, by simp⟩
    · exact ⟨p.bytes ++ slash :: before, by simp⟩
  obtain ⟨front, hfront⟩ := hbytes
  rw [hfront, List.getLast?_concat]
  simpa using hb

theorem components_join_part {p : Path} (hp : p.isEmpty = false) {part : Bytes} (h : IsPart part) :
    (p.join ⟨part⟩).components = p.components ++ [partComponent part] := by
  obtain ⟨hlead, hparts | ⟨before, hbefore, hparts⟩⟩ := parts_join hp h
  · simp [components, hlead, hparts, h.not_isFiller]
  · have hnil : isFiller [] = true := rfl
    simp [components, hlead, hparts, hbefore, h.not_isFiller, hnil]

theorem components_join {p : Path} (hp : p.isEmpty = false) {name : Bytes} (h : IsName name) :
    (p.join ⟨name⟩).components = p.components ++ [.name name] := by
  rw [components_join_part hp h.isPart, h.partComponent_eq]

/-- The steps to a name behind a path. -/
theorem steps_join {p : Path} (hp : p.isEmpty = false) {name : Bytes} (h : IsName name) :
    Disk.steps (p.join ⟨name⟩) = Disk.steps p ++ [.name name] ∨
      ∃ before, Disk.steps p = before ++ [.here] ∧
        Disk.steps (p.join ⟨name⟩) = before ++ [.name name] := by
  obtain ⟨hlead, hparts | ⟨before, hbefore, hparts⟩⟩ := parts_join hp h.isPart
  · left
    simp [Disk.steps, hlead, hparts, h.not_isFiller, h.partComponent_eq]
  · right
    exact ⟨p.lead.toList ++ before.map fun part => if isFiller part then .here else partComponent part,
      by simp [Disk.steps, hbefore, isFiller],
      by simp [Disk.steps, hlead, hparts, h.not_isFiller, h.partComponent_eq]⟩

/-! ## Names one behind the other -/

/-- A path of names alone has no lead. -/
theorem lead_of_names {names : List Bytes} (h : ∀ name ∈ names, IsName name) :
    lead ⟨Bytes.join slash names⟩ = none := by
  cases names with
  | nil => rfl
  | cons name names =>
    have hname := h name List.mem_cons_self
    obtain ⟨b, rest, rfl⟩ := List.exists_cons_of_ne_nil hname.ne_nil
    have hb : b ≠ slash := fun hb => hname.no_slash (hb ▸ List.mem_cons_self)
    cases rest with
    | nil =>
      have hdot : b ≠ dot := fun hdot => hname.ne_here (by rw [hdot])
      by_cases hn : names = []
      · simp [hn, Bytes.join, lead, hb, hdot]
      · simp [Bytes.join_cons _ _ hn, lead, hb, hdot]
    | cons c rest =>
      have hc : c ≠ slash := fun hc => hname.no_slash (by simp [hc])
      by_cases hn : names = []
      · simp [hn, Bytes.join, lead, hb, hc]
      · simp [Bytes.join_cons _ _ hn, lead, hb, hc]

theorem parts_of_names {names : List Bytes} (hne : names ≠ []) (h : ∀ name ∈ names, IsName name) :
    parts ⟨Bytes.join slash names⟩ = names := by
  rw [parts, lead_of_names h]
  exact Bytes.split_join hne fun name hn => (h name hn).no_slash

theorem map_partComponent {names : List Bytes} (h : ∀ name ∈ names, IsName name) :
    names.map partComponent = names.map Component.name :=
  List.map_congr_left fun name hn => (h name hn).partComponent_eq

theorem map_step {names : List Bytes} (h : ∀ name ∈ names, IsName name) :
    (names.map fun part => if isFiller part then Component.here else partComponent part) =
      names.map Component.name := by
  refine List.map_congr_left fun name hn => ?_
  rw [(h name hn).not_isFiller, (h name hn).partComponent_eq]
  rfl

theorem filter_names {names : List Bytes} (h : ∀ name ∈ names, IsName name) :
    names.filter (!isFiller ·) = names := by
  rw [List.filter_eq_self]
  intro name hn
  rw [(h name hn).not_isFiller]
  rfl

theorem dropEndWhile_names {names : List Bytes} (h : ∀ name ∈ names, IsName name) :
    Bytes.dropEndWhile isFiller names = names := by
  rcases List.eq_nil_or_concat names with rfl | ⟨before, last, rfl⟩
  · rfl
  · have hlast := (h last (by simp)).not_isFiller
    simp [Bytes.dropEndWhile, hlast]

theorem components_of_names {names : List Bytes} (hne : names ≠ [])
    (h : ∀ name ∈ names, IsName name) :
    components ⟨Bytes.join slash names⟩ = names.map Component.name := by
  rw [components, lead_of_names h, parts_of_names hne h, filter_names h, map_partComponent h]
  rfl

theorem steps_of_names {names : List Bytes} (hne : names ≠ []) (h : ∀ name ∈ names, IsName name) :
    Disk.steps ⟨Bytes.join slash names⟩ = names.map Component.name := by
  rw [Disk.steps, lead_of_names h, parts_of_names hne h, map_step h]
  rfl

/-! ## Paths from the top -/

theorem lead_absolute (loc : Location) : (Disk.absolute loc).lead = some .root := by
  simp [Disk.absolute, lead]

theorem parts_absolute {loc : Location} (hne : loc ≠ []) (h : ∀ name ∈ loc, IsName name) :
    (Disk.absolute loc).parts = loc := by
  rw [parts, lead_absolute]
  exact Bytes.split_join hne fun name hn => (h name hn).no_slash

theorem steps_absolute {loc : Location} (hne : loc ≠ []) (h : ∀ name ∈ loc, IsName name) :
    Disk.steps (Disk.absolute loc) = .root :: loc.map Component.name := by
  rw [Disk.steps, lead_absolute, parts_absolute hne h, map_step h]
  rfl

end Path

end Uncomment
