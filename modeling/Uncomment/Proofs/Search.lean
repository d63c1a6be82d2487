import Mathlib
import Uncomment.Bytes

/-! Searching a byte string. `indexOf?` finds the first occurrence, and an occurrence that
ends inside a text is not moved by what follows the text. -/
namespace Uncomment.Bytes

/-- `needle` stands at offset `i` of `s` and at no smaller offset. -/
def FirstAt (needle s : Bytes) (i : Nat) : Prop :=
  needle <+: s.drop i ∧ ∀ j < i, ¬ needle <+: s.drop j

theorem firstAt_zero {needle s : Bytes} : FirstAt needle s 0 ↔ needle <+: s := by
  simp [FirstAt]

theorem firstAt_succ {needle rest : Bytes} {b : UInt8} {i : Nat} :
    FirstAt needle (b :: rest) (i + 1) ↔ ¬ needle <+: b :: rest ∧ FirstAt needle rest i := by
  constructor
  · rintro ⟨hp, hn⟩
    refine ⟨hn 0 (by omega), by simpa using hp, fun j hj => ?_⟩
    simpa using hn (j + 1) (by omega)
  · rintro ⟨hz, hp, hn⟩
    refine ⟨by simpa using hp, fun j hj => ?_⟩
    cases j with
    | zero => exact hz
    | succ j => simpa using hn j (by omega)

theorem indexOf?_eq_some {needle s : Bytes} {i : Nat} :
    indexOf? needle s = some i ↔ FirstAt needle s i := by
  induction s generalizing i with
  | nil =>
    cases needle with
    | nil =>
      cases i with
      | zero => simp [indexOf?, FirstAt]
      | succ i => simpa [indexOf?, FirstAt] using ⟨0, by omega⟩
    | cons b needle => simp [indexOf?, FirstAt]
  | cons b rest ih =>
    simp only [indexOf?, List.isPrefixOf_iff_prefix]
    split_ifs with h
    · cases i with
      | zero => simpa [firstAt_zero] using h
      | succ i => simp [firstAt_succ, h]
    · cases i with
      | zero => simpa [firstAt_zero] using h
      | succ i => simp [firstAt_succ, h, ih]

theorem indexOf?_eq_none {needle s : Bytes} :
    indexOf? needle s = none ↔ ∀ i, ¬ needle <+: s.drop i := by
  induction s with
  | nil => cases needle <;> simp [indexOf?]
  | cons b rest ih =>
    simp only [indexOf?, List.isPrefixOf_iff_prefix]
    split_ifs with h
    · simpa using ⟨0, by simpa using h⟩
    · rw [Option.map_eq_none_iff, ih]
      constructor
      · intro hn i
        cases i with
        | zero => simpa using h
        | succ i => simpa using hn i
      · intro hn i
        simpa using hn (i + 1)

theorem FirstAt.le {needle s : Bytes} {i : Nat} (h : FirstAt needle s i) :
    i + needle.length ≤ s.length := by
  have hl := h.1.length_le
  cases needle with
  | nil =>
    have hi : i = 0 := by
      by_contra hne
      exact h.2 0 (by omega) List.nil_prefix
    simp [hi]
  | cons b needle =>
    simp only [List.length_drop, List.length_cons] at hl ⊢
    omega

theorem FirstAt.unique {needle s : Bytes} {i j : Nat} (hi : FirstAt needle s i)
    (hj : FirstAt needle s j) : i = j := by
  rcases Nat.lt_trichotomy i j with h | h | h
  · exact absurd hi.1 (hj.2 i h)
  · exact h
  · exact absurd hj.1 (hi.2 j h)

theorem prefix_drop_append {needle s : Bytes} {i : Nat} (t : Bytes)
    (hl : i + needle.length ≤ s.length) :
    needle <+: (s ++ t).drop i ↔ needle <+: s.drop i := by
  rw [List.drop_append_of_le_length (by omega)]
  constructor
  · intro h
    exact List.prefix_of_prefix_length_le h (List.prefix_append _ _) (by simp; omega)
  · exact fun h => h.trans (List.prefix_append _ _)

theorem firstAt_append_iff {needle s : Bytes} {i : Nat} (t : Bytes)
    (hl : i + needle.length ≤ s.length) : FirstAt needle (s ++ t) i ↔ FirstAt needle s i := by
  have hj : ∀ j < i, (needle <+: (s ++ t).drop j ↔ needle <+: s.drop j) :=
    fun j hj => prefix_drop_append t (by omega)
  constructor
  · rintro ⟨hp, hn⟩
    exact ⟨(prefix_drop_append t hl).1 hp, fun j h => (hj j h).not.1 (hn j h)⟩
  · rintro ⟨hp, hn⟩
    exact ⟨(prefix_drop_append t hl).2 hp, fun j h => (hj j h).not.2 (hn j h)⟩

theorem FirstAt.append {needle s : Bytes} {i : Nat} (h : FirstAt needle s i) (t : Bytes) :
    FirstAt needle (s ++ t) i :=
  (firstAt_append_iff t h.le).2 h

theorem FirstAt.concat {needle s : Bytes} {i : Nat} {b : UInt8} (h : FirstAt needle s i)
    (hb : s[i + needle.length]? = some b) : FirstAt (needle ++ [b]) s i := by
  refine ⟨?_, fun j hj hp => h.2 j hj ((List.prefix_append _ _).trans hp)⟩
  obtain ⟨t, ht⟩ := h.1
  have hget : (s.drop i)[needle.length]? = some b := by rwa [List.getElem?_drop]
  rw [← ht, List.getElem?_append_right le_rfl, Nat.sub_self, ← List.head?_eq_getElem?] at hget
  obtain ⟨t', rfl⟩ := List.head?_eq_some_iff.1 hget
  exact ⟨t', by rw [← ht, List.append_assoc, List.singleton_append]⟩

theorem includes_iff {s needle : Bytes} : includes s needle = true ↔ needle <:+: s := by
  rw [includes, Option.isSome_iff_ne_none, ne_eq, indexOf?_eq_none]
  push Not
  constructor
  · rintro ⟨i, hi⟩
    exact hi.isInfix.trans (List.drop_suffix i s).isInfix
  · rintro ⟨a, b, rfl⟩
    exact ⟨a.length, by simp⟩

theorem includes_mono {s t needle : Bytes} (h : s <:+: t) (hs : includes s needle = true) :
    includes t needle = true :=
  includes_iff.2 ((includes_iff.1 hs).trans h)

end Uncomment.Bytes
