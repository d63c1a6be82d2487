import Mathlib
import Uncomment.Scan
import Uncomment.Proofs.Search

/-! Openers and extents. An opener that is found takes at least one byte and no more than there
are, so the scan makes progress at every position and loses nothing. -/
namespace Uncomment

/-- Every opener takes a byte, and no line comment ends before its marker. -/
structure Language.Scannable (lang : Language) : Prop where
  markers : ∀ m ∈ lang.lineMarkers, m ≠ []
  blocks : ∀ d ∈ lang.blocks, d.opening ≠ []
  embedded : ∀ d ∈ lang.embedded, d.opening ≠ []
  lineEnds : ∀ m ∈ lang.lineMarkers, ∀ b ∈ m.head?, Ascii.isLineEnd b = false

theorem Language.scannable_of_mem_all {lang : Language} (h : lang ∈ Language.all) :
    lang.Scannable := by
  simp only [Language.all, List.mem_cons, List.not_mem_nil, or_false] at h
  rcases h with rfl | rfl | rfl | rfl | rfl <;> constructor <;> decide +kernel

namespace Scan

theorem opener?_cases {lang : Language} {s : Bytes} {o : Opener} (h : opener? lang s = some o) :
    (∃ d, o = .embedded d ∧ embedded? lang s = some d) ∨
    (∃ d ∈ lang.blocks, o = .block d ∧ d.opening <+: s) ∨
    (o = .line ∧ ∃ m ∈ lang.lineMarkers, m <+: s) ∨
    (∃ q ∈ lang.quotes, o = .quoted q ∧ s.head? = some q.mark) := by
  unfold opener? at h
  split at h
  · next d hd =>
    exact .inl ⟨d, (Option.some.inj h).symm, hd⟩
  · split at h
    · next d hd =>
      have hp := List.find?_some hd
      exact .inr (.inl ⟨d, List.mem_of_find?_eq_some hd, (Option.some.inj h).symm,
        List.isPrefixOf_iff_prefix.1 hp⟩)
    · split_ifs at h with hm
      · obtain ⟨m, hm, hp⟩ := List.any_eq_true.1 hm
        exact .inr (.inr (.inl ⟨(Option.some.inj h).symm, m, hm, List.isPrefixOf_iff_prefix.1 hp⟩))
      · obtain ⟨b, hb, hq⟩ := Option.bind_eq_some_iff.1 h
        obtain ⟨q, hf, rfl⟩ := Option.map_eq_some_iff.1 hq
        have hmark : q.mark = b := by simpa using List.find?_some hf
        exact .inr (.inr (.inr ⟨q, List.mem_of_find?_eq_some hf, rfl, by rw [hb, hmark]⟩))

theorem embedded?_eq_some {lang : Language} {s : Bytes} {d : Delimiter}
    (h : embedded? lang s = some d) :
    lang.embedded = some d ∧ d.opening <+: s ∧
      closesEmbedded d.closing (s.drop d.opening.length) = true := by
  obtain ⟨hd, hp⟩ := Option.filter_eq_some_iff.1 h
  rw [Bool.and_eq_true, List.isPrefixOf_iff_prefix] at hp
  exact ⟨hd, hp.1, hp.2⟩

theorem Opener.kind_ne_code (o : Opener) : o.kind ≠ .code := by
  cases o <;> simp [Opener.kind]

private theorem head?_of_begins {m : Bytes} {b : UInt8} {rest : Bytes} (h : m <+: b :: rest)
    (hm : m ≠ []) : m.head? = some b := by
  obtain ⟨t, ht⟩ := h
  cases m with
  | nil => exact absurd rfl hm
  | cons c m => simpa using (List.cons.inj ht).1

section Scannable
variable {lang : Language} (hs : lang.Scannable)
include hs

theorem opener?_nil : opener? lang [] = none := by
  cases h : opener? lang [] with
  | none => rfl
  | some o =>
    rcases opener?_cases h with ⟨d, -, he⟩ | ⟨d, hd, -, hp⟩ | ⟨-, m, hm, hp⟩ | ⟨q, -, -, hq⟩
    · obtain ⟨hd, hp, -⟩ := embedded?_eq_some he
      exact absurd (List.prefix_nil.1 hp) (hs.embedded d hd)
    · exact absurd (List.prefix_nil.1 hp) (hs.blocks d hd)
    · exact absurd (List.prefix_nil.1 hp) (hs.markers m hm)
    · simp at hq

/-- The table of opening bytes misses no opener. -/
theorem mayOpen_of_opener? {b : UInt8} {rest : Bytes} {o : Opener}
    (h : opener? lang (b :: rest) = some o) : lang.mayOpen b = true := by
  rw [Language.mayOpen, List.contains_iff_mem, Language.openingBytes]
  rcases opener?_cases h with ⟨d, -, he⟩ | ⟨d, hd, -, hp⟩ | ⟨-, m, hm, hp⟩ | ⟨q, hq, -, hb⟩
  · obtain ⟨hd, hp, -⟩ := embedded?_eq_some he
    refine List.mem_append_left _ (List.mem_filterMap.2 ⟨d.opening, ?_, ?_⟩)
    · exact List.mem_append_right _ (by simp [hd])
    · exact head?_of_begins hp (hs.embedded d hd)
  · refine List.mem_append_left _ (List.mem_filterMap.2 ⟨d.opening, ?_, ?_⟩)
    · exact List.mem_append_left _ (List.mem_append_right _ (List.mem_map_of_mem hd))
    · exact head?_of_begins hp (hs.blocks d hd)
  · refine List.mem_append_left _ (List.mem_filterMap.2 ⟨m, ?_, ?_⟩)
    · exact List.mem_append_left _ (List.mem_append_left _ hm)
    · exact head?_of_begins hp (hs.markers m hm)
  · refine List.mem_append_right _ (List.mem_map.2 ⟨q, hq, ?_⟩)
    simpa using hb.symm

theorem codeLength_of_some {s : Bytes} {o : Opener} (h : opener? lang s = some o) :
    codeLength lang s = 0 := by
  cases s with
  | nil => rfl
  | cons b rest => simp [codeLength, h, mayOpen_of_opener? hs h]

end Scannable

theorem codeLength_of_none {lang : Language} {b : UInt8} {rest : Bytes}
    (h : opener? lang (b :: rest) = none) :
    codeLength lang (b :: rest) = codeLength lang rest + 1 := by
  simp [codeLength, h]

theorem codeLength_le (lang : Language) (s : Bytes) : codeLength lang s ≤ s.length := by
  induction s with
  | nil => simp [codeLength]
  | cons b rest ih =>
    simp only [codeLength, List.length_cons]
    split_ifs <;> omega

theorem literalExtent_le (q : Quote) (s : Bytes) : (literalExtent q s).length ≤ s.length := by
  fun_induction literalExtent q s <;> simp_all [Extent.grow]

theorem blockExtent_le (d : Delimiter) {s : Bytes} (h : d.opening <+: s) :
    (blockExtent d s).length ≤ s.length := by
  have hl := h.length_le
  unfold blockExtent
  split
  · next i hi =>
    have := (Bytes.indexOf?_eq_some.1 hi).le
    simp only [List.length_drop] at this ⊢
    omega
  · exact le_rfl

theorem blockExtent_pos {d : Delimiter} {s : Bytes} (h : d.opening <+: s) (hd : d.opening ≠ []) :
    0 < (blockExtent d s).length := by
  have hl := h.length_le
  have hp := List.length_pos_iff.2 hd
  unfold blockExtent
  split
  · simp only; omega
  · simp only; omega

/-- An opener takes at least its own token and never more than the text. -/
theorem Opener.extent_bounds {lang : Language} (hs : lang.Scannable) {s : Bytes} {o : Opener}
    (h : opener? lang s = some o) : 0 < (o.extent s).length ∧ (o.extent s).length ≤ s.length := by
  rcases opener?_cases h with ⟨d, rfl, he⟩ | ⟨d, hd, rfl, hp⟩ | ⟨rfl, m, hm, hp⟩ | ⟨q, -, rfl, hb⟩
  · obtain ⟨hd, hp, -⟩ := embedded?_eq_some he
    exact ⟨blockExtent_pos hp (hs.embedded d hd), blockExtent_le d hp⟩
  · exact ⟨blockExtent_pos hp (hs.blocks d hd), blockExtent_le d hp⟩
  · cases s with
    | nil => exact absurd (List.prefix_nil.1 hp) (hs.markers m hm)
    | cons b rest =>
      have hb := hs.lineEnds m hm b (head?_of_begins hp (hs.markers m hm))
      have hl := (List.takeWhile_prefix (l := b :: rest) (!Ascii.isLineEnd ·)).length_le
      simp only [Opener.extent, lineExtent] at hl ⊢
      exact ⟨by simp [hb], hl⟩
  · cases s with
    | nil => simp at hb
    | cons b rest =>
      have := literalExtent_le q rest
      simp only [Opener.extent, Extent.grow, List.drop_one, List.tail_cons, List.length_cons]
      omega

theorem head_of_some {lang : Language} {s : Bytes} {o : Opener} (h : opener? lang s = some o) :
    head lang s = (o.kind, o.extent s) := by
  simp [head, h]

theorem head_of_none {lang : Language} {s : Bytes} (h : opener? lang s = none) :
    head lang s = (.code, ⟨codeLength lang s, true⟩) := by
  simp [head, h]

theorem head_length_le {lang : Language} (hs : lang.Scannable) (s : Bytes) :
    (head lang s).2.length ≤ s.length := by
  cases h : opener? lang s with
  | some o =>
    rw [head_of_some h]
    exact (Opener.extent_bounds hs h).2
  | none =>
    rw [head_of_none h]
    exact codeLength_le lang s

theorem head_length_pos {lang : Language} (hs : lang.Scannable) {s : Bytes} (hne : s ≠ []) :
    0 < (head lang s).2.length := by
  cases h : opener? lang s with
  | some o =>
    rw [head_of_some h]
    exact (Opener.extent_bounds hs h).1
  | none =>
    rw [head_of_none h]
    cases s with
    | nil => exact absurd rfl hne
    | cons b rest =>
      rw [codeLength_of_none h]
      exact Nat.succ_pos _

@[simp] theorem lexemes_nil (lang : Language) : lexemes lang [] = [] := by
  rw [lexemes]

def first (lang : Language) (s : Bytes) : Lexeme :=
  ⟨(head lang s).1, s.take (head lang s).2.length, (head lang s).2.terminated⟩

theorem lexemes_of_ne_nil {lang : Language} (hs : lang.Scannable) {s : Bytes} (hne : s ≠ []) :
    lexemes lang s = first lang s :: lexemes lang (s.drop (head lang s).2.length) := by
  cases s with
  | nil => exact absurd rfl hne
  | cons b rest =>
    have hp := head_length_pos hs hne
    obtain ⟨n, hn⟩ : ∃ n, (head lang (b :: rest)).2.length = n + 1 :=
      ⟨(head lang (b :: rest)).2.length - 1, by omega⟩
    rw [lexemes]
    simp only [hn, first, List.take_succ_cons, List.drop_succ_cons]

theorem length_first {lang : Language} (hs : lang.Scannable) (s : Bytes) :
    (first lang s).bytes.length = (head lang s).2.length := by
  have := head_length_le hs s
  simp only [first, List.length_take]
  omega

theorem first_bytes_ne_nil {lang : Language} (hs : lang.Scannable) {s : Bytes} (hne : s ≠ []) :
    (first lang s).bytes ≠ [] := by
  apply List.ne_nil_of_length_pos
  rw [length_first hs]
  exact head_length_pos hs hne

/-- Induction along the scan: from what follows the first lexeme to the whole text. -/
theorem scanInduction {lang : Language} (hs : lang.Scannable) {motive : Bytes → Prop}
    (nil : motive []) (step : ∀ s, s ≠ [] → motive (s.drop (head lang s).2.length) → motive s)
    (s : Bytes) : motive s := by
  induction hn : s.length using Nat.strong_induction_on generalizing s with
  | _ n ih =>
    by_cases hne : s = []
    · exact hne ▸ nil
    · have hp := head_length_pos hs hne
      have hl := List.length_pos_iff.2 hne
      exact step s hne (ih _ (by simp only [List.length_drop]; omega) _ rfl)

theorem flatMap_lexemes {lang : Language} (hs : lang.Scannable) (s : Bytes) :
    (lexemes lang s).flatMap Lexeme.bytes = s := by
  induction s using scanInduction hs with
  | nil => simp
  | step s hne ih =>
    rw [lexemes_of_ne_nil hs hne, List.flatMap_cons, ih]
    exact List.take_append_drop _ _

theorem lexemes_ne_nil {lang : Language} (hs : lang.Scannable) (s : Bytes) :
    ∀ l ∈ lexemes lang s, l.bytes ≠ [] := by
  induction s using scanInduction hs with
  | nil => simp
  | step s hne ih =>
    rw [lexemes_of_ne_nil hs hne]
    intro l hl
    rcases List.mem_cons.1 hl with rfl | hl
    · exact first_bytes_ne_nil hs hne
    · exact ih l hl

theorem eq_first_of_lexemes {lang : Language} (hs : lang.Scannable) {s : Bytes}
    {before after : List Lexeme} {l : Lexeme} (h : lexemes lang s = before ++ l :: after) :
    s.drop (before.flatMap Lexeme.bytes).length ≠ [] ∧
      l = first lang (s.drop (before.flatMap Lexeme.bytes).length) := by
  induction before generalizing s with
  | nil =>
    have hne : s ≠ [] := by
      rintro rfl
      simp at h
    rw [lexemes_of_ne_nil hs hne] at h
    exact ⟨hne, (List.cons.inj h).1.symm⟩
  | cons m before ih =>
    have hne : s ≠ [] := by
      rintro rfl
      simp at h
    rw [lexemes_of_ne_nil hs hne] at h
    obtain ⟨rfl, htail⟩ := List.cons.inj h
    have := ih htail
    rwa [List.drop_drop, ← length_first hs, ← List.length_append, ← List.flatMap_cons] at this

end Scan

/-- No comment is lost with the code. -/
theorem Lexeme.countP_isComment {α : Type} (lexeme : α → Lexeme) (xs : List α) :
    xs.countP (fun x => (lexeme x).isComment) =
      (xs.filter fun x => (lexeme x).kind ≠ .code).countP fun x => (lexeme x).isComment := by
  rw [List.countP_filter]
  refine List.countP_congr fun x _ => ?_
  cases hk : (lexeme x).kind <;> simp [isComment, hk, SegmentKind.isComment]

end Uncomment
