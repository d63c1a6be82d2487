import Mathlib
import Uncomment.Glob.Matching

/-! What a glob accepts. Every token stands for a set of texts, and a glob accepts the texts that are
put together from texts of its tokens. The marks of a sweep are the prefixes of the subject that the
tokens read so far stand for. -/
namespace Uncomment.Glob
open Ascii

mutual

/-- The texts that a token stands for. -/
def Takes (options : GlobOptions) : GlobToken → Bytes → Prop
  | .literal c, s => s = String.utf8EncodeChar c
  | .anyByte, s => ∃ b, wildcard options b = true ∧ s = [b]
  | .star, s => ∀ b ∈ s, wildcard options b = true
  | .leading, s => s = [] ∨ ∃ t, s = t ++ [slash]
  | .trailing, s => ∃ t, s = slash :: t
  | .between, s => s = [slash] ∨ ∃ t, s = slash :: t ++ [slash]
  | .oneOf negated ranges, s => ∃ b, classHas negated ranges b = true ∧ s = [b]
  | .alternates branches, s => if isVoid.allVoid branches then s = [] else TakesSome options branches s

/-- The texts that tokens stand for one after the other. -/
def TakesAll (options : GlobOptions) : List GlobToken → Bytes → Prop
  | [], s => s = []
  | t :: ts, s => ∃ x y, s = x ++ y ∧ Takes options t x ∧ TakesAll options ts y

/-- The texts of the branches that are not void. -/
def TakesSome (options : GlobOptions) : List (List GlobToken) → Bytes → Prop
  | [], _ => False
  | branch :: more, s => isVoid branch = false ∧ TakesAll options branch s ∨ TakesSome options more s

end

section Texts
variable {options : GlobOptions}

/-- Literal tokens stand for what they spell. -/
theorem takesAll_literals {cs : List Char} {s : Bytes} :
    TakesAll options (cs.map .literal) s ↔ s = cs.flatMap String.utf8EncodeChar := by
  induction cs generalizing s with
  | nil => rfl
  | cons c cs ih =>
    simp only [List.map_cons, TakesAll, Takes, ih, List.flatMap_cons]
    constructor
    · rintro ⟨-, -, rfl, rfl, rfl⟩
      rfl
    · rintro rfl
      exact ⟨_, _, rfl, rfl, rfl⟩

end Texts

/-! ## Marks -/

/-- The prefix `x` of the subject is marked. -/
def Marked (s : Bytes) (marks : Marks) (x : Bytes) : Prop := x <+: s ∧ marks[x.length]? = some true

section Marks
variable {s : Bytes} {marks : Marks}

theorem marked_atStart {x : Bytes} : Marked s (atStart s) x ↔ x = [] := by
  constructor
  · rintro ⟨-, h⟩
    cases x with
    | nil => rfl
    | cons b x => simp [atStart, List.getElem?_replicate] at h
  · rintro rfl
    exact ⟨List.nil_prefix, rfl⟩

theorem marked_cons {b c : UInt8} {m : Bool} {x : Bytes} :
    Marked (b :: s) (m :: marks) (c :: x) ↔ c = b ∧ Marked s marks x := by
  simp [Marked, List.cons_prefix_cons, and_assoc]

theorem marked_nil {m : Bool} : Marked s (m :: marks) [] ↔ m = true := by
  simp [Marked]

theorem marked_advance (p : UInt8 → Bool) {z : Bytes} :
    Marked s (advance p s marks) z ↔
      z <+: s ∧ ∃ x b, z = x ++ [b] ∧ Marked s marks x ∧ p b = true := by
  constructor
  · rintro ⟨hz, hmark⟩
    refine ⟨hz, ?_⟩
    obtain rfl | ⟨x, b, rfl⟩ := List.eq_nil_or_concat' z
    · simp [advance] at hmark
    · obtain ⟨rest, rfl⟩ := hz
      have hb : (x ++ [b] ++ rest)[x.length]? = some b := by simp
      simp only [advance, List.length_append, List.length_singleton, List.getElem?_cons_succ,
        List.getElem?_zipWith, hb] at hmark
      cases hm : marks[x.length]? with
      | none => simp [hm] at hmark
      | some m =>
        simp only [hm, Option.some.injEq, Bool.and_eq_true] at hmark
        exact ⟨x, b, rfl, ⟨⟨[b] ++ rest, by simp⟩, by rw [hm, hmark.1]⟩, hmark.2⟩
  · rintro ⟨hz, x, b, rfl, ⟨-, hmark⟩, hp⟩
    refine ⟨hz, ?_⟩
    obtain ⟨rest, rfl⟩ := hz
    have hb : (x ++ [b] ++ rest)[x.length]? = some b := by simp
    simp only [advance, List.length_append, List.length_singleton, List.getElem?_cons_succ,
      List.getElem?_zipWith, hb, hmark]
    simp [hp]

theorem marked_extend (p : UInt8 → Bool) (carry : Bool) {z : Bytes}
    (hlen : marks.length = s.length + 1) :
    Marked s (extend p carry s marks) z ↔ z <+: s ∧
      ((∃ x y, z = x ++ y ∧ Marked s marks x ∧ ∀ b ∈ y, p b = true) ∨
        carry = true ∧ ∀ b ∈ z, p b = true) := by
  induction s generalizing marks carry z with
  | nil =>
    obtain ⟨m, rfl⟩ := List.length_eq_one_iff.1 hlen
    cases z with
    | nil => simp [extend, marked_nil]
    | cons c z => simp [Marked]
  | cons b s ih =>
    obtain ⟨m, marks, rfl⟩ := List.exists_cons_of_length_eq_add_one hlen
    have hlen' : marks.length = s.length + 1 := by simpa using hlen
    cases z with
    | nil => simp [extend, marked_nil]
    | cons c z =>
      rw [extend, marked_cons, ih _ hlen', List.cons_prefix_cons]
      constructor
      · rintro ⟨rfl, hz, ⟨x, y, rfl, hx, hy⟩ | ⟨hcarry, hall⟩⟩
        · exact ⟨⟨rfl, hz⟩, .inl ⟨c :: x, y, rfl, marked_cons.2 ⟨rfl, hx⟩, hy⟩⟩
        · simp only [Bool.and_eq_true, Bool.or_eq_true] at hcarry
          obtain ⟨hm | hcarry, hp⟩ := hcarry
          · exact ⟨⟨rfl, hz⟩, .inl ⟨[], c :: z, rfl, marked_nil.2 hm, by simpa [hp] using hall⟩⟩
          · exact ⟨⟨rfl, hz⟩, .inr ⟨hcarry, by simpa [hp] using hall⟩⟩
      · rintro ⟨⟨rfl, hz⟩, ⟨x, y, heq, hx, hy⟩ | ⟨hcarry, hall⟩⟩
        · cases x with
          | nil =>
            obtain rfl : y = c :: z := by simpa using heq.symm
            refine ⟨rfl, hz, .inr ⟨?_, fun a ha => hy a (List.mem_cons_of_mem _ ha)⟩⟩
            simp [marked_nil.1 hx, hy c List.mem_cons_self]
          | cons a x =>
            obtain ⟨rfl, rfl⟩ := List.cons.inj heq
            exact ⟨rfl, hz, .inl ⟨x, y, rfl, (marked_cons.1 hx).2, hy⟩⟩
        · refine ⟨rfl, hz, .inr ⟨?_, fun a ha => hall a (List.mem_cons_of_mem _ ha)⟩⟩
          simp [hcarry, hall c List.mem_cons_self]

theorem marked_union {marks' : Marks} (hlen : marks'.length = marks.length) {z : Bytes} :
    Marked s (union marks marks') z ↔ Marked s marks z ∨ Marked s marks' z := by
  rw [Marked, Marked, Marked, ← and_or_left, union, List.getElem?_zipWith]
  refine and_congr_right fun _ => ?_
  by_cases hz : z.length < marks.length
  · rw [List.getElem?_eq_getElem hz, List.getElem?_eq_getElem (hlen ▸ hz)]
    simp
  · rw [List.getElem?_eq_none (not_lt.1 hz), List.getElem?_eq_none (hlen ▸ not_lt.1 hz)]
    simp

end Marks

/-! ## Sweeps -/

section Lengths
variable {s : Bytes} {marks : Marks}

theorem length_advance (p : UInt8 → Bool) (hlen : marks.length = s.length + 1) :
    (advance p s marks).length = s.length + 1 := by
  rw [advance, List.length_cons, List.length_zipWith, hlen]
  omega

theorem length_extend (p : UInt8 → Bool) (carry : Bool) (hlen : marks.length = s.length + 1) :
    (extend p carry s marks).length = s.length + 1 := by
  induction s generalizing marks carry with
  | nil =>
    obtain ⟨m, rfl⟩ := List.length_eq_one_iff.1 hlen
    rfl
  | cons b s ih =>
    obtain ⟨m, marks, rfl⟩ := List.exists_cons_of_length_eq_add_one hlen
    rw [extend, List.length_cons, List.length_cons, ih _ (by simpa using hlen)]

theorem length_union {marks' : Marks} (hlen : marks'.length = marks.length) :
    (union marks marks').length = marks.length := by
  rw [union, List.length_zipWith, hlen, min_self]

end Lengths

/-- Behind what is marked in `marks`, `next` marks one of `texts` more. -/
structure Sweeps (s : Bytes) (marks next : Marks) (texts : Bytes → Prop) : Prop where
  length : next.length = s.length + 1
  marked : ∀ z, Marked s next z ↔ z <+: s ∧ ∃ x y, z = x ++ y ∧ Marked s marks x ∧ texts y

section Sweeps
variable {s : Bytes} {marks next next' : Marks} {texts texts' : Bytes → Prop}

theorem Sweeps.congr (h : Sweeps s marks next texts) (hsame : ∀ y, texts y ↔ texts' y) :
    Sweeps s marks next texts' :=
  ⟨h.length, fun z => by simpa only [hsame] using h.marked z⟩

theorem Sweeps.trans (h : Sweeps s marks next texts) (h' : Sweeps s next next' texts') :
    Sweeps s marks next' fun z => ∃ x y, z = x ++ y ∧ texts x ∧ texts' y := by
  refine ⟨h'.length, fun z => ?_⟩
  rw [h'.marked]
  refine and_congr_right fun hz => ⟨?_, ?_⟩
  · rintro ⟨w, y', rfl, hw, hy'⟩
    obtain ⟨-, x, y, rfl, hx, hy⟩ := (h.marked w).1 hw
    exact ⟨x, y ++ y', by simp, hx, y, y', rfl, hy, hy'⟩
  · rintro ⟨x, -, rfl, hx, y, y', rfl, hy, hy'⟩
    have hinner : x ++ y <+: s := .trans ⟨y', by simp⟩ hz
    exact ⟨x ++ y, y', by simp, (h.marked _).2 ⟨hinner, x, y, rfl, hx, hy⟩, hy'⟩

theorem Sweeps.or (h : Sweeps s marks next texts) (h' : Sweeps s marks next' texts') :
    Sweeps s marks (union next next') fun z => texts z ∨ texts' z := by
  have hlen := h'.length.trans h.length.symm
  refine ⟨(length_union hlen).trans h.length, fun z => ?_⟩
  rw [marked_union hlen, h.marked, h'.marked, ← and_or_left]
  simp only [and_or_left, exists_or]

theorem sweeps_none (hlen : marks.length = s.length + 1) :
    Sweeps s marks (marks.map fun _ => false) fun _ => False := by
  refine ⟨by rw [List.length_map, hlen], fun z => iff_of_false ?_ (by simp)⟩
  rintro ⟨-, h⟩
  simp [List.getElem?_replicate] at h

theorem sweeps_refl (hlen : marks.length = s.length + 1) : Sweeps s marks marks (· = []) := by
  refine ⟨hlen, fun z => ⟨fun hz => ⟨hz.1, z, [], by simp, hz, rfl⟩, ?_⟩⟩
  rintro ⟨-, x, y, rfl, hx, rfl⟩
  simpa using hx

theorem sweeps_advance (p : UInt8 → Bool) (hlen : marks.length = s.length + 1) :
    Sweeps s marks (advance p s marks) fun y => ∃ b, p b = true ∧ y = [b] := by
  refine ⟨length_advance _ hlen, fun z => ?_⟩
  rw [marked_advance]
  refine and_congr_right fun _ => ⟨?_, ?_⟩
  · rintro ⟨x, b, hz, hx, hb⟩
    exact ⟨x, [b], hz, hx, b, hb, rfl⟩
  · rintro ⟨x, -, hz, hx, b, hb, rfl⟩
    exact ⟨x, b, hz, hx, hb⟩

theorem sweeps_extend (p : UInt8 → Bool) (hlen : marks.length = s.length + 1) :
    Sweeps s marks (extend p false s marks) fun y => ∀ b ∈ y, p b = true :=
  ⟨length_extend _ _ hlen, fun z => by simp [marked_extend p false hlen]⟩

theorem sweeps_bytes (bytes : Bytes) (hlen : marks.length = s.length + 1) :
    Sweeps s marks (bytes.foldl (fun m b => advance (· == b) s m) marks) (· = bytes) := by
  induction bytes generalizing marks with
  | nil => exact sweeps_refl hlen
  | cons b bytes ih =>
    have hfirst := sweeps_advance (· == b) hlen
    exact (hfirst.trans (ih hfirst.length)).congr fun y => by simp

theorem sweeps_slash (hlen : marks.length = s.length + 1) :
    Sweeps s marks (advance isSlash s marks) (· = [slash]) :=
  (sweeps_advance isSlash hlen).congr fun y => by simp [isSlash]

theorem sweeps_anything (hlen : marks.length = s.length + 1) :
    Sweeps s marks (extend anything false s marks) fun _ => True :=
  (sweeps_extend anything hlen).congr fun y => by simp [anything]

theorem sweeps_anything_slash (hlen : marks.length = s.length + 1) :
    Sweeps s marks (advance isSlash s (extend anything false s marks)) fun y => ∃ t, y = t ++ [slash] :=
  have hany := sweeps_anything hlen
  (hany.trans (sweeps_slash hany.length)).congr fun y => by simp

end Sweeps

mutual

/-- What one token does to the marks. -/
theorem sweeps_token (options : GlobOptions) (s : Bytes) (marks : Marks) (t : GlobToken)
    (hlen : marks.length = s.length + 1) :
    Sweeps s marks (sweepToken options s marks t) (Takes options t) :=
  match t with
  | .literal c => sweeps_bytes (String.utf8EncodeChar c) hlen
  | .anyByte => sweeps_advance (wildcard options) hlen
  | .star => sweeps_extend (wildcard options) hlen
  | .leading => by
    refine ((sweeps_refl hlen).or ((sweeps_slash hlen).or (sweeps_anything_slash hlen))).congr fun y => ?_
    refine or_congr_right ⟨?_, .inr⟩
    rintro (rfl | hy)
    · exact ⟨[], rfl⟩
    · exact hy
  | .trailing => by
    have hslash := sweeps_slash hlen
    exact (hslash.trans (sweeps_anything hslash.length)).congr fun y => by simp [Takes]
  | .between => by
    have hslash := sweeps_slash hlen
    exact (hslash.or (hslash.trans (sweeps_anything_slash hslash.length))).congr fun y => by simp [Takes]
  | .oneOf negated ranges => sweeps_advance (classHas negated ranges) hlen
  | .alternates branches => by
    rw [sweepToken]
    split_ifs with hvoid
    · exact (sweeps_refl hlen).congr fun y => by simp only [Takes, hvoid, if_true]
    · exact (sweeps_branches options s marks branches hlen).congr fun y => by simp [Takes, hvoid]

/-- What tokens do to the marks one after the other. -/
theorem sweeps_tokens (options : GlobOptions) (s : Bytes) (marks : Marks) (ts : List GlobToken)
    (hlen : marks.length = s.length + 1) :
    Sweeps s marks (sweep options s marks ts) (TakesAll options ts) :=
  match ts with
  | [] => sweeps_refl hlen
  | t :: ts =>
    have hfirst := sweeps_token options s marks t hlen
    hfirst.trans (sweeps_tokens options s (sweepToken options s marks t) ts hfirst.length)

/-- What some of the branches do to the marks. -/
theorem sweeps_branches (options : GlobOptions) (s : Bytes) (marks : Marks)
    (branches : List (List GlobToken)) (hlen : marks.length = s.length + 1) :
    Sweeps s marks (sweepBranches options s marks branches) (TakesSome options branches) :=
  match branches with
  | [] => sweeps_none hlen
  | branch :: more => by
    have hbranch := sweeps_tokens options s marks branch hlen
    have hmore := sweeps_branches options s marks more hlen
    rw [sweepBranches]
    split_ifs with hvoid
    · exact hmore.congr fun y => by simp [TakesSome, hvoid]
    · exact (hbranch.or hmore).congr fun y => by simp [TakesSome, hvoid]

end

/-- A glob accepts the texts that its tokens stand for, and a lone double star everything. -/
theorem accepts_iff {g : Glob} {s : Bytes} :
    g.accepts s = true ↔ g.tokens = [.leading] ∨ TakesAll g.options g.tokens s := by
  have hstart : (atStart s).length = s.length + 1 := by simp [atStart]
  obtain ⟨hlen, hmarks⟩ := sweeps_tokens g.options s (atStart s) g.tokens hstart
  have hlast : (sweep g.options s (atStart s) g.tokens).getLast? = some true ↔
      TakesAll g.options g.tokens s := by
    have hwhole := hmarks s
    simp only [marked_atStart, List.prefix_rfl, true_and] at hwhole
    rw [List.getLast?_eq_getElem?, hlen, Nat.add_sub_cancel]
    simpa [Marked] using hwhole
  rw [accepts]
  split
  · next h => simp [h]
  · next h => exact beq_iff_eq.trans (hlast.trans (or_iff_right h).symm)

end Uncomment.Glob
