import Mathlib
import Uncomment.Text.Utf8

/-! UTF-8. The bytes that decode without a fault are the encodings of texts, and decoding gives the
text back. A cut next to an ASCII byte falls between two characters. -/
namespace Uncomment.Utf8

def IsContinuation (b : UInt8) : Prop := 0x80 ≤ b.toNat ∧ b.toNat ≤ 0xBF

/-- The well-formed byte sequences with the code points they stand for. No shorter sequence stands
for the same, and none stands for a surrogate or lies beyond the last plane. -/
inductive Spells : Nat → Bytes → Prop
  | one {a : UInt8} (ascii : a.toNat ≤ 0x7F) : Spells a.toNat [a]
  | two {a b : UInt8} (lead : 0xC2 ≤ a.toNat ∧ a.toNat ≤ 0xDF) (second : IsContinuation b) :
      Spells (a.toNat % 32 * 64 + b.toNat % 64) [a, b]
  | three {a b c : UInt8} (lead : 0xE0 ≤ a.toNat ∧ a.toNat ≤ 0xEF) (second : IsContinuation b)
      (third : IsContinuation c) (short : a.toNat = 0xE0 → 0xA0 ≤ b.toNat)
      (scalar : a.toNat = 0xED → b.toNat ≤ 0x9F) :
      Spells ((a.toNat % 16 * 64 + b.toNat % 64) * 64 + c.toNat % 64) [a, b, c]
  | four {a b c d : UInt8} (lead : 0xF0 ≤ a.toNat ∧ a.toNat ≤ 0xF4) (second : IsContinuation b)
      (third : IsContinuation c) (fourth : IsContinuation d) (short : a.toNat = 0xF0 → 0x90 ≤ b.toNat)
      (scalar : a.toNat = 0xF4 → b.toNat ≤ 0x8F) :
      Spells (((a.toNat % 8 * 64 + b.toNat % 64) * 64 + c.toNat % 64) * 64 + d.toNat % 64) [a, b, c, d]

theorem Spells.exists_cons {v : Nat} {bytes : Bytes} (h : Spells v bytes) :
    ∃ b tail, bytes = b :: tail := by
  cases h <;> exact ⟨_, _, rfl⟩

/-- A sequence of more than one byte has no ASCII byte in it. -/
theorem Spells.single_or_high {v : Nat} {bytes : Bytes} (h : Spells v bytes) :
    (∃ a, bytes = [a]) ∨ ∀ x ∈ bytes, 0x80 ≤ x.toNat := by
  cases h with
  | one ascii => exact .inl ⟨_, rfl⟩
  | two lead second =>
    refine .inr ?_
    simp only [List.forall_mem_cons, List.not_mem_nil, false_imp_iff, implies_true, and_true]
    exact ⟨by omega, second.1⟩
  | three lead second third =>
    refine .inr ?_
    simp only [List.forall_mem_cons, List.not_mem_nil, false_imp_iff, implies_true, and_true]
    exact ⟨by omega, second.1, third.1⟩
  | four lead second third fourth =>
    refine .inr ?_
    simp only [List.forall_mem_cons, List.not_mem_nil, false_imp_iff, implies_true, and_true]
    exact ⟨by omega, second.1, third.1, fourth.1⟩

section Encoding

theorem utf8EncodeChar_of_toNat {c : Char} {v : Nat} (hv : c.toNat = v) :
    String.utf8EncodeChar c =
      if v ≤ 0x7F then [UInt8.ofNat v]
      else if v ≤ 0x7FF then [UInt8.ofNat (v / 64 % 0x20 + 0xC0), UInt8.ofNat (v % 0x40 + 0x80)]
      else if v ≤ 0xFFFF then
        [UInt8.ofNat (v / 4096 % 0x10 + 0xE0), UInt8.ofNat (v / 64 % 0x40 + 0x80),
          UInt8.ofNat (v % 0x40 + 0x80)]
      else
        [UInt8.ofNat (v / 262144 % 0x08 + 0xF0), UInt8.ofNat (v / 4096 % 0x40 + 0x80),
          UInt8.ofNat (v / 64 % 0x40 + 0x80), UInt8.ofNat (v % 0x40 + 0x80)] := by
  subst hv
  rfl

theorem ofNat_eq {n : Nat} {b : UInt8} (h : n = b.toNat) : UInt8.ofNat n = b := by
  rw [h, UInt8.ofNat_toNat]

theorem Spells.toNat_ofNat {v : Nat} {bytes : Bytes} (h : Spells v bytes) :
    (Char.ofNat v).toNat = v := by
  have hvalid : v.isValidChar := by
    have hscalar : v < 0xD800 ∨ 0xDFFF < v ∧ v < 0x110000 := by
      cases h with
      | one ascii => omega
      | two lead second => omega
      | three lead second third short scalar =>
        simp only [IsContinuation] at second third
        omega
      | four lead second third fourth short scalar =>
        simp only [IsContinuation] at second third fourth
        omega
    exact hscalar
  rw [Char.toNat_ofNat, if_pos hvalid]

/-- A well-formed sequence is the encoding of its character. -/
theorem Spells.utf8EncodeChar_eq {v : Nat} {bytes : Bytes} (h : Spells v bytes) :
    String.utf8EncodeChar (Char.ofNat v) = bytes := by
  rw [utf8EncodeChar_of_toNat h.toNat_ofNat]
  cases h with
  | one ascii => rw [if_pos ascii, ofNat_eq rfl]
  | @two a b lead second =>
    simp only [IsContinuation] at second
    rw [if_neg (by omega), if_pos (by omega), ofNat_eq (b := a) (by omega),
      ofNat_eq (b := b) (by omega)]
  | @three a b c lead second third short scalar =>
    simp only [IsContinuation] at second third
    rw [if_neg (by omega), if_neg (by omega), if_pos (by omega), ofNat_eq (b := a) (by omega),
      ofNat_eq (b := b) (by omega), ofNat_eq (b := c) (by omega)]
  | @four a b c d lead second third fourth short scalar =>
    simp only [IsContinuation] at second third fourth
    rw [if_neg (by omega), if_neg (by omega), if_neg (by omega), ofNat_eq (b := a) (by omega),
      ofNat_eq (b := b) (by omega), ofNat_eq (b := c) (by omega), ofNat_eq (b := d) (by omega)]

/-- The encoding of a character is well-formed. -/
theorem spells_utf8EncodeChar (c : Char) : Spells c.toNat (String.utf8EncodeChar c) := by
  have hscalar : c.toNat < 0xD800 ∨ 0xDFFF < c.toNat ∧ c.toNat < 0x110000 := c.valid
  have hbyte : ∀ n < 256, ∃ b : UInt8, UInt8.ofNat n = b ∧ b.toNat = n :=
    fun n hn => ⟨_, rfl, UInt8.toNat_ofNat_of_lt' hn⟩
  rw [utf8EncodeChar_of_toNat rfl]
  generalize c.toNat = v at hscalar
  obtain ⟨z, hz, hz'⟩ := hbyte (v % 0x40 + 0x80) (by omega)
  obtain ⟨y, hy, hy'⟩ := hbyte (v / 64 % 0x40 + 0x80) (by omega)
  split_ifs with h₁ h₂ h₃
  · obtain ⟨a, ha, ha'⟩ := hbyte v (by omega)
    rw [ha]
    have hspells := Spells.one (ha'.trans_le h₁)
    rwa [ha'] at hspells
  · obtain ⟨a, ha, ha'⟩ := hbyte (v / 64 % 0x20 + 0xC0) (by omega)
    have hv : a.toNat % 32 * 64 + z.toNat % 64 = v := by omega
    rw [ha, hz, ← hv]
    exact .two (by omega) ⟨by omega, by omega⟩
  · obtain ⟨a, ha, ha'⟩ := hbyte (v / 4096 % 0x10 + 0xE0) (by omega)
    have hv : (a.toNat % 16 * 64 + y.toNat % 64) * 64 + z.toNat % 64 = v := by omega
    rw [ha, hy, hz, ← hv]
    exact .three (by omega) ⟨by omega, by omega⟩ ⟨by omega, by omega⟩ (by omega) (by omega)
  · obtain ⟨a, ha, ha'⟩ := hbyte (v / 262144 % 0x08 + 0xF0) (by omega)
    obtain ⟨x, hx, hx'⟩ := hbyte (v / 4096 % 0x40 + 0x80) (by omega)
    have hv : ((a.toNat % 8 * 64 + x.toNat % 64) * 64 + y.toNat % 64) * 64 + z.toNat % 64 = v := by
      omega
    rw [ha, hx, hy, hz, ← hv]
    exact .four (by omega) ⟨by omega, by omega⟩ ⟨by omega, by omega⟩ ⟨by omega, by omega⟩ (by omega)
      (by omega)

end Encoding

section Decoding
variable {b low high : UInt8} {value count more n : Nat} {s rest : Bytes} {c : Char}

/-- The least byte after a lead byte of three or four: a smaller one has a shorter sequence. -/
def lowest (lead : UInt8) : UInt8 :=
  if lead.toNat = 0xE0 then 0xA0 else if lead.toNat = 0xF0 then 0x90 else 0x80

/-- The greatest byte after a lead byte of three or four: a greater one gives no character. -/
def highest (lead : UInt8) : UInt8 :=
  if lead.toNat = 0xED then 0x9F else if lead.toNat = 0xF4 then 0x8F else 0xBF

theorem lead?_eq (b : UInt8) : lead? b =
    if 0xC2 ≤ b.toNat ∧ b.toNat ≤ 0xDF then some ⟨b.toNat % 32, 0x80, 0xBF, 0⟩
    else if 0xE0 ≤ b.toNat ∧ b.toNat ≤ 0xEF then some ⟨b.toNat % 16, lowest b, highest b, 1⟩
    else if 0xF0 ≤ b.toNat ∧ b.toNat ≤ 0xF4 then some ⟨b.toNat % 8, lowest b, highest b, 2⟩
    else none := by
  simp only [lead?, UInt8.le_iff_toNat_le, beq_iff_eq, ← UInt8.toNat_inj, Bool.and_eq_true,
    decide_eq_true_eq, UInt8.reduceToNat]
  by_cases htwo : 0xC2 ≤ b.toNat ∧ b.toNat ≤ 0xDF
  · rw [if_pos htwo, if_pos htwo]
  rw [if_neg htwo, if_neg htwo]
  by_cases hthree : 0xE0 ≤ b.toNat ∧ b.toNat ≤ 0xEF
  · rw [if_pos hthree]
    by_cases hshort : b.toNat = 0xE0
    · simp [lowest, highest, hshort]
    by_cases hscalar : b.toNat = 0xED
    · simp [lowest, highest, hscalar]
    · rw [if_neg hshort, if_neg hscalar, if_pos (by omega), lowest, highest, if_neg hshort,
        if_neg (by omega), if_neg hscalar, if_neg (by omega)]
  rw [if_neg hthree, if_neg (by omega), if_neg (by omega), if_neg (by omega)]
  by_cases hfour : 0xF0 ≤ b.toNat ∧ b.toNat ≤ 0xF4
  · rw [if_pos hfour]
    by_cases hshort : b.toNat = 0xF0
    · simp [lowest, highest, hshort]
    by_cases hscalar : b.toNat = 0xF4
    · simp [lowest, highest, hscalar]
    · rw [if_neg hshort, if_pos (by omega), lowest, highest, if_neg (by omega), if_neg hshort,
        if_neg (by omega), if_neg hscalar]
  · rw [if_neg hfour, if_neg (by omega), if_neg (by omega), if_neg (by omega)]

theorem toNat_lowest (b : UInt8) :
    (b.toNat = 0xE0 ∧ (lowest b).toNat = 0xA0) ∨ (b.toNat = 0xF0 ∧ (lowest b).toNat = 0x90) ∨
      (b.toNat ≠ 0xE0 ∧ b.toNat ≠ 0xF0 ∧ (lowest b).toNat = 0x80) := by
  unfold lowest
  split_ifs with h h'
  · simp [h]
  · simp [h']
  · simp [h, h']

theorem toNat_highest (b : UInt8) :
    (b.toNat = 0xED ∧ (highest b).toNat = 0x9F) ∨ (b.toNat = 0xF4 ∧ (highest b).toNat = 0x8F) ∨
      (b.toNat ≠ 0xED ∧ b.toNat ≠ 0xF4 ∧ (highest b).toNat = 0xBF) := by
  unfold highest
  split_ifs with h h'
  · simp [h]
  · simp [h']
  · simp [h, h']

theorem item_eq (b : UInt8) (rest : Bytes) : item b rest =
    if b.toNat ≤ 0x7F then (some (Char.ofNat b.toNat), 0)
    else if 0xC2 ≤ b.toNat ∧ b.toNat ≤ 0xDF then continuation (b.toNat % 32) 0 0x80 0xBF 1 rest
    else if 0xE0 ≤ b.toNat ∧ b.toNat ≤ 0xEF then
      continuation (b.toNat % 16) 0 (lowest b) (highest b) 2 rest
    else if 0xF0 ≤ b.toNat ∧ b.toNat ≤ 0xF4 then
      continuation (b.toNat % 8) 0 (lowest b) (highest b) 3 rest
    else (none, 0) := by
  have hascii : b < 0x80 ↔ b.toNat ≤ 0x7F := by
    rw [UInt8.lt_iff_toNat_lt]
    exact Nat.lt_succ_iff
  rw [item, lead?_eq]
  simp only [hascii]
  split_ifs <;> rfl

theorem continuation_cons (b : UInt8) (rest : Bytes) :
    continuation value count low high (more + 1) (b :: rest) =
      if low.toNat ≤ b.toNat ∧ b.toNat ≤ high.toNat
        then continuation (value * 64 + b.toNat % 64) (count + 1) 0x80 0xBF more rest
        else (none, count) := by
  simp [continuation, UInt8.le_iff_toNat_le]

theorem continuation_of_isContinuation (hb : IsContinuation b) (rest : Bytes) :
    continuation value count 0x80 0xBF (more + 1) (b :: rest) =
      continuation (value * 64 + b.toNat % 64) (count + 1) 0x80 0xBF more rest := by
  rw [continuation_cons]
  exact if_pos hb

theorem continuation_eq_some (h : continuation value count low high (more + 1) s = (some c, n)) :
    ∃ b rest, s = b :: rest ∧ (low.toNat ≤ b.toNat ∧ b.toNat ≤ high.toNat) ∧
      continuation (value * 64 + b.toNat % 64) (count + 1) 0x80 0xBF more rest = (some c, n) := by
  cases s with
  | nil => simp [continuation] at h
  | cons b rest =>
    rw [continuation_cons] at h
    split_ifs at h with hb
    · exact ⟨b, rest, rfl, hb, h⟩
    · simp at h

theorem continuation_zero (h : continuation value count low high 0 s = (some c, n)) :
    c = Char.ofNat value ∧ n = count := by
  simpa [continuation, eq_comm] using h

/-- A character that is read is read from a well-formed sequence. -/
theorem spells_of_item (h : item b rest = (some c, n)) :
    ∃ v, c = Char.ofNat v ∧ Spells v (b :: rest.take n) := by
  have hlow := toNat_lowest b
  have hhigh := toNat_highest b
  rw [item_eq] at h
  split_ifs at h with hone htwo hthree hfour
  · obtain ⟨rfl, rfl⟩ : Char.ofNat b.toNat = c ∧ 0 = n := by simpa using h
    exact ⟨_, rfl, .one hone⟩
  · obtain ⟨x, rest, rfl, hx, h⟩ := continuation_eq_some h
    obtain ⟨rfl, rfl⟩ := continuation_zero h
    exact ⟨_, rfl, .two htwo hx⟩
  · obtain ⟨x, rest, rfl, hx, h⟩ := continuation_eq_some h
    obtain ⟨y, rest, rfl, hy, h⟩ := continuation_eq_some h
    obtain ⟨rfl, rfl⟩ := continuation_zero h
    exact ⟨_, rfl, .three hthree ⟨by omega, by omega⟩ hy (by omega) (by omega)⟩
  · obtain ⟨x, rest, rfl, hx, h⟩ := continuation_eq_some h
    obtain ⟨y, rest, rfl, hy, h⟩ := continuation_eq_some h
    obtain ⟨z, rest, rfl, hz, h⟩ := continuation_eq_some h
    obtain ⟨rfl, rfl⟩ := continuation_zero h
    exact ⟨_, rfl, .four hfour ⟨by omega, by omega⟩ hy hz (by omega) (by omega)⟩
  · cases h

/-- A well-formed sequence is read as its character, whatever follows it. -/
theorem Spells.item_eq_some {v : Nat} {tail : Bytes} (h : Spells v (b :: tail)) (t : Bytes) :
    item b (tail ++ t) = (some (Char.ofNat v), tail.length) := by
  have hlow := toNat_lowest b
  have hhigh := toNat_highest b
  rw [item_eq]
  cases h with
  | one ascii => exact if_pos ascii
  | two lead second =>
    rw [if_neg (by omega), if_pos lead, List.cons_append, continuation_of_isContinuation second]
    rfl
  | three lead second third short scalar =>
    simp only [IsContinuation] at second
    rw [if_neg (by omega), if_neg (by omega), if_pos lead, List.cons_append, continuation_cons,
      if_pos ⟨by omega, by omega⟩, List.cons_append, continuation_of_isContinuation third]
    rfl
  | four lead second third fourth short scalar =>
    simp only [IsContinuation] at second
    rw [if_neg (by omega), if_neg (by omega), if_neg (by omega), if_pos lead, List.cons_append,
      continuation_cons, if_pos ⟨by omega, by omega⟩, List.cons_append,
      continuation_of_isContinuation third, List.cons_append, continuation_of_isContinuation fourth]
    rfl

end Decoding

/-! ## Texts -/

/-- The encoding of characters. -/
def encode (cs : List Char) : Bytes := cs.flatMap String.utf8EncodeChar

@[simp] theorem encode_nil : encode [] = [] := rfl

@[simp] theorem encode_cons (c : Char) (cs : List Char) :
    encode (c :: cs) = String.utf8EncodeChar c ++ encode cs := by
  simp [encode]

@[simp] theorem encode_append (as bs : List Char) : encode (as ++ bs) = encode as ++ encode bs := by
  simp [encode]

theorem ofText_ofList (cs : List Char) : Bytes.ofText (String.ofList cs) = encode cs := by
  rw [Bytes.ofText, String.toList_ofList]
  rfl

theorem decode_cons (b : UInt8) (rest : Bytes) :
    decode (b :: rest) = (item b rest).1 :: decode (rest.drop (item b rest).2) := by
  rw [decode]

theorem decode_utf8EncodeChar (c : Char) (t : Bytes) :
    decode (String.utf8EncodeChar c ++ t) = some c :: decode t := by
  have hspells := spells_utf8EncodeChar c
  obtain ⟨b, tail, hbytes⟩ := hspells.exists_cons
  rw [hbytes] at hspells ⊢
  rw [List.cons_append, decode_cons, hspells.item_eq_some t, Char.ofNat_toNat, List.drop_left]

theorem decode_encode (cs : List Char) : decode (encode cs) = cs.map some := by
  induction cs with
  | nil => simp [decode]
  | cons c cs ih => rw [encode_cons, decode_utf8EncodeChar, ih, List.map_cons]

@[simp] theorem isValid_encode (cs : List Char) : isValid (encode cs) = true := by
  simp [isValid, decode_encode]

theorem lossy_encode (cs : List Char) : lossy (encode cs) = String.ofList cs := by
  simp [lossy, decode_encode, Function.comp_def]

/-- The bytes that decode without a fault are the encodings of characters. -/
theorem isValid_iff {s : Bytes} : isValid s = true ↔ ∃ cs, s = encode cs := by
  constructor
  · intro h
    induction hn : s.length using Nat.strong_induction_on generalizing s with
    | _ n ih =>
      cases s with
      | nil => exact ⟨[], rfl⟩
      | cons b rest =>
        rw [isValid, decode_cons, List.all_cons, Bool.and_eq_true] at h
        obtain ⟨c, hc⟩ := Option.isSome_iff_exists.1 h.1
        obtain ⟨v, rfl, hspells⟩ := spells_of_item (Prod.ext hc rfl)
        obtain ⟨cs, hcs⟩ := ih _ (by simp only [← hn, List.length_drop, List.length_cons]; omega)
          h.2 rfl
        refine ⟨Char.ofNat v :: cs, ?_⟩
        rw [encode_cons, ← hcs, hspells.utf8EncodeChar_eq, List.cons_append, List.take_append_drop]
  · rintro ⟨cs, rfl⟩
    exact isValid_encode cs

theorem isValid_append {x y : Bytes} (hx : isValid x = true) (hy : isValid y = true) :
    isValid (x ++ y) = true := by
  obtain ⟨cs, rfl⟩ := isValid_iff.1 hx
  obtain ⟨ds, rfl⟩ := isValid_iff.1 hy
  exact isValid_iff.2 ⟨cs ++ ds, (encode_append cs ds).symm⟩

theorem ofText_lossy {s : Bytes} (h : isValid s = true) : Bytes.ofText (lossy s) = s := by
  obtain ⟨cs, rfl⟩ := isValid_iff.1 h
  rw [lossy_encode, ofText_ofList]

theorem ofText_join (ts : List String) : Bytes.ofText (String.join ts) = ts.flatMap Bytes.ofText := by
  rw [Bytes.ofText, String.toList_join, List.flatMap_assoc]
  rfl

/-- A cut that no character lies across, by the byte before it or the byte after it. -/
def Seam (x y : Bytes) : Prop :=
  (∀ b ∈ x.getLast?, b.toNat < 0x80) ∨ ∀ b ∈ y.head?, b.toNat < 0x80

/-- A character that has its first byte before such a cut has them all there. -/
theorem Seam.whole {c : Char} {x y z : Bytes} (h : String.utf8EncodeChar c = x ++ z) (hx : x ≠ [])
    (hseam : Seam x (z ++ y)) : z = [] := by
  have hspells := spells_utf8EncodeChar c
  rw [h] at hspells
  rcases hspells.single_or_high with ⟨a, ha⟩ | hhigh
  · rcases List.append_eq_singleton_iff.1 ha with ⟨rfl, -⟩ | ⟨-, rfl⟩
    · exact absurd rfl hx
    · rfl
  · by_contra hz
    obtain ⟨d, z', rfl⟩ := List.exists_cons_of_ne_nil hz
    rcases hseam with hlast | hnext
    · have hlow := hlast _ (List.getLast?_eq_some_getLast hx)
      exact absurd (hhigh _ (List.mem_append_left _ (List.getLast_mem hx))) (Nat.not_le.2 hlow)
    · exact absurd (hhigh d (by simp)) (Nat.not_le.2 (hnext d rfl))

theorem Seam.tail {w x y : Bytes} (h : Seam (w ++ x) y) : Seam x y := by
  refine h.imp_left fun hlast b hb => hlast b ?_
  rw [List.getLast?_append, Option.mem_def.1 hb]
  rfl

/-- Both sides of such a cut are in UTF-8. -/
theorem isValid_of_seam {x y : Bytes} (h : isValid (x ++ y) = true) (hseam : Seam x y) :
    isValid x = true ∧ isValid y = true := by
  obtain ⟨cs, hcs⟩ := isValid_iff.1 h
  induction cs generalizing x with
  | nil =>
    obtain ⟨rfl, rfl⟩ := List.append_eq_nil_iff.1 hcs
    exact ⟨h, h⟩
  | cons c cs ih =>
    have hchar : isValid (String.utf8EncodeChar c) = true := by simpa using isValid_encode [c]
    by_cases hx : x = []
    · subst hx
      exact ⟨isValid_encode [], h⟩
    · rw [encode_cons] at hcs
      rcases List.append_eq_append_iff.1 hcs with ⟨z, hsplit, rfl⟩ | ⟨x', rfl, hrest⟩
      · obtain rfl := Seam.whole hsplit hx hseam
        rw [List.append_nil] at hsplit
        exact ⟨hsplit ▸ hchar, by simp⟩
      · obtain ⟨hx', hy⟩ := ih (by rw [← hrest, isValid_encode]) hseam.tail hrest.symm
        exact ⟨isValid_append hchar hx', hy⟩

end Uncomment.Utf8
