import Mathlib
import Uncomment.Proofs.Standing
import Uncomment.Proofs.Utf8

/-! JSON texts with comments. A text is a sequence of pieces: tokens, blanks and comments, and its
tokens derive a value. The scan reads the pieces as what they are, and so the bytes of a text
determine its pieces. -/
namespace Uncomment.JsonText
open Ascii Atom
open Bytes (FirstAt)

/-- The structural characters. -/
inductive Mark where
  | openArray
  | closeArray
  | openObject
  | closeObject
  | colon
  | comma
  deriving DecidableEq, Repr

def Mark.byte : Mark → UInt8
  | .openArray => openBracket
  | .closeArray => 0x5D
  | .openObject => openBrace
  | .closeObject => closeBrace
  | .colon => 0x3A
  | .comma => 0x2C

inductive Literal where
  | yes
  | no
  | null
  deriving DecidableEq, Repr

def Literal.bytes : Literal → Bytes
  | .yes => Bytes.ofText "true"
  | .no => Bytes.ofText "false"
  | .null => Bytes.ofText "null"

def digits : Bytes := Bytes.ofText "0123456789"

def hexDigits : Bytes := Bytes.ofText "0123456789abcdefABCDEF"

/-- One or more digits. -/
structure IsDigits (bytes : Bytes) : Prop where
  nonempty : bytes ≠ []
  digit : ∀ b ∈ bytes, b ∈ digits

/-- The part of a number before the point: no zero stands in front of other digits. -/
structure IsWhole (bytes : Bytes) : Prop extends IsDigits bytes where
  leading : bytes.head? = some 0x30 → bytes = [0x30]

inductive IsFraction : Bytes → Prop
  | absent : IsFraction []
  | present {ds : Bytes} (form : IsDigits ds) : IsFraction (dot :: ds)

inductive IsExponent : Bytes → Prop
  | absent : IsExponent []
  | present {e : UInt8} {sign ds : Bytes} (letter : e ∈ Bytes.ofText "eE")
      (signed : sign ∈ [[], [plus], [dash]]) (form : IsDigits ds) : IsExponent (e :: (sign ++ ds))

inductive IsNumber : Bytes → Prop
  | parts {sign whole fraction exponent : Bytes} (signed : sign ∈ [[], [dash]])
      (before : IsWhole whole) (after : IsFraction fraction) (scale : IsExponent exponent) :
      IsNumber (sign ++ (whole ++ (fraction ++ exponent)))

/-- A character of a string as it is written. -/
inductive IsCharacter : Bytes → Prop
  | plain {c : Char} (visible : 0x20 ≤ c.toNat) (quoteless : c.toNat ≠ 0x22)
      (unescaped : c.toNat ≠ 0x5C) : IsCharacter (String.utf8EncodeChar c)
  | short {b : UInt8} (letter : b ∈ Bytes.ofText "\"\\/bfnrt") : IsCharacter [backslash, b]
  | long {code : Bytes} (four : code.length = 4) (hex : ∀ b ∈ code, b ∈ hexDigits) :
      IsCharacter (backslash :: 0x75 :: code)

inductive IsString : Bytes → Prop
  | quoted {cs : List Bytes} (characters : ∀ c ∈ cs, IsCharacter c) :
      IsString (quote :: (cs.flatten ++ [quote]))

inductive Token where
  | mark (m : Mark)
  | literal (l : Literal)
  | number (bytes : Bytes) (form : IsNumber bytes)
  | string (bytes : Bytes) (form : IsString bytes)

namespace Token

def bytes : Token → Bytes
  | mark m => [m.byte]
  | literal l => l.bytes
  | number bytes _ => bytes
  | string bytes _ => bytes

/-- A token that ends where no byte of a number or a literal follows. -/
def isWord : Token → Bool
  | mark _ | string _ _ => false
  | literal _ | number _ _ => true

end Token

/-- What a sequence of tokens can be derived from. -/
inductive Phrase where
  | value
  | members
  | elements
  deriving DecidableEq, Repr

inductive Derives : Phrase → List Token → Prop
  | literal (l : Literal) : Derives .value [.literal l]
  | number {bytes : Bytes} (form : IsNumber bytes) : Derives .value [.number bytes form]
  | string {bytes : Bytes} (form : IsString bytes) : Derives .value [.string bytes form]
  | emptyObject : Derives .value [.mark .openObject, .mark .closeObject]
  | object {ts : List Token} (inside : Derives .members ts) :
      Derives .value (.mark .openObject :: (ts ++ [.mark .closeObject]))
  | emptyArray : Derives .value [.mark .openArray, .mark .closeArray]
  | array {ts : List Token} (inside : Derives .elements ts) :
      Derives .value (.mark .openArray :: (ts ++ [.mark .closeArray]))
  | member {bytes : Bytes} {ts : List Token} (form : IsString bytes) (value : Derives .value ts) :
      Derives .members (.string bytes form :: .mark .colon :: ts)
  | moreMembers {ts us : List Token} (first : Derives .members ts) (rest : Derives .members us) :
      Derives .members (ts ++ .mark .comma :: us)
  | element {ts : List Token} (value : Derives .value ts) : Derives .elements ts
  | moreElements {ts us : List Token} (first : Derives .elements ts) (rest : Derives .elements us) :
      Derives .elements (ts ++ .mark .comma :: us)

def blanks : Bytes := [space, tab, lf, cr]

/-- A token, a blank or a comment. -/
inductive Piece where
  | token (t : Token)
  | blank (b : UInt8) (form : b ∈ blanks)
  | line (body : Bytes) (form : ∀ b ∈ body, isLineEnd b = false)
  | block (body : Bytes) (form : ¬ Language.block.closing <:+: body)

namespace Piece

def bytes : Piece → Bytes
  | token t => t.bytes
  | blank b _ => [b]
  | line body _ => Language.slashes ++ body
  | block body _ => Language.block.opening ++ (body ++ Language.block.closing)

def kind : Piece → SegmentKind
  | token (.string _ _) => .stringLiteral
  | token _ | blank _ _ => .code
  | line _ _ => .lineComment
  | block _ _ => .blockComment

def token? : Piece → Option Token
  | token t => some t
  | _ => none

def isComment (p : Piece) : Bool := p.kind.isComment

def lexeme (p : Piece) : Lexeme := ⟨p.kind, p.bytes, true⟩

def atoms (p : Piece) : List Atom := ofLexeme p.lexeme

end Piece

def bytes (ps : List Piece) : Bytes := ps.flatMap Piece.bytes

def tokens (ps : List Piece) : List Token := ps.filterMap Piece.token?

def atoms (ps : List Piece) : List Atom := ps.flatMap Piece.atoms

/-- After a line comment comes a line end or nothing. -/
def EndsLines : List Piece → Prop
  | [] => True
  | p :: ps => (p.kind = .lineComment → ∀ c ∈ (bytes ps).head?, isLineEnd c = true) ∧ EndsLines ps

/-- A JSON text with comments. -/
structure Document where
  pieces : List Piece
  ends : EndsLines pieces
  valid : Derives .value (tokens pieces)

namespace Document

def bytes (d : Document) : Bytes := JsonText.bytes d.pieces

def tokens (d : Document) : List Token := JsonText.tokens d.pieces

def comments (d : Document) : Nat := d.pieces.countP Piece.isComment

end Document

@[simp] theorem bytes_cons (p : Piece) (ps : List Piece) : bytes (p :: ps) = p.bytes ++ bytes ps := by
  simp [bytes]

@[simp] theorem atoms_cons (p : Piece) (ps : List Piece) : atoms (p :: ps) = p.atoms ++ atoms ps := by
  simp [atoms]

theorem flat_atoms (ps : List Piece) : flat (atoms ps) = bytes ps := by
  induction ps with
  | nil => rfl
  | cons p ps ih => simp [ih, Piece.atoms, Piece.lexeme]

section Words

/-- The bytes of numbers and literals. -/
def wordBytes : Bytes := Bytes.ofText "0123456789+-.eEaflnrstu"

theorem mem_of_all {s t : Bytes} (h : s.all t.contains = true) : ∀ b ∈ s, b ∈ t :=
  fun b hb => List.contains_iff_mem.1 (List.all_eq_true.1 h b hb)

theorem wordBytes_of_digits : ∀ b ∈ digits, b ∈ wordBytes := mem_of_all (by cbv)

theorem wordBytes_of_sign {sign : Bytes} (h : sign ∈ [[], [plus], [dash]]) :
    ∀ b ∈ sign, b ∈ wordBytes := by
  have hsign : ∀ b ∈ [plus, dash], b ∈ wordBytes := mem_of_all (by cbv)
  simp only [List.mem_cons, List.not_mem_nil, or_false] at h
  rcases h with rfl | rfl | rfl
  · simp
  · simpa using hsign plus (by simp)
  · simpa using hsign dash (by simp)

theorem IsFraction.bytes_mem {bytes : Bytes} (h : IsFraction bytes) :
    ∀ b ∈ bytes, b ∈ wordBytes := by
  cases h with
  | absent => simp
  | present form =>
    intro b hb
    rcases List.mem_cons.1 hb with rfl | hb
    · exact List.contains_iff_mem.1 (by cbv)
    · exact wordBytes_of_digits b (form.digit b hb)

theorem IsExponent.bytes_mem {bytes : Bytes} (h : IsExponent bytes) :
    ∀ b ∈ bytes, b ∈ wordBytes := by
  have hletter : ∀ b ∈ Bytes.ofText "eE", b ∈ wordBytes := mem_of_all (by cbv)
  cases h with
  | absent => simp
  | present letter signed form =>
    intro b hb
    rcases List.mem_cons.1 hb with rfl | hb
    · exact hletter b letter
    · rcases List.mem_append.1 hb with hb | hb
      · exact wordBytes_of_sign signed b hb
      · exact wordBytes_of_digits b (form.digit b hb)

theorem IsNumber.bytes_mem {bytes : Bytes} (h : IsNumber bytes) : ∀ b ∈ bytes, b ∈ wordBytes := by
  cases h with
  | parts signed before after scale =>
    intro b hb
    rcases List.mem_append.1 hb with hb | hb
    · exact wordBytes_of_sign (List.cons_subset_cons _ (List.subset_cons_self _ _) signed) b hb
    rcases List.mem_append.1 hb with hb | hb
    · exact wordBytes_of_digits b (before.digit b hb)
    · exact (List.mem_append.1 hb).elim (after.bytes_mem b) (scale.bytes_mem b)

theorem Token.bytes_mem {t : Token} (h : t.isWord = true) : ∀ b ∈ t.bytes, b ∈ wordBytes := by
  cases t with
  | mark m => simp [isWord] at h
  | literal l => cases l <;> exact mem_of_all (by cbv)
  | number bytes form => exact form.bytes_mem
  | string bytes form => simp [isWord] at h

/-- A number begins with a digit or the minus sign. -/
theorem IsNumber.exists_cons {bytes : Bytes} (h : IsNumber bytes) :
    ∃ b t, bytes = b :: t ∧ b ∈ dash :: digits := by
  cases h with
  | @parts sign whole _ _ signed before after scale =>
    obtain ⟨d, ds, rfl⟩ := List.exists_cons_of_ne_nil before.nonempty
    have hd : d ∈ digits := before.digit d List.mem_cons_self
    simp only [List.mem_cons, List.not_mem_nil, or_false] at signed
    rcases signed with rfl | rfl
    · exact ⟨d, _, rfl, List.mem_cons_of_mem _ hd⟩
    · exact ⟨dash, _, rfl, List.mem_cons_self⟩

end Words

section Standing
open Scan

/-- A comment opens with a slash. -/
theorem meets_json {b : UInt8} (h : b ≠ slash) (next : Option UInt8) :
    Strip.meets Language.json (some b) next = false :=
  Strip.meets_of_ne_slash (Language.cLike_of_mem_all (by simp [Language.all])) rfl h next

theorem fits_byte {b : UInt8} (hquote : b ≠ quote) (hslash : b ≠ slash) (next : Option UInt8) :
    Fits Language.json (byte b) next := by
  refine ⟨by simpa [Language.json, Language.escapedQuote] using Ne.symm hquote, fun hmeets => ?_⟩
  simp [meets_json hslash] at hmeets

theorem along_bytes {P : Atom → Option UInt8 → Prop} {bs : Bytes} (h : ∀ b ∈ bs, ∀ n, P (byte b) n)
    (next : Option UInt8) : Along P next (bs.map byte) := by
  induction bs with
  | nil => trivial
  | cons b bs ih =>
    exact ⟨h b List.mem_cons_self _, ih fun c hc => h c (List.mem_cons_of_mem _ hc)⟩

/-- A character that stands for itself has the one byte of its code or bytes beyond ASCII. -/
theorem toNat_of_mem_utf8EncodeChar {c : Char} {b : UInt8} (h : b ∈ String.utf8EncodeChar c) :
    b.toNat = c.toNat ∨ 0x80 ≤ b.toNat := by
  have hspells := Utf8.spells_utf8EncodeChar c
  rcases hspells.single_or_high with ⟨a, ha⟩ | hhigh
  · rw [ha] at h hspells
    obtain rfl := List.mem_singleton.1 h
    generalize c.toNat = v at hspells
    cases hspells
    exact .inl rfl
  · exact .inr (hhigh b h)

/-- A byte inside a string that neither ends it nor escapes the next one. -/
def IsInner (b : UInt8) : Prop := b ≠ quote ∧ b ≠ backslash ∧ isLineEnd b = false

theorem isInner_of_toNat {b : UInt8} (hvisible : 0x20 ≤ b.toNat) (hquote : b.toNat ≠ 0x22)
    (hescape : b.toNat ≠ 0x5C) : IsInner b := by
  refine ⟨?_, ?_, ?_⟩
  · rintro rfl
    exact hquote rfl
  · rintro rfl
    exact hescape rfl
  · rw [← Bool.not_eq_true, isLineEnd, Bool.or_eq_true, beq_iff_eq, beq_iff_eq]
    rintro (rfl | rfl)
    · exact absurd hvisible (by decide)
    · exact absurd hvisible (by decide)

def stringQuote : Quote := Language.escapedQuote quote

theorem literalExtent_inner {bs : Bytes} (h : ∀ b ∈ bs, IsInner b) (t : Bytes) :
    literalExtent stringQuote (bs ++ t) = (literalExtent stringQuote t).grow bs.length := by
  induction bs with
  | nil => rfl
  | cons b bs ih =>
    obtain ⟨hquote, hescape, hline⟩ := h b List.mem_cons_self
    have hesc : stringQuote.escape ≠ some b := fun heq => hescape (Option.some.inj heq).symm
    rw [List.cons_append, literalExtent_next hesc hquote (by simp [hline]),
      ih fun c hc => h c (List.mem_cons_of_mem _ hc)]
    rfl

theorem IsCharacter.extent {c : Bytes} (h : IsCharacter c) (t : Bytes) :
    literalExtent stringQuote (c ++ t) = (literalExtent stringQuote t).grow c.length := by
  cases h with
  | plain visible quoteless unescaped =>
    refine literalExtent_inner (fun b hb => ?_) t
    rcases toNat_of_mem_utf8EncodeChar hb with hb | hb
    · exact isInner_of_toNat (by omega) (by omega) (by omega)
    · exact isInner_of_toNat (by omega) (by omega) (by omega)
  | @short b _ => exact literalExtent_escape rfl b t
  | @long code _ hex =>
    have hall : hexDigits.all (fun b => 0x20 ≤ b.toNat && b.toNat != 0x22 && b.toNat != 0x5C) = true := by
      cbv
    have hinner : ∀ b ∈ hexDigits, 0x20 ≤ b.toNat ∧ b.toNat ≠ 0x22 ∧ b.toNat ≠ 0x5C := by
      simpa [and_assoc] using hall
    rw [List.cons_append, List.cons_append, literalExtent_escape rfl, literalExtent_inner fun b hb =>
      isInner_of_toNat (hinner b (hex b hb)).1 (hinner b (hex b hb)).2.1 (hinner b (hex b hb)).2.2]
    rfl

theorem literalExtent_characters {cs : List Bytes} (h : ∀ c ∈ cs, IsCharacter c) (t : Bytes) :
    literalExtent stringQuote (cs.flatten ++ quote :: t) = ⟨cs.flatten.length + 1, true⟩ := by
  induction cs with
  | nil => exact literalExtent_mark (by decide) rfl t
  | cons c cs ih =>
    rw [List.flatten_cons, List.append_assoc, (h c List.mem_cons_self).extent,
      ih fun d hd => h d (List.mem_cons_of_mem _ hd)]
    simp [Extent.grow]
    omega

theorem stands_string {bytes : Bytes} (h : IsString bytes) (next : Option UInt8) :
    Stands Language.json ⟨.stringLiteral, bytes, true⟩ next := by
  cases h with
  | @quoted cs characters =>
    refine @Stands.quoted Language.json stringQuote _ next (by simp [Language.json, stringQuote])
      (fun t => ?_) (by simp [stringQuote, Language.escapedQuote])
    rw [List.append_assoc, List.singleton_append, literalExtent_characters characters]
    simp

theorem stands_line {body : Bytes} (h : ∀ b ∈ body, isLineEnd b = false) {next : Option UInt8}
    (hnext : ∀ c ∈ next, isLineEnd c = true) :
    Stands Language.json ⟨.lineComment, Language.slashes ++ body, true⟩ next := by
  refine .line (by simp [Language.json]) (List.prefix_append _ _) (fun b hb => ?_) hnext
  rcases List.mem_append.1 hb with hb | hb
  · obtain rfl : b = slash := by simpa [Language.slashes] using hb
    rfl
  · exact h b hb

theorem firstAt_closing {body : Bytes} (h : ¬ Language.block.closing <:+: body) :
    FirstAt Language.block.closing (body ++ Language.block.closing) body.length := by
  induction body with
  | nil => exact Bytes.firstAt_zero.2 (List.prefix_refl _)
  | cons b body ih =>
    refine Bytes.firstAt_succ.2 ⟨fun hp => ?_, ih fun hinner => h (List.infix_cons hinner)⟩
    -- a closing that begins at the last byte of the body has the star of the next where its slash is
    cases body with
    | nil =>
      have hslash : Ascii.star = b ∧ slash = Ascii.star := by simpa [Language.block] using hp
      exact absurd hslash.2 (by decide)
    | cons c body =>
      have hfront := List.prefix_append (b :: c :: body) Language.block.closing
      exact h (List.prefix_of_prefix_length_le hp hfront (by simp [Language.block])).isInfix

theorem stands_block {body : Bytes} (h : ¬ Language.block.closing <:+: body) (next : Option UInt8) :
    Stands Language.json
      ⟨.blockComment, Language.block.opening ++ (body ++ Language.block.closing), true⟩ next := by
  refine .block (List.prefix_append _ _) (firstAt_closing h) ?_
  simp [Language.block]

def marks : Bytes := [0x5B, 0x5D, 0x7B, 0x7D, 0x3A, 0x2C]

theorem Mark.byte_mem (m : Mark) : m.byte ∈ marks := by
  cases m <;> decide

/-- The bytes outside strings and comments. -/
def codeBytes : Bytes := wordBytes ++ (blanks ++ marks)

theorem Piece.bytes_mem {p : Piece} (h : p.kind = .code) : ∀ b ∈ p.bytes, b ∈ codeBytes := by
  cases p with
  | token t =>
    cases t with
    | mark m =>
      intro b hb
      rw [List.mem_singleton.1 hb]
      exact List.mem_append_right _ (List.mem_append_right _ m.byte_mem)
    | literal l => exact fun b hb => List.mem_append_left _ (Token.bytes_mem (t := .literal l) rfl b hb)
    | number bytes form => exact fun b hb => List.mem_append_left _ (form.bytes_mem b hb)
    | string bytes form => simp [kind] at h
  | blank b form =>
    intro c hc
    rw [List.mem_singleton.1 hc]
    exact List.mem_append_right _ (List.mem_append_left _ form)
  | line body form => simp [kind] at h
  | block body form => simp [kind] at h

/-- A piece is read as itself in front of the other pieces. -/
theorem Piece.along_fits (p : Piece) {next : Option UInt8}
    (h : p.kind = .lineComment → ∀ c ∈ next, isLineEnd c = true) :
    Along (Fits Language.json) next p.atoms := by
  by_cases hk : p.kind = .code
  · have hall : codeBytes.all (fun b => b != quote && b != slash) = true := by cbv
    have hopening : ∀ b ∈ codeBytes, b ≠ quote ∧ b ≠ slash := by simpa using hall
    rw [Piece.atoms, ofLexeme_of_code hk]
    refine along_bytes (fun b hb => ?_) next
    obtain ⟨hquote, hslash⟩ := hopening b (Piece.bytes_mem hk b hb)
    exact fits_byte hquote hslash
  · have hstands : Stands Language.json p.lexeme next := by
      cases p with
      | token t =>
        cases t with
        | string bytes form => exact stands_string form next
        | mark m | literal l | number bytes form => exact absurd rfl hk
      | blank b form => exact absurd rfl hk
      | line body form => exact stands_line form (h rfl)
      | block body form => exact stands_block form next
    rw [Piece.atoms, ofLexeme_of_ne hk]
    exact ⟨hstands, trivial⟩

theorem linked_atoms {ps : List Piece} (h : EndsLines ps) : Linked Language.json none (atoms ps) := by
  induction ps with
  | nil => trivial
  | cons p ps ih =>
    rw [atoms_cons, Linked, along_append, flat_atoms, Option.or_none]
    exact ⟨p.along_fits h.1, ih h.2⟩

/-- The scan of a text reads its pieces. -/
theorem explode_lexemes_bytes {ps : List Piece} (h : EndsLines ps) :
    explode (lexemes Language.json (bytes ps)) = atoms ps := by
  have hmem : Language.json ∈ Language.all := by simp [Language.all]
  have hlinked := linked_atoms h
  have hlex := @Linked.lexemes_flat _ (atoms ps) (Language.scannable_of_mem_all hmem)
    (Language.cLike_of_mem_all hmem) rfl [] hlinked
  rw [List.append_nil, flat_atoms, lexemes_nil] at hlex
  rw [hlex, explode_pack hlinked.kind_ne_code, explode_nil, List.append_nil]

end Standing

section Unique

/-- No two words stand next to each other. -/
def Spaced (ts : List Token) : Prop := ts.IsChain fun t u => ¬ (t.isWord = true ∧ u.isWord = true)

theorem spaced_cons {t : Token} {ts : List Token} (ht : t.isWord = false) (h : Spaced ts) :
    Spaced (t :: ts) := by
  refine List.isChain_cons.2 ⟨fun u _ hu => ?_, h⟩
  simp [ht] at hu

theorem spaced_append_cons {t : Token} {ts us : List Token} (ht : t.isWord = false) (h : Spaced ts)
    (h' : Spaced us) : Spaced (ts ++ t :: us) := by
  refine List.isChain_append.2 ⟨h, spaced_cons ht h', fun u _ v hv hboth => ?_⟩
  obtain rfl : t = v := by simpa using hv
  simp [ht] at hboth

theorem Derives.spaced {phrase : Phrase} {ts : List Token} (h : Derives phrase ts) : Spaced ts := by
  induction h with
  | literal l => exact .singleton _
  | number form => exact .singleton _
  | string form => exact .singleton _
  | emptyObject => exact spaced_cons rfl (.singleton _)
  | object _ ih => exact spaced_cons rfl (spaced_append_cons rfl ih .nil)
  | emptyArray => exact spaced_cons rfl (.singleton _)
  | array _ ih => exact spaced_cons rfl (spaced_append_cons rfl ih .nil)
  | member form _ ih => exact spaced_cons rfl (spaced_cons rfl ih)
  | moreMembers _ _ ih ih' => exact spaced_append_cons rfl ih ih'
  | element _ ih => exact ih
  | moreElements _ _ ih ih' => exact spaced_append_cons rfl ih ih'

theorem spaced_tail {p : Piece} {ps : List Piece} (h : Spaced (tokens (p :: ps))) :
    Spaced (tokens ps) := by
  cases p with
  | token t => exact List.IsChain.tail h
  | blank | line | block => exact h

def Piece.isWord : Piece → Bool
  | .token t => t.isWord
  | _ => false

def isWordAtom : Atom → Bool
  | byte b => wordBytes.contains b
  | whole _ => false

/-- The bytes that a piece of the same sort can begin with. -/
def Piece.initials : Piece → Bytes
  | .token (.mark _) => marks
  | .token (.literal _) => Bytes.ofText "tfn"
  | .token (.number _ _) => dash :: digits
  | .token (.string _ _) => [quote]
  | .blank _ _ => blanks
  | .line _ _ | .block _ _ => [slash]

theorem Piece.exists_cons (p : Piece) : ∃ b t, p.bytes = b :: t ∧ b ∈ p.initials := by
  cases p with
  | token t =>
    cases t with
    | mark m => exact ⟨m.byte, [], rfl, m.byte_mem⟩
    | literal l => cases l <;> exact ⟨_, _, rfl, List.contains_iff_mem.1 (by cbv)⟩
    | number bytes form => exact form.exists_cons
    | string bytes form =>
      cases form with
      | quoted => exact ⟨quote, _, rfl, List.mem_cons_self⟩
  | blank b form => exact ⟨b, [], rfl, form⟩
  | line body form => exact ⟨slash, _, rfl, List.mem_cons_self⟩
  | block body form => exact ⟨slash, _, rfl, List.mem_cons_self⟩

theorem Mark.byte_injective : Function.Injective Mark.byte := by
  intro m n h
  cases m <;> cases n <;> first | rfl | exact absurd h (by decide)

theorem Literal.bytes_injective : Function.Injective Literal.bytes := by
  intro l m h
  cases l <;> cases m <;> first | rfl | exact absurd h (of_decide_eq_false (by cbv))

theorem Piece.eq_of_bytes {p q : Piece} (hk : p.kind = q.kind) (h : p.bytes = q.bytes) : p = q := by
  have hcommon : p.initials.any q.initials.contains = true := by
    obtain ⟨b, t, hp, hb⟩ := p.exists_cons
    obtain ⟨c, u, hq, hc⟩ := q.exists_cons
    rw [hp, hq] at h
    exact List.any_eq_true.2 ⟨b, hb, List.contains_iff_mem.2 ((List.cons.inj h).1 ▸ hc)⟩
  -- pieces of different sorts begin with different bytes, or are comments of different kinds
  rcases p with (m | l | ⟨x, hx⟩ | ⟨x, hx⟩) | ⟨b, hb⟩ | ⟨x, hx⟩ | ⟨x, hx⟩ <;>
    rcases q with (m' | l' | ⟨y, hy⟩ | ⟨y, hy⟩) | ⟨c, hc⟩ | ⟨y, hy⟩ | ⟨y, hy⟩ <;>
    first
    | (simp [kind] at hk; done)
    | (exfalso; revert hcommon; rw [imp_false, Bool.not_eq_true]; cbv; done)
    | skip
  · obtain rfl := Mark.byte_injective (List.cons.inj h).1
    rfl
  · obtain rfl := Literal.bytes_injective h
    rfl
  · obtain rfl : x = y := h
    rfl
  · obtain rfl : x = y := h
    rfl
  · obtain rfl := (List.cons.inj h).1
    rfl
  · obtain rfl := List.append_cancel_left h
    rfl
  · obtain rfl := List.append_cancel_right (List.append_cancel_left h)
    rfl

theorem Piece.eq_of_atoms {p q : Piece} (h : p.atoms = q.atoms) : p = q := by
  have hinj : Function.Injective byte := fun a b h => Atom.byte.inj h
  rw [Piece.atoms, Piece.atoms] at h
  by_cases hp : p.kind = .code
  · by_cases hq : q.kind = .code
    · rw [ofLexeme_of_code hp, ofLexeme_of_code hq] at h
      exact Piece.eq_of_bytes (hp.trans hq.symm) (hinj.list_map h)
    · rw [ofLexeme_of_code hp, ofLexeme_of_ne hq] at h
      have hmem : whole q.lexeme ∈ p.lexeme.bytes.map byte := by simp [h]
      simp at hmem
  · by_cases hq : q.kind = .code
    · rw [ofLexeme_of_ne hp, ofLexeme_of_code hq] at h
      have hmem : whole p.lexeme ∈ q.lexeme.bytes.map byte := by simp [← h]
      simp at hmem
    · rw [ofLexeme_of_ne hp, ofLexeme_of_ne hq] at h
      have hlex : p.lexeme = q.lexeme := Atom.whole.inj (List.cons.inj h).1
      exact Piece.eq_of_bytes (congrArg Lexeme.kind hlex) (congrArg Lexeme.bytes hlex)

theorem Piece.atoms_ne_nil (p : Piece) : p.atoms ≠ [] := by
  obtain ⟨b, t, hbytes, -⟩ := p.exists_cons
  by_cases hk : p.kind = .code
  · rw [Piece.atoms, ofLexeme_of_code hk]
    simp [Piece.lexeme, hbytes]
  · rw [Piece.atoms, ofLexeme_of_ne hk]
    simp

theorem Piece.isWordAtom_of_mem {p : Piece} (h : p.isWord = true) :
    ∀ a ∈ p.atoms, isWordAtom a = true := by
  cases p with
  | token t =>
    have hk : (Piece.token t).kind = .code := by cases t <;> first | rfl | simp [isWord, Token.isWord] at h
    intro a ha
    rw [Piece.atoms, ofLexeme_of_code hk] at ha
    obtain ⟨b, hb, rfl⟩ := List.mem_map.1 ha
    exact List.contains_iff_mem.2 (Token.bytes_mem h b hb)
  | blank | line | block => simp [isWord] at h

theorem Piece.atoms_of_not_isWord {p : Piece} (h : p.isWord = false) :
    ∃ a, p.atoms = [a] ∧ isWordAtom a = false := by
  have hall : (blanks ++ marks).all (fun b => !isWordAtom (byte b)) = true := by cbv
  have hother : ∀ b ∈ blanks ++ marks, isWordAtom (byte b) = false := by
    simpa [or_imp, forall_and] using hall
  cases p with
  | token t =>
    cases t with
    | mark m => exact ⟨byte m.byte, rfl, hother _ (List.mem_append_right _ m.byte_mem)⟩
    | literal l => simp [isWord, Token.isWord] at h
    | number bytes form => simp [isWord, Token.isWord] at h
    | string bytes form => exact ⟨_, rfl, rfl⟩
  | blank b form => exact ⟨byte b, rfl, hother b (List.mem_append_left _ form)⟩
  | line body form => exact ⟨_, rfl, rfl⟩
  | block body form => exact ⟨_, rfl, rfl⟩

/-- The first piece as the atoms show it: a run of word bytes, or else one atom. -/
def front (A : List Atom) : List Atom :=
  if A.takeWhile isWordAtom = [] then A.take 1 else A.takeWhile isWordAtom

theorem front_atoms {p : Piece} {ps : List Piece} (h : Spaced (tokens (p :: ps))) :
    front (atoms (p :: ps)) = p.atoms := by
  rw [atoms_cons, front]
  cases hp : p.isWord with
  | false =>
    obtain ⟨a, ha, hword⟩ := Piece.atoms_of_not_isWord hp
    rw [ha]
    simp [hword]
  | true =>
    have hstop : (atoms ps).takeWhile isWordAtom = [] := by
      cases ps with
      | nil => rfl
      | cons q ps =>
        have hq : q.isWord = false := by
          cases p with
          | token t =>
            cases q with
            | token u =>
              have hboth : ¬ (t.isWord = true ∧ u.isWord = true) := (List.isChain_cons_cons.1 h).1
              exact Bool.eq_false_iff.2 fun hu => hboth ⟨hp, hu⟩
            | blank | line | block => rfl
          | blank | line | block => simp [Piece.isWord] at hp
        obtain ⟨a, ha, hword⟩ := Piece.atoms_of_not_isWord hq
        rw [atoms_cons, ha]
        simp [hword]
    rw [List.takeWhile_append_of_pos (Piece.isWordAtom_of_mem hp), hstop, List.append_nil,
      if_neg p.atoms_ne_nil]

theorem eq_of_atoms {ps qs : List Piece} (hp : Spaced (tokens ps)) (hq : Spaced (tokens qs))
    (h : atoms ps = atoms qs) : ps = qs := by
  induction ps generalizing qs with
  | nil =>
    cases qs with
    | nil => rfl
    | cons q qs => simp [atoms, q.atoms_ne_nil] at h
  | cons p ps ih =>
    cases qs with
    | nil => simp [atoms, p.atoms_ne_nil] at h
    | cons q qs =>
      have hfirst : p.atoms = q.atoms := by rw [← front_atoms hp, ← front_atoms hq, h]
      obtain rfl := Piece.eq_of_atoms hfirst
      rw [atoms_cons, atoms_cons] at h
      rw [ih (spaced_tail hp) (spaced_tail hq) (List.append_cancel_left h)]

end Unique

/-- The bytes of a text determine its pieces. -/
theorem Document.bytes_injective : Function.Injective Document.bytes := by
  intro d e h
  have hatoms : atoms d.pieces = atoms e.pieces := by
    rw [← explode_lexemes_bytes d.ends, ← explode_lexemes_bytes e.ends]
    exact congrArg (fun s => explode (Scan.lexemes Language.json s)) h
  have hpieces := eq_of_atoms d.valid.spaced e.valid.spaced hatoms
  cases d
  cases e
  simpa using hpieces

end Uncomment.JsonText
