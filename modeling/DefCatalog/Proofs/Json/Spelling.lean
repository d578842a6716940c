import DefCatalog.Json.Printer
import DefCatalog.Json.Token
import DefCatalog.Proofs.Number.Decimal
import DefCatalog.Proofs.Text.Pieces
import Mathlib.Data.List.Chain

/-!
# How JSON is spelled

The grammar of documents, apart from any reader: how strings, numbers and the other tokens are
spelled, and that blanks may stand before each token and at the end. A text that is spelled from
some tokens is cut into these tokens again, if no number is followed by a token that could go on
with it.
-/

namespace DefCatalog.Json

/-- The marks that stand for a character after a backslash, each with its character. -/
def escapes : List (Char × Char) :=
  [('"', '"'), ('\\', '\\'), ('/', '/'), ('b', '\x08'), ('f', '\x0c'), ('n', '\n'), ('r', '\r'),
    ('t', '\t')]

/-- Whether a character is the hexadecimal digit with a value, in lower or upper case. -/
def IsHexDigit (c : Char) (value : Nat) : Prop :=
  "0123456789abcdef".toList[value]? = some c ∨ "0123456789ABCDEF".toList[value]? = some c

/-- How a piece of a string is spelled. -/
inductive Piece.SpelledBy : Piece → Text → Prop where
  | self {c : Char} (hspace : ¬c < ' ') (hquote : c ≠ '"') (hslash : c ≠ '\\') :
    SpelledBy (.char c) [c]
  | escape {mark c : Char} (h : (mark, c) ∈ escapes) : SpelledBy (.char c) ['\\', mark]
  | unit {a b c d : Char} {first second third last : Nat} (ha : IsHexDigit a first)
    (hb : IsHexDigit b second) (hc : IsHexDigit c third) (hd : IsHexDigit d last) :
    SpelledBy (.unit (first * 0x1000 + second * 0x100 + third * 0x10 + last))
      ['\\', 'u', a, b, c, d]

/-- How the content of a string is spelled. -/
inductive SpellsBody : StringBody → Text → Prop where
  | nil : SpellsBody [] []
  | cons {piece : Piece} {body : StringBody} {text rest : Text} (h : piece.SpelledBy text)
    (hrest : SpellsBody body rest) : SpellsBody (piece :: body) (text ++ rest)

theorem escaped?_of_mem {mark c : Char} (h : (mark, c) ∈ escapes) : escaped? mark = some c := by
  have hall : ∀ pair ∈ escapes, escaped? pair.1 = some pair.2 := by decide
  exact hall _ h

theorem hexDigit?_of_isHexDigit {c : Char} {value : Nat} (h : IsHexDigit c value) :
    hexDigit? c = some value := by
  have hlower : ∀ digit ∈ "0123456789abcdef".toList.zipIdx, hexDigit? digit.1 = some digit.2 := by
    decide
  have hupper : ∀ digit ∈ "0123456789ABCDEF".toList.zipIdx, hexDigit? digit.1 = some digit.2 := by
    decide
  rcases h with h | h
  · exact hlower _ (List.mk_mem_zipIdx_iff_getElem?.mpr h)
  · exact hupper _ (List.mk_mem_zipIdx_iff_getElem?.mpr h)

theorem stringFrom?_of_spelledBy {piece : Piece} {text : Text} (h : piece.SpelledBy text)
    (latest : StringBody) (rest : Text) :
    stringFrom? latest (text ++ rest) = stringFrom? (piece :: latest) rest := by
  cases h with
  | @self c hspace hquote hslash =>
    rw [List.singleton_append, stringFrom?, if_neg (not_or.mpr ⟨hspace, hslash⟩)]
    · exact hquote
    · intro _ _ _ _ _ hc
      exact absurd hc hslash
    · intro _ _ hc
      exact absurd hc hslash
  | @escape mark c hmem =>
    have hmark := escaped?_of_mem hmem
    have hu : mark ≠ 'u' := by
      rintro rfl
      cases hmark
    rw [List.cons_append, List.singleton_append, stringFrom?, hmark]
    intro _ _ _ _ _ hc
    exact absurd hc hu
  | unit ha hb hc hd =>
    simp only [List.cons_append, List.nil_append, stringFrom?, unit?, hexDigit?_of_isHexDigit ha,
      hexDigit?_of_isHexDigit hb, hexDigit?_of_isHexDigit hc, hexDigit?_of_isHexDigit hd,
      Option.bind_eq_bind, Option.bind_some, Option.pure_def]

theorem stringFrom?_of_spellsBody {body : StringBody} {text : Text} (h : SpellsBody body text)
    (latest : StringBody) (rest : Text) :
    stringFrom? latest (text ++ '"' :: rest) = some (latest.reverse ++ body, rest) := by
  induction h generalizing latest with
  | nil => simp [stringFrom?]
  | cons hpiece _ ih =>
    rw [List.append_assoc, stringFrom?_of_spelledBy hpiece, ih, List.reverse_cons,
      List.append_assoc, List.singleton_append]

/-! ## Numbers -/

/-- Whether a text consists of digits. -/
def IsDigits (text : Text) : Prop :=
  text ≠ [] ∧ ∀ c ∈ text, Decimal.isDigit c = true

/-- Whether a text is the whole part of a number: a zero alone, or digits that begin with another
one. -/
def IsWhole (text : Text) : Prop :=
  text = ['0'] ∨ IsDigits text ∧ text.head? ≠ some '0'

/-- Whether a text is a fraction, which may be missing. -/
def IsFraction (text : Text) : Prop :=
  text = [] ∨ ∃ digits, IsDigits digits ∧ text = '.' :: digits

/-- Whether a text is an exponent, which may be missing. -/
def IsExponent (text : Text) : Prop :=
  text = [] ∨ ∃ mark sign digits, (mark = 'e' ∨ mark = 'E') ∧
    (sign = [] ∨ sign = ['+'] ∨ sign = ['-']) ∧ IsDigits digits ∧ text = mark :: (sign ++ digits)

/-- Whether the parts of a number are spelled as they may be. -/
structure Number.IsValid (number : Number) : Prop where
  whole : IsWhole number.whole
  tail : ∃ fraction exponent, number.tail = fraction ++ exponent ∧ IsFraction fraction ∧
    IsExponent exponent

theorem Number.isValid_ofNat (n : Nat) : (Number.ofNat n).IsValid where
  whole := by
    rcases Decimal.head?_digits n with rfl | hhead
    · left
      unfold Number.ofNat
      rw [Decimal.digits]
      rfl
    · exact Or.inr ⟨⟨Decimal.digits_ne_nil n, fun _ ↦ Decimal.isDigit_of_mem_digits⟩, hhead⟩
  tail := ⟨[], [], rfl, Or.inl rfl, Or.inl rfl⟩

/-- Whether a text does not go on with digits before it. -/
def EndsDigits (text : Text) : Prop :=
  ∀ c rest, text = c :: rest → Decimal.isDigit c = false

/-- Whether a text does not go on with a number before it. -/
def EndsNumber (text : Text) : Prop :=
  ∀ c rest, text = c :: rest → Decimal.isDigit c = false ∧ c ≠ '.' ∧ c ≠ 'e' ∧ c ≠ 'E'

theorem EndsNumber.endsDigits {text : Text} (h : EndsNumber text) : EndsDigits text :=
  fun c rest htext ↦ (h c rest htext).1

theorem endsDigits_cons {c : Char} (h : Decimal.isDigit c = false) (rest : Text) :
    EndsDigits (c :: rest) := by
  intro other more heq
  cases heq
  exact h

theorem digits?_append {digits rest : Text} (h : IsDigits digits) (hrest : EndsDigits rest) :
    digits? (digits ++ rest) = some (digits, rest) := by
  obtain ⟨htake, hdrop⟩ := Text.takeWhile_dropWhile_append h.2 hrest
  unfold digits?
  rw [htake, hdrop]
  simp [h.1]

theorem whole?_append {whole rest : Text} (h : IsWhole whole) (hrest : EndsDigits rest) :
    whole? (whole ++ rest) = some (whole, rest) := by
  rcases h with rfl | ⟨hdigits, hhead⟩
  · rfl
  · have hread := digits?_append hdigits hrest
    obtain ⟨c, more, rfl⟩ := List.exists_cons_of_ne_nil hdigits.1
    rw [List.cons_append] at hread ⊢
    rw [whole?, if_neg (by simpa using hhead)]
    exact hread

theorem endsDigits_exponent {exponent rest : Text} (h : IsExponent exponent)
    (hrest : EndsNumber rest) : EndsDigits (exponent ++ rest) := by
  rcases h with rfl | ⟨mark, _, _, hmark, _, _, rfl⟩
  · exact hrest.endsDigits
  · apply endsDigits_cons
    rcases hmark with rfl | rfl <;> rfl

theorem endsDigits_tail {fraction exponent rest : Text} (hfraction : IsFraction fraction)
    (hexponent : IsExponent exponent) (hrest : EndsNumber rest) :
    EndsDigits (fraction ++ (exponent ++ rest)) := by
  rcases hfraction with rfl | ⟨_, _, rfl⟩
  · rw [List.nil_append]
    exact endsDigits_exponent hexponent hrest
  · exact endsDigits_cons rfl _

theorem fraction?_append {fraction exponent rest : Text} (hfraction : IsFraction fraction)
    (hexponent : IsExponent exponent) (hrest : EndsNumber rest) :
    fraction? (fraction ++ (exponent ++ rest)) = some (fraction, exponent ++ rest) := by
  rcases hfraction with rfl | ⟨digits, hdigits, rfl⟩
  · rw [List.nil_append]
    unfold fraction?
    split
    · rename_i tail htail
      rcases hexponent with rfl | ⟨mark, _, _, hmark, _, _, rfl⟩
      · exact absurd rfl (hrest '.' tail htail).2.1
      · cases htail
        rcases hmark with hmark | hmark <;> cases hmark
    · rfl
  · have hread := digits?_append hdigits (endsDigits_exponent hexponent hrest)
    simp only [List.cons_append, fraction?, hread, Option.map_some]

theorem exponent?_append {exponent rest : Text} (h : IsExponent exponent)
    (hrest : EndsNumber rest) : exponent? (exponent ++ rest) = some (exponent, rest) := by
  rcases h with rfl | ⟨mark, sign, digits, hmark, hsign, hdigits, rfl⟩
  · cases rest with
    | nil => rfl
    | cons c tail =>
      obtain ⟨_, _, hlower, hupper⟩ := hrest c tail rfl
      simp [exponent?, hlower, hupper]
  · have hread := digits?_append hdigits hrest.endsDigits
    rcases hsign with rfl | rfl | rfl
    · -- the first digit is no sign
      obtain ⟨first, more, rfl⟩ := List.exists_cons_of_ne_nil hdigits.1
      have hfirst : ¬(first = '+' ∨ first = '-') := by
        have hdigit := hdigits.2 first List.mem_cons_self
        rintro (rfl | rfl) <;> cases hdigit
      rw [List.cons_append] at hread
      simp [exponent?, hmark, hfirst, hread]
    · simp [exponent?, hmark, hread]
    · simp [exponent?, hmark, hread]

theorem number?_append {number : Number} {rest : Text} (h : number.IsValid)
    (hrest : EndsNumber rest) :
    number? number.negative (number.whole ++ number.tail ++ rest) = some (number, rest) := by
  obtain ⟨fraction, exponent, htail, hfraction, hexponent⟩ := h.tail
  rw [htail, List.append_assoc, List.append_assoc]
  unfold number?
  rw [whole?_append h.whole (endsDigits_tail hfraction hexponent hrest)]
  simp only [Option.bind_eq_bind, Option.bind_some, fraction?_append hfraction hexponent hrest,
    exponent?_append hexponent hrest, Option.pure_def, ← htail]

/-- How a token is spelled. -/
inductive Token.SpelledBy : Token → Text → Prop where
  | openBrace : SpelledBy .openBrace ['\x7b']
  | closeBrace : SpelledBy .closeBrace ['\x7d']
  | openBracket : SpelledBy .openBracket ['[']
  | closeBracket : SpelledBy .closeBracket [']']
  | comma : SpelledBy .comma [',']
  | colon : SpelledBy .colon [':']
  | nullWord : SpelledBy .null "null".toList
  | trueWord : SpelledBy (.bool true) "true".toList
  | falseWord : SpelledBy (.bool false) "false".toList
  | number {number : Number} (h : number.IsValid) :
    SpelledBy (.number number) (numberText number)
  | string {body : StringBody} {text : Text} (h : SpellsBody body text) :
    SpelledBy (.string body) ('"' :: (text ++ ['"']))

/-- How some tokens are spelled, with blanks before each of them and at the end. -/
inductive Spells : List Token → Text → Prop where
  | blanks {blanks : Text} (hblanks : ∀ c ∈ blanks, isBlank c = true) : Spells [] blanks
  | token {blanks text rest : Text} {token : Token} {tokens : List Token}
    (hblanks : ∀ c ∈ blanks, isBlank c = true) (h : token.SpelledBy text)
    (hrest : Spells tokens rest) : Spells (token :: tokens) (blanks ++ (text ++ rest))

theorem Token.SpelledBy.spells {token : Token} {text : Text} (h : token.SpelledBy text) :
    Spells [token] text := by
  have hnone : ∀ c ∈ ([] : Text), isBlank c = true := fun _ hmem ↦ nomatch hmem
  have hspells := Spells.token hnone h (Spells.blanks hnone)
  rwa [List.nil_append, List.append_nil] at hspells

theorem Spells.blanks_append {blanks text : Text} {tokens : List Token} (h : Spells tokens text)
    (hblanks : ∀ c ∈ blanks, isBlank c = true) : Spells tokens (blanks ++ text) := by
  cases h with
  | blanks hend => exact .blanks (List.forall_mem_append.mpr ⟨hblanks, hend⟩)
  | token hfirst htoken hrest =>
    rw [← List.append_assoc]
    exact .token (List.forall_mem_append.mpr ⟨hblanks, hfirst⟩) htoken hrest

theorem Spells.append {text text' : Text} {tokens tokens' : List Token} (h : Spells tokens text)
    (h' : Spells tokens' text') : Spells (tokens ++ tokens') (text ++ text') := by
  induction h with
  | blanks hblanks => exact h'.blanks_append hblanks
  | token hblanks htoken _ ih =>
    rw [List.append_assoc, List.append_assoc]
    exact .token hblanks htoken ih

theorem tokensFrom?_blanks {blanks : Text} (h : ∀ c ∈ blanks, isBlank c = true)
    (latest : List Token) (rest : Text) :
    tokensFrom? latest (blanks ++ rest) = tokensFrom? latest rest := by
  induction blanks with
  | nil => rfl
  | cons c blanks ih =>
    rw [List.forall_mem_cons] at h
    rw [List.cons_append, tokensFrom?, if_pos h.1, ih h.2]

theorem tokensFrom?_token {c : Char} {rest rest' : Text} {token : Token}
    (hblank : isBlank c = false) (h : token? c rest = some (token, rest')) (latest : List Token) :
    tokensFrom? latest (c :: rest) = tokensFrom? (token :: latest) rest' := by
  rw [tokensFrom?, hblank, if_neg (by decide)]
  split
  · rename_i htoken
    rw [h] at htoken
    cases htoken
    rfl
  · rename_i htoken
    rw [h] at htoken
    cases htoken

theorem isBlank_of_isDigit {c : Char} (h : Decimal.isDigit c = true) : isBlank c = false := by
  rw [Bool.eq_false_iff]
  intro hblank
  simp only [isBlank, Bool.or_eq_true, beq_iff_eq] at hblank
  rcases hblank with ((rfl | rfl) | rfl) | rfl <;> cases h

theorem exists_digit_of_isWhole {whole : Text} (h : IsWhole whole) :
    ∃ c rest, whole = c :: rest ∧ Decimal.isDigit c = true := by
  rcases h with rfl | ⟨hdigits, _⟩
  · exact ⟨_, _, rfl, rfl⟩
  · obtain ⟨c, rest, rfl⟩ := List.exists_cons_of_ne_nil hdigits.1
    exact ⟨c, rest, rfl, hdigits.2 c List.mem_cons_self⟩

theorem token?_of_isDigit {c : Char} {rest : Text} (h : Decimal.isDigit c = true) :
    token? c rest =
      (number? false (c :: rest)).map fun (number, rest) ↦ (.number number, rest) := by
  unfold token?
  split <;> first | cases h | rw [if_pos h]

/-- How a number is read, if it ends there. -/
theorem exists_token?_number {number : Number} {rest : Text} (h : number.IsValid)
    (hend : EndsNumber rest) :
    ∃ c more, numberText number = c :: more ∧ isBlank c = false ∧
      token? c (more ++ rest) = some (.number number, rest) := by
  have hread := number?_append h hend
  unfold numberText
  cases hsign : number.negative with
  | true =>
    rw [hsign] at hread
    refine ⟨'-', number.whole ++ number.tail, rfl, rfl, ?_⟩
    simp only [token?, hread, Option.map_some]
  | false =>
    obtain ⟨c, more, hwhole, hdigit⟩ := exists_digit_of_isWhole h.whole
    rw [hsign, hwhole] at hread
    rw [hwhole]
    refine ⟨c, more ++ number.tail, rfl, isBlank_of_isDigit hdigit, ?_⟩
    rw [token?_of_isDigit hdigit, ← List.cons_append, ← List.cons_append, hread]
    rfl

/-- How a token that is spelled is read, whatever follows it. Only a number must end there. -/
theorem exists_token?_of_spelledBy {token : Token} {text rest : Text} (h : token.SpelledBy text)
    (hend : ∀ number, token = .number number → EndsNumber rest) :
    ∃ c more, text = c :: more ∧ isBlank c = false ∧
      token? c (more ++ rest) = some (token, rest) := by
  cases h with
  | openBrace | closeBrace | openBracket | closeBracket | comma | colon | nullWord | trueWord |
    falseWord =>
    exact ⟨_, _, rfl, rfl, rfl⟩
  | number hvalid => exact exists_token?_number hvalid (hend _ rfl)
  | string hbody =>
    refine ⟨_, _, rfl, rfl, ?_⟩
    rw [List.append_assoc, List.singleton_append, token?, stringFrom?_of_spellsBody hbody]
    rfl

theorem tokensFrom?_of_spelledBy {token : Token} {text rest : Text} (h : token.SpelledBy text)
    (hend : ∀ number, token = .number number → EndsNumber rest) (latest : List Token) :
    tokensFrom? latest (text ++ rest) = tokensFrom? (token :: latest) rest := by
  obtain ⟨c, more, rfl, hblank, hread⟩ := exists_token?_of_spelledBy h hend
  exact tokensFrom?_token hblank hread latest

/-- Whether a token is a mark that can follow a value. -/
def Token.IsEnd (token : Token) : Prop :=
  token = .comma ∨ token = .closeBracket ∨ token = .closeBrace

/-- Whether numbers are followed only by marks that can follow a value. -/
def NumbersEnd (tokens : List Token) : Prop :=
  tokens.IsChain fun token next ↦ (∃ number, token = .number number) → next.IsEnd

theorem endsNumber_blanks_append {blanks text : Text} (h : ∀ c ∈ blanks, isBlank c = true)
    (hrest : EndsNumber text) : EndsNumber (blanks ++ text) := by
  cases blanks with
  | nil => exact hrest
  | cons c blanks =>
    intro other rest heq
    cases heq
    have hblank := h c List.mem_cons_self
    simp only [isBlank, Bool.or_eq_true, beq_iff_eq] at hblank
    rcases hblank with ((rfl | rfl) | rfl) | rfl <;> decide

theorem endsNumber_of_isEnd {next : Token} {text : Text} (h : next.SpelledBy text)
    (hnext : next.IsEnd) (rest : Text) : EndsNumber (text ++ rest) := by
  intro c more heq
  rcases hnext with rfl | rfl | rfl <;> cases h <;> cases heq <;> decide

theorem Spells.endsNumber {number : Number} {tokens : List Token} {text : Text}
    (h : Spells tokens text) (hend : NumbersEnd (.number number :: tokens)) : EndsNumber text := by
  cases h with
  | blanks hblanks =>
    rw [← List.append_nil text]
    exact endsNumber_blanks_append hblanks fun _ _ heq ↦ nomatch heq
  | token hblanks htoken hrest =>
    have hnext := (List.isChain_cons_cons.mp hend).1 ⟨number, rfl⟩
    exact endsNumber_blanks_append hblanks (endsNumber_of_isEnd htoken hnext _)

theorem Spells.tokensFrom? {tokens : List Token} {text : Text} (h : Spells tokens text)
    (hend : NumbersEnd tokens) (latest : List Token) :
    tokensFrom? latest text = some (latest.reverse ++ tokens) := by
  induction h generalizing latest with
  | @blanks blanks hblanks =>
    have hread := tokensFrom?_blanks hblanks latest []
    rw [List.append_nil] at hread
    rw [hread, Json.tokensFrom?, List.append_nil]
  | @token blanks text rest token tokens hblanks htoken hrest ih =>
    have hnumber : ∀ number, token = .number number → EndsNumber rest := by
      rintro number rfl
      exact hrest.endsNumber hend
    calc
      Json.tokensFrom? latest (blanks ++ (text ++ rest)) =
          Json.tokensFrom? (token :: latest) rest := by
        rw [tokensFrom?_blanks hblanks, tokensFrom?_of_spelledBy htoken hnumber]
      _ = some ((token :: latest).reverse ++ tokens) := ih (List.isChain_cons.mp hend).2 _
      _ = some (latest.reverse ++ token :: tokens) := by
        rw [List.reverse_cons, List.append_assoc, List.singleton_append]

theorem Spells.tokens? {tokens : List Token} {text : Text} (h : Spells tokens text)
    (hend : NumbersEnd tokens) : tokens? text = some tokens :=
  h.tokensFrom? hend []

end DefCatalog.Json
