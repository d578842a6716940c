import DefCatalog.Json.Basic
import DefCatalog.Number.Decimal

/-!
# JSON tokens

A document is first cut into its punctuation marks, words, numbers and strings. Blanks between them
are dropped here, so nothing after this stage has to speak of them.
-/

namespace DefCatalog.Json

/-- A token of a JSON document. -/
inductive Token where
  | openBrace
  | closeBrace
  | openBracket
  | closeBracket
  | comma
  | colon
  | null
  | bool (value : Bool)
  | number (value : Number)
  | string (body : StringBody)
deriving DecidableEq, Repr

/-- The blanks of JSON: space, tab, line feed and carriage return. -/
def isBlank (c : Char) : Bool :=
  c == ' ' || c == '\t' || c == '\n' || c == '\r'

/-- The value of a hexadecimal digit. -/
def hexDigit? (c : Char) : Option Nat :=
  if Decimal.isDigit c then some (Decimal.digitValue c)
  else if 'a' ≤ c ∧ c ≤ 'f' then some (c.toNat - 'a'.toNat + 10)
  else if 'A' ≤ c ∧ c ≤ 'F' then some (c.toNat - 'A'.toNat + 10)
  else none

/-- The unit that four hexadecimal digits stand for. -/
def unit? (a b c d : Char) : Option Nat := do
  return (← hexDigit? a) * 0x1000 + (← hexDigit? b) * 0x100 + (← hexDigit? c) * 0x10 +
    (← hexDigit? d)

/-- The character that a letter or mark after a backslash stands for. -/
def escaped? (c : Char) : Option Char :=
  if c = '"' ∨ c = '\\' ∨ c = '/' then some c
  else if c = 'b' then some '\x08'
  else if c = 'f' then some '\x0c'
  else if c = 'n' then some '\n'
  else if c = 'r' then some '\r'
  else if c = 't' then some '\t'
  else none

/-- Reads a string after its opening quote, given in reverse the pieces so far. Characters below
the space have to be escaped. -/
def stringFrom? (latest : StringBody) : Text → Option (StringBody × Text)
  | [] => none
  | '"' :: rest => some (latest.reverse, rest)
  | '\\' :: 'u' :: a :: b :: c :: d :: rest =>
    match unit? a b c d with
    | some unit => stringFrom? (.unit unit :: latest) rest
    | none => none
  | '\\' :: c :: rest =>
    match escaped? c with
    | some c => stringFrom? (.char c :: latest) rest
    | none => none
  | c :: rest => if c < ' ' ∨ c = '\\' then none else stringFrom? (.char c :: latest) rest

/-- Reads one or more digits. -/
def digits? (text : Text) : Option (Text × Text) :=
  let digits := text.takeWhile Decimal.isDigit
  if digits.isEmpty then none else some (digits, text.dropWhile Decimal.isDigit)

/-- Reads a whole part: a zero alone, or digits that begin with another one. -/
def whole? : Text → Option (Text × Text)
  | [] => none
  | c :: rest => if c = '0' then some (['0'], rest) else digits? (c :: rest)

/-- Reads a fraction, which may be missing. -/
def fraction? : Text → Option (Text × Text)
  | '.' :: rest => (digits? rest).map fun (digits, rest) ↦ ('.' :: digits, rest)
  | text => some ([], text)

/-- Reads an exponent, which may be missing. -/
def exponent? : Text → Option (Text × Text)
  | [] => some ([], [])
  | c :: rest =>
    if c = 'e' ∨ c = 'E' then
      match rest with
      | [] => none
      | sign :: digits =>
        if sign = '+' ∨ sign = '-' then
          (digits? digits).map fun (digits, rest) ↦ (c :: sign :: digits, rest)
        else (digits? rest).map fun (digits, rest) ↦ (c :: digits, rest)
    else some ([], c :: rest)

/-- Reads a number after its sign. -/
def number? (negative : Bool) (text : Text) : Option (Number × Text) := do
  let (whole, rest) ← whole? text
  let (fraction, rest) ← fraction? rest
  let (exponent, rest) ← exponent? rest
  return (⟨negative, whole, fraction ++ exponent⟩, rest)

/-- Reads a token that begins with the given character. -/
def token? (c : Char) (rest : Text) : Option (Token × Text) :=
  match c with
  | '{' => some (.openBrace, rest)
  | '}' => some (.closeBrace, rest)
  | '[' => some (.openBracket, rest)
  | ']' => some (.closeBracket, rest)
  | ',' => some (.comma, rest)
  | ':' => some (.colon, rest)
  | '"' => (stringFrom? [] rest).map fun (body, rest) ↦ (.string body, rest)
  | 'n' => (Text.after? "ull".toList rest).map fun rest ↦ (.null, rest)
  | 't' => (Text.after? "rue".toList rest).map fun rest ↦ (.bool true, rest)
  | 'f' => (Text.after? "alse".toList rest).map fun rest ↦ (.bool false, rest)
  | '-' => (number? true rest).map fun (number, rest) ↦ (.number number, rest)
  | c =>
    if Decimal.isDigit c then
      (number? false (c :: rest)).map fun (number, rest) ↦ (.number number, rest)
    else none

theorem length_dropWhile_le (p : Char → Bool) (text : Text) :
    (text.dropWhile p).length ≤ text.length :=
  (List.dropWhile_suffix p).length_le

theorem length_of_stringFrom? {latest body : StringBody} {text rest : Text}
    (h : stringFrom? latest text = some (body, rest)) : rest.length < text.length := by
  fun_induction stringFrom? latest text <;> simp_all <;> omega

theorem length_of_digits? {text digits rest : Text} (h : digits? text = some (digits, rest)) :
    rest.length < text.length := by
  simp only [digits?] at h
  split at h
  · cases h
  · rename_i hdigits
    cases h
    cases text with
    | nil => simp at hdigits
    | cons c tail =>
      by_cases hc : Decimal.isDigit c = true
      · have := length_dropWhile_le Decimal.isDigit tail
        simp only [List.dropWhile_cons, hc, if_true, List.length_cons]
        omega
      · simp [hc] at hdigits

theorem length_of_whole? {text digits rest : Text} (h : whole? text = some (digits, rest)) :
    rest.length < text.length := by
  unfold whole? at h
  split at h
  · cases h
  · split at h
    · cases h
      simp
    · exact length_of_digits? h

theorem length_of_fraction? {text digits rest : Text} (h : fraction? text = some (digits, rest)) :
    rest.length ≤ text.length := by
  unfold fraction? at h
  split at h
  · obtain ⟨⟨digits, tail⟩, hdigits, hpair⟩ := Option.map_eq_some_iff.mp h
    cases hpair
    have := length_of_digits? hdigits
    simp only [List.length_cons]
    omega
  · cases h
    simp

theorem length_of_exponent? {text digits rest : Text} (h : exponent? text = some (digits, rest)) :
    rest.length ≤ text.length := by
  unfold exponent? at h
  split at h
  · cases h
    simp
  · split at h
    · split at h
      · cases h
      · split at h <;>
        · obtain ⟨⟨digits, tail⟩, hdigits, hpair⟩ := Option.map_eq_some_iff.mp h
          cases hpair
          have := length_of_digits? hdigits
          simp only [List.length_cons] at this ⊢
          omega
    · cases h
      simp

theorem length_of_number? {negative : Bool} {text rest : Text} {number : Number}
    (h : number? negative text = some (number, rest)) : rest.length < text.length := by
  simp only [number?, Option.bind_eq_bind, Option.bind_eq_some_iff, Option.pure_def,
    Option.some.injEq, Prod.mk.injEq] at h
  obtain ⟨⟨_, afterWhole⟩, hwhole, ⟨_, afterFraction⟩, hfraction, ⟨_, _⟩, hexponent, _, rfl⟩ := h
  have hle₁ := length_of_whole? hwhole
  have hle₂ := length_of_fraction? hfraction
  have hle₃ := length_of_exponent? hexponent
  simp only at *
  omega

theorem length_of_token? {c : Char} {text rest : Text} {token : Token}
    (h : token? c text = some (token, rest)) : rest.length ≤ text.length := by
  unfold token? at h
  split at h
  · cases h; simp
  · cases h; simp
  · cases h; simp
  · cases h; simp
  · cases h; simp
  · cases h; simp
  · obtain ⟨⟨_, _⟩, hbody, hpair⟩ := Option.map_eq_some_iff.mp h
    cases hpair
    exact Nat.le_of_lt (length_of_stringFrom? hbody)
  · obtain ⟨_, hafter, hpair⟩ := Option.map_eq_some_iff.mp h
    cases hpair
    rw [← Text.after?_eq_some_iff.mp hafter, List.length_append]
    omega
  · obtain ⟨_, hafter, hpair⟩ := Option.map_eq_some_iff.mp h
    cases hpair
    rw [← Text.after?_eq_some_iff.mp hafter, List.length_append]
    omega
  · obtain ⟨_, hafter, hpair⟩ := Option.map_eq_some_iff.mp h
    cases hpair
    rw [← Text.after?_eq_some_iff.mp hafter, List.length_append]
    omega
  · obtain ⟨⟨_, _⟩, hnumber, hpair⟩ := Option.map_eq_some_iff.mp h
    cases hpair
    exact Nat.le_of_lt (length_of_number? hnumber)
  · split at h
    · obtain ⟨⟨_, _⟩, hnumber, hpair⟩ := Option.map_eq_some_iff.mp h
      cases hpair
      exact Nat.le_of_lt_succ (length_of_number? hnumber)
    · cases h

/-- The tokens of a text, given in reverse those before it. -/
def tokensFrom? (latest : List Token) : Text → Option (List Token)
  | [] => some latest.reverse
  | c :: rest =>
    if isBlank c then tokensFrom? latest rest
    else match _h : token? c rest with
      | some (token, rest) => tokensFrom? (token :: latest) rest
      | none => none
termination_by text => text.length
decreasing_by
  · simp
  · have := length_of_token? _h
    simp only [List.length_cons]
    omega

/-- The tokens of a document, if it consists of tokens and blanks. -/
def tokens? (text : Text) : Option (List Token) :=
  tokensFrom? [] text

end DefCatalog.Json
