import DefCatalog.Json.Basic
import DefCatalog.Number.Decimal

/-!
# Writing JSON

Documents are written with one item or member per line and two blanks of indentation per level. An
empty array or object stays on its line.
-/

namespace DefCatalog.Json

/-- The hexadecimal digit of a number below sixteen, in lower case. -/
def hexChar (n : Nat) : Char :=
  if n < 10 then Decimal.digitChar n else Char.ofNat ('a'.toNat + (n - 10))

/-- A unit as an escape. -/
def unitText (unit : Nat) : Text :=
  ['\\', 'u', hexChar (unit / 0x1000 % 16), hexChar (unit / 0x100 % 16),
    hexChar (unit / 0x10 % 16), hexChar (unit % 16)]

/-- A character of a string. Quotes, backslashes and the characters below the space are escaped,
by a letter where there is one. -/
def charText (c : Char) : Text :=
  if c = '"' then ['\\', '"']
  else if c = '\\' then ['\\', '\\']
  else if c = '\x08' then ['\\', 'b']
  else if c = '\x0c' then ['\\', 'f']
  else if c = '\n' then ['\\', 'n']
  else if c = '\r' then ['\\', 'r']
  else if c = '\t' then ['\\', 't']
  else if c < ' ' then unitText c.toNat
  else [c]

/-- A piece of a string. -/
def pieceText : Piece → Text
  | .char c => charText c
  | .unit unit => unitText unit

def stringText (body : StringBody) : Text :=
  '"' :: (body.flatMap pieceText ++ ['"'])

/-- The number with the given value. -/
def Number.ofNat (n : Nat) : Number :=
  ⟨false, Decimal.digits n, []⟩

/-- The natural number that is written as an integer without a sign. -/
def Number.toNat? (number : Number) : Option Nat :=
  if number.negative = false ∧ number.tail = [] then some (Decimal.value number.whole) else none

def numberText (number : Number) : Text :=
  (if number.negative then ['-'] else []) ++ number.whole ++ number.tail

/-- A new line at the given level. -/
def lineBreak (level : Nat) : Text :=
  '\n' :: List.replicate (2 * level) ' '

mutual

/-- A value whose first line is at the given level. -/
def valueText (level : Nat) : Value → Text
  | .null => "null".toList
  | .bool true => "true".toList
  | .bool false => "false".toList
  | .number number => numberText number
  | .string body => stringText body
  | .array [] => ['[', ']']
  | .array (item :: items) =>
    '[' :: (lineBreak (level + 1) ++ valueText (level + 1) item ++ itemsText (level + 1) items ++
      lineBreak level ++ [']'])
  | .object [] => ['{', '}']
  | .object ((key, value) :: members) =>
    '{' :: (lineBreak (level + 1) ++ stringText key ++ [':', ' '] ++ valueText (level + 1) value ++
      membersText (level + 1) members ++ lineBreak level ++ ['}'])

/-- The items after the first one, each after a comma on a line of its own. -/
def itemsText (level : Nat) : List Value → Text
  | [] => []
  | item :: items =>
    ',' :: (lineBreak level ++ valueText level item ++ itemsText level items)

/-- The members after the first one, each after a comma on a line of its own. -/
def membersText (level : Nat) : List (StringBody × Value) → Text
  | [] => []
  | (key, value) :: members =>
    ',' :: (lineBreak level ++ stringText key ++ [':', ' '] ++ valueText level value ++
      membersText level members)

end

def write (value : Value) : Text :=
  valueText 0 value

end DefCatalog.Json
