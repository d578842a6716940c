import DefCatalog.Text.Basic

/-!
# JSON values

A value as it is written in a document. Strings keep their `\u` escapes as 16-bit units, because a
string that is skipped may hold units that make up no character, and numbers keep their spelling.
-/

namespace DefCatalog.Json

/-- A piece of a string: a character, or a unit written as `\u` with four digits. -/
inductive Piece where
  | char (c : Char)
  | unit (value : Nat)
deriving DecidableEq, Repr

/-- The content of a string. -/
abbrev StringBody := List Piece

/-- A number: its sign, its whole part, and the spelling of its fraction and exponent. -/
structure Number where
  negative : Bool
  whole : Text
  tail : Text
deriving DecidableEq, Repr

/-- A JSON value. The members of an object keep their order and may repeat a name. -/
inductive Value where
  | null
  | bool (value : Bool)
  | number (value : Number)
  | string (body : StringBody)
  | array (items : List Value)
  | object (members : List (StringBody × Value))

/-- Whether the unit is the first of a pair. -/
def isHighUnit (unit : Nat) : Bool :=
  0xD800 ≤ unit && unit ≤ 0xDBFF

/-- Whether the unit is the second of a pair. -/
def isLowUnit (unit : Nat) : Bool :=
  0xDC00 ≤ unit && unit ≤ 0xDFFF

/-- The character of a pair of units. -/
def pairChar (high low : Nat) : Char :=
  Char.ofNat (0x10000 + (high - 0xD800) * 0x400 + (low - 0xDC00))

/-- The text of a string, if every unit outside a pair stands for a character. -/
def textOf? : StringBody → Option Text
  | [] => some []
  | .char c :: rest => (textOf? rest).map (c :: ·)
  | .unit high :: .unit low :: rest =>
    if isHighUnit high && isLowUnit low then (textOf? rest).map (pairChar high low :: ·)
    else if isHighUnit high || isLowUnit high then none
    else (textOf? (.unit low :: rest)).map (Char.ofNat high :: ·)
  | .unit unit :: rest =>
    if isHighUnit unit || isLowUnit unit then none
    else (textOf? rest).map (Char.ofNat unit :: ·)

def ofText (text : Text) : StringBody :=
  text.map Piece.char

@[simp]
theorem textOf?_ofText (text : Text) : textOf? (ofText text) = some text := by
  induction text with
  | nil => rfl
  | cons c rest ih => simpa [ofText, textOf?] using ih

namespace Value

def text? : Value → Option Text
  | string body => textOf? body
  | _ => none

def items? : Value → Option (List Value)
  | array items => some items
  | _ => none

def ofText (text : Text) : Value :=
  string (Json.ofText text)

/-- The fields of a record, in the order of their names. A record is an object, in which other
members are passed over and none of the names may repeat, or an array that begins with the fields
in their order and holds nothing else. -/
def fields? (names : List Text) : Value → Option (List (Option Value))
  | array items =>
    if items.length ≤ names.length then
      some (items.map some ++ List.replicate (names.length - items.length) none)
    else none
  | object members => do
    let keyed ← members.mapM fun (key, value) ↦ (textOf? key).map fun key ↦ (key, value)
    if names.all fun name ↦ (keyed.filter (·.1 = name)).length ≤ 1 then
      some (names.map fun name ↦ List.lookup name keyed)
    else none
  | _ => none

end Value

end DefCatalog.Json
