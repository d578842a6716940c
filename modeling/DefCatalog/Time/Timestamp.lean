import DefCatalog.Number.Decimal
import DefCatalog.Text.Blank
import DefCatalog.Time.Instant

/-!
# Timestamps

The text form of instants, `2024-05-01T12:00:00.5Z`. Writing uses this form only. Reading also
takes blanks between the fields, fields without their leading zeros, signed years of any length,
and offsets from universal time.
-/

namespace DefCatalog.Timestamp

/-- A year has four digits. Outside the years 0 to 9999 it has a sign and at least four digits. -/
def yearText (year : Int) : Text :=
  if 0 ≤ year ∧ year ≤ 9999 then Decimal.padded 4 year.toNat
  else if 0 ≤ year then '+' :: Decimal.padded 4 year.toNat
  else '-' :: Decimal.padded 4 (-year).toNat

/-- The fraction of a second has no digits, or three, six or nine, as few as are exact. -/
def fractionText (nanoseconds : Nat) : Text :=
  if nanoseconds = 0 then []
  else if nanoseconds % 1000000 = 0 then '.' :: Decimal.padded 3 (nanoseconds / 1000000)
  else if nanoseconds % 1000 = 0 then '.' :: Decimal.padded 6 (nanoseconds / 1000)
  else '.' :: Decimal.padded 9 nanoseconds

/-- The nanoseconds of one second. -/
def second : Nat := 1000000000

/-- The text of an instant in universal time. The zone is written at the end as given. -/
def write (zone : Text) (instant : Instant) : Text :=
  let date := Date.ofDays (instant.seconds / 86400)
  let secondOfDay := (instant.seconds % 86400).toNat
  let leap := if second ≤ instant.nanoseconds then 1 else 0
  yearText date.year ++ '-' :: Decimal.padded 2 date.month ++ '-' :: Decimal.padded 2 date.day ++
    'T' :: Decimal.padded 2 (secondOfDay / 3600) ++
    ':' :: Decimal.padded 2 (secondOfDay / 60 % 60) ++
    ':' :: Decimal.padded 2 (secondOfDay % 60 + leap) ++
    fractionText (instant.nanoseconds - leap * second) ++ zone

/-- The zone of universal time as a letter. -/
def zulu : Text := ['Z']

/-- The zone of universal time as an offset. -/
def zeroOffset : Text := "+00:00".toList

/-- The text without the blanks at its head. -/
def skipBlanks (text : Text) : Text :=
  text.dropWhile Text.isBlank

/-- The text after a given character, with blanks allowed before it. -/
def mark? (c : Char) (text : Text) : Option Text :=
  match skipBlanks text with
  | [] => none
  | d :: rest => if d = c then some rest else none

/-- A number of one or more digits. -/
def anyNumber? (text : Text) : Option (Nat × Text) :=
  let digits := text.takeWhile Decimal.isDigit
  if digits.isEmpty then none
  else some (Decimal.value digits, text.dropWhile Decimal.isDigit)

/-- A number of one up to `width` digits. -/
def number? (width : Nat) (text : Text) : Option (Nat × Text) :=
  let digits := (text.take width).takeWhile Decimal.isDigit
  if digits.isEmpty then none else some (Decimal.value digits, text.drop digits.length)

/-- A number of one or two digits in a given range, with blanks allowed before it. -/
def field? (low high : Nat) (text : Text) : Option (Nat × Text) :=
  match number? 2 (skipBlanks text) with
  | some (n, rest) => if low ≤ n ∧ n ≤ high then some (n, rest) else none
  | none => none

/-- A year: up to four digits, or a sign and any number of them. -/
def year? (text : Text) : Option (Int × Text) :=
  match skipBlanks text with
  | '-' :: rest => (anyNumber? rest).map fun (n, rest) ↦ (-(n : Int), rest)
  | '+' :: rest => (anyNumber? rest).map fun (n, rest) ↦ ((n : Int), rest)
  | text => (number? 4 text).map fun (n, rest) ↦ ((n : Int), rest)

/-- The nanoseconds of a fraction, which may be missing. Digits after the ninth do not count. -/
def fraction? (text : Text) : Option (Nat × Text) :=
  match text with
  | '.' :: rest =>
    let digits := rest.takeWhile Decimal.isDigit
    if digits.isEmpty then none
    else
      let kept := digits.take 9
      some (Decimal.value (kept ++ List.replicate (9 - kept.length) '0'),
        rest.dropWhile Decimal.isDigit)
  | text => some (0, text)

/-- The character between the date and the time. -/
def separator? : Text → Option Text
  | c :: rest => if c = 'T' ∨ c = 't' ∨ c = ' ' then some rest else none
  | [] => none

/-- The seconds of an offset after its sign: two digits for the hours, colons or blanks, and two
digits for the minutes. -/
def offsetValue? : Text → Option (Nat × Text)
  | a :: b :: rest =>
    if Decimal.isDigit a && Decimal.isDigit b then
      match rest.dropWhile fun c ↦ c == ':' || Text.isBlank c with
      | c :: d :: rest =>
        if Decimal.isDigit c && Decimal.isDigit d && Decimal.value [c, d] < 60 then
          some (Decimal.value [a, b] * 3600 + Decimal.value [c, d] * 60, rest)
        else none
      | _ => none
    else none
  | _ => none

/-- The offset from universal time in seconds. -/
def offset? (text : Text) : Option (Int × Text) :=
  let isUtc := (text.take 3).map Char.toUpper == "UTC".toList
  if isUtc then some (0, text.drop 3)
  else match text with
    | [] => none
    | sign :: rest =>
      if sign = 'Z' ∨ sign = 'z' then some (0, rest)
      else if sign = '+' then (offsetValue? rest).map fun (n, rest) ↦ ((n : Int), rest)
      else if sign = '-' ∨ sign = '\u2212' then
        (offsetValue? rest).map fun (n, rest) ↦ (-(n : Int), rest)
      else none

/-- The first and the last year that can be read. -/
def firstYear : Int := -262143

@[inherit_doc firstYear]
def lastYear : Int := 262142

/-- The instant of a local time, if it lies in the years that can be read. -/
def instant? (date : Date) (secondOfDay nanoseconds : Nat) (offset : Int) : Option Instant :=
  let seconds := date.toDays * 86400 + secondOfDay - offset
  let day := seconds / 86400
  if date.IsValid ∧ firstYear ≤ date.year ∧ date.year ≤ lastYear ∧
      Date.toDays ⟨firstYear, 1, 1⟩ ≤ day ∧ day ≤ Date.toDays ⟨lastYear, 12, 31⟩ then
    some ⟨seconds, nanoseconds⟩
  else none

/-- The instant that a timestamp stands for. -/
def read? (text : Text) : Option Instant := do
  let (year, rest) ← year? text
  let rest ← mark? '-' rest
  let (month, rest) ← field? 1 12 rest
  let rest ← mark? '-' rest
  let (day, rest) ← field? 1 31 rest
  let rest ← separator? rest
  let (hour, rest) ← field? 0 23 rest
  let rest ← mark? ':' rest
  let (minute, rest) ← field? 0 59 rest
  let rest ← mark? ':' rest
  let (sec, rest) ← field? 0 60 rest
  let (nanoseconds, rest) ← fraction? rest
  let (offset, rest) ← offset? (skipBlanks rest)
  if skipBlanks rest = [] ∧ -86400 < offset ∧ offset < 86400 then
    if sec = 60 then
      instant? ⟨year, month, day⟩ (hour * 3600 + minute * 60 + 59) (nanoseconds + second) offset
    else
      instant? ⟨year, month, day⟩ (hour * 3600 + minute * 60 + sec) nanoseconds offset
  else none

end DefCatalog.Timestamp
