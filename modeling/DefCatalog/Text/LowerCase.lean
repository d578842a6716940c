import DefCatalog.Text.CaseTable

/-!
# Lower case

Names and filters are compared in lower case. The mapping is Unicode's for whole texts: a capital
`İ` becomes two characters, and a capital sigma becomes `ς` at the end of a word and `σ` elsewhere.
-/

namespace DefCatalog.Text

/-- Whether a code point lies in one of the closed ranges. -/
def inRanges (ranges : List (Nat × Nat)) (code : Nat) : Bool :=
  ranges.any fun (first, last) ↦ first ≤ code && code ≤ last

/-- Whether the character has case. -/
def isCased (c : Char) : Bool :=
  inRanges casedRanges c.toNat

/-- Whether the character is passed over in the search for neighbours with case. -/
def isCaseIgnorable (c : Char) : Bool :=
  inRanges caseIgnorableRanges c.toNat

/-- The lower-case form of a character outside its context. -/
def lowerChar (c : Char) : Text :=
  if c.toNat < 0x80 then [c.toLower]
  else if c = 'İ' then ['i', '\u0307']
  else match caseRuns.findSome? (·.lower? c.toNat) with
    | some code => [Char.ofNat code]
    | none => [c]

/-- Whether the first character that casing does not ignore has case. -/
def meetsCased (text : Text) : Bool :=
  match text.dropWhile isCaseIgnorable with
  | [] => false
  | c :: _ => isCased c

/-- The lower-case form of a sigma between the given texts, the one before it in reverse. It ends a
word when a character with case comes before it and none follows. -/
def lowerSigma (before after : Text) : Char :=
  if meetsCased before && !meetsCased after then 'ς' else 'σ'

/-- The lower-case form of the rest of a text, given in reverse what comes before it. -/
def lowerFrom (before : Text) : Text → Text
  | [] => []
  | c :: rest =>
    if c = 'Σ' then lowerSigma before rest :: lowerFrom (c :: before) rest
    else lowerChar c ++ lowerFrom (c :: before) rest

def lower (text : Text) : Text :=
  lowerFrom [] text

example : lower "ΟΔΟΣ ΣΑΣ.".toList = "οδος σας.".toList := by decide +kernel

example : lower "aİB".toList = "ai̇b".toList := by decide +kernel

end DefCatalog.Text
