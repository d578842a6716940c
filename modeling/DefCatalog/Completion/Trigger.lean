import DefCatalog.Text.LowerCase

/-!
# Triggers

A line that ends in `word*filter` asks for the names of a kind. The word is the key of the kind,
the filter what the names have to contain.
-/

namespace DefCatalog

/-- A request for names at the end of a line. -/
structure Trigger where
  /-- The key that the word stands for, in lower case. -/
  kind : Text
  filter : Text
  /-- The word, the star and the filter as they stand in the line. -/
  spelling : Text
deriving DecidableEq, Repr

namespace Trigger

/-- Whether the character may stand in a word or a filter: an ASCII letter or digit, or `_`. -/
def isWordChar (c : Char) : Bool :=
  c.isAlphanum || c == '_'

/-- The trigger at the end of a line, given in reverse: the filter is the longest block of word
characters at the end, and the word the longest such block before the star. -/
def ofReversed? (line : Text) : Option Trigger :=
  let filter := line.takeWhile isWordChar
  match line.dropWhile isWordChar with
  | '*' :: rest =>
    let word := rest.takeWhile isWordChar
    if word.isEmpty then none
    else some
      { kind := Text.lower word.reverse
        filter := filter.reverse
        spelling := word.reverse ++ '*' :: filter.reverse }
  | _ => none

def ofLine? (line : Text) : Option Trigger :=
  ofReversed? line.reverse

example : (ofLine? "x Thing*st".toList).map Trigger.filter = some "st".toList := by decide

example : ofLine? "thing*st ".toList = none := by decide

end Trigger

end DefCatalog
