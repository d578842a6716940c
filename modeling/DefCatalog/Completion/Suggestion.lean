import DefCatalog.Catalog.Basic
import DefCatalog.Completion.Trigger

/-!
# Suggestions

What an editor offers for the line before the cursor.
-/

namespace DefCatalog

/-- A completion that an editor can offer. -/
structure Suggestion where
  /-- The name to be inserted. -/
  text : Text
  /-- The key of the name's kind, shown beside it. -/
  label : Text
  description : Text
  /-- The part of the line that the name replaces. -/
  replaced : Text
deriving DecidableEq, Repr

namespace Suggestion

/-- The group of completions that names belong to. -/
def group : Text := "constant".toList

/-- The suggestion of a name for a trigger. -/
def ofName (trigger : Trigger) (name : Text) : Suggestion where
  text := name
  label := trigger.kind
  description := trigger.kind ++ ": ".toList ++ name
  replaced := trigger.spelling

end Suggestion

/-- The suggestions for a line: none unless it ends in a trigger for a key of the catalog. -/
def Catalog.suggestions (catalog : Catalog) (line : Text) : List Suggestion :=
  match Trigger.ofLine? line with
  | none => []
  | some trigger =>
    if catalog.hasKind trigger.kind then
      (catalog.lookup trigger.kind trigger.filter).map (Suggestion.ofName trigger)
    else []

end DefCatalog
