import DefCatalog.Report.Notice

/-!
# Log filters

A filter is a list of rules that cap the level of the log entries of some areas, written
`area=level` and separated by commas. An area covers all areas whose names begin with its name. The
rule with the longest name decides, and among equal names the last rule. Where no rule applies,
nothing is logged.
-/

namespace DefCatalog

/-- A rule of a log filter. -/
structure LogRule where
  /-- The beginning of the names of the areas. -/
  area : Text
  /-- The rank of the least important level that is logged. -/
  limit : Nat
deriving DecidableEq, Repr

/-- The rules for a log. -/
structure LogFilter where
  rules : List LogRule
deriving DecidableEq, Repr

namespace LogFilter

/-- The words for limits, in lower case, with their ranks. -/
def limitWords : List (String × Nat) :=
  [("off", 0), ("error", 1), ("warn", 2), ("info", 3), ("debug", 4), ("trace", 5),
    ("0", 0), ("1", 1), ("2", 2), ("3", 3), ("4", 4), ("5", 5)]

/-- The limit that a word stands for, in any mix of cases. -/
def limit? (word : Text) : Option Nat :=
  (limitWords.find? fun (name, _) ↦ name.toList = word.map Char.toLower).map Prod.snd

/-- The rule that a word stands for. A lone level is a rule for all areas, and a lone area is logged
completely. -/
def rule? (word : Text) : Option LogRule :=
  match limit? word, Text.splitOn '=' word with
  | some limit, _ => some ⟨[], limit⟩
  | none, [area] => some ⟨area, Level.trace.rank⟩
  | none, [area, []] => some ⟨area, Level.trace.rank⟩
  | none, [area, word] => (limit? word).map fun limit ↦ ⟨area, limit⟩
  | none, _ => none

/-- The filter that a text stands for. An empty one lets errors pass. -/
def ofText? (text : Text) : Option LogFilter :=
  match (Text.splitOn ',' text).filter (· ≠ []) with
  | [] => some ⟨[⟨[], Level.error.rank⟩]⟩
  | words => (words.mapM rule?).map LogFilter.mk

/-- The filter that is used when none is configured. -/
def fallback (verbose : Bool) : LogFilter :=
  if verbose then ⟨[⟨Area.general.name.toList, Level.debug.rank⟩]⟩
  else ⟨[⟨[], Level.warn.rank⟩]⟩

/-- The filter of a program: the configured one if it can be read. -/
def choose (configured : Option Text) (verbose : Bool) : LogFilter :=
  ((configured.bind ofText?).getD (fallback verbose))

/-- The more specific one of two rules; of equally specific ones the later one. -/
def narrower (earlier later : LogRule) : LogRule :=
  if earlier.area.length ≤ later.area.length then later else earlier

/-- The limit for an area. -/
def limitFor (filter : LogFilter) (area : Area) : Nat :=
  match filter.rules.filter (·.area.isPrefixOf area.name.toList) with
  | [] => 0
  | rule :: rules => (rules.foldl narrower rule).limit

/-- Whether an entry of the given level and area is logged. -/
def allows (filter : LogFilter) (level : Level) (area : Area) : Bool :=
  level.rank ≤ filter.limitFor area

example : (ofText? "rimcomplete=debug".toList).map (·.allows .debug .scanning) = some true := by
  decide

example : (ofText? "".toList).map (·.allows .warn .general) = some false := by decide

end LogFilter

end DefCatalog
