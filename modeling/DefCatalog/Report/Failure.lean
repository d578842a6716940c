import DefCatalog.Text.Basic

/-!
# Failures

An error as it is shown to a user: what went wrong and, if it is known, the cause.
-/

namespace DefCatalog

/-- What went wrong, and why. -/
structure Failure where
  headline : String
  cause : Option String := none
deriving DecidableEq, Repr

namespace Failure

/-- The failure on one line. -/
def message (failure : Failure) : String :=
  match failure.cause with
  | none => failure.headline
  | some cause => s!"{failure.headline}: {cause}"

/-- The text with four blanks before each of its lines. -/
def indented (text : Text) : Text :=
  ['\n'].intercalate ((Text.splitOn '\n' text).map ("    ".toList ++ ·))

/-- The failure with its cause in a paragraph of its own. -/
def report (failure : Failure) : String :=
  "Error: " ++ failure.headline ++
    match failure.cause with
    | none => ""
    | some cause => "\n\nCaused by:\n" ++ String.ofList (indented cause.toList)

end Failure

end DefCatalog
