import DefCatalog.Report.LogFilter
import DefCatalog.Report.Noted

/-!
# Output

What a run of the program leaves: an exit code, a text on the standard output, and lines on the
standard error output, some of which are log entries.
-/

namespace DefCatalog

/-- A line on the standard error output. -/
inductive OutputLine where
  | plain (text : String)
  | log (level : Level) (text : String)
deriving DecidableEq, Repr

namespace OutputLine

/-- The level of a log entry in five columns. -/
def levelColumn (level : Level) : String :=
  String.ofList (List.replicate (5 - level.name.length) ' ') ++ level.name

/-- The text of a line. A log entry has a time stamp at its head. -/
def render (stamp : String) : OutputLine → String
  | plain text => text
  | log level text => stamp ++ " " ++ levelColumn level ++ " " ++ text

end OutputLine

/-- How notices become lines. -/
structure Reporter where
  filter : LogFilter
  wording : Wording
  /-- Whether the progress of scans is shown. -/
  showsProgress : Bool

namespace Reporter

/-- The percentage points between two reports on the progress. -/
def progressStep : Nat := 10

/-- The lines for some notices, when the last progress shown was `shown` percent. -/
def linesFrom (reporter : Reporter) (shown : Nat) : List Notice → List OutputLine
  | [] => []
  | notice :: rest =>
    match notice, notice.level? with
    | .progress progress, _ =>
      let percent := progress.percent
      if reporter.showsProgress ∧ shown + progressStep ≤ percent then
        .plain (s!"Generating cache... ({percent}%) " ++ notice.message reporter.wording) ::
          reporter.linesFrom percent rest
      else reporter.linesFrom shown rest
    | _, some level =>
      if reporter.filter.allows level notice.area then
        .log level (notice.message reporter.wording) :: reporter.linesFrom shown rest
      else reporter.linesFrom shown rest
    | _, none => reporter.linesFrom shown rest

/-- The lines for the notices of one computation. -/
def lines {α : Type} (reporter : Reporter) (noted : Noted α) : List OutputLine :=
  reporter.linesFrom 0 noted.notices

end Reporter

/-- What a run of the program leaves. -/
structure Output where
  code : Nat
  out : Text
  err : List OutputLine

namespace Output

/-- A run that succeeds and prints some lines. -/
def success (printed : List Text) (err : List OutputLine) : Output :=
  ⟨0, printed.flatMap (· ++ ['\n']), err⟩

/-- A run that fails after some lines on the standard error output. -/
def failed (failure : Failure) (err : List OutputLine) : Output :=
  ⟨1, [], err ++ [.plain failure.report]⟩

end Output

end DefCatalog
