import DefCatalog.Files.Step
import DefCatalog.Json.Printer
import DefCatalog.Json.Reader
import DefCatalog.Report.Failure
import DefCatalog.Report.Wording

/-!
# Settings

The settings remember the install root between runs. They are kept as a JSON record with the field
`rimworldPath`, which may be missing or null.
-/

namespace DefCatalog

/-- What is remembered between runs. -/
structure Settings where
  installRoot : Option Path := none
deriving DecidableEq, Repr

/-- Why settings cannot be read. -/
inductive SettingsFault where
  | unreadable (path : Path) (reason : FileError)
  /-- The file holds a text that is no record of settings. -/
  | malformed (path : Path)
deriving DecidableEq, Repr

/-- The failure to read settings. -/
def SettingsFault.failure (wording : Wording) : SettingsFault → Failure
  | unreadable path reason => ⟨s!"Failed to read config file: {path}", some reason.message⟩
  | malformed path => ⟨s!"Failed to parse config file: {path}", some wording.malformed⟩

/-- The step at which saving settings failed. -/
structure SettingsSaveError where
  path : Path
  step : FileStep
  reason : FileError
deriving DecidableEq, Repr

/-- The failure to save settings. -/
def SettingsSaveError.failure (error : SettingsSaveError) : Failure where
  headline :=
    match error.step with
    | .ensureDirectory _ => "Failed to create config directory"
    | _ => s!"Failed to write config file: {error.path}"
  cause := some error.reason.message

namespace Settings

def fieldNames : List Text := ["rimworldPath".toList]

def rootValue : Option Path → Json.Value
  | none => .null
  | some path => .ofText path.spelling

def write (settings : Settings) : Text :=
  Json.write
    (.object [(Json.ofText "rimworldPath".toList, rootValue settings.installRoot)])

/-- The settings of a document. -/
def read? (document : Text) : Option Settings := do
  match (← Json.read? document).fields? fieldNames with
  | some [none] => return {}
  | some [some .null] => return {}
  | some [some root] => return { installRoot := some ⟨← root.text?⟩ }
  | _ => none

/-- The settings in a file. A missing file stands for settings that remember nothing. -/
def load (files : FileSystem) (path : Path) : Except SettingsFault Settings :=
  if files.pathExists path then
    match files.readText path with
    | .error reason => .error (.unreadable path reason)
    | .ok document =>
      match read? document with
      | some settings => .ok settings
      | none => .error (.malformed path)
  else .ok {}

/-- The steps that save settings to a file. -/
def saveSteps (settings : Settings) (files : FileSystem) (path : Path) : List FileStep :=
  let directory :=
    match path.parent? with
    | none => []
    | some parent => if parent.spelling = [] then [] else FileStep.makeDirectories files parent
  directory ++ [.write path (Utf8.encode settings.write)]

/-- Saves settings to a file. The first part of the answer is the file system afterwards, also if
saving fails halfway. -/
def save (settings : Settings) (files : FileSystem) (path : Path) :
    FileSystem × Option SettingsSaveError :=
  match FileStep.runAll files (settings.saveSteps files path) with
  | (after, some (step, reason)) => (after, some ⟨path, step, reason⟩)
  | (after, none) => (after, none)

/-- The install root: the given one or else the one in the settings file, which is then not
read. -/
def resolveRoot (files : FileSystem) (given : Option Path) (path : Path) :
    Except SettingsFault (Option Path) :=
  match given with
  | some root => .ok (some root)
  | none =>
    match load files path with
    | .ok settings => .ok settings.installRoot
    | .error fault => .error fault

end Settings

end DefCatalog
