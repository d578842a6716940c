import DefCatalog.Files.Step
import DefCatalog.Report.Failure
import DefCatalog.Report.Wording

/-!
# Cache errors

Why a cache file cannot be read or written.
-/

namespace DefCatalog

/-- Why a cache file yields no snapshot. -/
inductive CacheFault where
  | unreadable (path : Path) (reason : FileError)
  /-- The file holds a text that is no record of a snapshot. -/
  | malformed
deriving DecidableEq, Repr

/-- The failure to read a cache file. -/
def CacheFault.failure (wording : Wording) : CacheFault → Failure
  | unreadable path reason => ⟨s!"Failed to read cache file: {path}", some reason.message⟩
  | malformed => ⟨"Failed to parse cache JSON", some wording.malformed⟩

/-- The step at which saving a cache failed. -/
structure CacheSaveError where
  step : FileStep
  reason : FileError
deriving DecidableEq, Repr

/-- The failure to save a cache. -/
def CacheSaveError.failure (error : CacheSaveError) : Failure where
  headline :=
    match error.step with
    | .ensureDirectory _ => "Failed to create cache directory"
    | .write _ _ => "Failed to write cache temp file"
    | .rename _ _ => "Failed to rename cache temp file"
  cause := some error.reason.message

end DefCatalog
