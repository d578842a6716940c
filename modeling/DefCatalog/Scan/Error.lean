import DefCatalog.Files.Path

/-!
# Scan errors

Why a scan yields no catalog.
-/

namespace DefCatalog

/-- Why a scan yields no catalog. -/
inductive ScanError where
  | rootNotConfigured
  | rootNotFound (root : Path)
  /-- No folder of documents lies under the root. -/
  | noFolders (root : Path)
  /-- The worker stopped before it had sent everything. -/
  | workerStopped
deriving DecidableEq, Repr

namespace ScanError

/-- The text of an error. -/
def message : ScanError → String
  | rootNotConfigured =>
    "RimWorld path is not configured (use --root, RIMWORLD_PATH, or \x60set-root\x60)"
  | rootNotFound root => s!"RimWorld path does not exist: {root}"
  | noFolders root =>
    s!"No Defs folders found under {root} (expected Data/*/Defs or Mods/*/Defs)"
  | workerStopped => "Background scan failed: worker stopped before finishing"

end ScanError

end DefCatalog
