import DefCatalog.Cache.Error
import DefCatalog.Cache.Staleness
import DefCatalog.Scan.Encounter
import DefCatalog.Scan.Progress

/-!
# Notices

What the library tells its host while it works. A notice has a level of importance and an area of
the library that it comes from, by which a log is filtered. The progress of a scan is no log entry
and has no level.
-/

namespace DefCatalog

/-- How important a log entry is, the most important level first. -/
inductive Level where
  | error
  | warn
  | info
  | debug
  | trace
deriving DecidableEq, Repr

namespace Level

/-- The position of a level, which is higher for less important ones. -/
def rank : Level → Nat
  | error => 1
  | warn => 2
  | info => 3
  | debug => 4
  | trace => 5

/-- The name of a level. -/
def name : Level → String
  | error => "ERROR"
  | warn => "WARN"
  | info => "INFO"
  | debug => "DEBUG"
  | trace => "TRACE"

end Level

/-- A part of the library, for filtering a log. -/
inductive Area where
  /-- Everything but scanning. -/
  | general
  | scanning
deriving DecidableEq, Repr

namespace Area

/-- The name of an area in filters. -/
def name : Area → String
  | general => "rimcomplete"
  | scanning => "rimcomplete::indexer"

end Area

/-- Something that is told while it happens. -/
inductive Notice where
  | modFolders (count : Nat)
  | modWithoutDefs (name : Text)
  | unreadableFolder (path : Path) (reason : FileError)
  | scanning (count : Nat) (root : Path)
  | skipped (reason : Skip)
  | emptyDocument (path : Path)
  /-- A document cannot be read, as the given area finds. -/
  | unreadDocument (area : Area) (path : Path) (reason : FileError)
  | scannedFolder (name : Text) (files added : Nat)
  | progress (progress : Progress)
  | kindSize (kind : Text) (count : Nat)
  | indexed (definitions kinds folders : Nat)
  | saveFailed (error : CacheSaveError)
  | saved (path : Path)
  | noCache (path : Path)
  | unreadableCache (fault : CacheFault)
  | staleCache (reason : Staleness)
  | loaded (definitions kinds : Nat) (builtAt : Instant)
  | clearFailed (path : Path) (reason : FileError)
  | rootNotConfigured
deriving DecidableEq, Repr

namespace Notice

/-- The level of a log entry. -/
def level? : Notice → Option Level
  | progress _ => none
  | unreadableFolder _ _ | saveFailed _ | unreadableCache _ | clearFailed _ _ => some .warn
  | scanning _ _ | indexed _ _ _ | staleCache _ | loaded _ _ _ | rootNotConfigured => some .info
  | modFolders _ | modWithoutDefs _ | skipped _ | emptyDocument _ | unreadDocument _ _ _
  | scannedFolder _ _ _ | kindSize _ _ | saved _ | noCache _ => some .debug

/-- The area that a notice comes from. -/
def area : Notice → Area
  | emptyDocument _ | saved _ | noCache _ | unreadableCache _ | staleCache _ | loaded _ _ _
  | clearFailed _ _ | rootNotConfigured => .general
  | unreadDocument area _ _ => area
  | modFolders _ | modWithoutDefs _ | unreadableFolder _ _ | scanning _ _ | skipped _
  | scannedFolder _ _ _ | progress _ | kindSize _ _ | indexed _ _ _ | saveFailed _ => .scanning

/-- The text of a notice. -/
def message (wording : Wording) : Notice → String
  | modFolders count => s!"Found {count} total mod folders"
  | modWithoutDefs name => "No Defs found in " ++ String.ofList name
  | unreadableFolder path reason => s!"Failed to read directory {path}: {reason}"
  | scanning count root => s!"Scanning {count} Defs folders under {root}"
  | skipped reason => reason.message
  | emptyDocument path => s!"No definitions found in {path}"
  | unreadDocument _ path reason => s!"Skipping unreadable file {path}: {reason}"
  | scannedFolder name files added =>
    "Scanned " ++ String.ofList name ++ s!": {files} files, {added} new definitions"
  | progress ⟨current, total, name⟩ =>
    s!"Scanned {current}/{total} folders: " ++ String.ofList name
  | kindSize kind count => "  " ++ String.ofList kind ++ s!": {count}"
  | indexed definitions kinds folders =>
    s!"Indexed {definitions} definitions across {kinds} types from {folders} folders"
  | saveFailed error => s!"Failed to write definition cache: {error.failure.message}"
  | saved path => s!"Saved cache to {path}"
  | noCache path => s!"No cache file at {path}"
  | unreadableCache fault => "Ignoring unreadable cache: " ++ (fault.failure wording).message
  | staleCache reason => s!"Cache is stale, rescan needed: {reason.message}"
  | loaded definitions kinds builtAt =>
    s!"Loaded {definitions} definitions across {kinds} types from cache built at " ++
      wording.builtAt builtAt
  | clearFailed path reason => s!"Failed to remove cache file {path}: {reason}"
  | rootNotConfigured => "RimWorld path not configured; no definitions loaded"

end Notice

end DefCatalog
