import DefCatalog.Cache.Snapshot
import DefCatalog.Files.Resolve

/-!
# Stale snapshots

A snapshot is used only for the root that it was built for, and only as long as the folder of mods
under that root has not been changed since.
-/

namespace DefCatalog

/-- Why a snapshot is not used. -/
inductive Staleness where
  /-- The record has a version from the future. -/
  | unsupportedVersion (version : Nat)
  /-- The snapshot was built for the given root. -/
  | otherRoot (root : Path)
  /-- The folder of mods was changed at the given time, after the snapshot was built. -/
  | modsChanged (modified : Instant)
deriving DecidableEq, Repr

namespace Staleness

/-- The text of a reason. -/
def message : Staleness → String
  | unsupportedVersion version =>
    s!"unsupported cache version {version} (expected {Snapshot.currentVersion})"
  | otherRoot root => s!"cache was built for a different root: {root}"
  | modsChanged modified =>
    let text := String.ofList (Timestamp.write Timestamp.zeroOffset modified)
    s!"Mods directory modified at {text}"

end Staleness

/-- The name of the folder of mods under an install root. -/
def modsName : String := "Mods"

/-- When what a path leads to was last changed. -/
def FileSystem.modified (files : FileSystem) (path : Path) : Except FileError Instant :=
  match files.stat path with
  | .ok node => .ok node.modified
  | .error reason => .error reason

/-- Why the snapshot is not to be used for an install root, if there is a reason. -/
def Snapshot.staleness (snapshot : Snapshot) (files : FileSystem) (root : Path) :
    Option Staleness :=
  if currentVersion < snapshot.version then some (.unsupportedVersion snapshot.version)
  else if ¬snapshot.root.SamePlace root then some (.otherRoot snapshot.root)
  else match files.modified (root / modsName) with
    | .ok modified => if snapshot.builtAt < modified then some (.modsChanged modified) else none
    | .error _ => none

end DefCatalog
