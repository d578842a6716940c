import DefCatalog.Files.Path

/-!
# Default locations

Where the cache and the settings are kept when the user does not say otherwise.
-/

namespace DefCatalog.Locations

/-- The base directory for one kind of file: the one the environment names, provided that it is
absolute, and otherwise a directory in the home directory. -/
def baseDirectory (home : Path) (configured : Option Path) (fallback : String) : Path :=
  match configured with
  | some directory => if directory.isAbsolute then directory else home / fallback
  | none => home / fallback

def cacheFile (home : Path) (cacheHome : Option Path) : Path :=
  baseDirectory home cacheHome ".cache" / "rimcomplete" / "definitions-cache.json"

def settingsFile (home : Path) (configHome : Option Path) : Path :=
  baseDirectory home configHome ".config" / "rimcomplete" / "config.json"

end DefCatalog.Locations
