import DefCatalog.Files.Display
import DefCatalog.Settings.Locations

/-!
# The environment of a program

Variables with which a user configures the program.
-/

namespace DefCatalog

/-- The variables of an environment, with their values. -/
structure Environment where
  bindings : List (String × Text)
deriving DecidableEq, Repr

namespace Environment

/-- The value of a variable. -/
def get? (environment : Environment) (name : String) : Option Text :=
  environment.bindings.lookup name

/-- The path that a variable holds. -/
def path? (environment : Environment) (name : String) : Option Path :=
  (environment.get? name).map Path.mk

def home (environment : Environment) : Path :=
  (environment.path? "HOME").getD ⟨[]⟩

/-- The default cache file. -/
def cacheFile (environment : Environment) : Path :=
  Locations.cacheFile environment.home (environment.path? "XDG_CACHE_HOME")

/-- The default settings file. -/
def settingsFile (environment : Environment) : Path :=
  Locations.settingsFile environment.home (environment.path? "XDG_CONFIG_HOME")

def logFilter? (environment : Environment) : Option Text :=
  environment.get? "RUST_LOG"

/-- The path as it is shown to the user. -/
def display (environment : Environment) (path : Path) : Text :=
  ((RawPath.ofText path.spelling).shorten (RawPath.ofText environment.home.spelling)).display

end Environment

end DefCatalog
