import DefCatalog.Completion.Suggestion
import DefCatalog.Scan.Run

/-!
# Providers

A provider holds the definitions that an editor completes from. It takes them from the cache file or
from a scan, and puts a new catalog in place of the old one only when it is complete.
-/

namespace DefCatalog

/-- A source of completions, with what it is configured with. -/
structure Provider where
  installRoot : Option Path
  cache : CacheFile
  strategy : Strategy := .sync
  matching : Matching := .loose
  definitions : Catalog := ∅
deriving DecidableEq, Repr

/-- What a scan tells whoever asked for it. -/
structure ScanSummary where
  folders : Nat
  saveError : Option CacheSaveError
deriving DecidableEq, Repr

/-- Where definitions were taken from. -/
inductive LoadSource where
  | cache
  | scan (folders : Nat)
  | notConfigured
deriving DecidableEq, Repr

/-- The answer of a provider, with the provider and the file system afterwards. -/
structure Reply (α : Type) where
  answer : α
  provider : Provider
  files : FileSystem

namespace Provider

/-- Scans with the given strategy and takes over the catalog. If the scan fails, the definitions
stay as they are. -/
def generateBy (strategy : Strategy) (provider : Provider) (files : FileSystem) :
    Noted (Reply (Except ScanError ScanSummary)) :=
  match provider.installRoot with
  | none => return ⟨.error .rootNotConfigured, provider, files⟩
  | some root => do
    let (after, outcome) ← Scan.run files root (some provider.cache) provider.matching strategy
    match outcome with
    | .error error => return ⟨.error error, provider, after⟩
    | .ok scanned =>
      let summary : ScanSummary := ⟨scanned.folders, scanned.saveError⟩
      return ⟨.ok summary, { provider with definitions := scanned.catalog }, after⟩

/-- Scans with the configured strategy and takes over the catalog. -/
def generate (provider : Provider) (files : FileSystem) :
    Noted (Reply (Except ScanError ScanSummary)) :=
  provider.generateBy provider.strategy files

/-- Takes over the catalog of the cache file or, if there is none to be used, of a scan. -/
def load (provider : Provider) (files : FileSystem) :
    Noted (Reply (Except ScanError LoadSource)) :=
  match provider.installRoot with
  | none => do
    Noted.tell [.rootNotConfigured]
    return ⟨.ok .notConfigured, provider, files⟩
  | some root => do
    match ← provider.cache.load files root with
    | some catalog => return ⟨.ok .cache, { provider with definitions := catalog }, files⟩
    | none =>
      let reply ← provider.generate files
      match reply.answer with
      | .error error => return ⟨.error error, reply.provider, reply.files⟩
      | .ok summary => return ⟨.ok (.scan summary.folders), reply.provider, reply.files⟩

def clearCache (provider : Provider) (files : FileSystem) : Noted (Reply Bool) := do
  let (after, removed) ← provider.cache.clear files
  return ⟨removed, provider, after⟩

/-- The provider without its definitions. -/
def dispose (provider : Provider) : Provider :=
  { provider with definitions := ∅ }

/-- Forgets the definitions and the cache file and scans anew. -/
def reload (provider : Provider) (files : FileSystem) :
    Noted (Reply (Except ScanError ScanSummary)) := do
  let cleared ← provider.dispose.clearCache files
  cleared.provider.generate cleared.files

def suggestions (provider : Provider) (line : Text) : List Suggestion :=
  provider.definitions.suggestions line

end Provider

end DefCatalog
