import DefCatalog.Report.Noted

/-!
# Cache files

A cache file keeps the snapshot of one catalog. It is written to a file beside it, which then takes
its place.
-/

namespace DefCatalog

/-- A file that keeps a snapshot. -/
structure CacheFile where
  path : Path
deriving DecidableEq, Repr

namespace CacheFile

def isPresent (cache : CacheFile) (files : FileSystem) : Bool :=
  files.isFile cache.path

/-- The snapshot in the file. -/
def read (cache : CacheFile) (files : FileSystem) : Except CacheFault Snapshot :=
  match files.readText cache.path with
  | .error reason => .error (.unreadable cache.path reason)
  | .ok document =>
    match Snapshot.read? document with
    | some snapshot => .ok snapshot
    | none => .error .malformed

/-- The catalog in the file, if it may be used for the install root. -/
def load (cache : CacheFile) (files : FileSystem) (root : Path) : Noted (Option Catalog) :=
  if files.pathExists cache.path then
    match cache.read files with
    | .error fault => ⟨none, [.unreadableCache fault]⟩
    | .ok snapshot =>
      match snapshot.staleness files root with
      | some reason => ⟨none, [.staleCache reason]⟩
      | none =>
        let catalog := snapshot.toCatalog
        ⟨some catalog, [.loaded catalog.size catalog.kindCount snapshot.builtAt]⟩
  else ⟨none, [.noCache cache.path]⟩

/-- The file that is written first: its name is that of the cache with `.tmp` after it. -/
def draft (cache : CacheFile) : Path :=
  cache.path.withFileName (cache.path.fileName?.getD [] ++ ".tmp".toList)

/-- The steps that make the directory of the cache, if it is missing. -/
def directorySteps (cache : CacheFile) (files : FileSystem) : List FileStep :=
  match cache.path.parent? with
  | none => []
  | some parent =>
    if parent.spelling = [] ∨ files.pathExists parent then []
    else FileStep.makeDirectories files parent

def saveSteps (cache : CacheFile) (files : FileSystem) (snapshot : Snapshot) : List FileStep :=
  cache.directorySteps files ++
    [.write cache.draft (Utf8.encode snapshot.write), .rename cache.draft cache.path]

/-- Saves a catalog for an install root, stamped with the present time. The first part of the answer
is the file system afterwards, also if saving fails halfway. -/
def save (cache : CacheFile) (files : FileSystem) (root : Path) (catalog : Catalog) :
    Noted (FileSystem × Option CacheSaveError) :=
  let snapshot := Snapshot.ofCatalog root files.now catalog
  match FileStep.runAll files (cache.saveSteps files snapshot) with
  | (after, some (step, reason)) => ⟨(after, some ⟨step, reason⟩), []⟩
  | (after, none) => ⟨(after, none), [.saved cache.path]⟩

/-- Removes the file. The answer says whether there was one that could be removed. -/
def clear (cache : CacheFile) (files : FileSystem) : Noted (FileSystem × Bool) :=
  match files.removeFile cache.path with
  | .ok after => ⟨(after, true), []⟩
  | .error .notFound => ⟨(files, false), []⟩
  | .error reason => ⟨(files, false), [.clearFailed cache.path reason]⟩

end CacheFile

end DefCatalog
