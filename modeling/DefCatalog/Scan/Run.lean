import DefCatalog.Cache.File
import DefCatalog.Scan.Worker

/-!
# Scans

A scan finds the folders of documents under an install root, goes through them in order and saves
the catalog. It can be done in one go, cooperatively or by a worker.
-/

namespace DefCatalog

/-- How a scan is carried out. -/
inductive Strategy where
  | sync
  | cooperative
  | worker
deriving DecidableEq, Repr

namespace Strategy

def all : List Strategy := [sync, cooperative, worker]

/-- The word for a strategy. -/
def name : Strategy → String
  | sync => "sync"
  | cooperative => "cooperative"
  | worker => "worker"

def ofName? (word : String) : Option Strategy :=
  all.find? (·.name = word)

/-- The route that a strategy takes through a folder. -/
def route : Strategy → Route
  | sync | worker => .descent
  | cooperative => .tour

end Strategy

/-- The outcome of a scan. -/
structure Scanned where
  catalog : Catalog
  /-- The number of folders. -/
  folders : Nat
  /-- Why the catalog is not in the cache file, if it could not be saved. -/
  saveError : Option CacheSaveError
deriving DecidableEq, Repr

namespace Scan

/-- The folders of documents to be scanned. -/
def prepare (files : FileSystem) (root : Path) : Noted (Except ScanError (List Folder)) :=
  if files.pathExists root then do
    let folders ← Folder.discover files root
    if folders.isEmpty then return .error (.noFolders root)
    else
      Noted.tell [.scanning folders.length root]
      return .ok folders
  else return .error (.rootNotFound root)

/-- Files what is found in the folders from the one after the `finished` first ones. -/
def gatherFrom (files : FileSystem) (matching : Matching) (route : Route) (total finished : Nat)
    (catalog : Catalog) : List Folder → Noted Catalog
  | [] => return catalog
  | folder :: rest => do
    let harvest ← Harvest.reap files matching route folder.path catalog
    Noted.tell
      [.scannedFolder folder.name harvest.files harvest.added,
        .progress ⟨finished + 1, total, folder.name⟩]
    gatherFrom files matching route total (finished + 1) harvest.catalog rest

/-- The catalog of what is found in some folders. -/
def gather (files : FileSystem) (matching : Matching) (strategy : Strategy)
    (folders : List Folder) : Noted (Except ScanError Catalog) :=
  match strategy with
  | .worker => do
    let messages ← WorkerMessage.send files matching folders
    WorkerMessage.receive true ∅ messages
  | _ => do
    let catalog ← gatherFrom files matching strategy.route folders.length 0 ∅ folders
    return .ok catalog

/-- What is told about a finished catalog. -/
def summary (catalog : Catalog) (folders : Nat) : List Notice :=
  catalog.entries.map (fun entry ↦ .kindSize entry.kind entry.names.length) ++
    [.indexed catalog.size catalog.kindCount folders]

/-- Saves a finished catalog, if it is to be kept. -/
def keep (files : FileSystem) (root : Path) (cache : Option CacheFile) (catalog : Catalog) :
    Noted (FileSystem × Option CacheSaveError) :=
  match cache with
  | none => return (files, none)
  | some cache => do
    let (after, error) ← cache.save files root catalog
    Noted.tell (error.toList.map Notice.saveFailed)
    return (after, error)

/-- Scans everything under an install root. The first part of the answer is the file system
afterwards. -/
def run (files : FileSystem) (root : Path) (cache : Option CacheFile) (matching : Matching)
    (strategy : Strategy) : Noted (FileSystem × Except ScanError Scanned) := do
  match ← prepare files root with
  | .error error => return (files, .error error)
  | .ok folders =>
    match ← gather files matching strategy folders with
    | .error error => return (files, .error error)
    | .ok catalog =>
      Noted.tell (summary catalog folders.length)
      let (after, saveError) ← keep files root cache catalog
      return (after, .ok ⟨catalog, folders.length, saveError⟩)

end Scan

end DefCatalog
