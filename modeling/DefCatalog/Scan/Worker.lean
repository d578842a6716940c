import DefCatalog.Scan.Error
import DefCatalog.Scan.Folder
import DefCatalog.Scan.Harvest

/-!
# Workers

A worker goes through the folders in the background, each with a catalog of its own, and sends
messages: for each folder the entries that were found and a report on the progress, and at the end
that everything is done. The receiver merges what it gets. It has a catalog only if the worker is
done and has ended well.
-/

namespace DefCatalog

/-- A message of a worker. -/
inductive WorkerMessage where
  | definitions (entries : List Entry)
  | progress (progress : Progress)
  | complete
deriving DecidableEq, Repr

namespace WorkerMessage

/-- The messages about the folders from the one after the `finished` first ones. -/
def sendFrom (files : FileSystem) (matching : Matching) (total finished : Nat) :
    List Folder → Noted (List WorkerMessage)
  | [] => return [complete]
  | folder :: rest => do
    let harvest ← Harvest.reap files matching .descent folder.path ∅
    let later ← sendFrom files matching total (finished + 1) rest
    return definitions harvest.catalog.entries :: progress ⟨finished + 1, total, folder.name⟩ :: later

/-- The messages about some folders. -/
def send (files : FileSystem) (matching : Matching) (folders : List Folder) :
    Noted (List WorkerMessage) :=
  sendFrom files matching folders.length 0 folders

/-- Merges the messages up to the last one into a catalog. -/
def receive (endedWell : Bool) (catalog : Catalog) :
    List WorkerMessage → Noted (Except ScanError Catalog)
  | [] => return .error .workerStopped
  | definitions entries :: rest => receive endedWell (catalog.merge entries) rest
  | progress report :: rest => do
    Noted.tell [.progress report]
    receive endedWell catalog rest
  | complete :: _ => return if endedWell then .ok catalog else .error .workerStopped

end WorkerMessage

end DefCatalog
