import DefCatalog.Report.Noted
import DefCatalog.Scan.Descent
import DefCatalog.Scan.Tour

/-!
# Harvests

A folder is gone through by a descent or a tour, and the definitions in the documents that are met
are filed in a catalog.
-/

namespace DefCatalog

/-- How a folder is gone through. -/
inductive Route where
  | descent
  | tour
deriving DecidableEq, Repr

namespace Route

/-- What is met on a route from a path. -/
def encounters (files : FileSystem) (root : Path) : Route → List Encounter
  | descent => files.descent root
  | tour => files.tour root

/-- What is told about an encounter in which the given definitions are found. A document without
definitions is worth a notice on a descent only. -/
def notices (found : List Definition) : Route → Encounter → List Notice
  | descent, .document path _ => if found.isEmpty then [.emptyDocument path] else []
  | tour, .document _ _ => []
  | descent, .unread path reason => [.unreadDocument .general path reason]
  | tour, .unread path reason => [.unreadDocument .scanning path reason]
  | _, .skipped reason => [.skipped reason]

end Route

/-- A catalog after a folder has been gone through. -/
structure Harvest where
  catalog : Catalog
  /-- The number of documents that were met. -/
  files : Nat
  /-- The number of names that were new to the catalog. -/
  added : Nat
deriving DecidableEq, Repr

namespace Harvest

/-- Files what is found in encounters. -/
def ofEncounters (matching : Matching) (route : Route) (catalog : Catalog)
    (encounters : List Encounter) : Noted Harvest :=
  let found := encounters.map fun encounter ↦ (encounter, encounter.definitions matching)
  let after := catalog.insertAll (found.flatMap Prod.snd)
  { value :=
      { catalog := after
        files := encounters.countP Encounter.isCounted
        added := after.size - catalog.size }
    notices := found.flatMap fun (encounter, definitions) ↦ route.notices definitions encounter }

/-- Files what is found on a route from a path. -/
def reap (files : FileSystem) (matching : Matching) (route : Route) (root : Path)
    (catalog : Catalog) : Noted Harvest :=
  ofEncounters matching route catalog (route.encounters files root)

end Harvest

end DefCatalog
