import DefCatalog.Catalog.Basic
import DefCatalog.Files.Path
import DefCatalog.Json.Printer
import DefCatalog.Json.Reader
import DefCatalog.Time.Timestamp

/-!
# Snapshots

A snapshot is a catalog as it is kept between runs, with the install root that it was built for and
the time when it was built. It is written as a JSON record with the fields `version`, `sourceRoot`,
`builtAt` and `index`.
-/

namespace DefCatalog

/-- A catalog as it is kept between runs. -/
structure Snapshot where
  /-- The version of the record. -/
  version : Nat
  /-- The install root that the catalog was built for. -/
  root : Path
  builtAt : Instant
  /-- The entries as they are listed, which need not be those of a catalog. -/
  entries : List Entry
deriving DecidableEq, Repr

namespace Snapshot

/-- The version that is written, and the highest one that is used. -/
def currentVersion : Nat := 1

/-- The version of a record that does not name one. -/
def defaultVersion : Nat := 1

def ofCatalog (root : Path) (builtAt : Instant) (catalog : Catalog) : Snapshot :=
  ⟨currentVersion, root, builtAt, catalog.entries⟩

def toCatalog (snapshot : Snapshot) : Catalog :=
  Catalog.ofEntries snapshot.entries

def fieldNames : List Text :=
  ["version".toList, "sourceRoot".toList, "builtAt".toList, "index".toList]

/-- The value of an entry: a pair of its key and the list of its names. -/
def entryValue (entry : Entry) : Json.Value :=
  .array [.ofText entry.kind, .array (entry.names.map .ofText)]

/-- The value of a snapshot. -/
def toValue (snapshot : Snapshot) : Json.Value :=
  .object
    [(Json.ofText "version".toList, .number (.ofNat snapshot.version)),
      (Json.ofText "sourceRoot".toList, .ofText snapshot.root.spelling),
      (Json.ofText "builtAt".toList, .ofText (Timestamp.write Timestamp.zulu snapshot.builtAt)),
      (Json.ofText "index".toList, .array (snapshot.entries.map entryValue))]

def write (snapshot : Snapshot) : Text :=
  Json.write snapshot.toValue

/-- The first number that is too large for a version. Versions have 32 bits. -/
def versionBound : Nat := 4294967296

/-- The version that a value stands for. -/
def version? : Option Json.Value → Option Nat
  | none => some defaultVersion
  | some (.number number) =>
    match number.toNat? with
    | some version => if version < versionBound then some version else none
    | none => none
  | some _ => none

/-- The entry that a value stands for. -/
def entry? : Json.Value → Option Entry
  | .array [kind, names] => do
    let kind ← kind.text?
    let names ← names.items?
    return ⟨kind, ← names.mapM Json.Value.text?⟩
  | _ => none

/-- The snapshot that a value stands for. -/
def ofValue? (value : Json.Value) : Option Snapshot :=
  match value.fields? fieldNames with
  | some [version, some root, some builtAt, some entries] => do
    let version ← version? version
    let root ← root.text?
    let builtAt ← Timestamp.read? (← builtAt.text?)
    let entries ← (← entries.items?).mapM entry?
    return ⟨version, ⟨root⟩, builtAt, entries⟩
  | _ => none

def read? (document : Text) : Option Snapshot := do
  ofValue? (← Json.read? document)

end Snapshot

end DefCatalog
