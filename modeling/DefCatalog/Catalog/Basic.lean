import DefCatalog.Markup.Kind
import DefCatalog.Text.LowerCase

/-!
# The catalog

A catalog files names under the keys of their kinds. Keys are kept in lower case. Keys, and the
names under a key, stand in the order in which they were first filed, and none stands twice.
-/

namespace DefCatalog

/-- A key with the names filed under it. -/
structure Entry where
  kind : Text
  names : List Text
deriving DecidableEq, Repr

/-- The names of definitions, filed by kind. -/
structure Catalog where
  entries : List Entry := []
deriving DecidableEq, Repr

namespace Catalog

instance : EmptyCollection Catalog where
  emptyCollection := {}

instance : Inhabited Catalog where
  default := ∅

/-- Files a name under a lower-case key. -/
def insertEntry (key name : Text) : List Entry → List Entry
  | [] => [⟨key, [name]⟩]
  | entry :: entries =>
    if entry.kind = key then
      if entry.names.contains name then entry :: entries
      else { entry with names := entry.names ++ [name] } :: entries
    else entry :: insertEntry key name entries

/-- The names under a lower-case key. -/
def namesIn (key : Text) (entries : List Entry) : List Text :=
  match entries.find? (·.kind = key) with
  | some entry => entry.names
  | none => []

/-- Files a name under a key, unless it is there already. -/
def insert (catalog : Catalog) (kind name : Text) : Catalog :=
  ⟨insertEntry (Text.lower kind) name catalog.entries⟩

/-- The names filed under a key, oldest first. -/
def names (catalog : Catalog) (kind : Text) : List Text :=
  namesIn (Text.lower kind) catalog.entries

/-- Whether a name is filed under a key. -/
def contains (catalog : Catalog) (kind name : Text) : Bool :=
  (catalog.names kind).contains name

/-- Whether some name is filed under a key. -/
def hasKind (catalog : Catalog) (kind : Text) : Bool :=
  catalog.entries.any (·.kind = Text.lower kind)

/-- Files definitions one after the other. -/
def insertAll (catalog : Catalog) (definitions : List Definition) : Catalog :=
  definitions.foldl (fun catalog d ↦ catalog.insert d.kind d.name) catalog

/-- The definitions that a list of entries stands for. -/
def definitionsOf (entries : List Entry) : List Definition :=
  entries.flatMap fun entry ↦ entry.names.map fun name ↦ ⟨entry.kind, name⟩

/-- Files all names of some entries, whose keys may repeat and need not be in lower case. -/
def merge (catalog : Catalog) (entries : List Entry) : Catalog :=
  catalog.insertAll (definitionsOf entries)

/-- The catalog of all names of some entries. -/
def ofEntries (entries : List Entry) : Catalog :=
  merge ∅ entries

/-- The number of keys. -/
def kindCount (catalog : Catalog) : Nat :=
  catalog.entries.length

/-- The number of names, over all keys. -/
def size (catalog : Catalog) : Nat :=
  (definitionsOf catalog.entries).length

def isEmpty (catalog : Catalog) : Bool :=
  catalog.entries.isEmpty

/-- The most names that a lookup answers with. -/
def lookupLimit : Nat := 50

/-- The first names under a key, up to the limit, whose lower-case form contains that of the
filter. -/
def lookup (catalog : Catalog) (kind filter : Text) : List Text :=
  ((catalog.names kind).filter fun name ↦
    Text.contains (Text.lower filter) (Text.lower name)).take lookupLimit

end Catalog

end DefCatalog
