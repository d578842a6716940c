import DefCatalog.Catalog.Basic
import Std.Data.HashMap
import Std.Data.HashSet

/-!
# Registers

A register is a catalog with an index to it: a table says where the shelf of a key stands, and each
shelf knows the names on it, so that no list is looked through when a name is filed. The index never
disagrees with the shelves. Filing tells whether a name was new, and filing several names tells how
many of them were.
-/

namespace DefCatalog

/-- Texts are hashed as strings. -/
instance : Hashable Text where
  hash text := hash (String.ofList text)

/-- The names under a key, oldest first, and the set of them. -/
structure Shelf where
  kind : Text
  names : Array Text
  seen : Std.HashSet Text
  mem_seen : ∀ name, name ∈ seen ↔ name ∈ names

namespace Shelf

/-- A shelf with no names on it yet. -/
def empty (kind : Text) : Shelf where
  kind := kind
  names := #[]
  seen := ∅
  mem_seen name := by simp

/-- The shelf with one more name at its end. -/
def push (shelf : Shelf) (name : Text) : Shelf where
  kind := shelf.kind
  names := shelf.names.push name
  seen := shelf.seen.insert name
  mem_seen other := by
    rw [Std.HashSet.mem_insert, shelf.mem_seen, Array.mem_push, beq_iff_eq, eq_comm, or_comm]

/-- The key and the names of a shelf. -/
def entry (shelf : Shelf) : Entry :=
  ⟨shelf.kind, shelf.names.toList⟩

@[simp]
theorem kind_empty (kind : Text) : (empty kind).kind = kind := rfl

@[simp]
theorem kind_push (shelf : Shelf) (name : Text) : (shelf.push name).kind = shelf.kind := rfl

end Shelf

/-- A catalog with an index to it. -/
structure Register where
  shelves : Array Shelf
  /-- Where the shelf of each key stands. -/
  places : Std.HashMap Text Nat
  places_iff : ∀ key place, places[key]? = some place ↔ shelves[place]?.map Shelf.kind = some key

namespace Register

variable {register : Register} {key : Text} {place : Nat}

/-- The register in which nothing is filed. -/
def empty : Register where
  shelves := #[]
  places := ∅
  places_iff key place := by simp

instance : EmptyCollection Register where
  emptyCollection := empty

instance : Inhabited Register where
  default := ∅

theorem lt_size_of_places (h : register.places[key]? = some place) :
    place < register.shelves.size := by
  have hkind := (register.places_iff key place).mp h
  rw [Option.map_eq_some_iff] at hkind
  obtain ⟨shelf, hshelf, _⟩ := hkind
  exact (Array.getElem?_eq_some_iff.mp hshelf).1

/-- The register with an empty shelf at the end, for a key that has none. -/
def addShelf (register : Register) (key : Text) (hnew : register.places[key]? = none) :
    Register where
  shelves := register.shelves.push (.empty key)
  places := register.places.insert key register.shelves.size
  places_iff other place := by
    have hold := register.places_iff
    rw [Std.HashMap.getElem?_insert, Array.getElem?_push]
    by_cases hother : key = other
    · subst hother
      have hnone : register.shelves[place]?.map Shelf.kind ≠ some key := by
        rw [Ne, ← hold, hnew]
        simp
      by_cases hplace : place = register.shelves.size
      · simp [hplace]
      · simp [hplace, hnone, Ne.symm hplace]
    · by_cases hplace : place = register.shelves.size
      · have hnone : register.places[other]? ≠ some register.shelves.size := by
          rw [Ne, hold]
          simp
        simp [hplace, hother, hnone]
      · simp [hplace, hother, hold]

/-- The register with one more name on the shelf at a place. -/
def pushName (register : Register) (place : Nat) (hplace : place < register.shelves.size)
    (name : Text) : Register where
  shelves := register.shelves.set place (register.shelves[place].push name)
  places := register.places
  places_iff key other := by
    rw [register.places_iff, Array.getElem?_set]
    by_cases hother : place = other
    · subst hother
      simp [Array.getElem?_eq_getElem hplace]
    · simp [hother]

/-- Files a name on the shelf at a place, unless it is there already, and tells whether it was
new. -/
def fileAt (register : Register) (place : Nat) (hplace : place < register.shelves.size)
    (name : Text) : Register × Bool :=
  if name ∈ register.shelves[place].seen then (register, false)
  else (register.pushName place hplace name, true)

/-- Files a name under a key, unless it is there already, and tells whether it was new. -/
def insert (register : Register) (kind name : Text) : Register × Bool :=
  let key := Text.lower kind
  match hplace : register.places[key]? with
  | some place => register.fileAt place (lt_size_of_places hplace) name
  | none =>
    (register.addShelf key hplace).fileAt register.shelves.size (by simp [addShelf]) name

/-- Files definitions one after the other, and tells how many of them were new. -/
def insertAll (register : Register) : List Definition → Register × Nat
  | [] => (register, 0)
  | d :: definitions =>
    let (next, isNew) := register.insert d.kind d.name
    let (last, count) := next.insertAll definitions
    (last, if isNew then count + 1 else count)

/-- Files all names of some entries, whose keys may repeat and need not be in lower case, and tells
how many of them were new. -/
def merge (register : Register) (entries : List Entry) : Register × Nat :=
  register.insertAll (Catalog.definitionsOf entries)

/-- The register of all names of some entries. -/
def ofEntries (entries : List Entry) : Register :=
  (merge ∅ entries).1

/-- The keys with their names, oldest first. -/
def entries (register : Register) : List Entry :=
  register.shelves.toList.map Shelf.entry

def toCatalog (register : Register) : Catalog :=
  ⟨register.entries⟩

/-- The names filed under a key, oldest first. -/
def names (register : Register) (kind : Text) : List Text :=
  match hplace : register.places[Text.lower kind]? with
  | some place =>
    have hlt := lt_size_of_places hplace
    register.shelves[place].names.toList
  | none => []

/-- Whether some name is filed under a key. -/
def hasKind (register : Register) (kind : Text) : Bool :=
  register.places.contains (Text.lower kind)

def kindCount (register : Register) : Nat :=
  register.shelves.size

def size (register : Register) : Nat :=
  register.shelves.foldl (fun total shelf ↦ total + shelf.names.size) 0

def isEmpty (register : Register) : Bool :=
  register.shelves.isEmpty

/-- Registers are compared by their keys and names, and by the order of these. -/
instance : BEq Register where
  beq a b := a.entries == b.entries

end Register

end DefCatalog
