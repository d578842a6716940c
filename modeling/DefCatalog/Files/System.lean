import DefCatalog.Files.Error
import DefCatalog.Files.Path
import DefCatalog.Text.Utf8
import DefCatalog.Time.Instant

/-!
# File systems

A file system is a finite table of locations: the root directory and below it directories, files
and symbolic links. A location is the list of names on the way to it from the root, innermost name
first, so the children of a location are the ones with one more name in front.

Names are texts: a name whose bytes are no UTF-8 has no place here. Nothing is said of rights either.
Whoever asks may list, read and change everything, and no device fails, so a path can be refused for
its length, for its links and for what stands on its way only.
-/

namespace DefCatalog

/-- The names on the way from the root directory, innermost first. -/
abbrev Location := List Text

/-- What stands at a location. -/
inductive Content where
  | directory
  | file (bytes : Bytes)
  /-- A symbolic link, which may lead nowhere. -/
  | link (target : Path)
deriving DecidableEq, Repr

/-- What stands at a location, and when it was last changed. -/
structure Node where
  content : Content
  modified : Instant
deriving DecidableEq, Repr

/-- A finite file system with a working directory. -/
structure FileSystem where
  nodes : List (Location × Node)
  /-- Where relative paths begin. -/
  working : Location
  /-- The present time, which goes on files that are written. -/
  now : Instant
deriving DecidableEq, Repr

namespace FileSystem

/-- What stands at a location. -/
def get? (files : FileSystem) (location : Location) : Option Node :=
  (files.nodes.find? (·.1 == location)).map (·.2)

def contentAt? (files : FileSystem) (location : Location) : Option Content :=
  (files.get? location).map Node.content

/-- Whether a directory stands at the location. -/
def isDirectoryAt (files : FileSystem) (location : Location) : Bool :=
  files.contentAt? location == some .directory

/-- The file system with a node at a location, in place of what stood there. -/
def set (files : FileSystem) (location : Location) (node : Node) : FileSystem :=
  { files with nodes := (location, node) :: files.nodes.filter (·.1 != location) }

/-- The file system with a new content at a location, changed now. -/
def setContent (files : FileSystem) (location : Location) (content : Content) : FileSystem :=
  files.set location ⟨content, files.now⟩

/-- The file system without what stands at a location. -/
def erase (files : FileSystem) (location : Location) : FileSystem :=
  { files with nodes := files.nodes.filter (·.1 != location) }

/-- The names of the children of a location, in the order of the table. -/
def childNames (files : FileSystem) (location : Location) : List Text :=
  files.nodes.filterMap fun (place, _) ↦
    match place with
    | [] => none
    | name :: parent => if parent = location then some name else none

/-- The names of the children of a location, sorted. -/
def sortedNames (files : FileSystem) (location : Location) : List Text :=
  (files.childNames location).mergeSort Text.le

def directories (files : FileSystem) : List Location :=
  files.nodes.filterMap fun (place, node) ↦
    if node.content = .directory then some place else none

/-- A file system with nothing in it but the directories on the way to the working directory. -/
def empty (working : Location) (now : Instant) : FileSystem where
  nodes := (List.range (working.length + 1)).map fun depth ↦
    (working.drop depth, ⟨.directory, now⟩)
  working := working
  now := now

@[simp]
theorem get?_set (files : FileSystem) (location : Location) (node : Node) :
    (files.set location node).get? location = some node := by
  simp [get?, set]

theorem get?_set_of_ne (files : FileSystem) {location place : Location} (node : Node)
    (h : place ≠ location) : (files.set location node).get? place = files.get? place := by
  have hhead : ((location, node).1 == place) = false := by simp [Ne.symm h]
  simp only [get?, set, List.find?_cons, hhead, List.find?_filter]
  congr 2
  funext entry
  by_cases hplace : entry.1 = place <;> simp [hplace, h]

@[simp]
theorem get?_erase (files : FileSystem) (location : Location) :
    (files.erase location).get? location = none := by
  simp [get?, erase, List.find?_filter]

theorem get?_erase_of_ne (files : FileSystem) {location place : Location} (h : place ≠ location) :
    (files.erase location).get? place = files.get? place := by
  simp only [get?, erase, List.find?_filter]
  congr 2
  funext entry
  by_cases hplace : entry.1 = place <;> simp [hplace, h]

theorem mem_directories_of_isDirectoryAt {files : FileSystem} {location : Location}
    (h : files.isDirectoryAt location = true) : location ∈ files.directories := by
  simp only [isDirectoryAt, contentAt?, get?, beq_iff_eq, Option.map_map,
    Option.map_eq_some_iff] at h
  obtain ⟨⟨place, node⟩, hfind, hcontent⟩ := h
  have hplace : place = location := by simpa using List.find?_some hfind
  refine List.mem_filterMap.mpr ⟨(place, node), List.mem_of_find?_eq_some hfind, ?_⟩
  simpa [hplace] using hcontent

end FileSystem

end DefCatalog
