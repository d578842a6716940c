import DefCatalog.Report.Noted

/-!
# Folders of documents

Under an install root, documents lie in folders named `Defs`: in the folders of `Data`, in the mods
of `Mods`, and in the folders of a mod that stand for versions of the game.
-/

namespace DefCatalog

/-- A folder of documents, with the name that it is reported under. -/
structure Folder where
  path : Path
  name : Text
deriving DecidableEq, Repr

namespace Folder

/-- The name of the folder of the game's own data. -/
def dataName : String := "Data"

/-- The name of a folder of documents. -/
def documentsName : String := "Defs"

/-- The folders in the directory at a path, sorted by the names that they are reported under. -/
def subfolders (files : FileSystem) (path : Path) : Noted (List Folder) :=
  match files.locateDirectory path with
  | .error reason => do
    Noted.tell [.unreadableFolder path reason]
    return []
  | .ok location =>
    let folders := (files.childNames location).map fun name ↦ (⟨path.join ⟨name⟩, name⟩ : Folder)
    return Text.sortOn Folder.name (folders.filter fun folder ↦ files.isDirectory folder.path)

/-- The folder of documents in a folder, if there is one. -/
def documents? (files : FileSystem) (folder : Folder) : Option Folder :=
  let path := folder.path / documentsName
  if files.isDirectory path then some ⟨path, folder.name⟩ else none

/-- The folder under a name that begins with that of a folder around it. -/
def within (outer : Text) (folder : Folder) : Folder :=
  { folder with name := outer ++ '/' :: folder.name }

/-- The folders of documents in the folders at a path, each under its name within `outer`. -/
def documentsWithin (files : FileSystem) (outer : Text) (path : Path) : Noted (List Folder) := do
  let folders ← subfolders files path
  return folders.filterMap fun folder ↦ (folder.within outer).documents? files

/-- The folders of documents of a mod: its own and those of its versions. -/
def ofMod (files : FileSystem) (folder : Folder) : Noted (List Folder) := do
  let versions ← documentsWithin files folder.name folder.path
  let found := (folder.documents? files).toList ++ versions
  if found.isEmpty then Noted.tell [.modWithoutDefs folder.name]
  return found

/-- The folders of documents of some mods. -/
def ofMods (files : FileSystem) : List Folder → Noted (List Folder)
  | [] => return []
  | folder :: rest => do
    let found ← ofMod files folder
    return found ++ (← ofMods files rest)

/-- The folders of documents under an install root: those of the data, then those of the mods. -/
def discover (files : FileSystem) (root : Path) : Noted (List Folder) := do
  let data :=
    if files.isDirectory (root / dataName) then
      documentsWithin files dataName.toList (root / dataName)
    else return []
  let mods : Noted (List Folder) :=
    if files.isDirectory (root / modsName) then do
      let folders ← subfolders files (root / modsName)
      Noted.tell [.modFolders folders.length]
      ofMods files folders
    else return []
  return (← data) ++ (← mods)

end Folder

end DefCatalog
