import DefCatalog.Files.Display
import DefCatalog.Proofs.Files.Contents
import DefCatalog.Proofs.Files.Lengths
import DefCatalog.Proofs.Scan.Opening
import DefCatalog.Proofs.Scan.Outcome
import DefCatalog.Proofs.Text.ByteOrder
import Mathlib.Data.List.Permutation

/-!
# Which folders are found

Under an install root there are three kinds of places for folders of documents: in a folder of the
data, in a mod, and in a folder of a mod that stands for a version. The folders that are found are
those in places to which directories lead all the way, a link to a directory being as good as a
directory. Each is found once, and their order is that of the names on the way as bytes, so nothing
depends on the order in which a directory lists its entries.
-/

namespace DefCatalog

open FileSystem

namespace Folder

variable {files files' : FileSystem} {root path : Path} {outer name : Text}

/-- Whether names lead on from a path by entries that are directories, or links to directories. -/
def LeadsThrough (files : FileSystem) : Path → List Text → Prop
  | _, [] => True
  | path, name :: names =>
    IsEntryName name ∧ files.isDirectory (path.join ⟨name⟩) = true ∧
      LeadsThrough files (path.join ⟨name⟩) names

/-- The place of a folder of documents under a root. -/
inductive Place where
  /-- In a folder of the data. -/
  | data (folder : Text)
  /-- In a mod itself. -/
  | own (mod : Text)
  /-- In a folder of a mod that stands for a version. -/
  | versioned (mod version : Text)

namespace Place

/-- The names on the way from the root to a place. -/
def names : Place → List Text
  | data folder => [dataName.toList, folder, documentsName.toList]
  | own mod => [modsName.toList, mod, documentsName.toList]
  | versioned mod version => [modsName.toList, mod, version, documentsName.toList]

/-- The name that a folder at a place is reported under. -/
def title : Place → Text
  | data folder => dataName.toList ++ '/' :: folder
  | own mod => mod
  | versioned mod version => mod ++ '/' :: version

/-- The folder at a place under a root. -/
def folder (root : Path) (place : Place) : Folder :=
  ⟨root.below place.names, place.title⟩

/-- Whether a folder of documents is at a place under a root. -/
def Stands (files : FileSystem) (root : Path) (place : Place) : Prop :=
  LeadsThrough files root place.names

/-- The order of places: the data comes before the mods, what is in a mod itself before its
versions, and apart from that the names decide, as bytes. -/
def Before : Place → Place → Prop
  | data folder, data folder' => Utf8.encode folder < Utf8.encode folder'
  | data _, own _ | data _, versioned _ _ => True
  | own _, data _ | versioned _ _, data _ => False
  | own mod, own mod' | versioned mod _, own mod' => Utf8.encode mod < Utf8.encode mod'
  | own mod, versioned mod' _ => Utf8.encode mod < Utf8.encode mod' ∨ mod = mod'
  | versioned mod version, versioned mod' version' =>
    Utf8.encode mod < Utf8.encode mod' ∨
      mod = mod' ∧ Utf8.encode version < Utf8.encode version'

theorem Before.asymm {place place' : Place} (h : place.Before place') : ¬place'.Before place := by
  have hasymm : ∀ {s t : Text}, Utf8.encode s < Utf8.encode t → ¬Utf8.encode t < Utf8.encode s :=
    fun hlt ↦ List.lt_asymm hlt
  cases place <;> cases place' <;> simp only [Before] at h ⊢ <;> grind

theorem Before.ne {place place' : Place} (h : place.Before place') : place ≠ place' := by
  rintro rfl
  exact h.asymm h

end Place

/-- The names of the folders in the directory at a path. -/
def folderNames (files : FileSystem) (path : Path) : List Text :=
  match files.locateDirectory path with
  | .error _ => []
  | .ok location =>
    (files.sortedNames location).filter fun name ↦ files.isDirectory (path.join ⟨name⟩)

/-- It does not matter whether the folders are sorted or the names of all entries before them. -/
theorem subfolders_eq (files : FileSystem) (path : Path) :
    subfolders files path =
      match files.locateDirectory path with
      | .error reason => do
        Noted.tell [.unreadableFolder path reason]
        return []
      | .ok location => return ((files.sortedNames location).filter fun name ↦
          files.isDirectory (path.join ⟨name⟩)).map fun name ↦ ⟨path.join ⟨name⟩, name⟩ := by
  unfold subfolders
  cases files.locateDirectory path with
  | error reason => rfl
  | ok location =>
    dsimp only
    rw [Text.sortOn, List.filter_map, FileSystem.sortedNames, Text.filter_mergeSort,
      List.map_mergeSort (s := fun first second : Folder ↦ Text.le first.name second.name)
        fun _ _ _ _ ↦ rfl]
    rfl

theorem value_subfolders (files : FileSystem) (path : Path) :
    (subfolders files path).value = (folderNames files path).map fun name ↦
      ⟨path.join ⟨name⟩, name⟩ := by
  rw [subfolders_eq]
  unfold folderNames
  cases files.locateDirectory path <;> rfl

theorem pairwise_sortedNames (hfiles : files.WellFormed) (location : Location) :
    (files.sortedNames location).Pairwise fun first second ↦
      Utf8.encode first < Utf8.encode second := by
  have htrans : ∀ first second third : Text,
      Text.le first second = true → Text.le second third = true → Text.le first third = true :=
    fun _ _ _ ↦ Text.le_trans
  have hsorted : (files.sortedNames location).Pairwise fun first second ↦
      Text.le first second = true :=
    List.pairwise_mergeSort htrans Text.le_total _
  exact (hsorted.and (hfiles.nodup_sortedNames location)).imp Utf8.encode_lt_iff.mpr

theorem pairwise_folderNames (hfiles : files.WellFormed) (path : Path) :
    (folderNames files path).Pairwise fun first second ↦
      Utf8.encode first < Utf8.encode second := by
  unfold folderNames
  split
  · exact List.Pairwise.nil
  · exact (pairwise_sortedNames hfiles _).filter _

/-- The path of an entry leads nowhere if there is no such entry. -/
theorem exists_content_of_locate_join {directory target : Location} (hname : IsEntryName name)
    (hpath : files.locate path = .ok directory)
    (hentry : files.locate (path.join ⟨name⟩) = .ok target) :
    ∃ content, files.contentAt? (name :: directory) = some content := by
  obtain ⟨_, _, hwalk⟩ := exists_walk_of_locate_join hpath hname.2 hentry
  exact exists_content_of_walk hname.1 hwalk

theorem mem_folderNames_iff (hfiles : files.WellFormed) : name ∈ folderNames files path ↔
    files.isDirectory path = true ∧ IsEntryName name ∧
      files.isDirectory (path.join ⟨name⟩) = true := by
  constructor
  · intro hmem
    unfold folderNames at hmem
    split at hmem
    · cases hmem
    · rename_i location hlocate
      obtain ⟨hlisted, hentry⟩ := List.mem_filter.mp hmem
      obtain ⟨content, hcontent⟩ := mem_sortedNames_iff.mp hlisted
      exact ⟨isDirectory_iff.mpr ⟨location, locateDirectory_eq_ok_iff.mp hlocate⟩,
        hfiles.isEntryName_of_contentAt? hcontent, hentry⟩
  · rintro ⟨hpath, hname, hentry⟩
    obtain ⟨location, hlocate, hdirectory⟩ := isDirectory_iff.mp hpath
    obtain ⟨target, htarget, _⟩ := isDirectory_iff.mp hentry
    have hlisted : name ∈ files.sortedNames location :=
      mem_sortedNames_iff.mpr (exists_content_of_locate_join hname hlocate htarget)
    unfold folderNames
    rw [locateDirectory_eq_ok_iff.mpr ⟨hlocate, hdirectory⟩]
    exact List.mem_filter.mpr ⟨hlisted, hentry⟩

/-- The names of the folders in a directory that have a folder of documents in them. -/
def holders (files : FileSystem) (path : Path) : List Text :=
  (folderNames files path).filter fun name ↦
    files.isDirectory (path.join ⟨name⟩ / documentsName)

theorem pairwise_holders (hfiles : files.WellFormed) (path : Path) :
    (holders files path).Pairwise fun first second ↦
      Utf8.encode first < Utf8.encode second :=
  (pairwise_folderNames hfiles path).filter _

theorem documents?_eq (files : FileSystem) (path : Path) (name : Text) :
    documents? files ⟨path, name⟩ =
      if files.isDirectory (path / documentsName) then some ⟨path / documentsName, name⟩
      else none := rfl

theorem value_documentsWithin (files : FileSystem) (outer : Text) (path : Path) :
    (documentsWithin files outer path).value = (holders files path).map fun name ↦
      ⟨path.join ⟨name⟩ / documentsName, outer ++ '/' :: name⟩ := by
  unfold documentsWithin holders
  rw [Noted.value_bind, value_subfolders, Noted.value_pure]
  induction folderNames files path with
  | nil => rfl
  | cons name names ih =>
    have hfolder : documents? files (within outer ⟨path.join ⟨name⟩, name⟩) =
        if files.isDirectory (path.join ⟨name⟩ / documentsName) then
          some ⟨path.join ⟨name⟩ / documentsName, outer ++ '/' :: name⟩ else none :=
      documents?_eq ..
    rw [List.map_cons, List.filterMap_cons, hfolder, ih, List.filter_cons]
    cases files.isDirectory (path.join ⟨name⟩ / documentsName) <;> rfl

theorem isEntryName_documentsName : IsEntryName documentsName.toList := by decide

theorem mem_holders_iff (hfiles : files.WellFormed) : name ∈ holders files path ↔
    files.isDirectory path = true ∧ LeadsThrough files path [name, documentsName.toList] := by
  unfold holders
  rw [List.mem_filter, mem_folderNames_iff hfiles, and_assoc, and_assoc]
  simp only [LeadsThrough, isEntryName_documentsName, true_and, and_true]
  rfl

/-- The places of the folders of documents of a mod. -/
def placesOfMod (files : FileSystem) (root : Path) (mod : Text) : List Place :=
  let path := (root / modsName).join ⟨mod⟩
  (if files.isDirectory (path / documentsName) then [.own mod] else []) ++
    (holders files path).map (.versioned mod)

/-- The places of the folders of documents under a root. -/
def places (files : FileSystem) (root : Path) : List Place :=
  (holders files (root / dataName)).map .data ++
    (folderNames files (root / modsName)).flatMap (placesOfMod files root)

theorem value_ofMod (files : FileSystem) (root : Path) (mod : Text) :
    (ofMod files ⟨(root / modsName).join ⟨mod⟩, mod⟩).value =
      (placesOfMod files root mod).map (·.folder root) := by
  have hversions : (documentsWithin files mod ((root / modsName).join ⟨mod⟩)).value =
      ((holders files ((root / modsName).join ⟨mod⟩)).map (Place.versioned mod)).map
        (·.folder root) := by
    rw [value_documentsWithin, List.map_map]
    rfl
  have hvalue : (ofMod files ⟨(root / modsName).join ⟨mod⟩, mod⟩).value =
      (documents? files ⟨(root / modsName).join ⟨mod⟩, mod⟩).toList ++
        (documentsWithin files mod ((root / modsName).join ⟨mod⟩)).value := by
    unfold ofMod
    rw [Noted.value_bind]
    dsimp only
    split <;> rfl
  calc
    (ofMod files ⟨(root / modsName).join ⟨mod⟩, mod⟩).value =
        (documents? files ⟨(root / modsName).join ⟨mod⟩, mod⟩).toList ++
          ((holders files ((root / modsName).join ⟨mod⟩)).map (Place.versioned mod)).map
            (·.folder root) := by
      rw [hvalue, hversions]
    _ = (placesOfMod files root mod).map (·.folder root) := by
      rw [documents?_eq, placesOfMod, List.map_append]
      split <;> rfl

theorem value_ofMods (files : FileSystem) (root : Path) (mods : List Text) :
    (ofMods files (mods.map fun mod ↦ ⟨(root / modsName).join ⟨mod⟩, mod⟩)).value =
      (mods.flatMap (placesOfMod files root)).map (·.folder root) := by
  induction mods with
  | nil => rfl
  | cons mod mods ih =>
    rw [List.flatMap_cons, List.map_append, ← value_ofMod, ← ih]
    rfl

theorem folderNames_of_not_isDirectory (h : files.isDirectory path = false) :
    folderNames files path = [] := by
  unfold folderNames
  split
  · rfl
  · rename_i location hlocate
    rw [isDirectory_iff.mpr ⟨location, locateDirectory_eq_ok_iff.mp hlocate⟩] at h
    cases h

theorem value_discover (files : FileSystem) (root : Path) :
    (discover files root).value = (places files root).map (·.folder root) := by
  have hdata : (if files.isDirectory (root / dataName) then
      documentsWithin files dataName.toList (root / dataName) else return []).value =
        ((holders files (root / dataName)).map Place.data).map (·.folder root) := by
    split
    · rw [value_documentsWithin, List.map_map]
      rfl
    · rename_i hnone
      rw [holders, folderNames_of_not_isDirectory (eq_false_of_ne_true hnone)]
      rfl
  have hmods : (if files.isDirectory (root / modsName) then do
      let folders ← subfolders files (root / modsName)
      Noted.tell [.modFolders folders.length]
      ofMods files folders
      else return [] : Noted (List Folder)).value =
        ((folderNames files (root / modsName)).flatMap (placesOfMod files root)).map
          (·.folder root) := by
    split
    · rw [← value_ofMods, ← value_subfolders]
      rfl
    · rename_i hnone
      rw [folderNames_of_not_isDirectory (eq_false_of_ne_true hnone)]
      rfl
  unfold discover places
  rw [List.map_append, ← hdata, ← hmods]
  rfl

theorem isEntryName_dataName : IsEntryName dataName.toList := by decide

theorem isEntryName_modsName : IsEntryName modsName.toList := by decide

theorem mem_placesOfMod_iff {mod : Text} {place : Place} : place ∈ placesOfMod files root mod ↔
    (place = .own mod ∧
        files.isDirectory ((root / modsName).join ⟨mod⟩ / documentsName) = true) ∨
      ∃ version ∈ holders files ((root / modsName).join ⟨mod⟩), place = .versioned mod version := by
  unfold placesOfMod
  rw [List.mem_append, List.mem_map]
  simp only [List.mem_ite_nil_right, List.mem_singleton, and_comm, eq_comm]

/-- Every folder that is found lies in a folder that holds one: a folder of the data, a mod, or a
folder of a mod. -/
theorem exists_holder_of_mem_discover {folder : Folder}
    (h : folder ∈ (discover files root).value) :
    ∃ path name, name ∈ holders files path ∧ folder.path = path.join ⟨name⟩ / documentsName ∧
      (path = root / dataName ∨ path = root / modsName ∨
        ∃ mod ∈ folderNames files (root / modsName), path = (root / modsName).join ⟨mod⟩) := by
  rw [value_discover] at h
  obtain ⟨place, hplace, rfl⟩ := List.mem_map.mp h
  cases List.mem_append.mp hplace with
  | inl hdata =>
    obtain ⟨name, hname, rfl⟩ := List.mem_map.mp hdata
    exact ⟨_, name, hname, rfl, Or.inl rfl⟩
  | inr hmods =>
    obtain ⟨mod, hmod, hplace⟩ := List.mem_flatMap.mp hmods
    rcases mem_placesOfMod_iff.mp hplace with ⟨rfl, hown⟩ | ⟨version, hversion, rfl⟩
    · exact ⟨_, mod, List.mem_filter.mpr ⟨hmod, hown⟩, rfl, Or.inr (Or.inl rfl)⟩
    · exact ⟨_, version, hversion, rfl, Or.inr (Or.inr ⟨mod, hmod, rfl⟩)⟩

theorem exists_locateDirectory_of_mem_discover {folder : Folder}
    (h : folder ∈ (discover files root).value) :
    ∃ start, files.locateDirectory folder.path = .ok start := by
  obtain ⟨path, name, hholder, hpath, _⟩ := exists_holder_of_mem_discover h
  obtain ⟨start, hstart⟩ := isDirectory_iff.mp (List.mem_filter.mp hholder).2
  exact ⟨start, hpath ▸ locateDirectory_eq_ok_iff.mpr hstart⟩

theorem pairwise_placesOfMod (hfiles : files.WellFormed) (root : Path) (mod : Text) :
    (placesOfMod files root mod).Pairwise Place.Before := by
  have hversions := pairwise_holders hfiles ((root / modsName).join ⟨mod⟩)
  unfold placesOfMod
  rw [List.pairwise_append, List.pairwise_map]
  refine ⟨?_, hversions.imp fun h ↦ Or.inr ⟨rfl, h⟩, ?_⟩
  · split
    · exact List.pairwise_singleton _ _
    · exact List.Pairwise.nil
  · intro own hown version hversion
    obtain ⟨name, _, rfl⟩ := List.mem_map.mp hversion
    obtain ⟨_, rfl⟩ : _ ∧ own = .own mod := by simpa using hown
    exact Or.inr rfl

theorem pairwise_places (hfiles : files.WellFormed) (root : Path) :
    (places files root).Pairwise Place.Before := by
  unfold places
  rw [List.pairwise_append, List.pairwise_map, List.pairwise_flatMap]
  refine ⟨pairwise_holders hfiles _, ⟨fun mod _ ↦ pairwise_placesOfMod hfiles root mod, ?_⟩, ?_⟩
  · apply (pairwise_folderNames hfiles (root / modsName)).imp
    intro mod mod' hmods place hplace place' hplace'
    rcases mem_placesOfMod_iff.mp hplace with ⟨rfl, _⟩ | ⟨_, _, rfl⟩ <;>
      rcases mem_placesOfMod_iff.mp hplace' with ⟨rfl, _⟩ | ⟨_, _, rfl⟩ <;>
      simp only [Place.Before, hmods, true_or]
  · intro place hplace place' hplace'
    obtain ⟨folder, _, rfl⟩ := List.mem_map.mp hplace
    obtain ⟨mod, _, hmod⟩ := List.mem_flatMap.mp hplace'
    rcases mem_placesOfMod_iff.mp hmod with ⟨rfl, _⟩ | ⟨_, _, rfl⟩ <;> trivial

/-- The places are those to which directories lead all the way. -/
theorem mem_places_iff (hfiles : files.WellFormed) {place : Place} :
    place ∈ places files root ↔ place.Stands files root := by
  cases place with
  | data folder =>
    have hmem : Place.data folder ∈ places files root ↔
        folder ∈ holders files (root / dataName) := by
      simp [places, mem_placesOfMod_iff]
    rw [hmem, mem_holders_iff hfiles]
    exact (and_iff_right isEntryName_dataName).symm
  | own mod =>
    have hmem : Place.own mod ∈ places files root ↔ mod ∈ folderNames files (root / modsName) ∧
        files.isDirectory ((root / modsName).join ⟨mod⟩ / documentsName) = true := by
      simp [places, mem_placesOfMod_iff]
    rw [hmem, mem_folderNames_iff hfiles]
    constructor
    · rintro ⟨⟨hmods, hmod, hfolder⟩, hdocuments⟩
      exact ⟨isEntryName_modsName, hmods, hmod, hfolder, isEntryName_documentsName, hdocuments,
        trivial⟩
    · rintro ⟨_, hmods, hmod, hfolder, _, hdocuments, _⟩
      exact ⟨⟨hmods, hmod, hfolder⟩, hdocuments⟩
  | versioned mod version =>
    have hmem : Place.versioned mod version ∈ places files root ↔
        mod ∈ folderNames files (root / modsName) ∧
          version ∈ holders files ((root / modsName).join ⟨mod⟩) := by
      simp [places, mem_placesOfMod_iff]
    rw [hmem, mem_folderNames_iff hfiles, mem_holders_iff hfiles]
    constructor
    · rintro ⟨⟨hmods, hmod, hfolder⟩, _, hversion⟩
      exact ⟨isEntryName_modsName, hmods, hmod, hfolder, hversion⟩
    · rintro ⟨_, hmods, hmod, hfolder, hversion⟩
      exact ⟨⟨hmods, hmod, hfolder⟩, hfolder, hversion⟩

theorem LeadsThrough.isEntryName {names : List Text} (h : LeadsThrough files path names) :
    ∀ name ∈ names, IsEntryName name := by
  induction names generalizing path with
  | nil => exact fun name hname ↦ nomatch hname
  | cons first names ih =>
    rintro name (_ | ⟨_, hname⟩)
    · exact h.1
    · exact ih h.2.2 name hname

theorem Place.names_injective {place place' : Place} (h : place.names = place'.names) :
    place = place' := by
  have hne : dataName.toList ≠ modsName.toList := by decide
  cases place <;> cases place' <;> simp_all [Place.names]

/-- Folders at two places have different paths, also if the paths are taken by their components. -/
theorem eq_of_components_folder {place place' : Place} (hplace : place.Stands files root)
    (hplace' : place'.Stands files root)
    (h : (place.folder root).path.components = (place'.folder root).path.components) :
    place = place' := by
  unfold Place.folder at h
  rw [Path.components_below hplace.isEntryName, Path.components_below hplace'.isEntryName,
    List.append_cancel_left_eq] at h
  exact Place.names_injective (List.map_injective_iff.mpr (fun _ _ ↦ Path.Component.name.inj) h)

/-- What it is for some folders to be all that are under a root: they are those at the places to
which directories lead, in the order of the places, and no path is there twice. -/
structure Lists (files : FileSystem) (root : Path) (found : List Folder) : Prop where
  of_places : ∃ places : List Place, found = places.map (·.folder root) ∧
    places.Pairwise Place.Before ∧ ∀ place, place ∈ places ↔ place.Stands files root
  nodup_paths : (found.map (·.path.components)).Nodup

theorem lists_discover (hfiles : files.WellFormed) (root : Path) :
    Lists files root (discover files root).value where
  of_places := ⟨places files root, value_discover files root, pairwise_places hfiles root,
    fun _ ↦ mem_places_iff hfiles⟩
  nodup_paths := by
    rw [value_discover, List.map_map, List.Nodup, List.pairwise_map]
    apply (pairwise_places hfiles root).imp_of_mem
    intro place place' hplace hplace' hbefore heq
    have hsame := eq_of_components_folder ((mem_places_iff hfiles).mp hplace)
      ((mem_places_iff hfiles).mp hplace') heq
    exact hbefore.ne hsame

/-- There is one list of all folders under a root. -/
theorem Lists.unique {found found' : List Folder} (h : Lists files root found)
    (h' : Lists files root found') : found = found' := by
  obtain ⟨places, rfl, hsorted, hmem⟩ := h.of_places
  obtain ⟨places', rfl, hsorted', hmem'⟩ := h'.of_places
  have hperm : places.Perm places' := (List.perm_ext_iff_of_nodup (hsorted.imp Place.Before.ne)
    (hsorted'.imp Place.Before.ne)).mpr fun place ↦ (hmem place).trans (hmem' place).symm
  rw [hperm.eq_of_pairwise (fun _ _ _ _ hlt hgt ↦ absurd hgt hlt.asymm) hsorted hsorted']

theorem leadsThrough_congr (h : SameContents files' files) (path : Path) (names : List Text) :
    LeadsThrough files' path names ↔ LeadsThrough files path names := by
  induction names generalizing path with
  | nil => rfl
  | cons name names ih =>
    unfold LeadsThrough
    rw [h.isDirectory_eq, ih]

theorem Lists.congr {found : List Folder} (h : Lists files root found)
    (hsame : SameContents files' files) : Lists files' root found where
  of_places := by
    obtain ⟨places, hfound, hsorted, hmem⟩ := h.of_places
    exact ⟨places, hfound, hsorted,
      fun place ↦ (hmem place).trans (leadsThrough_congr hsame root place.names).symm⟩
  nodup_paths := h.nodup_paths

/-- Where names lead on does not depend on how a root is spelled, as long as there is room for the
names behind it. -/
theorem LeadsThrough.of_stepsAlike {other : Path} {names : List Text}
    (halike : path.StepsAlike other) (hsize : (path.below names).size ≤ Path.maxBytes)
    (h : LeadsThrough files other names) : LeadsThrough files path names := by
  induction names generalizing path other with
  | nil => trivial
  | cons name names ih =>
    obtain ⟨hname, hentry, hrest⟩ := h
    obtain ⟨location, hlocate, hdirectory⟩ := isDirectory_iff.mp hentry
    have hjoined := halike.join hname
    have hle : (path.join ⟨name⟩).size ≤ ((path.join ⟨name⟩).below names).size := by
      rw [Path.size_below hjoined.isOpen_left hrest.isEntryName]
      exact Nat.le_add_right _ _
    have hshort := Path.isTooLong_eq_false_iff.mpr (hle.trans hsize)
    have hfound := locate_of_stepsAlike hjoined hshort hlocate hdirectory
    exact ⟨hname, isDirectory_iff.mpr ⟨location, hfound, hdirectory⟩, ih hjoined hsize hrest⟩

theorem Place.Stands.size_le (hfiles : files.WellFormed) {place : Place}
    (h : place.Stands files root) : (root.below place.names).size ≤ Path.maxBytes := by
  have hmem : place.folder root ∈ (discover files root).value := by
    rw [value_discover]
    exact List.mem_map_of_mem ((mem_places_iff hfiles).mpr h)
  obtain ⟨start, hstart⟩ := exists_locateDirectory_of_mem_discover hmem
  have hlocate := (locateDirectory_eq_ok_iff.mp hstart).1
  exact Path.isTooLong_eq_false_iff.mp (isTooLong_of_locate hlocate)

end Folder

end DefCatalog
