import DefCatalog.Proofs.Scan.Discovery
import DefCatalog.Proofs.Scan.Touring

/-!
# What a scan consults

A scan looks paths up and lists directories. Every path is the root, one of a few folders at known
places below it, or an entry of a directory that is listed. If the same stands at all the locations
that are asked about on the way, then a scan finds the same, whatever else has changed. Without links
in the root, these locations lie in the root, apart from directories and links on the way to it.
-/

namespace DefCatalog

/-- Whether a path is come to from another one by going from directory to entry, also along
links. -/
inductive FileSystem.LiesBelow (files : FileSystem) (top : Path) : Path → Prop where
  | here : LiesBelow files top top
  | entry {path : Path} {directory : Location} {name : Text} (habove : LiesBelow files top path)
      (hdirectory : files.locateDirectory path = .ok directory)
      (hname : name ∈ files.sortedNames directory) : LiesBelow files top (path.join ⟨name⟩)

namespace Scan

/-- The paths of the directories in which folders are looked for: that of the data, that of the mods,
and those of the mods themselves. -/
inductive Browses (files : FileSystem) (root : Path) : Path → Prop where
  | data : Browses files root (root / Folder.dataName)
  | mods : Browses files root (root / modsName)
  | mod {folder : Folder} (hmod : folder ∈ (Folder.subfolders files (root / modsName)).value) :
      Browses files root folder.path

/-- The paths of the directories that a scan lists: those in which folders are looked for, and all
in the folders of documents. -/
inductive Lists (files : FileSystem) (root : Path) : Path → Prop where
  | browsed {path : Path} (hbrowses : Browses files root path) : Lists files root path
  | gathered {folder : Folder} {path : Path}
      (hfolder : folder ∈ (Folder.discover files root).value)
      (hbelow : files.LiesBelow folder.path path) : Lists files root path

/-- The paths that a scan looks up. -/
inductive LooksUp (files : FileSystem) (root : Path) : Path → Prop where
  | root : LooksUp files root root
  | listed {path : Path} (hlists : Lists files root path) : LooksUp files root path
  | entry {path : Path} {directory : Location} {name : Text} (hlists : Lists files root path)
      (hdirectory : files.locateDirectory path = .ok directory)
      (hname : name ∈ files.sortedNames directory) : LooksUp files root (path.join ⟨name⟩)
  | documents {path : Path} {folder : Folder} (hbrowses : Browses files root path)
      (hfolder : folder ∈ (Folder.subfolders files path).value) :
      LooksUp files root (folder.path / Folder.documentsName)

/-- The locations that a scan consults: those that are asked about when a path is followed, and all
places in the directories that it lists. -/
inductive Consults (files : FileSystem) (root : Path) : Location → Prop where
  | asked {path : Path} {location : Location} (hlooks : LooksUp files root path)
      (hasked : location ∈ files.asked path) : Consults files root location
  | listed {path : Path} {directory : Location} (hlists : Lists files root path)
      (hdirectory : files.locateDirectory path = .ok directory) (name : Text) :
      Consults files root (name :: directory)

/-- Whether two file systems look the same to a scan. -/
structure LooksAlike (root : Path) (after before : FileSystem) : Prop where
  get?_eq : ∀ location, Consults before root location → after.get? location = before.get? location
  working_eq : after.working = before.working
  wellFormed_after : after.WellFormed
  wellFormed_before : before.WellFormed

variable {after before : FileSystem} {root path : Path} {folder : Folder} {directory location : Location}

namespace LooksAlike

theorem sameAlong (h : LooksAlike root after before) (hlooks : LooksUp before root path) :
    FileSystem.SameAlong after before path :=
  fun location hasked ↦ h.get?_eq location (.asked hlooks hasked)

theorem locate_eq (h : LooksAlike root after before) (hlooks : LooksUp before root path) :
    after.locate path = before.locate path :=
  (h.sameAlong hlooks).locate_eq h.working_eq

theorem contentAt?_eq (h : LooksAlike root after before) (hlooks : LooksUp before root path)
    (hpath : before.locate path = .ok location) :
    after.contentAt? location = before.contentAt? location :=
  FileSystem.contentAt?_congr (h.sameAlong hlooks location (FileSystem.mem_asked_of_locate hpath))

theorem ofFile_eq (h : LooksAlike root after before) (hlooks : LooksUp before root path) :
    Encounter.ofFile after path = Encounter.ofFile before path := by
  unfold Encounter.ofFile
  rw [(h.sameAlong hlooks).readFile_eq h.working_eq]

theorem sortedNames_eq (h : LooksAlike root after before) (hlists : Lists before root path)
    (hdirectory : before.locateDirectory path = .ok directory) :
    after.sortedNames directory = before.sortedNames directory :=
  FileSystem.sortedNames_congr h.wellFormed_after h.wellFormed_before fun name ↦
    h.get?_eq _ (.listed hlists hdirectory name)

theorem subfolders_eq (h : LooksAlike root after before) (hlists : Lists before root path) :
    Folder.subfolders after path = Folder.subfolders before path := by
  rw [Folder.subfolders_eq, Folder.subfolders_eq,
    (h.sameAlong (.listed hlists)).locateDirectory_eq h.working_eq]
  cases hdirectory : before.locateDirectory path with
  | error reason => rfl
  | ok directory =>
    dsimp only
    rw [h.sortedNames_eq hlists hdirectory]
    congr 2
    apply List.filter_congr
    intro name hname
    exact (h.sameAlong (.entry hlists hdirectory hname)).isDirectory_eq h.working_eq

theorem documents?_eq (h : LooksAlike root after before) (hbrowses : Browses before root path)
    (hfolder : folder ∈ (Folder.subfolders before path).value) {renamed : Folder}
    (hpath : renamed.path = folder.path) : renamed.documents? after = renamed.documents? before := by
  unfold Folder.documents?
  dsimp only
  rw [hpath, (h.sameAlong (.documents hbrowses hfolder)).isDirectory_eq h.working_eq]

theorem documentsWithin_eq (h : LooksAlike root after before) (hbrowses : Browses before root path)
    (outer : Text) :
    Folder.documentsWithin after outer path = Folder.documentsWithin before outer path := by
  unfold Folder.documentsWithin
  rw [h.subfolders_eq (.browsed hbrowses)]
  have hfilter : (Folder.subfolders before path).value.filterMap
        (fun folder ↦ (folder.within outer).documents? after) =
      (Folder.subfolders before path).value.filterMap
        (fun folder ↦ (folder.within outer).documents? before) :=
    List.filterMap_congr fun folder hfolder ↦ h.documents?_eq hbrowses hfolder rfl
  simp only [bind, pure, hfilter]

theorem ofMod_eq (h : LooksAlike root after before)
    (hmod : folder ∈ (Folder.subfolders before (root / modsName)).value) :
    Folder.ofMod after folder = Folder.ofMod before folder := by
  unfold Folder.ofMod
  rw [h.documentsWithin_eq (.mod hmod), h.documents?_eq .mods hmod rfl]

theorem ofMods_eq (h : LooksAlike root after before) {folders : List Folder}
    (hmods : ∀ folder ∈ folders, folder ∈ (Folder.subfolders before (root / modsName)).value) :
    Folder.ofMods after folders = Folder.ofMods before folders := by
  induction folders with
  | nil => rfl
  | cons folder rest ih =>
    rw [List.forall_mem_cons] at hmods
    rw [Folder.ofMods, Folder.ofMods, h.ofMod_eq hmods.1, ih hmods.2]

theorem discover_eq (h : LooksAlike root after before) :
    Folder.discover after root = Folder.discover before root := by
  have hdata := (h.sameAlong (.listed (.browsed .data))).isDirectory_eq h.working_eq
  have hmods := (h.sameAlong (.listed (.browsed .mods))).isDirectory_eq h.working_eq
  have hofMods := h.ofMods_eq fun folder hfolder ↦ hfolder
  unfold Folder.discover
  rw [hdata, hmods, h.documentsWithin_eq .data, h.subfolders_eq (.browsed .mods)]
  simp only [bind, hofMods]

theorem prepare_eq (h : LooksAlike root after before) : prepare after root = prepare before root := by
  unfold prepare
  rw [(h.sameAlong .root).pathExists_eq h.working_eq, h.discover_eq]

/-! ## Routes -/

/-- What is met in an open directory of a folder, and below it. -/
theorem descend_eq (h : LooksAlike root after before)
    (hfolder : folder ∈ (Folder.discover before root).value) (top : Path) {trail : List Stop}
    {here : Stop} (hstops : before.Located (here :: trail))
    (hbelow : before.LiesBelow folder.path here.path) :
    after.descend top trail here = before.descend top trail here := by
  induction trail, here using FileSystem.opensInduction before with
  | step trail here ih =>
    have hlists : Lists before root here.path := .gathered hfolder hbelow
    have hhere : before.locateDirectory here.path = .ok here.location :=
      FileSystem.locateDirectory_eq_ok_iff.mpr hstops.head
    rw [FileSystem.descend_eq, FileSystem.descend_eq, h.sortedNames_eq hlists hhere]
    apply List.flatMap_congr
    intro name hname
    have hopens (child : Stop) (hpath : child.path = here.path.join ⟨name⟩)
        (hchild : before.Opens (here :: trail) (child :: here :: trail)) :
        after.descend top (here :: trail) child = before.descend top (here :: trail) child := by
      apply ih child hchild (hstops.opens h.wellFormed_before hchild)
      rw [hpath]
      exact .entry hbelow hhere hname
    have hlooks : LooksUp before root (here.path.join ⟨name⟩) := .entry hlists hhere hname
    unfold FileSystem.descendEntry
    dsimp only
    rw [FileSystem.contentAt?_congr (h.get?_eq _ (.listed hlists hhere name)), h.locate_eq hlooks,
      h.ofFile_eq hlooks, (h.sameAlong hlooks).locateDirectory_eq h.working_eq]
    cases hentry : before.contentAt? (name :: here.location) with
    | none => rfl
    | some content =>
      cases content with
      | file bytes => rfl
      | directory =>
        dsimp only
        cases hpath : before.locateDirectory (here.path.join ⟨name⟩) with
        | error reason => rfl
        | ok found => exact hopens _ rfl (.folder hentry hpath)
      | link path =>
        dsimp only
        cases hpath : before.locate (here.path.join ⟨name⟩) with
        | error reason => rfl
        | ok target =>
          dsimp only
          rw [h.contentAt?_eq hlooks hpath]
          cases htarget : before.contentAt? target with
          | none => rfl
          | some found =>
            cases found with
            | file bytes => rfl
            | link other => rfl
            | directory =>
              dsimp only
              cases hopen : FileSystem.openAt? (here :: trail) target with
              | some ancestor => rfl
              | none =>
                exact hopens _ rfl
                  (.link hentry hpath (FileSystem.isDirectoryAt_iff.mpr htarget) hopen)

theorem descent_eq (h : LooksAlike root after before)
    (hfolder : folder ∈ (Folder.discover before root).value) :
    after.descent folder.path = before.descent folder.path := by
  have hlooks : LooksUp before root folder.path := .listed (.gathered hfolder .here)
  unfold FileSystem.descent
  rw [h.locate_eq hlooks, h.ofFile_eq hlooks]
  cases hlocate : before.locate folder.path with
  | error reason => rfl
  | ok location =>
    dsimp only
    rw [h.contentAt?_eq hlooks hlocate]
    cases hcontent : before.contentAt? location with
    | none => rfl
    | some content =>
      cases content with
      | file bytes => rfl
      | link target => rfl
      | directory =>
        apply h.descend_eq hfolder folder.path _ .here
        intro stop hstop
        rw [List.mem_singleton.mp hstop]
        exact ⟨hlocate, FileSystem.isDirectoryAt_iff.mpr hcontent⟩

/-- What is met on a tour of paths in a folder. -/
theorem tourFrom_eq (h : LooksAlike root after before)
    (hfolder : folder ∈ (Folder.discover before root).value) {listed : List Location}
    {agenda : List Path} (hagenda : ∀ path ∈ agenda, before.LiesBelow folder.path path) :
    after.tourFrom listed agenda = before.tourFrom listed agenda := by
  have hlooks {path : Path} {agenda : List Path}
      (hagenda : ∀ other ∈ path :: agenda, before.LiesBelow folder.path other) :
      LooksUp before root path :=
    .listed (.gathered hfolder (hagenda path List.mem_cons_self))
  have hrest {path : Path} {agenda : List Path}
      (hagenda : ∀ other ∈ path :: agenda, before.LiesBelow folder.path other) :
      ∀ other ∈ agenda, before.LiesBelow folder.path other :=
    fun other hother ↦ hagenda other (List.mem_cons_of_mem _ hother)
  induction listed, agenda using FileSystem.tourFrom.induct before with
  | case1 listed => rw [FileSystem.tourFrom, FileSystem.tourFrom]
  | case2 listed path agenda reason hpath ih =>
    simp only [FileSystem.tourFrom_cons, h.locate_eq (hlooks hagenda), hpath, ih (hrest hagenda)]
  | case3 listed path agenda location hpath hcontent hlisted ih =>
    simp only [FileSystem.tourFrom_cons, h.locate_eq (hlooks hagenda), hpath,
      h.contentAt?_eq (hlooks hagenda) hpath, hcontent, if_pos hlisted, ih (hrest hagenda)]
  | case4 listed path agenda location hpath hcontent hlisted ih =>
    have hdirectory : before.locateDirectory path = .ok location :=
      FileSystem.locateDirectory_eq_ok_iff.mpr ⟨hpath, FileSystem.isDirectoryAt_iff.mpr hcontent⟩
    have hbelow := hagenda path List.mem_cons_self
    have hlisting : after.listing path location = before.listing path location := by
      unfold FileSystem.listing
      rw [h.sortedNames_eq (.gathered hfolder hbelow) hdirectory]
    have hinside : ∀ other ∈ before.listing path location ++ agenda,
        before.LiesBelow folder.path other := by
      intro other hother
      rcases List.mem_append.mp hother with hentry | hother
      · obtain ⟨name, hname, rfl⟩ := List.mem_map.mp hentry
        exact .entry hbelow hdirectory hname
      · exact hrest hagenda other hother
    simp only [FileSystem.tourFrom_cons, h.locate_eq (hlooks hagenda), hpath,
      h.contentAt?_eq (hlooks hagenda) hpath, hcontent, if_neg hlisted, hlisting, ih hinside]
  | case5 listed path agenda location hpath content hcontent ih =>
    simp only [FileSystem.tourFrom_cons, h.locate_eq (hlooks hagenda), hpath,
      h.ofFile_eq (hlooks hagenda), h.contentAt?_eq (hlooks hagenda) hpath, hcontent, ih (hrest hagenda)]
  | case6 listed path agenda location hpath hdirectory hfile ih =>
    simp only [FileSystem.tourFrom_cons, h.locate_eq (hlooks hagenda), hpath,
      h.contentAt?_eq (hlooks hagenda) hpath, ih (hrest hagenda)]

theorem tour_eq (h : LooksAlike root after before)
    (hfolder : folder ∈ (Folder.discover before root).value) :
    after.tour folder.path = before.tour folder.path := by
  have hlists : Lists before root folder.path := .gathered hfolder .here
  unfold FileSystem.tour
  rw [(h.sameAlong (.listed hlists)).locateDirectory_eq h.working_eq]
  cases hdirectory : before.locateDirectory folder.path with
  | error reason => rfl
  | ok location =>
    dsimp only
    unfold FileSystem.listing
    rw [h.sortedNames_eq hlists hdirectory]
    apply h.tourFrom_eq hfolder
    intro path hpath
    obtain ⟨name, hname, rfl⟩ := List.mem_map.mp hpath
    exact .entry .here hdirectory hname

theorem encounters_eq (h : LooksAlike root after before)
    (hfolder : folder ∈ (Folder.discover before root).value) (route : Route) :
    route.encounters after folder.path = route.encounters before folder.path := by
  cases route with
  | descent => exact h.descent_eq hfolder
  | tour => exact h.tour_eq hfolder

variable {matching : Matching} {folders : List Folder}

theorem reap_eq (h : LooksAlike root after before)
    (hfolder : folder ∈ (Folder.discover before root).value) (route : Route) (catalog : Catalog) :
    Harvest.reap after matching route folder.path catalog =
      Harvest.reap before matching route folder.path catalog := by
  unfold Harvest.reap
  rw [h.encounters_eq hfolder]

theorem gatherFrom_eq (h : LooksAlike root after before)
    (hfolders : ∀ folder ∈ folders, folder ∈ (Folder.discover before root).value) (route : Route)
    (total finished : Nat) (catalog : Catalog) :
    gatherFrom after matching route total finished catalog folders =
      gatherFrom before matching route total finished catalog folders := by
  induction folders generalizing finished catalog with
  | nil => rfl
  | cons folder rest ih =>
    rw [List.forall_mem_cons] at hfolders
    simp only [gatherFrom, bind, h.reap_eq hfolders.1, ih hfolders.2]

theorem sendFrom_eq (h : LooksAlike root after before)
    (hfolders : ∀ folder ∈ folders, folder ∈ (Folder.discover before root).value)
    (total finished : Nat) :
    WorkerMessage.sendFrom after matching total finished folders =
      WorkerMessage.sendFrom before matching total finished folders := by
  induction folders generalizing finished with
  | nil => rfl
  | cons folder rest ih =>
    rw [List.forall_mem_cons] at hfolders
    simp only [WorkerMessage.sendFrom, bind, h.reap_eq hfolders.1, ih hfolders.2]

theorem gather_eq (h : LooksAlike root after before) (strategy : Strategy)
    (hfolders : ∀ folder ∈ folders, folder ∈ (Folder.discover before root).value) :
    gather after matching strategy folders = gather before matching strategy folders := by
  unfold gather
  cases strategy with
  | sync | cooperative => simp only [h.gatherFrom_eq hfolders]
  | worker => simp only [WorkerMessage.send, h.sendFrom_eq hfolders]

end LooksAlike

variable {files : FileSystem} {base : Path} {top : Location}
  {name : Text}

theorem exists_of_mem_subfolders (hfolder : folder ∈ (Folder.subfolders files path).value) :
    ∃ directory name, files.locateDirectory path = .ok directory ∧
      name ∈ files.sortedNames directory ∧ folder.path = path.join ⟨name⟩ ∧
      files.isDirectory folder.path = true := by
  rw [Folder.value_subfolders] at hfolder
  obtain ⟨name, hmem, rfl⟩ := List.mem_map.mp hfolder
  unfold Folder.folderNames at hmem
  cases hdirectory : files.locateDirectory path with
  | error reason =>
    rw [hdirectory] at hmem
    cases hmem
  | ok directory =>
    rw [hdirectory] at hmem
    obtain ⟨hname, hopen⟩ := List.mem_filter.mp hmem
    exact ⟨directory, name, rfl, hname, rfl, hopen⟩

theorem exists_of_mem_discover (h : folder ∈ (Folder.discover files root).value) :
    ∃ path, Browses files root path ∧ ∃ inner ∈ (Folder.subfolders files path).value,
      folder.path = inner.path / Folder.documentsName := by
  have hlooked : ∀ {base : Path} {name : Text}, name ∈ Folder.folderNames files base →
      (⟨base.join ⟨name⟩, name⟩ : Folder) ∈ (Folder.subfolders files base).value := by
    intro base name hname
    rw [Folder.value_subfolders]
    exact List.mem_map_of_mem hname
  obtain ⟨base, name, hholder, hpath, hbase⟩ := Folder.exists_holder_of_mem_discover h
  refine ⟨base, ?_, _, hlooked (List.mem_filter.mp hholder).1, hpath⟩
  rcases hbase with rfl | rfl | ⟨mod, hmod, rfl⟩
  · exact .data
  · exact .mods
  · exact .mod (hlooked hmod)

/-- Whether a path leads to places below a location only, and depends on nothing free elsewhere. -/
structure StaysBelow (files : FileSystem) (top : Location) (path : Path) : Prop where
  locate : ∀ location, files.locate path = .ok location → top <:+ location
  asked : ∀ location ∈ files.asked path, files.IsFree location → top <:+ location

theorem staysBelow_root (hroot : files.locate root = .ok top) : StaysBelow files top root := by
  constructor
  case locate =>
    intro location hlocate
    cases hroot.symm.trans hlocate
    exact List.suffix_refl _
  case asked =>
    intro location hasked hfree
    obtain ⟨left, hwalk⟩ := FileSystem.locate_eq_ok hroot
    rcases FileSystem.not_isFree_of_mem_askedFrom hwalk hasked with rfl | hpassed
    · exact List.suffix_refl _
    · exact absurd hfree hpassed

variable (hplain : ∀ location target, top <:+ location →
  files.contentAt? location ≠ some (.link target))

include hplain

theorem StaysBelow.join (h : StaysBelow files top base) (hbase : files.locate base = .ok directory)
    (hname : FileSystem.IsEntryName name) : StaysBelow files top (base.join ⟨name⟩) := by
  have hdirectory := h.locate directory hbase
  have hentry : top <:+ name :: directory := hdirectory.trans (List.suffix_cons name directory)
  have hlink := fun target ↦ hplain _ target hentry
  constructor
  case locate =>
    intro location hlocate
    rwa [FileSystem.eq_of_locate_join hbase hname hlink hlocate]
  case asked =>
    intro location hasked hfree
    rcases FileSystem.asked_join hbase hname hlink hasked with rfl | rfl | hpassed
    · exact hdirectory
    · exact hentry
    · exact absurd hfree hpassed

variable (hfiles : files.WellFormed)

include hfiles

theorem StaysBelow.entry (h : StaysBelow files top base)
    (hbase : files.locateDirectory base = .ok directory)
    (hname : name ∈ files.sortedNames directory) : StaysBelow files top (base.join ⟨name⟩) := by
  obtain ⟨content, hcontent⟩ := FileSystem.mem_sortedNames_iff.mp hname
  exact h.join hplain (FileSystem.locateDirectory_eq_ok_iff.mp hbase).1
    (hfiles.isEntryName_of_contentAt? hcontent)

theorem StaysBelow.documents (h : StaysBelow files top path)
    (hfolder : folder ∈ (Folder.subfolders files path).value) :
    StaysBelow files top folder.path ∧ StaysBelow files top (folder.path / Folder.documentsName) := by
  obtain ⟨directory, name, hdirectory, hname, hpath, hopen⟩ := exists_of_mem_subfolders hfolder
  obtain ⟨inner, hinner, _⟩ := FileSystem.isDirectory_iff.mp hopen
  have hbelow : StaysBelow files top folder.path :=
    hpath ▸ h.entry hplain hfiles hdirectory hname
  exact ⟨hbelow, hbelow.join hplain hinner (by decide)⟩

variable (hroot : files.locate root = .ok top)

include hroot

theorem staysBelow_of_browses (hbrowses : Browses files root path) : StaysBelow files top path := by
  have hmods : StaysBelow files top (root / modsName) :=
    (staysBelow_root hroot).join hplain hroot (by decide)
  cases hbrowses with
  | data => exact (staysBelow_root hroot).join hplain hroot (by decide)
  | mods => exact hmods
  | mod hmod => exact (hmods.documents hplain hfiles hmod).1

theorem staysBelow_of_lists (hlists : Lists files root path) : StaysBelow files top path := by
  cases hlists with
  | browsed hbrowses => exact staysBelow_of_browses hplain hfiles hroot hbrowses
  | gathered hfolder hbelow =>
    induction hbelow with
    | here =>
      obtain ⟨browsed, hbrowses, inner, hinner, hpath⟩ := exists_of_mem_discover hfolder
      rw [hpath]
      exact ((staysBelow_of_browses hplain hfiles hroot hbrowses).documents hplain hfiles hinner).2
    | entry _ hdirectory hname ih => exact ih.entry hplain hfiles hdirectory hname

theorem staysBelow_of_looksUp (hlooks : LooksUp files root path) : StaysBelow files top path := by
  cases hlooks with
  | root => exact staysBelow_root hroot
  | listed hlists => exact staysBelow_of_lists hplain hfiles hroot hlists
  | entry hlists hdirectory hname =>
    exact (staysBelow_of_lists hplain hfiles hroot hlists).entry hplain hfiles hdirectory hname
  | documents hbrowses hfolder =>
    exact ((staysBelow_of_browses hplain hfiles hroot hbrowses).documents hplain hfiles hfolder).2

theorem below_of_consults (hconsults : Consults files root location)
    (hfree : files.IsFree location) : top <:+ location := by
  cases hconsults with
  | asked hlooks hasked =>
    exact (staysBelow_of_looksUp hplain hfiles hroot hlooks).asked location hasked hfree
  | listed hlists hdirectory name =>
    have hbelow := (staysBelow_of_lists hplain hfiles hroot hlists).locate _
      (FileSystem.locateDirectory_eq_ok_iff.mp hdirectory).1
    exact hbelow.trans (List.suffix_cons name _)

end Scan

end DefCatalog
