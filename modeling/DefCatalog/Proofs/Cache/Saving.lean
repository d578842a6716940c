import DefCatalog.Proofs.Cache.File
import DefCatalog.Proofs.Cache.Preparing

/-!
# What saving leaves at the path of a cache

The cache and its draft are entries of one directory. Making the directories above them, writing the
draft and renaming it each leave alone what stands at the path of the cache, except for the last
step, which puts the record there. So a save that fails on the way leaves the record as it was.
-/

namespace DefCatalog.CacheFile

open FileSystem

variable {cache : CacheFile} {files middle after : FileSystem} {front : List Text} {name : Text}
  {directory location : Location} {bytes : Bytes} {root : Path} {catalog : Catalog}

/-- Whether a cache and its draft are entries of the directory that some steps lead to. -/
structure Layout (cache : CacheFile) (front : List Text) (name : Text) : Prop
    extends Site cache front name where
  entry?_of_arrivesAt : ∀ files directory,
    files.ArrivesAt (origin cache.path files.working) front directory →
      FileSystem.entry? files cache.path = some (name :: directory)

theorem Layout.entry?_path (hlayout : Layout cache front name) (files : FileSystem)
    (location : Location) : files.entry? cache.path = some location ↔
      ∃ directory, location = name :: directory ∧
        files.ArrivesAt (origin cache.path files.working) front directory := by
  constructor
  · exact hlayout.entry?_path_cases files location
  · rintro ⟨directory, rfl, harrives⟩
    exact hlayout.entry?_of_arrivesAt files directory harrives

theorem draft_ne (name : Text) : name ++ ".tmp".toList ≠ name := by
  simp

/-- The layout of a cache whose path ends in a name and does not go up. -/
theorem layout_of_splitOn {before : List Text}
    (hsegments : Text.splitOn '/' cache.path.spelling = before ++ [name]) (hname : IsName name)
    (hup : Path.Component.up ∉ cache.path.components) :
    Layout cache (before.filter (!Path.isIdle ·)) name := by
  have hfront : cache.path.steps.dropLast = before.filter (!Path.isIdle ·) := by
    rw [Path.steps_of_splitOn hsegments hname.1, List.dropLast_concat]
  have hsite := site_of_fileName? (Path.fileName?_of_splitOn hsegments hname.1 hname.2) hup
  rw [hfront] at hsite
  refine ⟨hsite, fun files directory harrives ↦ ?_⟩
  exact (entry?_eq_some_iff hsegments hname).mpr ⟨directory, rfl, harrives⟩

/-- What stands at the paths of a cache and its draft, if the directory of both is there. -/
theorem Layout.standsAt_of_arrivesAt (hlayout : Layout cache front name)
    (harrives : files.ArrivesAt (origin cache.path files.working) front directory) :
    files.standsAt cache.path = files.contentAt? (name :: directory) ∧
      files.standsAt cache.draft = files.contentAt? ((name ++ ".tmp".toList) :: directory) :=
  ⟨standsAt_of_entry ((hlayout.entry?_path files _).mpr ⟨directory, rfl, harrives⟩),
    standsAt_of_entry ((hlayout.entry?_draft files _).mpr ⟨directory, rfl, harrives⟩)⟩

theorem draft_location_ne (name : Text) (directory : Location) :
    (name ++ ".tmp".toList) :: directory ≠ name :: directory :=
  fun heq ↦ draft_ne name (List.cons.inj heq).1

/-- Whether a file system is one that saving can rely on: its entries lie in directories, the draft
is no link, and nothing but a file stands at the path of the cache. -/
structure IsSound (cache : CacheFile) (files : FileSystem) : Prop where
  tree : files.IsTree
  draft_ne_link : ∀ target, files.standsAt cache.draft ≠ some (.link target)
  path_file : ∀ content, files.standsAt cache.path = some content → ∃ bytes, content = .file bytes

/-- Whether a change leaves in order what saving relies on, and what stands at the path of the cache
as it was. -/
structure LeavesAlone (cache : CacheFile) (after before : FileSystem) : Prop where
  sound : cache.IsSound after
  standsAt_path : after.standsAt cache.path = before.standsAt cache.path
  now_eq : after.now = before.now

theorem LeavesAlone.trans (h : LeavesAlone cache middle files)
    (h' : LeavesAlone cache after middle) : LeavesAlone cache after files where
  sound := h'.sound
  standsAt_path := h'.standsAt_path.trans h.standsAt_path
  now_eq := h'.now_eq.trans h.now_eq

theorem Layout.leavesAlone_of_directorySteps (hlayout : Layout cache front name)
    (hsound : cache.IsSound files) :
    LeavesAlone cache (FileStep.runAll files (cache.directorySteps files)).1 files := by
  have hprepares := hlayout.prepares_runAll hsound.tree hsound.draft_ne_link
    (makesWay_directorySteps cache files)
  refine ⟨⟨hprepares.tree, hprepares.draft_ne_link, ?_⟩, hprepares.standsAt_path,
    hprepares.now_eq⟩
  rw [hprepares.standsAt_path]
  exact hsound.path_file

/-- The draft is written as an entry of the directory of the cache. -/
theorem Layout.writeFile_cases (hlayout : Layout cache front name)
    (hdraft : ∀ target, files.standsAt cache.draft ≠ some (.link target))
    (hwrite : files.writeFile cache.draft bytes = .ok after) :
    ∃ directory, files.ArrivesAt (origin cache.path files.working) front directory ∧
      files.IsFree ((name ++ ".tmp".toList) :: directory) ∧
      after = files.setContent ((name ++ ".tmp".toList) :: directory) (.file bytes) ∧
      after.standsAt cache.path = files.standsAt cache.path ∧
      after.standsAt cache.draft = some (.file bytes) := by
  obtain ⟨location, hentry, hfree, rfl⟩ := writeFile_of_not_link hdraft hwrite
  obtain ⟨directory, rfl, harrives⟩ := (hlayout.entry?_draft files location).mp hentry
  have hkeeps := keeps_set hfree ⟨.file bytes, files.now⟩
  obtain ⟨hpath, _⟩ := hlayout.standsAt_of_arrivesAt harrives
  obtain ⟨hpathAfter, hdraftAfter⟩ := hlayout.standsAt_of_arrivesAt (hkeeps.arrivesAt harrives)
  rw [contentAt?_set_of_ne _ (draft_location_ne name directory).symm, ← hpath] at hpathAfter
  rw [contentAt?_set] at hdraftAfter
  exact ⟨directory, harrives, hfree, rfl, hpathAfter, hdraftAfter⟩

theorem Layout.leavesAlone_of_writeFile (hlayout : Layout cache front name)
    (hsound : cache.IsSound files) (hwrite : files.writeFile cache.draft bytes = .ok after) :
    LeavesAlone cache after files ∧ after.standsAt cache.draft = some (.file bytes) := by
  obtain ⟨directory, harrives, hfree, rfl, hpathAfter, hdraftAfter⟩ :=
    hlayout.writeFile_cases hsound.draft_ne_link hwrite
  refine ⟨⟨⟨hsound.tree.set harrives.2 hfree _, ?_, ?_⟩, hpathAfter, rfl⟩, hdraftAfter⟩
  · intro target hlink
    cases hdraftAfter.symm.trans hlink
  · intro content hcontent
    exact hsound.path_file content (hpathAfter.symm.trans hcontent)

/-- The draft is moved from one entry of the directory of the cache to the other. -/
theorem Layout.rename_cases (hlayout : Layout cache front name)
    (hdraft : files.standsAt cache.draft = some (.file bytes))
    (hrename : files.rename cache.draft cache.path = .ok after) :
    ∃ directory node, files.ArrivesAt (origin cache.path files.working) front directory ∧
      files.contentAt? ((name ++ ".tmp".toList) :: directory) = some (.file bytes) ∧
      node.content = .file bytes ∧ files.isDirectoryAt (name :: directory) = false ∧
      after = (files.erase ((name ++ ".tmp".toList) :: directory)).set (name :: directory)
        node := by
  obtain ⟨_, _, _, _, _, _, node, hsource, htarget, hnode, _, hplain, rfl⟩ :=
    FileSystem.rename_cases hrename
  have hsourceEntry := entry?_of_lastStep hsource
  obtain ⟨directory, hsourceLocation, harrives⟩ := (hlayout.entry?_draft files _).mp hsourceEntry
  obtain ⟨directory', htargetLocation, harrives'⟩ :=
    (hlayout.entry?_path files _).mp (entry?_of_lastStep htarget)
  obtain rfl := harrives.unique harrives'
  obtain ⟨_, hdraftBefore⟩ := hlayout.standsAt_of_arrivesAt harrives
  have hfile := hdraftBefore.symm.trans hdraft
  rw [hsourceLocation] at hnode ⊢
  rw [htargetLocation] at hplain ⊢
  refine ⟨directory, node, harrives, hfile, ?_, hplain, rfl⟩
  rw [contentAt?, hnode] at hfile
  exact Option.some.inj hfile

/-- The draft takes the place of what stood at the path of the cache. -/
theorem Layout.standsAt_of_rename (hlayout : Layout cache front name)
    (hsound : cache.IsSound files) (hdraft : files.standsAt cache.draft = some (.file bytes))
    (hrename : files.rename cache.draft cache.path = .ok after) :
    cache.IsSound after ∧ after.standsAt cache.path = some (.file bytes) ∧
      after.now = files.now := by
  obtain ⟨directory, node, harrives, hfile, hnode, _, rfl⟩ := hlayout.rename_cases hdraft hrename
  obtain ⟨hpathBefore, _⟩ := hlayout.standsAt_of_arrivesAt harrives
  have hne := draft_location_ne name directory
  have hfreeSource := isFree_of_file hfile
  have hfreeTarget : (files.erase ((name ++ ".tmp".toList) :: directory)).IsFree
      (name :: directory) := by
    unfold IsFree
    rw [contentAt?_erase_of_ne hne.symm, ← hpathBefore]
    exact hsound.path_file
  have harrivesErased := (keeps_erase hfreeSource).arrivesAt harrives
  have harrivesAfter := (keeps_set hfreeTarget node).arrivesAt harrivesErased
  obtain ⟨hstands, hgone⟩ := hlayout.standsAt_of_arrivesAt harrivesAfter
  rw [contentAt?_set, hnode] at hstands
  rw [contentAt?_set_of_ne node hne, contentAt?_erase] at hgone
  refine ⟨⟨(hsound.tree.erase hfreeSource).set harrivesErased.2 hfreeTarget node, ?_, ?_⟩, hstands,
    rfl⟩
  · intro target hlink
    cases hgone.symm.trans hlink
  · intro content hcontent
    exact ⟨bytes, Option.some.inj (hcontent.symm.trans hstands)⟩

/-- The steps of saving leave the new record if all succeed, and otherwise what was there. -/
theorem Layout.runAll_saveSteps (hlayout : Layout cache front name) (hsound : cache.IsSound files)
    (snapshot : Snapshot) {failure : Option (FileStep × FileError)}
    (hrun : FileStep.runAll files (cache.saveSteps files snapshot) = (after, failure)) :
    cache.IsSound after ∧ after.now = files.now ∧ after.standsAt cache.path =
      if failure = none then some (.file (Utf8.encode snapshot.write))
      else files.standsAt cache.path := by
  have hdirectories := hlayout.leavesAlone_of_directorySteps hsound
  rcases FileStep.runAll_replace_cases hrun with ⟨rfl, hfailure⟩ |
    ⟨middle, written, hmiddle, hwrite, hend⟩
  · rw [if_neg hfailure]
    exact ⟨hdirectories.sound, hdirectories.now_eq, hdirectories.standsAt_path⟩
  · rw [hmiddle] at hdirectories
    obtain ⟨hwritten, hdraft⟩ := hlayout.leavesAlone_of_writeFile hdirectories.sound hwrite
    have hall := hdirectories.trans hwritten
    rcases hend with ⟨rfl, hfailure⟩ | ⟨hrename, hdone⟩
    · rw [if_neg hfailure]
      exact ⟨hall.sound, hall.now_eq, hall.standsAt_path⟩
    · obtain ⟨hsoundAfter, hstands, hnow⟩ :=
        hlayout.standsAt_of_rename hwritten.sound hdraft hrename
      rw [if_pos hdone]
      exact ⟨hsoundAfter, hnow.trans hall.now_eq, hstands⟩

/-- Saving leaves the new record if it meets no error, and otherwise what was there. -/
theorem Layout.save (hlayout : Layout cache front name) (hsound : cache.IsSound files)
    (root : Path) (catalog : Catalog) {error : Option CacheSaveError}
    (hsave : (cache.save files root catalog).value = (after, error)) :
    cache.IsSound after ∧ after.now = files.now ∧ after.standsAt cache.path =
      if error = none then
        some (.file (Utf8.encode (Snapshot.ofCatalog root files.now catalog).write))
      else files.standsAt cache.path := by
  obtain ⟨failure, hrun, hnone⟩ := exists_run_of_save hsave
  simpa only [hnone] using hlayout.runAll_saveSteps hsound _ hrun

theorem Layout.removeFile (hlayout : Layout cache front name) (hsound : cache.IsSound files)
    (hremove : files.removeFile cache.path = .ok after) :
    cache.IsSound after ∧ after.now = files.now ∧ after.standsAt cache.path = none := by
  obtain ⟨_, location, content, hentry, hcontent, _, rfl⟩ := removeFile_eq_ok_iff.mp hremove
  obtain ⟨directory, rfl, harrives⟩ := (hlayout.entry?_path files _).mp hentry
  obtain ⟨hpath, hdraft⟩ := hlayout.standsAt_of_arrivesAt harrives
  have hfree : files.IsFree (name :: directory) := by
    unfold IsFree
    rw [← hpath]
    exact hsound.path_file
  obtain ⟨hgone, hkept⟩ := hlayout.standsAt_of_arrivesAt ((keeps_erase hfree).arrivesAt harrives)
  rw [contentAt?_erase] at hgone
  rw [contentAt?_erase_of_ne (draft_location_ne name directory), ← hdraft] at hkept
  refine ⟨⟨hsound.tree.erase hfree, ?_, ?_⟩, rfl, hgone⟩
  · rw [hkept]
    exact hsound.draft_ne_link
  · intro content' hcontent'
    cases hgone.symm.trans hcontent'

end DefCatalog.CacheFile
