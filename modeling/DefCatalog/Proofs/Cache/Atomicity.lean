import DefCatalog.Proofs.Cache.Slot
import DefCatalog.Proofs.Files.Asking

/-!
# Saving is all or nothing

Saving can stop after any of its steps, because the next one fails or because nothing carries it
out. At the path of the cache one reads what one read before, until the draft is renamed, and from
then on the whole new record. There are two exceptions, and both need a link at that path. The link
can lead through the draft, so that what is read changes as soon as the draft is written. And the
link can lie on the way to its own directory, so that renaming the draft cuts that way off.
-/

namespace DefCatalog

open FileSystem

namespace FileSystem

variable {files after : FileSystem} {path : Path} {bytes : Bytes} {location : Location}
  {target : Path}

theorem exists_locate_of_pathExists (h : files.pathExists path = true) :
    ∃ location, files.locate path = .ok location := by
  unfold pathExists stat at h
  cases hlocate : files.locate path with
  | ok location => exact ⟨location, rfl⟩
  | error reason => simp [hlocate] at h

end FileSystem

namespace CacheFile

variable {cache : CacheFile} {files middle written after : FileSystem} {front : List Text}
  {name : Text} {location : Location} {bytes : Bytes} {root : Path} {catalog : Catalog}

/-- The files after the directories above a cache are made. -/
def prepared (cache : CacheFile) (files : FileSystem) : FileSystem :=
  (FileStep.runAll files (cache.directorySteps files)).1

/-- Whether the path of a cache leads through its draft. -/
def PassesDraft (cache : CacheFile) (files : FileSystem) : Prop :=
  ∃ location, files.entry? cache.draft = some location ∧ location ∈ files.asked cache.path

/-- Whether a link stands at the path of a cache, beside its draft. -/
def EndsInLink (cache : CacheFile) (files : FileSystem) : Prop :=
  ∃ name directory target, cache.path.fileName? = some name ∧
    files.entry? cache.draft = some ((name ++ ".tmp".toList) :: directory) ∧
    files.contentAt? (name :: directory) = some (.link target)

/-- Whether the entry at the path of a cache is a link without which the path does not lead to that
entry. -/
def CutsItsWay (cache : CacheFile) (files : FileSystem) : Prop :=
  ∃ location target, files.entry? cache.path = some location ∧
    files.contentAt? location = some (.link target) ∧
    FileSystem.entry? (files.erase location) cache.path ≠ some location

/-- Whether saving may change what stands at a location: that of the cache, that of its draft, or
that of a directory above them which is missing. -/
def TakesUp (cache : CacheFile) (files : FileSystem) (location : Location) : Prop :=
  FileSystem.entry? (cache.prepared files) cache.path = some location ∨
    FileSystem.entry? (cache.prepared files) cache.draft = some location ∨
    files.contentAt? location = none ∧ cache.LiesAbove (cache.prepared files) location

/-- What saving a record leaves to be read, whether or not it has come as far as renaming the draft,
and what else it changes. -/
structure AllOrNothing (cache : CacheFile) (record : Bytes) (renamed : Prop)
    (after before : FileSystem) : Prop where
  /-- Nothing is read but what was read before, except where a link at the path leads through a draft
  that is written already. -/
  before_rename : ¬renamed → after.readFile cache.path = before.readFile cache.path ∨
    cache.PassesDraft (cache.prepared before) ∧ cache.EndsInLink (cache.prepared before) ∧
      (after.readFile cache.path = .ok record ∨
        before.readFile cache.path = .error .notFound ∧
          after.readFile cache.path = .error .notDirectory)
  /-- The record is read, except where nothing can be read, as before. -/
  after_rename : renamed → after.readFile cache.path = .ok record ∨
    cache.CutsItsWay (cache.prepared before) ∧
      (∀ bytes, before.readFile cache.path ≠ .ok bytes) ∧
      ∀ bytes, after.readFile cache.path ≠ .ok bytes
  draft_gone : renamed → after.pathExists cache.draft = false
  changed : ∀ location, after.get? location ≠ before.get? location →
    cache.TakesUp before location

theorem Prepares.readFile_eq (h : cache.Prepares after files) :
    after.readFile cache.path = files.readFile cache.path := by
  rcases h.path_cases with rfl | ⟨hbefore, hafter⟩
  · rfl
  · simp [readFile, stat, hbefore.locate_path, hafter.locate_path]

/-- The directories that are made at first are among those that are made in the end. -/
theorem prepares_of_prefix (hup : Path.Component.up ∉ cache.path.components)
    (htree : files.IsTree) (hdraft : ∀ target, files.standsAt cache.draft ≠ some (.link target))
    {steps : List FileStep} (hsteps : steps <+: cache.directorySteps files) :
    cache.Prepares (FileStep.runAll files steps).1 files ∧
      cache.Prepares (cache.prepared files) (FileStep.runAll files steps).1 := by
  unfold prepared
  obtain ⟨rest, hrest⟩ := hsteps
  have hall := makesWay_directorySteps cache files
  rw [← hrest] at hall ⊢
  have hfirst := prepares_runAll hup htree hdraft
    fun step hstep ↦ hall step (List.mem_append_left _ hstep)
  refine ⟨hfirst, ?_⟩
  rw [FileStep.runAll_append]
  split
  · rename_i middle hmiddle
    rw [hmiddle] at hfirst ⊢
    exact prepares_runAll hup hfirst.tree hfirst.draft_ne_link
      fun step hstep ↦ hall step (List.mem_append_right _ hstep)
  · rename_i middle failure hmiddle
    rw [hmiddle] at hfirst ⊢
    exact prepares_refl hfirst.tree hfirst.draft_ne_link

/-- A path without a name at its end does not lead through the draft. -/
theorem not_mem_asked_of_fileName? (hname : cache.path.fileName? = none)
    (hup : Path.Component.up ∉ cache.path.components)
    (hentry : files.entry? cache.draft = some location) (hfree : files.IsFree location) :
    location ∉ files.asked cache.path := by
  intro hasked
  have hidle : ∀ segment ∈ Text.splitOn '/' cache.path.spelling, Path.isIdle segment = true := by
    simpa [Path.steps] using Path.steps_eq_nil_of_fileName? hname hup
  obtain rfl : location = origin cache.path files.working :=
    eq_of_mem_askedFrom_of_idle hidle hasked
  have habsolute : cache.draft.isAbsolute = cache.path.isAbsolute := by
    have hdraft : cache.draft = cache.path.join ⟨".tmp".toList⟩ := by
      unfold draft Path.withFileName
      rw [hname]
      rfl
    rw [hdraft]
    by_cases hspelling : cache.path.spelling = []
    · simp [Path.join, Path.isAbsolute, hspelling]
    · exact isAbsolute_join hspelling (by decide)
  obtain ⟨last, directory, left, hlocation, hstep⟩ := lastStep_of_entry hentry
  obtain ⟨before, _, _, hwalk, hdirectory⟩ := lastStepFrom_eq_ok hstep
  rw [origin_congr habsolute] at hwalk
  cases hplace : files.isDirectoryAt (origin cache.path files.working) with
  | true =>
    obtain ⟨found, hfile⟩ := hfree .directory (isDirectoryAt_iff.mp hplace)
    cases hfile
  | false =>
    have hend := eq_of_walk_from hplace hwalk
    exact List.cons_ne_self _ _ (hlocation.symm.trans hend.symm)

theorem endsInLink_of_mem_asked (hup : Path.Component.up ∉ cache.path.components)
    (hentry : files.entry? cache.draft = some location) (hfree : files.IsFree location)
    (hasked : location ∈ files.asked cache.path) : cache.EndsInLink files := by
  cases hname : cache.path.fileName? with
  | none => exact absurd hasked (not_mem_asked_of_fileName? hname hup hentry hfree)
  | some name =>
    have hsite := site_of_fileName? hname hup
    obtain ⟨directory, rfl, harrives⟩ := (hsite.entry?_draft files location).mp hentry
    obtain ⟨before, rest, hsegments, hbefore, hidle⟩ := Path.splitOn_of_fileName? hname
    obtain ⟨⟨left, hfront⟩, hdirectory⟩ := harrives
    rw [← hbefore] at hfront
    obtain ⟨hwalk, _⟩ := walk_filter.mpr ⟨hfront, hdirectory⟩
    by_cases hlink : ∃ target, files.contentAt? (name :: directory) = some (.link target)
    · obtain ⟨target, htarget⟩ := hlink
      exact ⟨name, directory, target, hname, hentry, htarget⟩
    · exfalso
      have hlast : IsName name := hsite.isName name
        (hsite.steps_path ▸ List.mem_append_right _ (List.mem_singleton.mpr rfl))
      unfold asked at hasked
      rw [hsegments] at hasked
      rcases mem_askedFrom_append hwalk hasked with hbefore | hend
      · rcases not_isFree_of_mem_askedFrom hwalk hbefore with heq | hnot
        · exact List.cons_ne_self _ _ heq
        · exact hnot hfree
      · rcases eq_or_eq_of_mem_askedFrom hlast hidle (not_exists.mp hlink) hend with heq | heq
        · exact List.cons_ne_self _ _ heq
        · exact draft_location_ne name directory heq

/-- What is written at the draft is not read at the path of the cache, unless a link at that path
leads through the draft. -/
theorem readFile_of_writeFile (hup : Path.Component.up ∉ cache.path.components)
    (hdraft : ∀ target, files.standsAt cache.draft ≠ some (.link target))
    (hwrite : files.writeFile cache.draft bytes = .ok written) :
    written.readFile cache.path = files.readFile cache.path ∨
      cache.PassesDraft files ∧ cache.EndsInLink files ∧
        (written.readFile cache.path = .ok bytes ∨
          files.readFile cache.path = .error .notFound ∧
            written.readFile cache.path = .error .notDirectory) := by
  obtain ⟨location, hentry, hfree, rfl⟩ := writeFile_of_not_link hdraft hwrite
  by_cases hasked : location ∈ files.asked cache.path
  · have hlink := endsInLink_of_mem_asked hup hentry hfree hasked
    rcases readFile_setContent_cases hfree bytes cache.path with hsame | ⟨_, hread⟩ | hfailed
    · exact Or.inl hsame
    · exact Or.inr ⟨⟨location, hentry, hasked⟩, hlink, Or.inl hread⟩
    · exact Or.inr ⟨⟨location, hentry, hasked⟩, hlink, Or.inr hfailed⟩
  · left
    have hsame : SameAlong (files.setContent location (.file bytes)) files cache.path := by
      intro other hother
      have hne : other ≠ location := fun heq ↦ hasked (heq ▸ hother)
      rw [setContent, get?_set_of_ne files _ hne]
    exact hsame.readFile_eq rfl

/-! ## Renaming -/

/-- Unless a link on the way is removed, the directory of a cache is still arrived at. -/
theorem Layout.arrivesAt_erase (hlayout : Layout cache front name) {directory : Location}
    (harrives : files.ArrivesAt (origin cache.path files.working) front directory)
    (hplain : files.isDirectoryAt (name :: directory) = false) (hcuts : ¬cache.CutsItsWay files) :
    (files.erase (name :: directory)).ArrivesAt (origin cache.path files.working) front
      directory := by
  have hentry := (hlayout.entry?_path files _).mpr ⟨directory, rfl, harrives⟩
  cases hcontent : files.contentAt? (name :: directory) with
  | none => exact (keeps_erase (isFree_of_none hcontent)).arrivesAt harrives
  | some content =>
    cases content with
    | file bytes => exact (keeps_erase (isFree_of_file hcontent)).arrivesAt harrives
    | directory =>
      rw [isDirectoryAt_iff.mpr hcontent] at hplain
      cases hplain
    | link target =>
      have herased : FileSystem.entry? (files.erase (name :: directory)) cache.path =
          some (name :: directory) :=
        Decidable.not_not.mp fun hne ↦ hcuts ⟨_, target, hentry, hcontent, hne⟩
      obtain ⟨same, hsame, herasedArrives⟩ := (hlayout.entry?_path _ _).mp herased
      obtain rfl := (List.cons.inj hsame).2
      exact herasedArrives

theorem readFile_ne_of_cutsItsWay (hcuts : cache.CutsItsWay files) :
    files.readFile cache.path ≠ .ok bytes := by
  intro hread
  obtain ⟨entry, target, hentry, hlink, hcut⟩ := hcuts
  obtain ⟨name, directory, left, rfl, hstep⟩ := lastStep_of_entry hentry
  obtain ⟨segments, hsegments, hname, hwalk, hdirectory⟩ := lastStepFrom_eq_ok hstep
  obtain ⟨goal, hlocate, hfile⟩ := readFile_eq_ok_iff.mp hread
  obtain ⟨_, hall⟩ := locate_eq_ok hlocate
  rw [hsegments] at hall
  obtain ⟨_, hlast⟩ := exists_walk_behind hwalk hall
  obtain ⟨_, _, hbehind⟩ := walk_link_cases hdirectory hname hlink hlast
  rw [List.append_nil] at hbehind
  have hplain := not_isDirectoryAt hfile Content.noConfusion
  have hother {other : Location} {content : Content}
      (hcontent : (files.erase (name :: directory)).contentAt? other = some content) :
      files.contentAt? other = some content :=
    (contentAt?_erase_eq_some_iff.mp hcontent).2
  have hkeeps : Keeps files (files.erase (name :: directory)) := fun _ _ hcontent _ ↦ hother hcontent
  have hagree : AgreesOutside (name :: directory) files (files.erase (name :: directory)) :=
    fun _ hne ↦ Or.inl (contentAt?_erase_of_ne hne).symm
  have hlead : LeadsTo (name :: directory) goal files (files.erase (name :: directory)) := by
    refine ⟨hplain, Or.inr ⟨target, hlink, fun links location remaining hbefore ↦ ?_⟩⟩
    exact walk_location_unique
      (hkeeps.walk_of_file hbefore fun found hfound ↦ ⟨found, hother hfound⟩) hbehind
  rcases walk_of_change hagree hlead hwalk with rfl | hwithout
  · rw [hdirectory] at hplain
    cases hplain
  · apply hcut
    have hkept : (files.erase (name :: directory)).isDirectoryAt directory = true := by
      rwa [isDirectoryAt, contentAt?_erase_of_ne (by simp)]
    have harrives := walk_filter.mp ⟨hwithout, hkept⟩
    exact (entry?_eq_some_iff hsegments hname).mpr
      ⟨directory, rfl, ⟨left, harrives.1⟩, harrives.2⟩

/-- If the path of a cache leads to its directory also without its own entry, then the renamed draft
is read there. -/
theorem Layout.readFile_of_rename (hlayout : Layout cache front name) {before : List Text}
    (hsegments : Text.splitOn '/' cache.path.spelling = before ++ [name]) (hname : IsName name)
    (hshort : cache.path.isTooLong = false)
    {directory : Location} {node : Node} (hnode : node.content = .file bytes)
    (hfile : files.contentAt? ((name ++ ".tmp".toList) :: directory) = some (.file bytes))
    (harrives : (files.erase (name :: directory)).ArrivesAt (origin cache.path files.working) front
      directory) :
    ((files.erase ((name ++ ".tmp".toList) :: directory)).set (name :: directory) node).readFile
      cache.path = .ok bytes := by
  have hne := draft_location_ne name directory
  have hkeeps : Keeps ((files.erase ((name ++ ".tmp".toList) :: directory)).set
      (name :: directory) node) (files.erase (name :: directory)) := by
    intro other content hcontent hplain
    obtain ⟨hother, hcontent⟩ := contentAt?_erase_eq_some_iff.mp hcontent
    rw [contentAt?_set_of_ne node hother,
      contentAt?_erase_of_ne ((isFree_of_file hfile).ne hcontent hplain), hcontent]
  obtain ⟨hstands, _⟩ := hlayout.standsAt_of_arrivesAt (hkeeps.arrivesAt harrives)
  rw [contentAt?_set, hnode] at hstands
  apply (readFile_of_name hsegments hname hshort _).mpr hstands
  intro target hlink
  cases hstands.symm.trans hlink

/-- The way to a directory does not become another one when a draft in it is renamed. -/
theorem directory_of_rename {place directory other : Location} {node : Node}
    (hnode : node.content = .file bytes) (harrives : files.ArrivesAt place front directory)
    (hafter : ((files.erase ((name ++ ".tmp".toList) :: directory)).set (name :: directory)
      node).ArrivesAt place front other) : other = directory := by
  obtain ⟨⟨_, hwalkAfter⟩, hdirectory⟩ := hafter
  obtain ⟨⟨_, hwalk⟩, _⟩ := harrives
  have hnew := contentAt?_set (files.erase ((name ++ ".tmp".toList) :: directory))
    (name :: directory) node
  rw [hnode] at hnew
  exact directory_of_change (agreesOutside_move files _ _ node) (leadsTo_of_file hnew files)
    hdirectory hwalkAfter hwalk

/-- If anything is read at the path of a cache after the draft was renamed, then the path leads to
its directory also without its own entry. -/
theorem Layout.arrivesAt_of_rename (hlayout : Layout cache front name) {before : List Text}
    (hsegments : Text.splitOn '/' cache.path.spelling = before ++ [name]) (hname : IsName name)
    {directory : Location} {node : Node} (hnode : node.content = .file bytes)
    (harrives : files.ArrivesAt (origin cache.path files.working) front directory) {found : Bytes}
    (hread : ((files.erase ((name ++ ".tmp".toList) :: directory)).set (name :: directory)
      node).readFile cache.path = .ok found) :
    (files.erase (name :: directory)).ArrivesAt (origin cache.path files.working) front
      directory := by
  obtain ⟨location, hlocate, _⟩ := readFile_eq_ok_iff.mp hread
  obtain ⟨other, _, hentry, _, _⟩ := locate_of_name hsegments hname hlocate
  obtain ⟨_, hsame, hafter⟩ := (hlayout.entry?_path _ _).mp hentry
  obtain rfl := (List.cons.inj hsame).2
  obtain rfl := directory_of_rename hnode harrives hafter
  have hkeeps : Keeps (files.erase (name :: other))
      ((files.erase ((name ++ ".tmp".toList) :: other)).set (name :: other) node) := by
    intro place content hcontent hplain
    have hpath : place ≠ name :: other := by
      rintro rfl
      rw [contentAt?_set, hnode] at hcontent
      exact hplain bytes (Option.some.inj hcontent).symm
    rw [contentAt?_set_of_ne node hpath] at hcontent
    rw [contentAt?_erase_of_ne hpath]
    exact (contentAt?_erase_eq_some_iff.mp hcontent).2
  exact hkeeps.arrivesAt hafter

/-- A draft that was renamed does not exist any more. -/
theorem Layout.pathExists_of_rename (hlayout : Layout cache front name)
    (hfileName : cache.path.fileName? = some name) {directory : Location} {node : Node}
    (hnode : node.content = .file bytes)
    (harrives : files.ArrivesAt (origin cache.path files.working) front directory) :
    ((files.erase ((name ++ ".tmp".toList) :: directory)).set (name :: directory) node).pathExists
      cache.draft = false := by
  have hslash : '/' ∉ name := Path.not_mem_fileName? hfileName
  obtain ⟨segments, hsegments, _⟩ := Path.splitOn_withFileName_of_fileName? hfileName
    (by simp [hslash] : '/' ∉ name ++ ".tmp".toList)
  rw [Bool.eq_false_iff]
  intro hexists
  obtain ⟨location, hlocate⟩ := exists_locate_of_pathExists hexists
  have hdraft : cache.draft = cache.path.withFileName (name ++ ".tmp".toList) := by
    unfold draft
    rw [hfileName]
    rfl
  rw [hdraft] at hlocate
  obtain ⟨other, content, hentry, hcontent, _⟩ :=
    locate_of_name hsegments (isName_draft name) hlocate
  rw [← hdraft] at hentry
  obtain ⟨_, hsame, hafter⟩ := (hlayout.entry?_draft _ _).mp hentry
  obtain rfl := (List.cons.inj hsame).2
  obtain rfl := directory_of_rename hnode harrives hafter
  rw [contentAt?_set_of_ne node (draft_location_ne name _), contentAt?_erase] at hcontent
  cases hcontent

/-- What renaming the draft leaves at the two paths, and what else it changes. -/
theorem cases_of_rename (hup : Path.Component.up ∉ cache.path.components)
    (hdraft : ∀ target, files.standsAt cache.draft ≠ some (.link target))
    (hwrite : files.writeFile cache.draft bytes = .ok written)
    (hrename : written.rename cache.draft cache.path = .ok after) :
    (after.readFile cache.path = .ok bytes ∨
        cache.CutsItsWay files ∧ ∀ found, after.readFile cache.path ≠ .ok found) ∧
      after.pathExists cache.draft = false ∧
      ∀ location, after.get? location ≠ written.get? location →
        files.entry? cache.path = some location ∨ files.entry? cache.draft = some location := by
  obtain ⟨front, last, hsegments, hname | hidle⟩ := Path.splitOn_cases hup
  · have hlayout := layout_of_splitOn hsegments hname hup
    obtain ⟨place, harrives, hfree, rfl, _, hstands⟩ := hlayout.writeFile_cases hdraft hwrite
    obtain ⟨directory, node, hrenamed, hfile, hnode, hplain, rfl⟩ :=
      hlayout.rename_cases hstands hrename
    have hkeeps : Keeps (files.setContent ((last ++ ".tmp".toList) :: place) (.file bytes)) files :=
      keeps_set hfree _
    obtain rfl : place = directory := (hkeeps.arrivesAt harrives).unique hrenamed
    have hpathEntry := (hlayout.entry?_path files _).mpr ⟨place, rfl, harrives⟩
    have hdraftEntry := (hlayout.entry?_draft files _).mpr ⟨place, rfl, harrives⟩
    have hne := draft_location_ne last place
    rw [isDirectoryAt, setContent, contentAt?_set_of_ne _ hne.symm] at hplain
    refine ⟨?_, hlayout.pathExists_of_rename (Path.fileName?_of_splitOn hsegments hname.1 hname.2)
      hnode hrenamed, ?_⟩
    · by_cases hcuts : cache.CutsItsWay files
      · refine Or.inr ⟨hcuts, fun found hread ↦ ?_⟩
        obtain ⟨entry, _, hentry, _, hcut⟩ := hcuts
        obtain rfl : entry = last :: place := Option.some.inj (hentry.symm.trans hpathEntry)
        have hback : Keeps files
            (files.setContent ((last ++ ".tmp".toList) :: place) (.file bytes)) :=
          keeps_of_setContent_file
        have hwithout := hlayout.arrivesAt_of_rename hsegments hname hnode hrenamed hread
        exact hcut ((hlayout.entry?_path _ _).mpr
          ⟨place, rfl, (hback.erase (last :: place)).arrivesAt hwithout⟩)
      · left
        apply hlayout.readFile_of_rename hsegments hname (isTooLong_of_rename hrename) hnode hfile
        apply (hkeeps.erase (last :: place)).arrivesAt
        exact hlayout.arrivesAt_erase harrives hplain hcuts
    · intro location hchanged
      by_cases hpath : location = last :: place
      · exact Or.inl (hpath ▸ hpathEntry)
      · by_cases hdraftLocation : location = (last ++ ".tmp".toList) :: place
        · exact Or.inr (hdraftLocation ▸ hdraftEntry)
        · rw [get?_set_of_ne _ node hpath, get?_erase_of_ne _ hdraftLocation] at hchanged
          exact absurd rfl hchanged
  · obtain ⟨_, _, _, _, _, _, _, _, htarget, _⟩ := FileSystem.rename_cases hrename
    obtain ⟨segments, hsegments', hname, _, _⟩ := lastStepFrom_eq_ok htarget
    obtain rfl := (List.cons.inj (List.append_inj' (hsegments.symm.trans hsegments') rfl).2).1
    rw [hname.1] at hidle
    cases hidle

theorem takesUp_of_writeFile (hprepares : cache.Prepares (cache.prepared files) files)
    (hwrite : (cache.prepared files).writeFile cache.draft bytes = .ok written)
    (hchanged : written.get? location ≠ files.get? location) : cache.TakesUp files location := by
  obtain ⟨place, hentry, _, rfl⟩ := writeFile_of_not_link hprepares.draft_ne_link hwrite
  by_cases hplace : location = place
  · exact Or.inr (Or.inl (hplace ▸ hentry))
  · rw [setContent, get?_set_of_ne _ _ hplace] at hchanged
    exact Or.inr (Or.inr (hprepares.made location hchanged))

/-- After any number of its steps, saving has left all or nothing. -/
theorem allOrNothing_runAll (hup : Path.Component.up ∉ cache.path.components)
    (htree : files.IsTree) (hdraft : ∀ target, files.standsAt cache.draft ≠ some (.link target))
    {snapshot : Snapshot} {count : Nat} {failure : Option (FileStep × FileError)}
    (hrun : FileStep.runAll files ((cache.saveSteps files snapshot).take count) =
      (after, failure)) :
    cache.AllOrNothing (Utf8.encode snapshot.write)
      ((cache.saveSteps files snapshot).length ≤ count ∧ failure = none) after files := by
  have hlength : (cache.saveSteps files snapshot).length =
      (cache.directorySteps files).length + 2 := by
    simp [saveSteps]
  rw [hlength]
  rcases FileStep.runAll_take_cases hrun with ⟨rfl, hnot⟩ | ⟨middle, written, hmiddle, hwrite, hend⟩
  · obtain ⟨hdone, hmissing⟩ := prepares_of_prefix hup htree hdraft (List.take_prefix count _)
    refine ⟨fun _ ↦ Or.inl hdone.readFile_eq, fun h ↦ absurd h hnot, fun h ↦ absurd h hnot, ?_⟩
    intro location hchanged
    obtain ⟨hnone, hlies⟩ := hdone.made location hchanged
    exact Or.inr (Or.inr ⟨hnone, hlies.of_keeps hmissing.keeps hmissing.working_eq⟩)
  · have hprepares : cache.Prepares (cache.prepared files) files :=
      prepares_runAll hup htree hdraft (makesWay_directorySteps cache files)
    obtain rfl : middle = cache.prepared files := (congrArg Prod.fst hmiddle).symm
    have hbefore (location : Location)
        (hchanged : written.get? location ≠ files.get? location) : cache.TakesUp files location :=
      takesUp_of_writeFile hprepares hwrite hchanged
    rcases hend with ⟨rfl, hnot⟩ | ⟨hrename, hyes⟩
    · refine ⟨fun _ ↦ ?_, fun h ↦ absurd h hnot, fun h ↦ absurd h hnot, hbefore⟩
      rw [← hprepares.readFile_eq]
      exact readFile_of_writeFile hup hprepares.draft_ne_link hwrite
    · obtain ⟨hread, hgone, hchanged⟩ :=
        cases_of_rename hup hprepares.draft_ne_link hwrite hrename
      refine ⟨fun h ↦ absurd hyes h, fun _ ↦ ?_, fun _ ↦ hgone, ?_⟩
      · rcases hread with hread | ⟨hcuts, hnothing⟩
        · exact Or.inl hread
        · rw [← hprepares.readFile_eq]
          exact Or.inr ⟨hcuts, fun _ ↦ readFile_ne_of_cutsItsWay hcuts, hnothing⟩
      · intro location hdiffers
        by_cases hlast : after.get? location = written.get? location
        · exact hbefore location (hlast ▸ hdiffers)
        · exact (hchanged location hlast).imp_right Or.inl

/-- Saving as a whole leaves all or nothing. -/
theorem allOrNothing_of_save (hup : Path.Component.up ∉ cache.path.components)
    (htree : files.IsTree) (hdraft : ∀ target, files.standsAt cache.draft ≠ some (.link target))
    {error : Option CacheSaveError}
    (hsave : (cache.save files root catalog).value = (after, error)) :
    cache.AllOrNothing (Utf8.encode (Snapshot.ofCatalog root files.now catalog).write)
      (error = none) after files := by
  obtain ⟨failure, hrun, hnone⟩ := exists_run_of_save hsave
  have hall := allOrNothing_runAll hup htree hdraft ((congrArg _ (List.take_length)).trans hrun)
  simpa only [Nat.le_refl, true_and, hnone] using hall

/-- Saving is all or nothing: after any number of its steps, and in the end, whether it has met an
error or not. -/
theorem allOrNothing_save (hup : Path.Component.up ∉ cache.path.components)
    (htree : files.IsTree) (hdraft : ∀ target, files.standsAt cache.draft ≠ some (.link target))
    (root : Path) (catalog : Catalog) :
    let snapshot := Snapshot.ofCatalog root files.now catalog
    let steps := cache.saveSteps files snapshot
    (∀ count after failure, FileStep.runAll files (steps.take count) = (after, failure) →
        cache.AllOrNothing (Utf8.encode snapshot.write) (steps.length ≤ count ∧ failure = none)
          after files) ∧
      ∀ after error, (cache.save files root catalog).value = (after, error) →
        cache.AllOrNothing (Utf8.encode snapshot.write) (error = none) after files := by
  intro snapshot steps
  exact ⟨fun count after failure hrun ↦ allOrNothing_runAll hup htree hdraft hrun,
    fun after error hsave ↦ allOrNothing_of_save hup htree hdraft hsave⟩

theorem allOrNothing_save_sample :
    (Path.Component.up ∉ sampleCache.path.components ∧ sampleFiles.IsTree ∧
      ∀ target, sampleFiles.standsAt sampleCache.draft ≠ some (.link target)) ∧
    (sampleCache.save sampleFiles (.ofString "/game") sampleCatalog).value.2 = none ∧
    sampleCache.AllOrNothing
      (Utf8.encode (Snapshot.ofCatalog (.ofString "/game") sampleFiles.now sampleCatalog).write)
      ((sampleCache.save sampleFiles (.ofString "/game") sampleCatalog).value.2 = none)
      (sampleCache.save sampleFiles (.ofString "/game") sampleCatalog).value.1 sampleFiles := by
  have hup : Path.Component.up ∉ sampleCache.path.components := by decide
  have htree : sampleFiles.IsTree := by decide +kernel
  have hnone : sampleFiles.standsAt sampleCache.draft = none := by decide +kernel
  have hdraft : ∀ target, sampleFiles.standsAt sampleCache.draft ≠ some (.link target) := by
    simp [hnone]
  refine ⟨⟨hup, htree, hdraft⟩, by decide +kernel, ?_⟩
  obtain ⟨_, hall⟩ := allOrNothing_save hup htree hdraft (.ofString "/game") sampleCatalog
  generalize hsave : (sampleCache.save sampleFiles (.ofString "/game") sampleCatalog).value = result
  obtain ⟨after, error⟩ := result
  exact hall after error hsave

/-- Whether, at the path of a cache, one reads what one read before or, once the draft is renamed,
the record that is saved. -/
def ReadsOldOrNew (cache : CacheFile) (files : FileSystem) (snapshot : Snapshot) : Prop :=
  ∀ count,
    let run := FileStep.runAll files ((cache.saveSteps files snapshot).take count)
    run.1.readFile cache.path = files.readFile cache.path ∨
      ((cache.saveSteps files snapshot).length ≤ count ∧ run.2 = none) ∧
        run.1.readFile cache.path = .ok (Utf8.encode snapshot.write)

/-- A file system in which the link at the path of the cache leads to its draft. -/
def draftLinked : FileSystem where
  nodes := [([], ⟨.directory, ⟨10, 0⟩⟩), (["kept".toList], ⟨.directory, ⟨10, 0⟩⟩),
    (["index".toList, "kept".toList], ⟨.link (.ofString "index.tmp"), ⟨10, 0⟩⟩)]
  working := []
  now := ⟨20, 0⟩

/-- A cache whose path passes the link at its end before. -/
def loopedCache : CacheFile :=
  ⟨.ofString "kept/index/index"⟩

/-- A file system in which that link leads to its own directory. -/
def selfLinked : FileSystem where
  nodes := [([], ⟨.directory, ⟨10, 0⟩⟩), (["kept".toList], ⟨.directory, ⟨10, 0⟩⟩),
    (["index".toList, "kept".toList], ⟨.link (.ofString "."), ⟨10, 0⟩⟩)]
  working := []
  now := ⟨20, 0⟩

/-- Through a link to the draft the record is read before the draft is renamed, and where renaming
the draft cuts the way off, saving succeeds but nothing is read at the path. -/
theorem not_readsOldOrNew_of_link :
    (Path.Component.up ∉ sampleCache.path.components ∧ draftLinked.IsTree ∧
      draftLinked.standsAt sampleCache.draft = none ∧
      ¬sampleCache.ReadsOldOrNew draftLinked (.ofCatalog (.ofString "/game") ⟨20, 0⟩ ∅)) ∧
    Path.Component.up ∉ loopedCache.path.components ∧ selfLinked.IsTree ∧
      selfLinked.standsAt loopedCache.draft = none ∧
      (loopedCache.save selfLinked (.ofString "/game") ∅).value.2 = none ∧
      ¬loopedCache.ReadsOldOrNew selfLinked (.ofCatalog (.ofString "/game") ⟨20, 0⟩ ∅) := by
  refine ⟨⟨by decide, by decide +kernel, by decide +kernel, fun h ↦ ?_⟩, by decide,
    by decide +kernel, by decide +kernel, by decide +kernel, fun h ↦ ?_⟩
  · have hwritten := h 1
    revert hwritten
    decide +kernel
  · have hrenamed := h 2
    revert hrenamed
    decide +kernel

end CacheFile

end DefCatalog
