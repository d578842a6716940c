import DefCatalog.Proofs.Cache.Atomicity
import DefCatalog.Proofs.Files.Directories

/-!
# Saving again and again

Saving once makes all directories that are missing above a cache or none of them, and in the second
case it does nothing at all. So what saving again may change is nothing that saving for the first
time could not have changed, whatever has become of the saves in between.
-/

namespace DefCatalog.CacheFile

open FileSystem

variable {cache : CacheFile} {files after before written : FileSystem} {location : Location}
  {bytes : Bytes} {root : Path} {catalog : Catalog} {error : Option CacheSaveError}
  {steps : List FileStep}

/-- Whether the path above a cache, if there is one, leads to a directory. -/
def HasDirectory (cache : CacheFile) (files : FileSystem) : Prop :=
  ∀ parent, cache.path.parent? = some parent → parent.spelling ≠ [] →
    ∃ directory, files.ArrivesAt (origin parent files.working) parent.steps directory

theorem HasDirectory.of_keeps (h : cache.HasDirectory before) (hkeeps : Keeps after before)
    (hworking : after.working = before.working) : cache.HasDirectory after := by
  intro parent hparent hspelling
  obtain ⟨directory, harrives⟩ := h parent hparent hspelling
  exact ⟨directory, hworking ▸ hkeeps.arrivesAt harrives⟩

theorem HasDirectory.runAll_eq (h : cache.HasDirectory files)
    (hsteps : ∀ step ∈ steps, cache.MakesWay step) : (FileStep.runAll files steps).1 = files := by
  induction steps with
  | nil => rfl
  | cons step steps ih =>
    rw [List.forall_mem_cons] at hsteps
    obtain ⟨parent, path, hparent, hparentSpelling, hmem, hspelling, rfl⟩ := hsteps.1
    obtain ⟨hbegin, habsolute⟩ := Path.steps_prefix_of_mem_ancestorsUpTo hmem hspelling
    have horigin : origin path files.working = origin parent files.working :=
      origin_congr habsolute _
    obtain ⟨directory, harrives⟩ := h parent hparent hparentSpelling
    unfold FileStep.runAll FileStep.run
    dsimp only
    cases hmake : files.makeDirectory path with
    | ok made => exact absurd (horigin ▸ harrives) (not_arrivesAt_of_makeDirectory hmake hbegin)
    | error reason =>
      dsimp only
      cases files.isDirectory path with
      | true => exact ih hsteps.2
      | false => rfl

theorem HasDirectory.prepared_eq (h : cache.HasDirectory files) : cache.prepared files = files :=
  h.runAll_eq (makesWay_directorySteps cache files)

theorem isName_of_mem_steps (hup : Path.Component.up ∉ cache.path.components) {segment : Text}
    (hmem : segment ∈ cache.path.steps) : IsName segment := by
  refine ⟨by simpa using (List.mem_filter.mp hmem).2, ?_⟩
  rintro rfl
  exact Path.up_not_mem_steps hup hmem

/-- Preparing a cache changes nothing, or the cache has a directory afterwards. -/
theorem prepared_cases (hup : Path.Component.up ∉ cache.path.components) (htree : files.IsTree) :
    cache.prepared files = files ∨ cache.HasDirectory (cache.prepared files) := by
  unfold prepared directorySteps
  cases hparent : cache.path.parent? with
  | none => exact Or.inl rfl
  | some parent =>
    dsimp only
    split
    · exact Or.inl rfl
    · rename_i hneeded
      rw [not_or, Bool.not_eq_true] at hneeded
      have hplain : files.isDirectory parent = false := by
        rw [Bool.eq_false_iff]
        intro hdirectory
        obtain ⟨location, hlocate, hthere⟩ := isDirectory_iff.mp hdirectory
        have hexists := pathExists_iff.mpr ⟨location, _, hlocate, isDirectoryAt_iff.mp hthere⟩
        rw [hneeded.2] at hexists
        cases hexists
      obtain ⟨hsteps, _⟩ := Path.parent?_eq_some hparent
      have hnames (segment : Text) (hmem : segment ∈ parent.steps) : IsName segment :=
        isName_of_mem_steps hup (List.dropLast_subset _ (hsteps ▸ hmem))
      refine (nothingOrNew_upToStanding htree parent.components.length hparent hneeded.1 hnames
        hplain).imp_right fun h ↦ ?_
      intro other hother _
      obtain rfl : parent = other := Option.some.inj (hparent.symm.trans hother)
      obtain ⟨directory, harrives, _⟩ := h.2.2
      exact ⟨directory, harrives⟩

theorem directorySteps_eq (h : SameContents after before) :
    cache.directorySteps after = cache.directorySteps before := by
  unfold directorySteps
  simp only [h.pathExists_eq, h.makeDirectories_eq]

theorem sameContents_prepared (h : SameContents after before) :
    SameContents (cache.prepared after) (cache.prepared before) := by
  unfold prepared
  rw [directorySteps_eq h]
  unfold directorySteps
  split
  · exact h
  · split
    · exact h
    · exact h.runAll_ensure _

theorem TakesUp.of_sameContents (h : cache.TakesUp before location)
    (hsame : SameContents after before) : cache.TakesUp after location := by
  have hprepared : SameContents (cache.prepared after) (cache.prepared before) :=
    sameContents_prepared hsame
  unfold TakesUp at h ⊢
  rw [hprepared.entry?_eq, hprepared.entry?_eq, hsame.contentAt?_eq]
  refine h.imp_right (Or.imp_right fun ⟨hnone, hdirectory, parent, hparent, path, hpath, hlocate⟩ ↦
    ⟨hnone, ?_, parent, hparent, path, hpath, ?_⟩)
  · rw [hprepared.isDirectoryAt_eq, hdirectory]
  · rw [hprepared.locate_eq, hlocate]

theorem entry?_of_takesUp (hprepared : cache.prepared files = files)
    (htakes : cache.TakesUp files location) :
    files.entry? cache.path = some location ∨ files.entry? cache.draft = some location := by
  unfold TakesUp at htakes
  rw [hprepared] at htakes
  rcases htakes with hpath | hdraft | ⟨hnone, hdirectory, _⟩
  · exact Or.inl hpath
  · exact Or.inr hdraft
  · rw [isDirectoryAt_iff, hnone] at hdirectory
    cases hdirectory

/-- Where a cache has a directory, saving may change two entries of that only, and they lie where
they lay as long as no directory or link was added. -/
theorem HasDirectory.takesUp_of_keeps (h : cache.HasDirectory after) (hkeeps : Keeps before after)
    (hworking : before.working = after.working) (htakes : cache.TakesUp after location) :
    before.entry? cache.path = some location ∨ before.entry? cache.draft = some location :=
  (entry?_of_takesUp h.prepared_eq htakes).imp (hkeeps.entry?_eq hworking)
    (hkeeps.entry?_eq hworking)

/-- How far saving comes: the directories are made, or then the draft is written, or then it is
renamed. -/
theorem save_cases (hsave : (cache.save files root catalog).value = (after, error)) :
    after = cache.prepared files ∨
      ∃ written, (cache.prepared files).writeFile cache.draft
          (Utf8.encode (Snapshot.ofCatalog root files.now catalog).write) = .ok written ∧
        (after = written ∨ written.rename cache.draft cache.path = .ok after) := by
  obtain ⟨failure, hrun, _⟩ := exists_run_of_save hsave
  rcases FileStep.runAll_replace_cases hrun with ⟨hnothing, _⟩ |
    ⟨middle, written, hmiddle, hwrite, hend⟩
  · exact Or.inl hnothing
  · obtain rfl : middle = cache.prepared files := (congrArg Prod.fst hmiddle).symm
    exact Or.inr ⟨written, hwrite, hend.imp And.left And.left⟩

theorem sound_prepared (hup : Path.Component.up ∉ cache.path.components)
    (hsound : cache.IsSound files) : cache.IsSound (cache.prepared files) := by
  have hprepares : cache.Prepares (cache.prepared files) files := prepares_runAll hup hsound.tree
    hsound.draft_ne_link (makesWay_directorySteps cache files)
  refine ⟨hprepares.tree, hprepares.draft_ne_link, ?_⟩
  rw [hprepares.standsAt_path]
  exact hsound.path_file

/-- Writing the draft leaves in order what saving relies on, and all directories and links. -/
theorem sound_of_writeFile (hsound : cache.IsSound files)
    (hwrite : files.writeFile cache.draft bytes = .ok written) :
    cache.IsSound written ∧ written.standsAt cache.draft = some (.file bytes) ∧
      Keeps written files ∧ Keeps files written ∧ written.working = files.working := by
  obtain ⟨location, hentry, hfree, rfl⟩ := writeFile_of_not_link hsound.draft_ne_link hwrite
  obtain ⟨name, directory, left, rfl, hstep⟩ := lastStep_of_entry hentry
  obtain ⟨_, _, _, _, hdirectory⟩ := lastStepFrom_eq_ok hstep
  have hkeeps : Keeps (files.setContent (name :: directory) (.file bytes)) files :=
    keeps_set hfree _
  have hback : Keeps files (files.setContent (name :: directory) (.file bytes)) :=
    keeps_of_setContent_file
  have hdraft : (files.setContent (name :: directory) (.file bytes)).standsAt cache.draft =
      some (.file bytes) := by
    rw [standsAt_of_entry (hkeeps.entry?_eq rfl hentry)]
    exact contentAt?_set files _ _
  refine ⟨⟨hsound.tree.set hdirectory hfree _, ?_, ?_⟩, hdraft, hkeeps, hback, rfl⟩
  · intro target hlink
    cases hdraft.symm.trans hlink
  · intro content hcontent
    obtain ⟨place, hplace, hstands⟩ := standsAt_eq_some hcontent
    by_cases hsame : place = name :: directory
    · rw [hsame, setContent, contentAt?_set] at hstands
      exact ⟨bytes, (Option.some.inj hstands).symm⟩
    · rw [setContent, contentAt?_set_of_ne _ hsame] at hstands
      exact hsound.path_file content
        ((standsAt_of_entry (hback.entry?_eq rfl hplace)).trans hstands)

/-- Renaming the draft leaves in order what saving relies on, and all directories and links. -/
theorem sound_of_rename (hup : Path.Component.up ∉ cache.path.components)
    (hsound : cache.IsSound files) (hdraft : files.standsAt cache.draft = some (.file bytes))
    (hrename : files.rename cache.draft cache.path = .ok after) :
    cache.IsSound after ∧ Keeps after files ∧ Keeps files after ∧
      after.working = files.working := by
  obtain ⟨segments, last, hsegments, hname | hidle⟩ := Path.splitOn_cases hup
  · have hlayout := layout_of_splitOn hsegments hname hup
    obtain ⟨hsoundAfter, _⟩ := hlayout.standsAt_of_rename hsound hdraft hrename
    obtain ⟨directory, node, harrives, hfile, hnode, _, rfl⟩ := hlayout.rename_cases hdraft hrename
    obtain ⟨hstands, _⟩ := hlayout.standsAt_of_arrivesAt harrives
    have hne := draft_location_ne last directory
    have hfree : (files.erase ((last ++ ".tmp".toList) :: directory)).IsFree (last :: directory) := by
      unfold IsFree
      rw [contentAt?_erase_of_ne hne.symm, ← hstands]
      exact hsound.path_file
    refine ⟨hsoundAfter, (keeps_set hfree node).trans (keeps_erase (isFree_of_file hfile)), ?_, rfl⟩
    intro other content hcontent hplain
    have hpath : other ≠ last :: directory := by
      rintro rfl
      rw [contentAt?_set, hnode] at hcontent
      exact hplain bytes (Option.some.inj hcontent).symm
    rw [contentAt?_set_of_ne node hpath] at hcontent
    exact (contentAt?_erase_eq_some_iff.mp hcontent).2
  · obtain ⟨_, _, _, _, _, _, _, _, htarget, _⟩ := FileSystem.rename_cases hrename
    cases (entry?_of_lastStep htarget).symm.trans (entry?_of_idle hsegments hidle)

theorem hasDirectory_of_entry (hup : Path.Component.up ∉ cache.path.components)
    (hentry : files.entry? cache.draft = some location) : cache.HasDirectory files := by
  intro parent hparent hspelling
  cases hname : cache.path.fileName? with
  | none =>
    have hnil := Path.steps_eq_nil_of_fileName? hname hup
    exact absurd (Path.spelling_eq_nil_of_parent? hparent hnil) hspelling
  | some name =>
    have hsite := site_of_fileName? hname hup
    obtain ⟨directory, _, harrives⟩ := (hsite.entry?_draft files location).mp hentry
    obtain ⟨hsteps, habsolute⟩ := hsite.steps_parent parent hparent
    have horigin : origin parent files.working = origin cache.path files.working :=
      origin_congr (habsolute hspelling) _
    exact ⟨directory, by rwa [horigin, hsteps]⟩

/-- What saving leaves in order. If it has done more than making directories, then the cache has a
directory afterwards, and no other directory or link was added. -/
theorem sound_of_save (hup : Path.Component.up ∉ cache.path.components)
    (hsound : cache.IsSound files)
    (hsave : (cache.save files root catalog).value = (after, error)) :
    cache.IsSound after ∧ after.working = files.working ∧
      (after = cache.prepared files ∨
        cache.HasDirectory after ∧ Keeps (cache.prepared files) after) := by
  have hprepares : cache.Prepares (cache.prepared files) files := prepares_runAll hup hsound.tree
    hsound.draft_ne_link (makesWay_directorySteps cache files)
  have hprepared := sound_prepared hup hsound
  rcases save_cases hsave with rfl | ⟨written, hwrite, hend⟩
  · exact ⟨hprepared, hprepares.working_eq, Or.inl rfl⟩
  · obtain ⟨hsoundWritten, hdraft, hkeeps, hback, hworking⟩ := sound_of_writeFile hprepared hwrite
    obtain ⟨place, hentry, _⟩ := writeFile_of_not_link hprepared.draft_ne_link hwrite
    have hdirectory := (hasDirectory_of_entry hup hentry).of_keeps hkeeps hworking
    rcases hend with rfl | hrename
    · exact ⟨hsoundWritten, hworking.trans hprepares.working_eq, Or.inr ⟨hdirectory, hback⟩⟩
    · obtain ⟨hsoundAfter, hkeepsAfter, hbackAfter, hworkingAfter⟩ :=
        sound_of_rename hup hsoundWritten hdraft hrename
      exact ⟨hsoundAfter, hworkingAfter.trans (hworking.trans hprepares.working_eq),
        Or.inr ⟨hdirectory.of_keeps hkeepsAfter hworkingAfter, hback.trans hbackAfter⟩⟩

/-- What is read after saving is the record, or what was read before, and without an error it is the
record. -/
theorem readFile_of_save (hup : Path.Component.up ∉ cache.path.components)
    (hsound : cache.IsSound files)
    (hsave : (cache.save files root catalog).value = (after, error)) :
    let record := Utf8.encode (Snapshot.ofCatalog root files.now catalog).write
    (∀ found, after.readFile cache.path = .ok found →
        found = record ∨ files.readFile cache.path = .ok found) ∧
      (error = none → after.readFile cache.path = .ok record) := by
  intro record
  have hall := allOrNothing_of_save hup hsound.tree hsound.draft_ne_link hsave
  have hrenamed (herror : error = none) : after.readFile cache.path = .ok record := by
    rcases hall.after_rename herror with hread | ⟨⟨entry, target, hentry, hlink, _⟩, _⟩
    · exact hread
    · obtain ⟨_, hfile⟩ := (sound_prepared hup hsound).path_file _
        ((standsAt_of_entry hentry).trans hlink)
      cases hfile
  refine ⟨fun found hread ↦ ?_, hrenamed⟩
  by_cases herror : error = none
  · rw [hrenamed herror] at hread
    exact Or.inl (Except.ok.inj hread).symm
  · rcases hall.before_rename herror with hsame | ⟨_, _, hrecord | ⟨_, hfailed⟩⟩
    · exact Or.inr (hsame.symm.trans hread)
    · rw [hrecord] at hread
      exact Or.inl (Except.ok.inj hread).symm
    · rw [hfailed] at hread
      cases hread

/-- Saving changes nothing but places that are free for files or directories. -/
theorem isFree_of_save (hup : Path.Component.up ∉ cache.path.components)
    (hsound : cache.IsSound files)
    (hsave : (cache.save files root catalog).value = (after, error))
    (hchanged : after.get? location ≠ files.get? location) : files.IsFree location := by
  have hprepares : cache.Prepares (cache.prepared files) files := prepares_runAll hup hsound.tree
    hsound.draft_ne_link (makesWay_directorySteps cache files)
  have hprepared := sound_prepared hup hsound
  by_cases hmade : (cache.prepared files).get? location = files.get? location
  case neg =>
    intro content hcontent
    rw [(hprepares.made location hmade).1] at hcontent
    cases hcontent
  case pos =>
    unfold IsFree contentAt?
    rw [← hmade] at hchanged ⊢
    rcases save_cases hsave with rfl | ⟨written, hwrite, hend⟩
    · exact absurd rfl hchanged
    obtain ⟨place, hentry, hfree, hwritten⟩ :=
      writeFile_of_not_link hprepared.draft_ne_link hwrite
    have hdraft (heq : location = place) : (cache.prepared files).IsFree location := heq ▸ hfree
    by_cases hlast : after.get? location = written.get? location
    · rw [hlast, hwritten] at hchanged
      exact hdraft (Decidable.not_not.mp fun hne ↦ hchanged (get?_set_of_ne _ _ hne))
    · rcases hend with rfl | hrename
      · exact absurd rfl hlast
      obtain ⟨_, _, hcases⟩ := cases_of_rename hup hprepared.draft_ne_link hwrite hrename
      rcases hcases location hlast with hpath | hdraftEntry
      · exact fun content hcontent ↦
          hprepared.path_file content ((standsAt_of_entry hpath).trans hcontent)
      · exact hdraft (Option.some.inj (hdraftEntry.symm.trans hentry))

/-- Saving again takes up nothing that saving before did not take up. -/
theorem takesUp_of_save (hup : Path.Component.up ∉ cache.path.components)
    (hsound : cache.IsSound files)
    (hsave : (cache.save files root catalog).value = (after, error))
    (htakes : cache.TakesUp after location) : cache.TakesUp files location := by
  have hprepares : cache.Prepares (cache.prepared files) files := prepares_runAll hup hsound.tree
    hsound.draft_ne_link (makesWay_directorySteps cache files)
  obtain ⟨_, hworking, rfl | ⟨hdirectory, hback⟩⟩ := sound_of_save hup hsound hsave
  · rcases prepared_cases hup hsound.tree with hsame | hdirectory
    · rwa [hsame] at htakes
    · exact (hdirectory.takesUp_of_keeps (fun _ _ hcontent _ ↦ hcontent) rfl htakes).imp_right Or.inl
  · exact (hdirectory.takesUp_of_keeps hback (hprepares.working_eq.trans hworking.symm)
      htakes).imp_right Or.inl

end DefCatalog.CacheFile
