import DefCatalog.Cache.File
import DefCatalog.Proofs.Files.Ancestors

/-!
# Making the directories above a cache

Before a cache is saved, the directories that are missing above it are made, the outermost first.
Nothing else is changed by that. Where a directory has to be made, nothing stands at the path of
the cache before, and nothing does afterwards, since a new directory is empty.
-/

namespace DefCatalog.CacheFile

open FileSystem

variable {cache : CacheFile} {files before middle after : FileSystem} {front : List Text}
  {name : Text} {directory location : Location} {step : FileStep} {steps : List FileStep}

theorem isName_draft (name : Text) : IsName (name ++ ".tmp".toList) := by
  have hlength : 4 ≤ (name ++ ".tmp".toList).length := by simp
  constructor
  · simp only [Path.isIdle, Bool.or_eq_false_iff, beq_eq_false_iff_ne]
    constructor <;> intro heq <;> rw [heq] at hlength <;> simp at hlength
  · intro heq
    rw [heq] at hlength
    simp at hlength

/-- Where a cache and its draft are entries, if they are: in the directory that some steps lead
to. -/
structure Site (cache : CacheFile) (front : List Text) (name : Text) : Prop where
  entry?_path_cases : ∀ files location, FileSystem.entry? files cache.path = some location →
    ∃ directory, location = name :: directory ∧
      files.ArrivesAt (origin cache.path files.working) front directory
  entry?_draft : ∀ files location, FileSystem.entry? files cache.draft = some location ↔
    ∃ directory, location = (name ++ ".tmp".toList) :: directory ∧
      files.ArrivesAt (origin cache.path files.working) front directory
  steps_path : cache.path.steps = front ++ [name]
  isName : ∀ segment ∈ cache.path.steps, IsName segment
  steps_parent : ∀ parent, cache.path.parent? = some parent → parent.steps = front ∧
    (parent.spelling ≠ [] → parent.isAbsolute = cache.path.isAbsolute)

theorem site_of_fileName? (h : cache.path.fileName? = some name)
    (hup : Path.Component.up ∉ cache.path.components) :
    Site cache cache.path.steps.dropLast name := by
  have hslash : '/' ∉ name := Path.not_mem_fileName? h
  have hdraft : cache.draft = cache.path.withFileName (name ++ ".tmp".toList) := by
    unfold draft
    rw [h]
    rfl
  constructor
  case entry?_path_cases =>
    intro files location hentry
    obtain ⟨last, _, _, _, hstep⟩ := lastStep_of_entry hentry
    obtain ⟨segments, hsegments, hlast, _, _⟩ := lastStepFrom_eq_ok hstep
    obtain rfl : name = last :=
      Option.some.inj (h.symm.trans (Path.fileName?_of_splitOn hsegments hlast.1 hlast.2))
    have hfront : cache.path.steps.dropLast = segments.filter (!Path.isIdle ·) := by
      rw [Path.steps_of_splitOn hsegments hlast.1, List.dropLast_concat]
    rw [hfront]
    exact (entry?_eq_some_iff hsegments hlast).mp hentry
  case entry?_draft =>
    intro files location
    obtain ⟨segments, hsegments, hfront, habsolute⟩ :=
      Path.splitOn_withFileName_of_fileName? h (by simp [hslash] : '/' ∉ name ++ ".tmp".toList)
    rw [← hdraft] at hsegments habsolute
    have horigin : origin cache.draft files.working = origin cache.path files.working :=
      origin_congr habsolute _
    rw [entry?_eq_some_iff hsegments (isName_draft name), horigin, hfront]
  case steps_path => exact Path.steps_of_fileName? h
  case isName =>
    intro segment hmem
    refine ⟨by simpa using (List.mem_filter.mp hmem).2, ?_⟩
    rintro rfl
    exact Path.up_not_mem_steps hup hmem
  case steps_parent => exact fun parent hparent ↦ Path.parent?_eq_some hparent

/-- Whether a directory that stands at a location is one of those that a cache lies in. -/
def LiesAbove (cache : CacheFile) (files : FileSystem) (location : Location) : Prop :=
  files.isDirectoryAt location = true ∧ ∃ parent, cache.path.parent? = some parent ∧
    ∃ path ∈ parent.ancestors, files.locate path = .ok location

theorem LiesAbove.of_keeps (h : cache.LiesAbove before location) (hkeeps : Keeps after before)
    (hworking : after.working = before.working) : cache.LiesAbove after location := by
  obtain ⟨hdirectory, parent, hparent, path, hpath, hlocate⟩ := h
  refine ⟨hkeeps.isDirectoryAt hdirectory, parent, hparent, path, hpath, ?_⟩
  apply hkeeps.locate hworking hlocate
  intro bytes hfile
  rw [isDirectoryAt_iff, hfile] at hdirectory
  cases hdirectory

/-- Whether a step makes a directory that the path of a cache lies in. -/
def MakesWay (cache : CacheFile) (step : FileStep) : Prop :=
  ∃ parent path, cache.path.parent? = some parent ∧ parent.spelling ≠ [] ∧
    path ∈ parent.ancestors ∧ path.spelling ≠ [] ∧ step = .ensureDirectory path

theorem makesWay_directorySteps (cache : CacheFile) (files : FileSystem) :
    ∀ step ∈ cache.directorySteps files, cache.MakesWay step := by
  intro step h
  unfold directorySteps at h
  split at h
  · cases h
  · rename_i parent hparent
    split at h
    · cases h
    · rename_i hneeded
      rw [not_or] at hneeded
      unfold FileStep.makeDirectories at h
      obtain ⟨path, hpath, rfl⟩ := List.mem_map.mp h
      have hmem := List.mem_filter.mp (List.mem_of_mem_take (List.mem_reverse.mp hpath))
      exact ⟨parent, path, hparent, hneeded.1, hmem.1, of_decide_eq_true hmem.2, rfl⟩

/-- Whether nothing stands at the path of a cache, and the path leads nowhere. -/
structure IsMissing (cache : CacheFile) (files : FileSystem) : Prop where
  standsAt_path : files.standsAt cache.path = none
  locate_path : files.locate cache.path =
    .error (if cache.path.isTooLong then .nameTooLong else .notFound)

/-- What making directories above a cache leaves in order and what it may change. -/
structure Prepares (cache : CacheFile) (after before : FileSystem) : Prop where
  tree : after.IsTree
  draft_ne_link : ∀ target, after.standsAt cache.draft ≠ some (.link target)
  keeps : Keeps after before
  working_eq : after.working = before.working
  now_eq : after.now = before.now
  made : ∀ location, after.get? location ≠ before.get? location →
    before.contentAt? location = none ∧ cache.LiesAbove after location
  path_cases : after = before ∨ cache.IsMissing before ∧ cache.IsMissing after

theorem prepares_refl (htree : files.IsTree)
    (hdraft : ∀ target, files.standsAt cache.draft ≠ some (.link target)) :
    cache.Prepares files files where
  tree := htree
  draft_ne_link := hdraft
  keeps := fun _ _ hcontent _ ↦ hcontent
  working_eq := rfl
  now_eq := rfl
  made := fun _ hchanged ↦ absurd rfl hchanged
  path_cases := Or.inl rfl

theorem Prepares.trans (h : cache.Prepares after middle) (h' : cache.Prepares middle before) :
    cache.Prepares after before where
  tree := h.tree
  draft_ne_link := h.draft_ne_link
  keeps := h.keeps.trans h'.keeps
  working_eq := h.working_eq.trans h'.working_eq
  now_eq := h.now_eq.trans h'.now_eq
  made location hchanged := by
    by_cases hfirst : middle.get? location = before.get? location
    · rw [← hfirst] at hchanged
      obtain ⟨hnone, hlies⟩ := h.made location hchanged
      rw [contentAt?, hfirst] at hnone
      exact ⟨hnone, hlies⟩
    · obtain ⟨hnone, hlies⟩ := h'.made location hfirst
      exact ⟨hnone, hlies.of_keeps h.keeps h.working_eq⟩
  path_cases := by
    rcases h.path_cases with rfl | ⟨hmiddle, hafter⟩
    · exact h'.path_cases
    · rcases h'.path_cases with rfl | ⟨hbefore, _⟩
      · exact Or.inr ⟨hmiddle, hafter⟩
      · exact Or.inr ⟨hbefore, hafter⟩

theorem Prepares.standsAt_path (h : cache.Prepares after before) :
    after.standsAt cache.path = before.standsAt cache.path := by
  rcases h.path_cases with rfl | ⟨hbefore, hafter⟩
  · rfl
  · rw [hafter.standsAt_path, hbefore.standsAt_path]

/-- Making a directory above a cache means that the cache is missing, before and after, and leaves
nothing at the path of its draft. -/
theorem Site.isMissing_of_makeDirectory (hsite : Site cache front name) (htree : files.IsTree)
    {path : Path} (hsteps : path.steps <+: front)
    (habsolute : path.isAbsolute = cache.path.isAbsolute)
    (hmake : files.makeDirectory path = .ok after) :
    cache.IsMissing files ∧ cache.IsMissing after ∧ after.standsAt cache.draft = none := by
  obtain ⟨above, made, place, hpath, hmade, harrives, hmissing, _⟩ := makeDirectory_eq_ok hmake
  obtain ⟨new, hnone, hafter, hinside⟩ := arrivesAt_of_makeDirectory hmake
  have hworking : after.working = files.working := by rw [hafter]; rfl
  have horigin : origin cache.path files.working = origin path files.working :=
    origin_congr habsolute.symm _
  -- further steps than those to the new directory are taken, at least that with the name
  obtain ⟨rest, hrest⟩ := hsteps
  obtain ⟨next, more, hmore⟩ : ∃ next more, rest ++ [name] = next :: more :=
    List.exists_cons_of_ne_nil (by simp)
  have hall : cache.path.steps = path.steps ++ next :: more := by
    rw [hsite.steps_path, ← hrest, List.append_assoc, hmore]
  have hnext : IsName next := hsite.isName next (by rw [hall]; simp)
  have hempty : after.contentAt? (next :: new) = none := by
    rw [hafter]
    exact htree.contentAt?_cons_setContent hnone next
  have hnames (segment : Text) (hmem : segment ∈ front) : IsName segment :=
    hsite.isName segment (by rw [hsite.steps_path]; exact List.mem_append_left _ hmem)
  have hnoEntry (directory : Location)
      (harrives : after.ArrivesAt (origin cache.path after.working) front directory)
      (other : Text) : after.contentAt? (other :: directory) = none := by
    rw [hworking, horigin] at harrives
    exact contentAt?_of_makeDirectory htree hmake ⟨rest, hrest⟩ hnames harrives other
  refine ⟨⟨standsAt_eq_none ?_, ?_⟩, ⟨standsAt_eq_none ?_, ?_⟩, standsAt_eq_none ?_⟩
  · intro location hentry
    obtain ⟨directory, _, harrives⟩ := hsite.entry?_path_cases files location hentry
    rw [horigin] at harrives
    exact absurd harrives (not_arrivesAt_of_makeDirectory hmake ⟨rest, hrest⟩)
  · rw [hpath, List.append_assoc, List.singleton_append] at hall
    exact locate_of_none hall (horigin ▸ harrives) hmade hmissing
  · intro location hentry
    obtain ⟨directory, rfl, harrives⟩ := hsite.entry?_path_cases after location hentry
    exact hnoEntry directory harrives name
  · rw [← horigin, ← hworking] at hinside
    exact locate_of_none hall hinside hnext hempty
  · intro location hentry
    obtain ⟨directory, rfl, harrives⟩ := (hsite.entry?_draft after location).mp hentry
    exact hnoEntry directory harrives _

theorem Site.prepares_of_run (hsite : Site cache front name) (htree : files.IsTree)
    (hdraft : ∀ target, files.standsAt cache.draft ≠ some (.link target))
    (hstep : cache.MakesWay step) (hrun : step.run files = .ok after) :
    cache.Prepares after files := by
  obtain ⟨parent, path, hparent, hparentSpelling, hmem, hspelling, rfl⟩ := hstep
  rcases run_ensureDirectory_eq_ok hrun with hmake | rfl
  · obtain ⟨hfront, hsame⟩ := hsite.steps_parent parent hparent
    obtain ⟨hbegin, habsolute⟩ := Path.steps_prefix_of_mem_ancestorsUpTo hmem hspelling
    obtain ⟨hbefore, hafter, hnoDraft⟩ := hsite.isMissing_of_makeDirectory htree
      (hfront ▸ hbegin) (habsolute.trans (hsame hparentSpelling)) hmake
    have hkeeps := keeps_makeDirectory hmake
    have htreeAfter := htree.makeDirectory hmake
    obtain ⟨new, hnone, rfl, hdirectory, hlocate⟩ := locate_of_makeDirectory hmake hspelling
    refine ⟨htreeAfter, ?_, hkeeps, rfl, rfl, ?_, Or.inr ⟨hbefore, hafter⟩⟩
    · simp [hnoDraft]
    · intro other hchanged
      obtain rfl : other = new :=
        Decidable.not_not.mp fun hne ↦ hchanged (get?_set_of_ne files _ hne)
      exact ⟨hnone, hdirectory, parent, hparent, path, hmem, hlocate⟩
  · exact prepares_refl htree hdraft

theorem Site.prepares_runAll (hsite : Site cache front name) (htree : files.IsTree)
    (hdraft : ∀ target, files.standsAt cache.draft ≠ some (.link target))
    (hsteps : ∀ step ∈ steps, cache.MakesWay step) :
    cache.Prepares (FileStep.runAll files steps).1 files := by
  induction steps generalizing files with
  | nil => exact prepares_refl htree hdraft
  | cons step steps ih =>
    unfold FileStep.runAll
    split
    · rename_i middle hrun
      have hfirst := hsite.prepares_of_run htree hdraft (hsteps step List.mem_cons_self) hrun
      exact (ih hfirst.tree hfirst.draft_ne_link fun other hother ↦
        hsteps other (List.mem_cons_of_mem _ hother)).trans hfirst
    · exact prepares_refl htree hdraft

/-- Making the directories above a cache, or only some of them, leaves all in order. -/
theorem prepares_runAll (hup : Path.Component.up ∉ cache.path.components) (htree : files.IsTree)
    (hdraft : ∀ target, files.standsAt cache.draft ≠ some (.link target))
    (hsteps : ∀ step ∈ steps, cache.MakesWay step) :
    cache.Prepares (FileStep.runAll files steps).1 files := by
  cases hname : cache.path.fileName? with
  | some name => exact (site_of_fileName? hname hup).prepares_runAll htree hdraft hsteps
  | none =>
    -- a path without a name lies in no directory that could be missing
    have hnil := Path.steps_eq_nil_of_fileName? hname hup
    cases steps with
    | nil => exact prepares_refl htree hdraft
    | cons step steps =>
      obtain ⟨parent, _, hparent, hspelling, _⟩ := hsteps step List.mem_cons_self
      exact absurd (Path.spelling_eq_nil_of_parent? hparent hnil) hspelling

end DefCatalog.CacheFile
