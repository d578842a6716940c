import DefCatalog.Proofs.Cache.File
import DefCatalog.Proofs.Files.Contents

/-!
# All directories or none

To make the directory at a path, those that are missing above it are made first, the outermost one
before all others. Once that one is there, nothing can stand in the way of the others, since it is
empty. So either all directories are made or none.
-/

namespace DefCatalog.FileSystem

variable {files after : FileSystem} {path above child : Path} {directory location : Location}

/-- Whether a path leads to a directory in which nothing stands. -/
def LeadsToEmpty (files : FileSystem) (path : Path) : Prop :=
  ∃ directory, files.ArrivesAt (origin path files.working) path.steps directory ∧
    ∀ name, files.contentAt? (name :: directory) = none

theorem makeDirectory_of_entry (hshort : path.isTooLong = false)
    (hentry : files.entry? path = some location) :
    files.makeDirectory path =
      if (files.contentAt? location).isSome then .error .alreadyExists
      else .ok (files.setContent location .directory) := by
  obtain ⟨name, directory, left, rfl, hstep⟩ := lastStep_of_entry hentry
  unfold makeDirectory contentAt?
  rw [checkLength_of_short hshort, hstep]
  cases hnode : files.get? (name :: directory) <;> simp [hnode, bind, Except.bind] <;> rfl

/-- A path below one that leads to a directory leads to an entry of that directory, or would. -/
theorem entry?_of_parent (hchild : child.parent? = some path) (hparent : path.parent? = some above)
    (hspelling : above.spelling ≠ []) (hnames : ∀ segment ∈ path.steps, IsName segment)
    (harrives : files.ArrivesAt (origin above files.working) above.steps directory) :
    ∃ name, files.entry? path = some (name :: directory) := by
  obtain ⟨habove, habsolute⟩ := Path.parent?_eq_some hparent
  have hsteps : path.steps ≠ [] :=
    fun hnil ↦ hspelling (Path.spelling_eq_nil_of_parent? hparent hnil)
  obtain ⟨before, last, hsegments, hidle⟩ := Path.splitOn_of_parent? hchild hsteps
  have hall := Path.steps_of_splitOn hsegments hidle
  have hname : IsName last := hnames last (by simp [hall])
  have horigin : origin path files.working = origin above files.working :=
    origin_congr (habsolute hspelling).symm _
  refine ⟨last, (entry?_eq_some_iff hsegments hname).mpr ⟨directory, rfl, ?_⟩⟩
  rw [horigin]
  rwa [habove, hall, List.dropLast_concat] at harrives

theorem isTooLong_of_lacksParent (hlacks : FileStep.lacksParent files path = true) :
    path.isTooLong = false := by
  rw [Bool.eq_false_iff]
  intro hlong
  have hmake : files.makeDirectory path = .error .nameTooLong := by
    unfold makeDirectory checkLength
    rw [if_pos hlong]
    rfl
  unfold FileStep.lacksParent at hlacks
  rw [hmake] at hlacks
  cases hlacks

/-- A directory is not missing above a path if the path above leads to one. -/
theorem isDirectory_of_lacksParent (hchild : child.parent? = some path)
    (hparent : path.parent? = some above) (hspelling : above.spelling ≠ [])
    (hnames : ∀ segment ∈ path.steps, IsName segment)
    (hlacks : FileStep.lacksParent files path = true) : files.isDirectory above = false := by
  rw [Bool.eq_false_iff]
  intro hdirectory
  obtain ⟨directory, hlocate, hthere⟩ := isDirectory_iff.mp hdirectory
  obtain ⟨left, hwalk⟩ := locate_eq_ok hlocate
  have hfiltered := walk_filter.mp ⟨hwalk, hthere⟩
  obtain ⟨name, hentry⟩ := entry?_of_parent hchild hparent hspelling hnames
    ⟨⟨left, hfiltered.1⟩, hfiltered.2⟩
  have hshort := isTooLong_of_lacksParent hlacks
  unfold FileStep.lacksParent at hlacks
  rw [makeDirectory_of_entry hshort hentry] at hlacks
  cases hcontent : files.contentAt? (name :: directory) <;> simp [hcontent] at hlacks

theorem leadsToEmpty_of_makeDirectory (htree : files.IsTree)
    (hmake : files.makeDirectory path = .ok after) : after.LeadsToEmpty path := by
  obtain ⟨location, hnone, rfl, harrives⟩ := arrivesAt_of_makeDirectory hmake
  exact ⟨location, harrives, htree.contentAt?_cons_setContent hnone⟩

/-- Where there is no directory, making sure that there is one fails or makes an empty one. -/
theorem run_ensureDirectory_cases (htree : files.IsTree) (hplain : files.isDirectory path = false) :
    (∃ reason, (FileStep.ensureDirectory path).run files = .error reason) ∨
      ∃ after, (FileStep.ensureDirectory path).run files = .ok after ∧ after.IsTree ∧
        after.LeadsToEmpty path := by
  cases hmake : files.makeDirectory path with
  | ok after =>
    exact Or.inr ⟨after, by simp only [FileStep.run, hmake], htree.makeDirectory hmake,
      leadsToEmpty_of_makeDirectory htree hmake⟩
  | error reason => exact Or.inl ⟨reason, by simp [FileStep.run, hmake, hplain]⟩

/-- A directory can be made in an empty one. -/
theorem run_ensureDirectory_of_parent (htree : files.IsTree) (hshort : path.isTooLong = false)
    (hchild : child.parent? = some path)
    (hparent : path.parent? = some above) (hspelling : above.spelling ≠ [])
    (hnames : ∀ segment ∈ path.steps, IsName segment) (hempty : files.LeadsToEmpty above) :
    ∃ after, (FileStep.ensureDirectory path).run files = .ok after ∧ after.IsTree ∧
      after.LeadsToEmpty path := by
  obtain ⟨directory, harrives, hnone⟩ := hempty
  obtain ⟨name, hentry⟩ := entry?_of_parent hchild hparent hspelling hnames harrives
  have hmake : files.makeDirectory path = .ok (files.setContent (name :: directory) .directory) := by
    rw [makeDirectory_of_entry hshort hentry, hnone]
    rfl
  exact ⟨_, by simp only [FileStep.run, hmake], htree.makeDirectory hmake,
    leadsToEmpty_of_makeDirectory htree hmake⟩

/-- The first of some paths, up to the first one that no directory is missing above. -/
def upToStanding (files : FileSystem) (paths : List Path) : List Path :=
  paths.take ((paths.takeWhile (FileStep.lacksParent files)).length + 1)

theorem upToStanding_cons (files : FileSystem) (path : Path) (paths : List Path) :
    files.upToStanding (path :: paths) =
      path :: if FileStep.lacksParent files path then files.upToStanding paths else [] := by
  unfold upToStanding
  cases hlacks : FileStep.lacksParent files path <;> simp [hlacks]

/-- Whether some steps have changed nothing, or have all succeeded and made a new directory at a
path. -/
def NothingOrNew (files : FileSystem) (path : Path)
    (result : FileSystem × Option (FileStep × FileError)) : Prop :=
  result.1 = files ∨ result.2 = none ∧ result.1.IsTree ∧ result.1.LeadsToEmpty path

/-- The last step is taken where nothing has changed, or where it succeeds. -/
theorem nothingOrNew_concat (htree : files.IsTree) (hplain : files.isDirectory path = false)
    {steps : List FileStep}
    (h : (FileStep.runAll files steps).1 = files ∨ (FileStep.runAll files steps).2 = none ∧
      ∃ after, (FileStep.ensureDirectory path).run (FileStep.runAll files steps).1 = .ok after ∧
        after.IsTree ∧ after.LeadsToEmpty path) :
    files.NothingOrNew path (FileStep.runAll files (steps ++ [.ensureDirectory path])) := by
  rw [FileStep.runAll_append]
  generalize FileStep.runAll files steps = result at h
  obtain ⟨middle, failure⟩ := result
  cases failure with
  | some failed => exact Or.inl (h.resolve_right fun hright ↦ nomatch hright.1)
  | none =>
    rcases h with hnothing | ⟨_, after, hrun, hafter⟩
    · obtain rfl : middle = files := hnothing
      rcases run_ensureDirectory_cases htree hplain with ⟨reason, hrun⟩ | ⟨after, hrun, hafter⟩
      · exact Or.inl (by simp only [FileStep.runAll, hrun])
      · exact Or.inr (by simpa only [FileStep.runAll, hrun, true_and] using hafter)
    · exact Or.inr (by simpa only [FileStep.runAll, hrun, true_and] using hafter)

theorem nothingOrNew_one (htree : files.IsTree) (hplain : files.isDirectory path = false) :
    files.NothingOrNew path (FileStep.runAll files [.ensureDirectory path]) := by
  have hnothing : (FileStep.runAll files []).1 = files := rfl
  exact nothingOrNew_concat htree hplain (Or.inl hnothing)

theorem upToStanding_one (files : FileSystem) (path : Path) :
    files.upToStanding [path] = [path] := by
  rw [upToStanding_cons]
  exact congrArg (path :: ·) (ite_self _)

theorem filter_spelling_cons (hspelling : path.spelling ≠ []) (paths : List Path) :
    (path :: paths).filter (·.spelling ≠ []) = path :: paths.filter (·.spelling ≠ []) :=
  List.filter_cons_of_pos (decide_eq_true hspelling)

theorem filter_ancestorsUpTo_nil (count : Nat) :
    ((⟨[]⟩ : Path).ancestorsUpTo count).filter (·.spelling ≠ []) = [] := by
  cases count <;> rfl

/-- Making the directories up to the first one that does not lack its parent changes nothing or
makes all of them. -/
theorem nothingOrNew_upToStanding (htree : files.IsTree) (count : Nat)
    (hchild : child.parent? = some path) (hspelling : path.spelling ≠ [])
    (hnames : ∀ segment ∈ path.steps, IsName segment) (hplain : files.isDirectory path = false) :
    files.NothingOrNew path (FileStep.runAll files ((files.upToStanding
      ((path.ancestorsUpTo count).filter (·.spelling ≠ []))).reverse.map .ensureDirectory)) := by
  induction count generalizing path child with
  | zero =>
    rw [Path.ancestorsUpTo, filter_spelling_cons hspelling, List.filter_nil, upToStanding_one]
    exact nothingOrNew_one htree hplain
  | succ count ih =>
    unfold Path.ancestorsUpTo
    cases hparent : path.parent? with
    | none =>
      dsimp only
      rw [filter_spelling_cons hspelling, List.filter_nil, upToStanding_one]
      exact nothingOrNew_one htree hplain
    | some above =>
      dsimp only
      rw [filter_spelling_cons hspelling, upToStanding_cons]
      cases hlacks : FileStep.lacksParent files path with
      | false => exact nothingOrNew_one htree hplain
      | true =>
        rw [if_pos rfl, List.reverse_cons, List.map_append]
        apply nothingOrNew_concat htree hplain
        by_cases habove : above.spelling = []
        · obtain rfl : above = ⟨[]⟩ := congrArg Path.mk habove
          rw [filter_ancestorsUpTo_nil]
          exact Or.inl rfl
        · obtain ⟨hsteps, _⟩ := Path.parent?_eq_some hparent
          have hnamesAbove (segment : Text) (hmem : segment ∈ above.steps) : IsName segment :=
            hnames segment (List.dropLast_subset _ (hsteps ▸ hmem))
          have hplainAbove := isDirectory_of_lacksParent hchild hparent habove hnames hlacks
          refine (ih hparent habove hnamesAbove hplainAbove).imp_right fun h ↦ ⟨h.1, ?_⟩
          exact run_ensureDirectory_of_parent h.2.1 (isTooLong_of_lacksParent hlacks) hchild hparent
            habove hnames h.2.2

end DefCatalog.FileSystem
