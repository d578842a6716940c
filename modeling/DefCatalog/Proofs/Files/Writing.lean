import DefCatalog.Proofs.Files.Directories

/-!
# Reading and writing what was written

A file that was written can be read at the path that it was written to, whatever links the path
leads through, and the path can be written again. The directory above it is there then, so that no
directory has to be made for it.
-/

namespace DefCatalog.FileSystem

variable {files after before : FileSystem} {links : Nat} {directory goal : Location} {path : Path}
  {bytes : Bytes}

/-- Where a file is written whose path ends in a name. -/
theorem writeLocation_eq {name : Text} {parent : Location} {remaining : Nat}
    (hstep : files.lastStepFrom links directory path = .ok ⟨parent, some name, false, remaining⟩) :
    files.writeLocation links directory path =
      match files.contentAt? (name :: parent) with
      | none => .ok (name :: parent)
      | some (.file _) => .ok (name :: parent)
      | some .directory => .error .isDirectory
      | some (.link target) =>
        match remaining with
        | 0 => .error .tooManyLinks
        | fewer + 1 => files.writeLocation fewer parent target := by
  rw [writeLocation]
  split
  · rename_i hother
    rw [hstep] at hother
    cases hother
  · rename_i hother
    rw [hstep] at hother
    cases hother
  · rename_i hother
    rw [hstep] at hother
    cases hother
    rw [if_neg Bool.false_ne_true]
    rcases files.contentAt? (name :: parent) with _ | _ | _ | target
    · rfl
    · rfl
    · rfl
    · cases remaining <;> rfl

/-- A location can be written if it is the last step of a path and free. -/
theorem writeLocation_of_isFree {name : Text} {parent : Location} {remaining : Nat}
    (hstep : files.lastStepFrom links directory path = .ok ⟨parent, some name, false, remaining⟩)
    (hfree : files.IsFree (name :: parent)) :
    files.writeLocation links directory path = .ok (name :: parent) := by
  rw [writeLocation_eq hstep]
  cases hcontent : files.contentAt? (name :: parent) with
  | none => rfl
  | some content =>
    obtain ⟨bytes, rfl⟩ := hfree content hcontent
    rfl

/-- A link at the end of a path is followed when a file is written. -/
theorem writeLocation_of_link {name : Text} {parent : Location} {fewer : Nat} {target : Path}
    (hstep : files.lastStepFrom links directory path = .ok ⟨parent, some name, false, fewer + 1⟩)
    (hlink : files.contentAt? (name :: parent) = some (.link target)) :
    files.writeLocation links directory path = files.writeLocation fewer parent target := by
  rw [writeLocation_eq hstep, hlink]

theorem isFree_of_writeLocation (hwrite : files.writeLocation links directory path = .ok goal) :
    files.IsFree goal := by
  induction links using Nat.strongRecOn generalizing directory path with
  | ind links ih =>
    obtain ⟨segments, name, parent, remaining, _, _, hwalk, _, ⟨_, hfree⟩ |
      ⟨target, fewer, _, _, hfewer, hnext⟩⟩ := writeLocation_cases hwrite
    · exact hfree
    · exact ih fewer hfewer hnext

/-- The same location is written as long as directories and links are kept and the location is
free. -/
theorem Keeps.writeLocation (h : Keeps after before) (hfree : after.IsFree goal)
    (hwrite : before.writeLocation links directory path = .ok goal) :
    after.writeLocation links directory path = .ok goal := by
  induction links using Nat.strongRecOn generalizing directory path with
  | ind links ih =>
    obtain ⟨segments, name, parent, remaining, hsegments, hname, hwalk, hparent, hend⟩ :=
      writeLocation_cases hwrite
    have hstep := lastStepFrom_of_name hsegments hname (h.walk hwalk hparent)
      (h.isDirectoryAt hparent)
    rcases hend with ⟨rfl, _⟩ | ⟨target, fewer, hlink, rfl, hfewer, hnext⟩
    · exact writeLocation_of_isFree hstep hfree
    · have hkept := h _ _ hlink fun _ ↦ Content.noConfusion
      rw [writeLocation_of_link hstep hkept]
      exact ih fewer hfewer hnext

/-- A path leads to a file at the location that would be written. -/
theorem walk_of_writeLocation (hwrite : files.writeLocation links directory path = .ok goal)
    (hfile : files.contentAt? goal = some (.file bytes)) :
    ∃ left, files.walk true links (origin path directory) (Text.splitOn '/' path.spelling) =
      .ok (goal, left) := by
  induction links using Nat.strongRecOn generalizing directory path with
  | ind links ih =>
    obtain ⟨segments, name, parent, remaining, hsegments, hname, hwalk, hparent, hend⟩ :=
      writeLocation_cases hwrite
    rw [hsegments]
    rcases hend with ⟨rfl, _⟩ | ⟨target, fewer, hlink, rfl, hfewer, hnext⟩
    · refine ⟨remaining, walk_append_eq_ok.mpr ⟨parent, remaining, hwalk, ?_⟩⟩
      rw [walk_name hparent hname hfile fun _ ↦ Content.noConfusion, walk_nil]
    · obtain ⟨left, hrest⟩ := ih fewer hfewer hnext
      refine ⟨left, walk_append_eq_ok.mpr ⟨parent, fewer + 1, hwalk, ?_⟩⟩
      rw [walk_link hparent hname hlink, List.append_nil, hrest]

theorem readFile_of_writeLocation
    (hwrite : files.writeLocation maxLinks files.working path = .ok goal)
    (hfile : files.contentAt? goal = some (.file bytes)) (hshort : path.isTooLong = false) :
    files.readFile path = .ok bytes := by
  obtain ⟨left, hwalk⟩ := walk_of_writeLocation hwrite hfile
  obtain ⟨segments, name, _, _, hsegments, hname, _⟩ := writeLocation_cases hwrite
  have hspelling := Path.spelling_ne_nil_of_splitOn hsegments (Path.ne_nil_of_isIdle hname.1)
  refine readFile_eq_ok_iff.mpr ⟨goal, ?_, hfile⟩
  rw [locate_eq_map hspelling hshort, hwalk]
  rfl

/-- Whether a path leads to a file with some bytes, and to where a file at the path would be
written. -/
def HasWritten (files : FileSystem) (path : Path) (bytes : Bytes) : Prop :=
  path.isTooLong = false ∧
    ∃ goal, files.writeLocation maxLinks files.working path = .ok goal ∧
      files.contentAt? goal = some (.file bytes)

theorem HasWritten.readFile (h : files.HasWritten path bytes) :
    files.readFile path = .ok bytes := by
  obtain ⟨hshort, goal, hwrite, hfile⟩ := h
  exact readFile_of_writeLocation hwrite hfile hshort

theorem hasWritten_of_writeFile (h : files.writeFile path bytes = .ok after) :
    after.HasWritten path bytes := by
  have hshort := (checkLength_bind_eq_ok_iff.mp h).1
  obtain ⟨goal, hwrite, rfl⟩ := writeFile_eq_ok h
  have hfile := contentAt?_setContent files goal (.file bytes)
  have hkeeps : Keeps (files.setContent goal (.file bytes)) files :=
    keeps_set (isFree_of_writeLocation hwrite) _
  exact ⟨hshort, goal, hkeeps.writeLocation (isFree_of_file hfile) hwrite, hfile⟩

theorem HasWritten.writeFile {old : Bytes} (h : files.HasWritten path old) (bytes : Bytes) :
    ∃ after, files.writeFile path bytes = .ok after := by
  obtain ⟨hshort, goal, hwrite, _⟩ := h
  refine ⟨files.setContent goal (.file bytes), checkLength_bind_eq_ok_iff.mpr ⟨hshort, ?_⟩⟩
  rw [hwrite]
  rfl

theorem exists_lastStep_of_locate (h : files.locate path = .ok goal) :
    ∃ step, files.lastStep path = .ok step ∧
      ∀ name, step.name? = some name → ∃ node, files.get? (name :: step.directory) = some node := by
  have hspelling := spelling_ne_nil_of_locate h
  obtain ⟨left, hwalk⟩ := locate_eq_ok h
  rcases cutLast_cases (Text.splitOn '/' path.spelling) with ⟨hcut, _⟩ |
    ⟨front, last, count, hsegments, hlast, hcut⟩
  · -- nothing but slashes
    obtain ⟨first, rest, hsegments⟩ :=
      List.exists_cons_of_ne_nil (Text.splitOn_ne_nil '/' path.spelling)
    rw [hsegments] at hwalk
    refine ⟨⟨origin path files.working, none, _, maxLinks⟩, lastStepFrom_eq_ok_iff.mpr
      ⟨hspelling, rfl, [], hcut, walk_nil .., (walk_cons_cases hwalk).1⟩, ?_⟩
    intro name hname
    cases hname
  · rw [hsegments] at hwalk
    obtain ⟨middle, fewer, hfront, hrest⟩ := walk_append_eq_ok.mp hwalk
    refine ⟨⟨middle, _, _, fewer⟩, lastStepFrom_eq_ok_iff.mpr
      ⟨hspelling, rfl, front, hcut, hfront, (walk_cons_cases hrest).1⟩, ?_⟩
    intro name hname
    obtain ⟨hdots, hname⟩ := Option.ite_none_left_eq_some.mp hname
    obtain rfl := Option.some.inj hname
    obtain ⟨content, hcontent⟩ := exists_content_of_walk (isName_iff.mpr ⟨hlast, hdots⟩) hrest
    exact (Option.map_eq_some_iff.mp hcontent).imp fun _ ↦ And.left

theorem makeDirectory_of_isDirectory (h : files.isDirectory path = true) :
    files.makeDirectory path = .error .alreadyExists := by
  obtain ⟨location, hlocate, _⟩ := isDirectory_iff.mp h
  obtain ⟨step, hstep, hentry⟩ := exists_lastStep_of_locate hlocate
  simp only [makeDirectory, checkLength_of_short (isTooLong_of_locate hlocate), hstep, bind,
    Except.bind]
  cases hname : step.name? with
  | none => rfl
  | some name =>
    obtain ⟨node, hnode⟩ := hentry name hname
    simp only [hnode]
    rfl

theorem makeDirectories_of_isDirectory (hspelling : path.spelling ≠ [])
    (h : files.isDirectory path = true) :
    FileStep.makeDirectories files path = [.ensureDirectory path] := by
  have hlacks : FileStep.lacksParent files path = false := by
    unfold FileStep.lacksParent
    rw [makeDirectory_of_isDirectory h]
  obtain ⟨rest, hrest⟩ : ∃ rest, path.ancestors = path :: rest := by
    unfold Path.ancestors
    cases path.components.length with
    | zero => exact ⟨[], rfl⟩
    | succ count =>
      unfold Path.ancestorsUpTo
      cases path.parent? with
      | none => exact ⟨_, rfl⟩
      | some above => exact ⟨_, rfl⟩
  have hsteps : FileStep.makeDirectories files path =
      (files.upToStanding (path.ancestors.filter (·.spelling ≠ []))).reverse.map
        .ensureDirectory := rfl
  rw [hsteps, hrest, filter_spelling_cons hspelling, upToStanding_cons, hlacks]
  rfl

theorem runAll_makeDirectories_of_isDirectory (hspelling : path.spelling ≠ [])
    (h : files.isDirectory path = true) :
    FileStep.runAll files (FileStep.makeDirectories files path) = (files, none) := by
  rw [makeDirectories_of_isDirectory hspelling h]
  simp only [FileStep.runAll, FileStep.run, makeDirectory_of_isDirectory h, h, if_true]

/-- The path above one that can be written leads to a directory. -/
theorem isDirectory_parent_of_writeLocation {above : Path}
    (hwrite : files.writeLocation maxLinks files.working path = .ok goal)
    (hshort : path.isTooLong = false) (hparent : path.parent? = some above)
    (hspelling : above.spelling ≠ []) :
    files.isDirectory above = true := by
  obtain ⟨segments, name, parent, remaining, hsegments, hname, hwalk, hdirectory, _⟩ :=
    writeLocation_cases hwrite
  obtain ⟨hsteps, habsolute⟩ := Path.parent?_eq_some hparent
  have hfront : above.steps = segments.filter (!Path.isIdle ·) := by
    rw [hsteps, Path.steps_of_splitOn hsegments hname.1, List.dropLast_concat]
  have horigin : origin above files.working = origin path files.working :=
    origin_congr (habsolute hspelling) _
  have hall : files.walk true maxLinks (origin above files.working)
      (Text.splitOn '/' above.spelling) = .ok (parent, remaining) := by
    have hfiltered := walk_filter.mp ⟨hwalk, hdirectory⟩
    rw [← hfront, ← horigin] at hfiltered
    exact (walk_filter.mpr hfiltered).1
  refine isDirectory_iff.mpr ⟨parent, ?_, hdirectory⟩
  rw [locate_eq_map hspelling (Path.isTooLong_of_prefix (Path.parent?_prefix hparent) hshort), hall]
  rfl

end DefCatalog.FileSystem
