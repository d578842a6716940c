import DefCatalog.Proofs.Files.Sibling
import Mathlib.Data.List.TakeWhile

/-!
# Replacing a file

A file is replaced by writing a draft and giving it the path of the file. Both steps may meet links.
Whatever stood at the two paths before, a file that can be read at the path afterwards is the one
that was written: if the draft was a link, the link itself is moved, and since the two paths lie in
one directory it still leads to the location that was written, or else it leads back to itself.
-/

namespace DefCatalog

namespace FileSystem

variable {files : FileSystem} {links : Nat} {directory location : Location} {path : Path}

/-- The last step of a path is its last segment that is not empty, if there is one. -/
theorem cutLast_cases (segments : List Text) :
    (cutLast segments = ([], none) ∧ ∀ segment ∈ segments, segment = []) ∨
      ∃ front last count, segments = front ++ last :: List.replicate count [] ∧ last ≠ [] ∧
        cutLast segments =
          (front, if last = ['.'] ∨ last = ['.', '.'] then none else some last) := by
  unfold cutLast
  cases hdrop : segments.reverse.dropWhile (· = []) with
  | nil =>
    rw [List.dropWhile_eq_nil_iff] at hdrop
    exact Or.inl ⟨rfl, fun segment hmem ↦ by simpa using hdrop segment (List.mem_reverse.mpr hmem)⟩
  | cons last rest =>
    have hlast : last ≠ [] := by
      have hhead := List.head?_dropWhile_not (· = []) segments.reverse
      rw [hdrop] at hhead
      simpa using hhead
    have htake : segments.reverse.takeWhile (· = []) =
        List.replicate (segments.reverse.takeWhile (· = [])).length [] := by
      refine List.eq_replicate_iff.mpr ⟨rfl, fun segment hmem ↦ ?_⟩
      simpa using List.all_eq_true.mp List.all_takeWhile segment hmem
    have hsegments : segments = rest.reverse ++ last :: List.replicate _ [] := calc
      segments = (segments.reverse.takeWhile (· = []) ++
          segments.reverse.dropWhile (· = [])).reverse := by
        rw [List.takeWhile_append_dropWhile, List.reverse_reverse]
      _ = (last :: rest).reverse ++ (segments.reverse.takeWhile (· = [])).reverse := by
        rw [hdrop, List.reverse_append]
      _ = rest.reverse ++ last :: List.replicate _ [] := by
        rw [htake, List.reverse_replicate, List.reverse_cons, List.append_assoc,
          List.singleton_append]
    exact Or.inr ⟨_, last, _, hsegments, hlast, rfl⟩

theorem isName_iff {segment : Text} :
    IsName segment ↔ segment ≠ [] ∧ ¬(segment = ['.'] ∨ segment = ['.', '.']) := by
  simp [IsName, Path.isIdle, and_assoc]

theorem cutLast_eq_some {segments before : List Text} {name : Text}
    (h : cutLast segments = (before, some name)) :
    IsName name ∧ ∃ count, segments = before ++ name :: List.replicate count [] := by
  rcases cutLast_cases segments with ⟨hcut, _⟩ | ⟨front, last, count, hsegments, hlast, hcut⟩
  · rw [hcut] at h
    cases h
  · rw [hcut] at h
    obtain ⟨rfl, hname⟩ := Prod.mk.inj h
    obtain ⟨hdots, hname⟩ := Option.ite_none_left_eq_some.mp hname
    obtain rfl := Option.some.inj hname
    exact ⟨isName_iff.mpr ⟨hlast, hdots⟩, count, hsegments⟩

/-- How the last step of a path is found. -/
theorem lastStepFrom_eq_ok_iff {step : LastStep} :
    files.lastStepFrom links directory path = .ok step ↔ path.spelling ≠ [] ∧
      step.slashed = decide (path.spelling.getLast? = some '/') ∧
      ∃ before, cutLast (Text.splitOn '/' path.spelling) = (before, step.name?) ∧
        files.walk true links (origin path directory) before = .ok (step.directory, step.links) ∧
        files.isDirectoryAt step.directory = true := by
  unfold lastStepFrom
  constructor
  · intro h
    split at h
    · cases h
    · rename_i hspelling
      dsimp only at h
      split at h
      · cases h
      · rename_i hwalk
        split at h
        · rename_i hdirectory
          cases h
          exact ⟨hspelling, rfl, _, rfl, hwalk, hdirectory⟩
        · cases h
  · rintro ⟨hspelling, hslashed, before, hcut, hwalk, hdirectory⟩
    rw [if_neg hspelling, hcut]
    dsimp only
    rw [hwalk]
    dsimp only
    rw [if_pos hdirectory, ← hslashed]

/-- A last step with a name is the last segment of the path before slashes. -/
theorem lastStepFrom_cases {step : LastStep} {name : Text}
    (h : files.lastStepFrom links directory path = .ok step) (hname : step.name? = some name) :
    ∃ before count, Text.splitOn '/' path.spelling = before ++ name :: List.replicate count [] ∧
      IsName name ∧
      files.walk true links (origin path directory) before = .ok (step.directory, step.links) ∧
      files.isDirectoryAt step.directory = true := by
  obtain ⟨_, _, before, hcut, hwalk, hdirectory⟩ := lastStepFrom_eq_ok_iff.mp h
  rw [hname] at hcut
  obtain ⟨hstep, count, hsegments⟩ := cutLast_eq_some hcut
  exact ⟨before, count, hsegments, hstep, hwalk, hdirectory⟩

/-- A last step with a name is the last segment of the path, if no slash follows it. -/
theorem lastStepFrom_eq_ok {name : Text} {remaining : Nat}
    (h : files.lastStepFrom links directory path = .ok ⟨location, some name, false, remaining⟩) :
    ∃ before, Text.splitOn '/' path.spelling = before ++ [name] ∧ IsName name ∧
      files.walk true links (origin path directory) before = .ok (location, remaining) ∧
      files.isDirectoryAt location = true := by
  obtain ⟨hspelling, hslashed, _⟩ := lastStepFrom_eq_ok_iff.mp h
  obtain ⟨before, count, hsegments, hname, hwalk, hdirectory⟩ := lastStepFrom_cases h rfl
  cases count with
  | zero => exact ⟨before, hsegments, hname, hwalk, hdirectory⟩
  | succ count =>
    have hlast : (Text.splitOn '/' path.spelling).getLast? = some [] := by
      rw [hsegments, List.replicate_succ', ← List.cons_append, ← List.append_assoc,
        List.getLast?_concat]
    rcases Text.getLast?_of_splitOn hlast with hempty | hend
    · exact absurd hempty hspelling
    · simp [hend] at hslashed

/-- How the location of a file that is written is found. -/
theorem writeLocation_cases {goal : Location} (h : files.writeLocation links directory path = .ok goal) :
    ∃ before name parent remaining, Text.splitOn '/' path.spelling = before ++ [name] ∧
      IsName name ∧
      files.walk true links (origin path directory) before = .ok (parent, remaining) ∧
      files.isDirectoryAt parent = true ∧
      ((goal = name :: parent ∧ ∀ content, files.contentAt? goal = some content →
          ∃ bytes, content = .file bytes) ∨
        ∃ target fewer, files.contentAt? (name :: parent) = some (.link target) ∧
          remaining = fewer + 1 ∧ fewer < links ∧
            files.writeLocation fewer parent target = .ok goal) := by
  rw [writeLocation] at h
  split at h
  · cases h
  · cases h
  · rename_i parent name slashed remaining hstep
    split at h
    · cases h
    · rename_i hslashed
      rw [Bool.not_eq_true] at hslashed
      rw [hslashed] at hstep
      obtain ⟨before, hsegments, hname, hwalk, hparent⟩ := lastStepFrom_eq_ok hstep
      refine ⟨before, name, parent, remaining, hsegments, hname, hwalk, hparent, ?_⟩
      split at h
      · rename_i hnone
        obtain rfl := Except.ok.inj h
        refine Or.inl ⟨rfl, fun content hcontent ↦ ?_⟩
        rw [hnone] at hcontent
        cases hcontent
      · rename_i bytes hfile
        obtain rfl := Except.ok.inj h
        refine Or.inl ⟨rfl, fun content hcontent ↦ ?_⟩
        rw [hfile] at hcontent
        exact ⟨bytes, (Option.some.inj hcontent).symm⟩
      · cases h
      · rename_i target hlink
        split at h
        · cases h
        · exact Or.inr ⟨target, _, hlink, rfl, walk_links_le hwalk, h⟩

/-- After a file has been written, a walk along its path leads to it. -/
theorem location_of_writeLocation {after : FileSystem} {goal : Location} {bytes : Bytes}
    {links' remaining : Nat} (hagree : AgreesOutside goal after files)
    (hfile : after.contentAt? goal = some (.file bytes))
    (hwrite : files.writeLocation links directory path = .ok goal)
    (hwalk : after.walk true links' (origin path directory) (Text.splitOn '/' path.spelling) =
      .ok (location, remaining)) : location = goal := by
  induction links using Nat.strongRecOn generalizing directory path links' location remaining with
  | ind links ih =>
    have hlead := leadsTo_of_file hfile files
    obtain ⟨before, name, parent, left, hsegments, hname, hbefore, hparent, hend⟩ :=
      writeLocation_cases hwrite
    rw [hsegments] at hwalk
    obtain ⟨middle, fewer, hmiddle, hlast⟩ := walk_append_eq_ok.mp hwalk
    obtain ⟨hdirectory, hstep⟩ := walk_name_cases hname hlast
    -- the directory of the last step is the same as before, since it is no file
    obtain rfl : middle = parent := directory_of_change hagree hlead hdirectory hmiddle hbefore
    rcases hstep with ⟨content, hcontent, hlink, hrest⟩ | ⟨target, fewer', hcontent, _, hrest⟩
    · rw [walk_nil] at hrest
      cases hrest
      rcases hend with ⟨rfl, _⟩ | ⟨target, _, htarget, _⟩
      · rfl
      · by_cases heq : name :: middle = goal
        · exact heq
        · rw [hagree.contentAt? heq hcontent] at htarget
          exact absurd (Option.some.inj htarget) (hlink target)
    · have hne : name :: middle ≠ goal := by
        intro heq
        rw [heq, hfile] at hcontent
        cases hcontent
      rcases hend with ⟨rfl, _⟩ | ⟨target', left', htarget, rfl, hfewer, hnext⟩
      · exact absurd rfl hne
      · rw [hagree.contentAt? hne hcontent] at htarget
        cases htarget
        rw [List.append_nil] at hrest
        exact ih left' hfewer hnext hrest

theorem contentAt?_congr {after : FileSystem} (h : after.get? location = files.get? location) :
    after.contentAt? location = files.contentAt? location := by
  unfold contentAt?
  rw [h]

theorem contentAt?_set (files : FileSystem) (place : Location) (node : Node) :
    (files.set place node).contentAt? place = some node.content := by
  unfold contentAt?
  rw [get?_set]
  rfl

theorem contentAt?_set_of_ne {other : Location} (node : Node) (hne : other ≠ location) :
    (files.set location node).contentAt? other = files.contentAt? other :=
  contentAt?_congr (get?_set_of_ne files node hne)

theorem contentAt?_setContent (files : FileSystem) (place : Location) (content : Content) :
    (files.setContent place content).contentAt? place = some content :=
  contentAt?_set files place _

theorem contentAt?_erase (files : FileSystem) (location : Location) :
    (files.erase location).contentAt? location = none := by
  unfold contentAt?
  rw [get?_erase]
  rfl

theorem contentAt?_erase_of_ne {other : Location} (hne : other ≠ location) :
    (files.erase location).contentAt? other = files.contentAt? other :=
  contentAt?_congr (get?_erase_of_ne files hne)

theorem contentAt?_erase_eq_some_iff {other : Location} {content : Content} :
    (files.erase location).contentAt? other = some content ↔
      other ≠ location ∧ files.contentAt? other = some content := by
  by_cases hother : other = location
  · rw [hother, contentAt?_erase]
    exact iff_of_false (Option.some_ne_none content).symm fun h ↦ h.1 rfl
  · rw [contentAt?_erase_of_ne hother]
    exact (and_iff_right hother).symm

theorem agreesOutside_setContent (files : FileSystem) (place : Location) (content : Content) :
    AgreesOutside place (files.setContent place content) files :=
  fun _ hne ↦ Or.inl (contentAt?_set_of_ne _ hne)

theorem agreesOutside_move (files : FileSystem) (source target : Location) (node : Node) :
    AgreesOutside target ((files.erase source).set target node) files := by
  intro other hne
  rw [contentAt?_set_of_ne node hne]
  by_cases hsource : other = source
  · rw [hsource, contentAt?_erase]
    exact Or.inr rfl
  · exact Or.inl (contentAt?_erase_of_ne hsource)

/-! ## Reading what replaced a file -/

theorem isTooLong_of_rename {after : FileSystem} {source target : Path}
    (h : files.rename source target = .ok after) : target.isTooLong = false :=
  (checkLength_bind_eq_ok_iff.mp (checkLength_bind_eq_ok_iff.mp h).2).1

/-- What a successful renaming does. -/
theorem rename_cases {after : FileSystem} {source target : Path}
    (h : files.rename source target = .ok after) :
    ∃ sourceName sourceDirectory sourceLinks targetName targetDirectory targetLinks node,
      files.lastStep source = .ok ⟨sourceDirectory, some sourceName, false, sourceLinks⟩ ∧
      files.lastStep target = .ok ⟨targetDirectory, some targetName, false, targetLinks⟩ ∧
      files.get? (sourceName :: sourceDirectory) = some node ∧ node.content ≠ .directory ∧
      files.isDirectoryAt (targetName :: targetDirectory) = false ∧
      after = (files.erase (sourceName :: sourceDirectory)).set
        (targetName :: targetDirectory) node := by
  obtain ⟨-, h⟩ := checkLength_bind_eq_ok_iff.mp h
  obtain ⟨-, h⟩ := checkLength_bind_eq_ok_iff.mp h
  simp only [bind, Except.bind, pure, Except.pure] at h
  split at h
  · cases h
  · rename_i sourceStep hsource
    split at h
    · cases h
    · rename_i targetStep htarget
      obtain ⟨sourceDirectory, sourceName?, sourceSlashed, sourceLinks⟩ := sourceStep
      obtain ⟨targetDirectory, targetName?, targetSlashed, targetLinks⟩ := targetStep
      cases sourceName? with
      | none => cases targetName? <;> cases h
      | some sourceName =>
        cases targetName? with
        | none => cases h
        | some targetName =>
          dsimp only at h
          split at h
          · cases h
          · cases h
          · rename_i node hdirectory hnode
            split at h
            · cases h
            · rename_i hslashed
              rw [Bool.or_eq_true, not_or, Bool.not_eq_true, Bool.not_eq_true] at hslashed
              obtain ⟨rfl, rfl⟩ := hslashed
              split at h
              · cases h
              · rename_i hplain
                refine ⟨sourceName, sourceDirectory, sourceLinks, targetName, targetDirectory,
                  targetLinks, node, hsource, htarget, hnode, ?_, by simpa using hplain,
                  (Except.ok.inj h).symm⟩
                intro hcontent
                exact hdirectory node.modified (by rw [← hcontent])

/-- What stands at the last step of a draft after it was written: the file, or a link that leads to
it. -/
theorem content_of_written {goal : Location} {draft : Path} {bytes : Bytes} {name : Text}
    {remaining : Nat} {content : Content}
    (hgoal : files.writeLocation maxLinks files.working draft = .ok goal)
    (hstep : (files.setContent goal (.file bytes)).lastStep draft =
      .ok ⟨directory, some name, false, remaining⟩)
    (hcontent : (files.setContent goal (.file bytes)).contentAt? (name :: directory) = some content) :
    content = .file bytes ∨
      ∃ target fewer, content = .link target ∧
        files.writeLocation fewer directory target = .ok goal := by
  have hagree := agreesOutside_setContent files goal (.file bytes)
  have hfile := contentAt?_setContent files goal (.file bytes)
  by_cases hsame : name :: directory = goal
  · rw [hsame, hfile] at hcontent
    exact Or.inl (Option.some.inj hcontent).symm
  · right
    obtain ⟨before, hsegments, _, hwalk, hdirectory⟩ := lastStepFrom_eq_ok hstep
    obtain ⟨before', name', parent, left, hsegments', _, hwalk', _, hend⟩ :=
      writeLocation_cases hgoal
    obtain ⟨rfl, hnames⟩ := List.append_inj' (hsegments.symm.trans hsegments') rfl
    obtain rfl := (List.cons.inj hnames).1
    obtain rfl : directory = parent :=
      directory_of_change hagree (leadsTo_of_file hfile files) hdirectory hwalk hwalk'
    rcases hend with ⟨rfl, _⟩ | ⟨target, fewer, htarget, _, _, hnext⟩
    · exact absurd rfl hsame
    · rw [hagree.contentAt? hsame hcontent] at htarget
      exact ⟨target, fewer, Option.some.inj htarget, hnext⟩

theorem readFile_eq_ok_iff {found : Bytes} :
    files.readFile path = .ok found ↔
      ∃ location, files.locate path = .ok location ∧
        files.contentAt? location = some (.file found) := by
  unfold readFile stat
  cases files.locate path with
  | error reason => simp
  | ok location =>
    unfold contentAt?
    cases hnode : files.get? location with
    | none => simp [hnode]
    | some node =>
      obtain ⟨content, modified⟩ := node
      cases content <;> simp [hnode]

theorem locate_eq_ok {followed : Location} (h : files.locate path = .ok followed) :
    ∃ left, files.walk true maxLinks (origin path files.working) (Text.splitOn '/' path.spelling) =
      .ok (followed, left) := by
  unfold locate locateWith at h
  split at h
  · cases h
  · split at h
    · cases h
    · split at h
      · rename_i left hwalk
        obtain rfl := Except.ok.inj h
        exact ⟨left, hwalk⟩
      · cases h

/-- A file that can be read at a path whose last step was changed is the one at the goal. -/
theorem contentAt?_of_readFile {after before : FileSystem} {name : Text} {goal : Location}
    {remaining : Nat} {found : Bytes} (hagree : AgreesOutside (name :: directory) after before)
    (hlead : LeadsTo (name :: directory) goal after before) (hworking : after.working = before.working)
    (hstep : before.lastStep path = .ok ⟨directory, some name, false, remaining⟩)
    (hread : after.readFile path = .ok found) : after.contentAt? goal = some (.file found) := by
  obtain ⟨segments, hsegments, hname, hwalk, _⟩ := lastStepFrom_eq_ok hstep
  obtain ⟨location, hfound, hcontent⟩ := readFile_eq_ok_iff.mp hread
  obtain ⟨left, hlocate⟩ := locate_eq_ok hfound
  rw [hsegments, hworking] at hlocate
  obtain ⟨middle, fewer, hmiddle, hlast⟩ := walk_append_eq_ok.mp hlocate
  obtain rfl : middle = directory :=
    directory_of_change hagree hlead (walk_cons_cases hlast).1 hmiddle hwalk
  rw [← location_of_change hagree hlead hname hlast]
  exact hcontent

theorem writeFile_eq_ok {written : FileSystem} {bytes : Bytes}
    (h : files.writeFile path bytes = .ok written) :
    ∃ goal, files.writeLocation maxLinks files.working path = .ok goal ∧
      written = files.setContent goal (.file bytes) := by
  obtain ⟨-, h⟩ := checkLength_bind_eq_ok_iff.mp h
  simp only [bind, Except.bind, pure, Except.pure] at h
  split at h
  · cases h
  · rename_i goal hgoal
    exact ⟨goal, hgoal, (Except.ok.inj h).symm⟩

/-- A path with another name at the end lies in the same directory. -/
theorem directory_of_withFileName {other name name' : Text} {directory' : Location}
    {remaining remaining' : Nat} (hother : '/' ∉ other) (hempty : other ≠ [])
    (hpath : files.lastStep path = .ok ⟨directory, some name, false, remaining⟩)
    (hdraft : files.lastStep (path.withFileName other) =
      .ok ⟨directory', some name', false, remaining'⟩) : directory = directory' := by
  obtain ⟨before, hsegments, hname, hwalk, _⟩ := lastStepFrom_eq_ok hpath
  obtain ⟨before', hsegments', _, hwalk', _⟩ := lastStepFrom_eq_ok hdraft
  obtain ⟨segments, idle, hbefore, hidle, hsibling, habsolute⟩ :=
    Path.splitOn_withFileName hsegments hname hother hempty
  have horigin : origin (path.withFileName other) files.working = origin path files.working :=
    origin_congr habsolute _
  obtain ⟨rfl, _⟩ := List.append_inj' (hsegments'.symm.trans hsibling) rfl
  rw [horigin] at hwalk'
  rw [hbefore] at hwalk
  exact walk_location_unique (walk_of_append_idle hidle hwalk) hwalk'

/-- A file that was moved to the path is what can be read there. -/
theorem readFile_of_moved_file {after before : FileSystem} {name : Text} {remaining : Nat}
    {bytes found : Bytes} (hagree : AgreesOutside (name :: directory) after before)
    (hcontent : after.contentAt? (name :: directory) = some (.file bytes))
    (hworking : after.working = before.working)
    (hpath : before.lastStep path = .ok ⟨directory, some name, false, remaining⟩)
    (hread : after.readFile path = .ok found) : found = bytes := by
  have hfound := contentAt?_of_readFile hagree (leadsTo_of_file hcontent before) hworking hpath hread
  rw [hcontent] at hfound
  cases hfound
  rfl

/-- If a link to a file that was just written was moved to the path, that file is what can be read
there. -/
theorem readFile_of_moved_link {after written : FileSystem} {name : Text} {remaining : Nat}
    {bytes found : Bytes} {goal : Location} {target : Path}
    (hwritten : AgreesOutside goal written files)
    (hfile : written.contentAt? goal = some (.file bytes))
    (hgoal : files.writeLocation links directory target = .ok goal)
    (hagree : AgreesOutside (name :: directory) after written)
    (hcontent : after.contentAt? (name :: directory) = some (.link target))
    (hworking : after.working = written.working)
    (hpath : written.lastStep path = .ok ⟨directory, some name, false, remaining⟩)
    (hread : after.readFile path = .ok found) : found = bytes := by
  have hplain := not_isDirectoryAt hcontent Content.noConfusion
  have hgoalPlain : after.isDirectoryAt goal = false := by
    rw [Bool.eq_false_iff]
    intro hdirectory
    have hbefore := hagree.isDirectoryAt hplain hdirectory
    rw [not_isDirectoryAt hfile Content.noConfusion] at hbefore
    cases hbefore
  have hlead : LeadsTo (name :: directory) goal after written :=
    ⟨hgoalPlain, Or.inr ⟨target, hcontent, fun _ _ _ hwalk ↦
      location_of_writeLocation hwritten hfile hgoal hwalk⟩⟩
  have hfound := contentAt?_of_readFile hagree hlead hworking hpath hread
  by_cases hsame : goal = name :: directory
  · -- the link has taken the place of the file that it led to, so now it leads to itself
    rw [hsame, hcontent] at hfound
    cases hfound
  · rw [hagree.contentAt? hsame hfound] at hfile
    cases hfile
    rfl

/-- The file that can be read at a path after a draft beside it was written and given that path is
the one that was written. -/
theorem readFile_of_replace {written after : FileSystem} {path : Path} {other : Text}
    {bytes found : Bytes} (hother : '/' ∉ other) (hempty : other ≠ [])
    (hwrite : files.writeFile (path.withFileName other) bytes = .ok written)
    (hrename : written.rename (path.withFileName other) path = .ok after)
    (hread : after.readFile path = .ok found) : found = bytes := by
  obtain ⟨goal, hgoal, rfl⟩ := writeFile_eq_ok hwrite
  obtain ⟨draftName, directory, _, name, directory', _, node, hdraft, hpath, hnode, _, _, rfl⟩ :=
    rename_cases hrename
  obtain rfl : directory' = directory := directory_of_withFileName hother hempty hpath hdraft
  have hagree := agreesOutside_move (files.setContent goal (.file bytes)) (draftName :: directory')
    (name :: directory') node
  have hcontent := contentAt?_set ((files.setContent goal (.file bytes)).erase
    (draftName :: directory')) (name :: directory') node
  have hdraftContent : (files.setContent goal (.file bytes)).contentAt? (draftName :: directory') =
      some node.content := by
    unfold contentAt?
    rw [hnode]
    rfl
  rcases content_of_written hgoal hdraft hdraftContent with hfile | ⟨target, fewer, hlink, hnext⟩
  · rw [hfile] at hcontent
    exact readFile_of_moved_file hagree hcontent rfl hpath hread
  · rw [hlink] at hcontent
    exact readFile_of_moved_link (agreesOutside_setContent files goal _)
      (contentAt?_setContent files goal _) hnext hagree hcontent rfl hpath hread

end FileSystem

end DefCatalog
