import DefCatalog.Proofs.Files.Entry

/-!
# What stands at the end of a path

The last step of a path, if it is a name, is an entry of a directory. Whether files are written,
moved or removed, and directories made, a walk to a directory goes on to lead there as long as the
directories and links on its way are kept, so the entry of a path stays where it is.
-/

namespace DefCatalog.FileSystem

variable {files before after : FileSystem} {links left : Nat} {place directory location : Location}
  {segments front : List Text} {name : Text} {path : Path} {content : Content} {bytes : Bytes}

/-- Whether the directories and links of a file system are still there after a change. -/
def Keeps (after before : FileSystem) : Prop :=
  ∀ location content, before.contentAt? location = some content →
    (∀ bytes, content ≠ .file bytes) → after.contentAt? location = some content

theorem Keeps.trans {middle : FileSystem} (h : Keeps after middle) (h' : Keeps middle before) :
    Keeps after before :=
  fun location content hcontent hfile ↦
    h location content (h' location content hcontent hfile) hfile

theorem Keeps.isDirectoryAt (h : Keeps after before)
    (hdirectory : before.isDirectoryAt location = true) : after.isDirectoryAt location = true := by
  rw [isDirectoryAt_iff] at hdirectory ⊢
  exact h location .directory hdirectory fun _ heq ↦ Content.noConfusion heq

/-- A walk passes no file, so it goes the same way after the change, if a file at its end is still
one. -/
theorem Keeps.walk_of_file (h : Keeps after before)
    (hwalk : before.walk true links place segments = .ok (location, left))
    (hfile : ∀ bytes, before.contentAt? location = some (.file bytes) →
      ∃ bytes', after.contentAt? location = some (.file bytes')) :
    after.walk true links place segments = .ok (location, left) := by
  induction links, place, segments using walkInduction with
  | nil links place =>
    rw [walk_nil] at hwalk ⊢
    exact hwalk
  | cons links place segment rest ih ihlinks =>
    obtain ⟨hplace, ⟨hidle, hrest⟩ | ⟨rfl, hrest⟩ | ⟨content, hname, hcontent, hlink, hrest⟩ |
      ⟨target, fewer, hname, hcontent, rfl, hrest⟩⟩ := walk_cons_cases hwalk
    · rw [walk_idle (h.isDirectoryAt hplace) hidle]
      exact ih place hrest
    · rw [walk_up (h.isDirectoryAt hplace)]
      exact ih place.tail hrest
    · obtain ⟨content', hcontent', hlink'⟩ : ∃ content',
          after.contentAt? (segment :: place) = some content' ∧
            ∀ target, content' ≠ .link target := by
        cases content with
        | file bytes =>
          -- the walk ends at the file
          have hplain := not_isDirectoryAt hcontent Content.noConfusion
          obtain rfl := eq_of_walk_from hplain hrest
          obtain ⟨bytes', hbytes⟩ := hfile bytes hcontent
          exact ⟨_, hbytes, fun _ heq ↦ Content.noConfusion heq⟩
        | directory => exact ⟨_, h _ _ hcontent fun _ heq ↦ Content.noConfusion heq, hlink⟩
        | link target => exact absurd rfl (hlink target)
      rw [walk_name (h.isDirectoryAt hplace) hname hcontent' hlink']
      exact ih _ hrest
    · have hkept := h _ (.link target) hcontent fun _ heq ↦ Content.noConfusion heq
      rw [walk_link (h.isDirectoryAt hplace) hname hkept]
      exact ihlinks fewer (Nat.lt_succ_self fewer) _ _ hrest

theorem Keeps.walk (h : Keeps after before)
    (hwalk : before.walk true links place segments = .ok (location, left))
    (hdirectory : before.isDirectoryAt location = true) :
    after.walk true links place segments = .ok (location, left) := by
  apply h.walk_of_file hwalk
  intro bytes hfile
  rw [isDirectoryAt_iff, hfile] at hdirectory
  cases hdirectory

theorem Keeps.locate (h : Keeps after before) (hworking : after.working = before.working)
    (hlocate : before.locate path = .ok location)
    (hfile : ∀ bytes, before.contentAt? location = some (.file bytes) →
      ∃ bytes', after.contentAt? location = some (.file bytes')) :
    after.locate path = .ok location := by
  obtain ⟨left, hwalk⟩ := locate_eq_ok hlocate
  rw [locate_eq_map (spelling_ne_nil_of_locate hlocate) (isTooLong_of_locate hlocate), hworking,
    h.walk_of_file hwalk hfile]
  rfl

/-- Whether a place is free for a file: nothing stands there, or a file does. -/
def IsFree (files : FileSystem) (location : Location) : Prop :=
  ∀ content, files.contentAt? location = some content → ∃ bytes, content = .file bytes

theorem isFree_of_file (h : files.contentAt? location = some (.file bytes)) :
    files.IsFree location :=
  fun _ hcontent ↦ ⟨bytes, Option.some.inj (hcontent.symm.trans h)⟩

theorem IsFree.ne (h : files.IsFree location) {other : Location}
    (hcontent : files.contentAt? other = some content) (hfile : ∀ bytes, content ≠ .file bytes) :
    other ≠ location := by
  rintro rfl
  obtain ⟨bytes, heq⟩ := h content hcontent
  exact hfile bytes heq

theorem keeps_set (h : files.IsFree location) (node : Node) :
    Keeps (files.set location node) files := by
  intro other old hold hfile
  rw [contentAt?_set_of_ne node (h.ne hold hfile), hold]

theorem keeps_of_setContent_file : Keeps files (files.setContent location (.file bytes)) := by
  intro other old hold hfile
  have hne : other ≠ location := by
    rintro rfl
    rw [setContent, contentAt?_set] at hold
    exact hfile bytes (Option.some.inj hold).symm
  rwa [setContent, contentAt?_set_of_ne _ hne] at hold

theorem keeps_erase (h : files.IsFree location) : Keeps (files.erase location) files := by
  intro other old hold hfile
  rw [contentAt?_erase_of_ne (h.ne hold hfile), hold]

theorem Keeps.erase (h : Keeps after before) (location : Location) :
    Keeps (after.erase location) (before.erase location) := by
  intro other content hcontent hfile
  obtain ⟨hne, hother⟩ := contentAt?_erase_eq_some_iff.mp hcontent
  rw [contentAt?_erase_of_ne hne]
  exact h other content hother hfile

/-- Whether every entry lies in a directory. -/
def IsTree (files : FileSystem) : Prop :=
  ∀ entry ∈ files.nodes, entry.1 = [] ∨ files.isDirectoryAt entry.1.tail = true

instance (files : FileSystem) : Decidable files.IsTree :=
  inferInstanceAs (Decidable (∀ entry ∈ files.nodes, _))

theorem isTree_iff : files.IsTree ↔ ∀ name directory content,
    files.contentAt? (name :: directory) = some content → files.isDirectoryAt directory = true := by
  constructor
  · intro h name directory content hcontent
    obtain ⟨entry, hentry, hlocation⟩ := List.mem_map.mp (mem_locations_iff.mpr ⟨content, hcontent⟩)
    have hplace := h entry hentry
    rw [hlocation] at hplace
    exact hplace.resolve_left (List.cons_ne_nil _ _)
  · intro h entry hentry
    obtain ⟨content, hcontent⟩ := mem_locations_iff.mp (List.mem_map_of_mem hentry)
    cases hlocation : entry.1 with
    | nil => exact Or.inl rfl
    | cons name directory =>
      rw [hlocation] at hcontent
      exact Or.inr (h name directory content hcontent)

theorem IsTree.contentAt?_cons (h : files.IsTree) (hplace : files.isDirectoryAt directory = false)
    (name : Text) : files.contentAt? (name :: directory) = none := by
  cases hcontent : files.contentAt? (name :: directory) with
  | none => rfl
  | some content =>
    rw [isTree_iff.mp h name directory content hcontent] at hplace
    cases hplace

/-- A change that keeps directories and puts new entries into directories keeps a tree. -/
theorem IsTree.change (h : before.IsTree) (hkeeps : Keeps after before)
    (hnew : ∀ name directory content, after.contentAt? (name :: directory) = some content →
      before.contentAt? (name :: directory) = none → before.isDirectoryAt directory = true) :
    after.IsTree := by
  rw [isTree_iff]
  intro name directory content hcontent
  apply hkeeps.isDirectoryAt
  cases hbefore : before.contentAt? (name :: directory) with
  | none => exact hnew name directory content hcontent hbefore
  | some old => exact isTree_iff.mp h name directory old hbefore

theorem IsTree.set {directory : Location} (h : files.IsTree)
    (hdirectory : files.isDirectoryAt directory = true) (hfree : files.IsFree (name :: directory))
    (node : Node) : (files.set (name :: directory) node).IsTree := by
  apply h.change (keeps_set hfree node)
  intro name' directory' content' hcontent hnone
  by_cases hsame : name' :: directory' = name :: directory
  · rw [(List.cons.inj hsame).2]
    exact hdirectory
  · rw [contentAt?_set_of_ne node hsame, hnone] at hcontent
    cases hcontent

theorem IsTree.erase (h : files.IsTree) (hfree : files.IsFree location) :
    (files.erase location).IsTree := by
  apply h.change (keeps_erase hfree)
  intro name' directory' content' hcontent hnone
  by_cases hsame : name' :: directory' = location
  · rw [hsame, contentAt?_erase] at hcontent
    cases hcontent
  · rw [contentAt?_erase_of_ne hsame, hnone] at hcontent
    cases hcontent

/-! ## Entries of paths -/

/-- Whether some steps lead from a place to a directory. -/
def ArrivesAt (files : FileSystem) (place : Location) (steps : List Text) (directory : Location) :
    Prop :=
  (∃ left, files.walk true maxLinks place steps = .ok (directory, left)) ∧
    files.isDirectoryAt directory = true

theorem ArrivesAt.unique {other : Location} (h : files.ArrivesAt place front directory)
    (h' : files.ArrivesAt place front other) : directory = other := by
  obtain ⟨⟨_, hwalk⟩, _⟩ := h
  obtain ⟨⟨_, hwalk'⟩, _⟩ := h'
  exact walk_location_unique hwalk hwalk'

theorem Keeps.arrivesAt (h : Keeps after before) (hplace : before.ArrivesAt place front directory) :
    after.ArrivesAt place front directory := by
  obtain ⟨⟨left, hwalk⟩, hdirectory⟩ := hplace
  exact ⟨⟨left, h.walk hwalk hdirectory⟩, h.isDirectoryAt hdirectory⟩

/-- Segments that are no steps do not matter for a walk to a directory. -/
theorem walk_filter :
    (files.walk true links place segments = .ok (location, left) ∧
      files.isDirectoryAt location = true) ↔
    (files.walk true links place (segments.filter (!Path.isIdle ·)) = .ok (location, left) ∧
      files.isDirectoryAt location = true) := by
  induction segments generalizing links place with
  | nil => exact Iff.rfl
  | cons segment rest ih =>
    cases hidle : Path.isIdle segment with
    | true =>
      rw [List.filter_cons_of_neg (by simp [hidle]), ← ih]
      by_cases hplace : files.isDirectoryAt place = true
      · rw [walk_idle hplace hidle]
      · rw [Bool.not_eq_true] at hplace
        constructor
        · intro h
          rw [(walk_cons_cases h.1).1] at hplace
          cases hplace
        · intro h
          rw [← eq_of_walk_from hplace h.1, h.2] at hplace
          cases hplace
    | false =>
      rw [List.filter_cons_of_pos (by simp [hidle]), ← List.singleton_append,
        ← List.singleton_append (l := List.filter _ rest), walk_append_eq_ok, walk_append_eq_ok]
      constructor
      · rintro ⟨⟨middle, fewer, hfirst, hrest⟩, hdirectory⟩
        have hfiltered := ih.mp ⟨hrest, hdirectory⟩
        exact ⟨⟨middle, fewer, hfirst, hfiltered.1⟩, hdirectory⟩
      · rintro ⟨⟨middle, fewer, hfirst, hrest⟩, hdirectory⟩
        have hall := ih.mpr ⟨hrest, hdirectory⟩
        exact ⟨⟨middle, fewer, hfirst, hall.1⟩, hdirectory⟩

/-- The location of the last step of a path, if that is a name without a slash after it. -/
def entry? (files : FileSystem) (path : Path) : Option Location :=
  match files.lastStep path with
  | .ok ⟨directory, some name, false, _⟩ => some (name :: directory)
  | _ => none

/-- What stands at the end of a path, where a link stands for itself. -/
def standsAt (files : FileSystem) (path : Path) : Option Content :=
  (files.entry? path).bind files.contentAt?

theorem entry?_of_lastStep
    (h : files.lastStep path = .ok ⟨directory, some name, false, left⟩) :
    files.entry? path = some (name :: directory) := by
  unfold entry?
  rw [h]

theorem lastStep_of_entry (h : files.entry? path = some location) :
    ∃ name directory left, location = name :: directory ∧
      files.lastStep path = .ok ⟨directory, some name, false, left⟩ := by
  unfold entry? at h
  split at h
  · rename_i directory name left hstep
    cases h
    exact ⟨name, directory, left, rfl, hstep⟩
  · cases h

theorem cutLast_concat (hname : IsName name) :
    cutLast (segments ++ [name]) = (segments, some name) := by
  obtain ⟨hempty, hdots⟩ := isName_iff.mp hname
  unfold cutLast
  rw [List.reverse_append, List.reverse_singleton, List.singleton_append,
    List.dropWhile_cons_of_neg (by simp [hempty])]
  dsimp only
  rw [List.reverse_reverse, if_neg hdots]

theorem getLast?_ne_of_splitOn (hsegments : Text.splitOn '/' path.spelling = segments ++ [name])
    (hname : name ≠ []) : path.spelling.getLast? ≠ some '/' := by
  intro hslash
  obtain ⟨start, hstart⟩ := List.getLast?_eq_some_iff.mp hslash
  rw [hstart, Text.splitOn_append_separator] at hsegments
  have hlast : [[]] = [name] := (List.append_inj' hsegments rfl).2
  exact hname (List.cons.inj hlast).1.symm

/-- The last step of a path that ends in a name. -/
theorem lastStepFrom_of_name {remaining : Nat}
    (hsegments : Text.splitOn '/' path.spelling = segments ++ [name]) (hname : IsName name)
    (hwalk : files.walk true links (origin path place) segments = .ok (directory, remaining))
    (hdirectory : files.isDirectoryAt directory = true) :
    files.lastStepFrom links place path = .ok ⟨directory, some name, false, remaining⟩ := by
  have hempty : name ≠ [] := Path.ne_nil_of_isIdle hname.1
  have hslash : decide (path.spelling.getLast? = some '/') = false :=
    decide_eq_false (getLast?_ne_of_splitOn hsegments hempty)
  refine lastStepFrom_eq_ok_iff.mpr
    ⟨Path.spelling_ne_nil_of_splitOn hsegments hempty, hslash.symm, segments, ?_, hwalk, hdirectory⟩
  rw [hsegments, cutLast_concat hname]

/-- A path that ends in a name leads to an entry if the steps before lead to a directory. -/
theorem entry?_eq_some_iff (hsegments : Text.splitOn '/' path.spelling = segments ++ [name])
    (hname : IsName name) :
    files.entry? path = some location ↔ ∃ directory, location = name :: directory ∧
      files.ArrivesAt (origin path files.working) (segments.filter (!Path.isIdle ·)) directory := by
  constructor
  · intro h
    obtain ⟨name', directory, left, rfl, hstep⟩ := lastStep_of_entry h
    obtain ⟨segments', hsegments', _, hwalk, hdirectory⟩ := lastStepFrom_eq_ok hstep
    obtain ⟨rfl, hlast⟩ := List.append_inj' (hsegments.symm.trans hsegments') rfl
    obtain rfl := (List.cons.inj hlast).1
    have harrives := walk_filter.mp ⟨hwalk, hdirectory⟩
    exact ⟨directory, rfl, ⟨left, harrives.1⟩, harrives.2⟩
  · rintro ⟨directory, rfl, ⟨left, hwalk⟩, hdirectory⟩
    obtain ⟨hall, _⟩ := walk_filter.mpr ⟨hwalk, hdirectory⟩
    exact entry?_of_lastStep (lastStepFrom_of_name hsegments hname hall hdirectory)

theorem entry?_of_idle {last : Text}
    (hsegments : Text.splitOn '/' path.spelling = segments ++ [last])
    (hidle : Path.isIdle last = true) : files.entry? path = none := by
  cases hentry : files.entry? path with
  | none => rfl
  | some location =>
    obtain ⟨name, directory, left, _, hstep⟩ := lastStep_of_entry hentry
    obtain ⟨segments', hsegments', hname, _, _⟩ := lastStepFrom_eq_ok hstep
    obtain ⟨rfl, hlast⟩ := List.append_inj' (hsegments.symm.trans hsegments') rfl
    rw [(List.cons.inj hlast).1, hname.1] at hidle
    cases hidle

theorem Keeps.entry?_eq (h : Keeps after before) (hworking : after.working = before.working)
    (hentry : before.entry? path = some location) : after.entry? path = some location := by
  obtain ⟨name, directory, left, rfl, hstep⟩ := lastStep_of_entry hentry
  obtain ⟨segments, hsegments, hname, _, _⟩ := lastStepFrom_eq_ok hstep
  obtain ⟨_, hsame, harrives⟩ := (entry?_eq_some_iff hsegments hname).mp hentry
  obtain rfl := (List.cons.inj hsame).2
  rw [entry?_eq_some_iff hsegments hname, hworking]
  exact ⟨_, rfl, h.arrivesAt harrives⟩

theorem standsAt_of_entry (h : files.entry? path = some location) :
    files.standsAt path = files.contentAt? location := by
  unfold standsAt
  rw [h, Option.bind_some]

theorem standsAt_eq_none (h : ∀ location, files.entry? path = some location →
    files.contentAt? location = none) : files.standsAt path = none :=
  Option.bind_eq_none_iff.mpr h

theorem standsAt_eq_some (h : files.standsAt path = some content) :
    ∃ location, files.entry? path = some location ∧ files.contentAt? location = some content :=
  Option.bind_eq_some_iff.mp h

/-- A path that ends in a name and leads anywhere leads to its entry, unless that is a link. -/
theorem locate_of_name (hsegments : Text.splitOn '/' path.spelling = segments ++ [name])
    (hname : IsName name) (h : files.locate path = .ok location) :
    ∃ directory content, files.entry? path = some (name :: directory) ∧
      files.contentAt? (name :: directory) = some content ∧
      ((∀ target, content ≠ .link target) → location = name :: directory) := by
  obtain ⟨left, hwalk⟩ := locate_eq_ok h
  rw [hsegments] at hwalk
  obtain ⟨directory, fewer, hfront, hlast⟩ := walk_append_eq_ok.mp hwalk
  obtain ⟨hdirectory, hstep⟩ := walk_name_cases hname hlast
  have harrives := walk_filter.mp ⟨hfront, hdirectory⟩
  have hentry : files.entry? path = some (name :: directory) :=
    (entry?_eq_some_iff hsegments hname).mpr ⟨directory, rfl, ⟨fewer, harrives.1⟩, harrives.2⟩
  rcases hstep with ⟨content, hcontent, _, hrest⟩ | ⟨target, _, hcontent, _, _⟩
  · rw [walk_nil] at hrest
    cases hrest
    exact ⟨directory, content, hentry, hcontent, fun _ ↦ rfl⟩
  · exact ⟨directory, .link target, hentry, hcontent, fun hlink ↦ absurd rfl (hlink target)⟩

theorem isTooLong_of_readFile (h : files.readFile path = .ok bytes) : path.isTooLong = false := by
  obtain ⟨location, hlocate, _⟩ := readFile_eq_ok_iff.mp h
  exact isTooLong_of_locate hlocate

/-- Unless it is a link, a file that can be read at a path is what stands at its end. -/
theorem readFile_of_name (hsegments : Text.splitOn '/' path.spelling = segments ++ [name])
    (hname : IsName name) (hshort : path.isTooLong = false)
    (hlink : ∀ target, files.standsAt path ≠ some (.link target)) :
    files.readFile path = .ok bytes ↔ files.standsAt path = some (.file bytes) := by
  rw [readFile_eq_ok_iff]
  constructor
  · rintro ⟨location, hlocate, hfile⟩
    obtain ⟨directory, content, hentry, hcontent, hends⟩ := locate_of_name hsegments hname hlocate
    rw [standsAt_of_entry hentry, hcontent] at hlink ⊢
    obtain rfl := hends fun target heq ↦ hlink target (congrArg some heq)
    exact hcontent.symm.trans hfile
  · intro h
    obtain ⟨location, hentry, hfile⟩ := standsAt_eq_some h
    obtain ⟨directory, rfl, ⟨left, hwalk⟩, hdirectory⟩ :=
      (entry?_eq_some_iff hsegments hname).mp hentry
    have hfront := walk_filter.mpr ⟨hwalk, hdirectory⟩
    have hspelling := Path.spelling_ne_nil_of_splitOn hsegments (Path.ne_nil_of_isIdle hname.1)
    refine ⟨name :: directory, ?_, hfile⟩
    rw [locate_eq_map hspelling hshort, hsegments, walk_append, hfront.1]
    change (files.walk true left directory [name]).map Prod.fst = _
    rw [walk_name hdirectory hname hfile fun _ heq ↦ Content.noConfusion heq, walk_nil]
    rfl

theorem readFile_of_idle {last : Text}
    (hsegments : Text.splitOn '/' path.spelling = segments ++ [last])
    (hidle : Path.isIdle last = true) : files.readFile path ≠ .ok bytes := by
  rw [Ne, readFile_eq_ok_iff]
  rintro ⟨location, hlocate, hfile⟩
  obtain ⟨left, hwalk⟩ := locate_eq_ok hlocate
  rw [hsegments] at hwalk
  obtain ⟨directory, fewer, _, hlast⟩ := walk_append_eq_ok.mp hwalk
  have hdirectory := (walk_cons_cases hlast).1
  rw [walk_idle hdirectory hidle, walk_nil] at hlast
  cases hlast
  rw [isDirectoryAt_iff, hfile] at hdirectory
  cases hdirectory

theorem isFile_iff : files.isFile path = true ↔ ∃ bytes, files.readFile path = .ok bytes := by
  unfold isFile readFile
  cases files.stat path with
  | error reason => simp
  | ok node =>
    obtain ⟨content, modified⟩ := node
    cases content <;> simp

theorem pathExists_of_readFile (h : files.readFile path = .ok bytes) :
    files.pathExists path = true := by
  unfold readFile at h
  unfold pathExists
  split at h
  · cases h
  · rename_i hstat
    rw [hstat]
  · cases h

/-- A file that is written at a path where no link stands becomes the entry of the path. -/
theorem writeFile_of_not_link (hlink : ∀ target, files.standsAt path ≠ some (.link target))
    (hwrite : files.writeFile path bytes = .ok after) :
    ∃ location, files.entry? path = some location ∧ files.IsFree location ∧
      after = files.setContent location (.file bytes) := by
  obtain ⟨goal, hgoal, rfl⟩ := writeFile_eq_ok hwrite
  obtain ⟨before, name, directory, left, hsegments, hname, hwalk, hdirectory, hend⟩ :=
    writeLocation_cases hgoal
  have harrives := walk_filter.mp ⟨hwalk, hdirectory⟩
  have hentry : files.entry? path = some (name :: directory) :=
    (entry?_eq_some_iff hsegments hname).mpr ⟨directory, rfl, ⟨left, harrives.1⟩, harrives.2⟩
  rcases hend with ⟨rfl, hfree⟩ | ⟨target, fewer, htarget, _, _⟩
  · exact ⟨_, hentry, hfree, rfl⟩
  · exact absurd ((standsAt_of_entry hentry).trans htarget) (hlink target)

theorem IsFree.isDirectoryAt_setContent (hfree : files.IsFree location) (bytes : Bytes)
    (other : Location) :
    (files.setContent location (.file bytes)).isDirectoryAt other = files.isDirectoryAt other := by
  by_cases hother : other = location
  · rw [hother, not_isDirectoryAt (contentAt?_setContent ..) Content.noConfusion, eq_comm,
      Bool.eq_false_iff]
    intro hbefore
    obtain ⟨found, heq⟩ := hfree .directory (isDirectoryAt_iff.mp hbefore)
    cases heq
  · unfold isDirectoryAt setContent
    rw [contentAt?_set_of_ne _ hother]

/-- A file that was written is come to only where a walk has led before, or where one could not
go on before. -/
theorem walk_setContent_cases (hfree : files.IsFree location) (bytes : Bytes) (links : Nat)
    (place : Location) (segments : List Text) :
    (files.setContent location (.file bytes)).walk true links place segments =
        files.walk true links place segments ∨
      files.walk true links place segments = .error .notFound ∧
        ((files.setContent location (.file bytes)).walk true links place segments =
            .error .notDirectory ∨
          ∃ left, (files.setContent location (.file bytes)).walk true links place segments =
            .ok (location, left)) := by
  have hnew := contentAt?_setContent files location (.file bytes)
  induction links, place, segments using walkInduction with
  | nil links place => exact Or.inl (by rw [walk_nil, walk_nil])
  | cons links place segment rest ih ihlinks =>
    rw [walk_cons, walk_cons, hfree.isDirectoryAt_setContent]
    split
    · exact Or.inl rfl
    · split
      · exact ih place
      · split
        · exact ih place.tail
        · by_cases hentry : segment :: place = location
          · rw [hentry, hnew]
            cases hcontent : files.contentAt? location with
            | none =>
              refine Or.inr ⟨rfl, ?_⟩
              dsimp only
              cases rest with
              | nil => exact Or.inr ⟨links, walk_nil _ _ _ _⟩
              | cons next more =>
                rw [walk_cons, not_isDirectoryAt hnew Content.noConfusion]
                exact Or.inl rfl
            | some content =>
              obtain ⟨found, rfl⟩ := hfree content hcontent
              exact ih location
          · rw [setContent, contentAt?_set_of_ne _ hentry]
            split
            · exact Or.inl rfl
            · split
              · exact Or.inl rfl
              · split
                · exact Or.inl rfl
                · exact ihlinks _ (Nat.lt_succ_self _) _ _
            · exact ih _

/-- Where a path leads after a file was written: where it led before, or to the file. -/
theorem locate_setContent_cases (hfree : files.IsFree location) (bytes : Bytes) (path : Path) :
    (files.setContent location (.file bytes)).locate path = files.locate path ∨
      files.locate path = .error .notFound ∧
        ((files.setContent location (.file bytes)).locate path = .error .notDirectory ∨
          (files.setContent location (.file bytes)).locate path = .ok location) := by
  by_cases hspelling : path.spelling = []
  · left
    simp [locate, locateWith, hspelling]
  by_cases hlong : path.isTooLong = true
  · left
    rw [locate_of_isTooLong hlong, locate_of_isTooLong hlong]
  · have hworking : (files.setContent location (.file bytes)).working = files.working := rfl
    rw [Bool.not_eq_true] at hlong
    rw [locate_eq_map hspelling hlong, locate_eq_map hspelling hlong, hworking]
    rcases walk_setContent_cases hfree bytes maxLinks (origin path files.working)
      (Text.splitOn '/' path.spelling) with hsame | ⟨hnone, hplain | ⟨left, hleads⟩⟩
    · exact Or.inl (congrArg _ hsame)
    · exact Or.inr ⟨congrArg _ hnone, Or.inl (congrArg _ hplain)⟩
    · exact Or.inr ⟨congrArg _ hnone, Or.inr (congrArg _ hleads)⟩

/-- What reading gives after a file was written: what it gave before, or the file itself where the
path leads to it. The reason for a failure may change too. -/
theorem readFile_setContent_cases (hfree : files.IsFree location) (bytes : Bytes) (path : Path) :
    (files.setContent location (.file bytes)).readFile path = files.readFile path ∨
      ((files.setContent location (.file bytes)).locate path = .ok location ∧
        (files.setContent location (.file bytes)).readFile path = .ok bytes) ∨
      (files.readFile path = .error .notFound ∧
        (files.setContent location (.file bytes)).readFile path = .error .notDirectory) := by
  have hnew := contentAt?_setContent files location (.file bytes)
  rcases locate_setContent_cases hfree bytes path with hsame | ⟨hnone, hplain | hleads⟩
  · cases hpath : files.locate path with
    | error reason =>
      left
      simp [readFile, stat, hsame, hpath]
    | ok place =>
      rw [hpath] at hsame
      by_cases hplace : place = location
      · rw [hplace] at hsame
        exact Or.inr (Or.inl ⟨hsame, readFile_eq_ok_iff.mpr ⟨_, hsame, hnew⟩⟩)
      · left
        unfold readFile stat
        rw [hsame, hpath]
        dsimp only
        rw [setContent, get?_set_of_ne _ _ hplace]
  · exact Or.inr (Or.inr ⟨by simp [readFile, stat, hnone], by simp [readFile, stat, hplain]⟩)
  · exact Or.inr (Or.inl ⟨hleads, readFile_eq_ok_iff.mpr ⟨_, hleads, hnew⟩⟩)

theorem removeFile_eq_ok_iff :
    files.removeFile path = .ok after ↔ path.isTooLong = false ∧
      ∃ location content, files.entry? path = some location ∧
        files.contentAt? location = some content ∧ content ≠ .directory ∧
        after = files.erase location := by
  unfold removeFile entry?
  rw [checkLength_bind_eq_ok_iff]
  apply and_congr_right
  intro _
  cases files.lastStep path with
  | error reason => simp [bind, Except.bind]
  | ok step =>
    obtain ⟨directory, name?, slashed, left⟩ := step
    cases name? with
    | none => simp [bind, Except.bind, throw, throwThe, MonadExceptOf.throw]
    | some name =>
      simp only [bind, Except.bind, pure, Except.pure, throw, throwThe, MonadExceptOf.throw]
      cases hcontent : files.contentAt? (name :: directory) with
      | none => cases slashed <;> simp [hcontent]
      | some content => cases slashed <;> cases content <;> simp [hcontent, eq_comm]

theorem removeFile_isOk_iff (hshort : path.isTooLong = false) :
    (∃ after, files.removeFile path = .ok after) ↔
      ∃ content, files.standsAt path = some content ∧ content ≠ .directory := by
  constructor
  · rintro ⟨after, hremove⟩
    obtain ⟨_, location, content, hentry, hcontent, hplain, _⟩ := removeFile_eq_ok_iff.mp hremove
    exact ⟨content, (standsAt_of_entry hentry).trans hcontent, hplain⟩
  · rintro ⟨content, hstands, hplain⟩
    obtain ⟨location, hentry, hcontent⟩ := standsAt_eq_some hstands
    exact ⟨_, removeFile_eq_ok_iff.mpr
      ⟨hshort, location, content, hentry, hcontent, hplain, rfl⟩⟩

end DefCatalog.FileSystem
