import DefCatalog.Proofs.Files.Replace

/-!
# Entries of directories

An entry of a directory leads to itself, or, if it is a link, to where the link leads. The path of
an entry leads where the entry leads, except that it may be too long and that links on the way to the
directory count against the number of links that are followed for one path.
-/

namespace DefCatalog

namespace FileSystem

variable {files : FileSystem} {links : Nat} {place directory target location : Location}
  {name : Text} {base path : Path} {content : Content}

/-- Whether a text can be the name of an entry. -/
def IsEntryName (name : Text) : Prop :=
  IsName name ∧ '/' ∉ name

instance (name : Text) : Decidable (IsEntryName name) :=
  inferInstanceAs (Decidable ((Path.isIdle name = false ∧ name ≠ ['.', '.']) ∧ '/' ∉ name))

/-- Whether a table of locations stands for a tree of names: no location stands twice, and
entries have names that can be steps of a path. -/
structure WellFormed (files : FileSystem) : Prop where
  nodup_locations : (files.nodes.map Prod.fst).Nodup
  isEntryName : ∀ location ∈ files.nodes.map Prod.fst, ∀ name ∈ location.head?, IsEntryName name

theorem mem_locations_iff :
    location ∈ files.nodes.map Prod.fst ↔ ∃ content, files.contentAt? location = some content := by
  unfold contentAt? get?
  constructor
  · intro hmem
    obtain ⟨⟨place, node⟩, hnode, rfl⟩ := List.mem_map.mp hmem
    have hfound : (files.nodes.find? (·.1 == place)).isSome :=
      List.find?_isSome.mpr ⟨(place, node), hnode, by simp⟩
    obtain ⟨found, hfind⟩ := Option.isSome_iff_exists.mp hfound
    exact ⟨found.2.content, by rw [hfind]; rfl⟩
  · intro hcontent
    obtain ⟨content, hcontent⟩ := hcontent
    cases hfind : files.nodes.find? (·.1 == location) with
    | none => simp [hfind] at hcontent
    | some found =>
      have hlocation : found.1 = location := by simpa using List.find?_some hfind
      rw [← hlocation]
      exact List.mem_map_of_mem (List.mem_of_find?_eq_some hfind)

theorem childNames_eq (files : FileSystem) (directory : Location) :
    files.childNames directory =
      (files.nodes.map Prod.fst).filterMap fun location ↦
        match location with
        | [] => none
        | name :: parent => if parent = directory then some name else none := by
  unfold childNames
  rw [List.filterMap_map]
  rfl

theorem mem_childNames_iff :
    name ∈ files.childNames directory ↔ name :: directory ∈ files.nodes.map Prod.fst := by
  rw [childNames_eq, List.mem_filterMap]
  constructor
  · intro h
    obtain ⟨location, hlocation, hname⟩ := h
    split at hname
    · cases hname
    · split at hname
      · cases hname
        subst directory
        exact hlocation
      · cases hname
  · intro h
    exact ⟨name :: directory, h, if_pos rfl⟩

theorem mem_sortedNames_iff :
    name ∈ files.sortedNames directory ↔
      ∃ content, files.contentAt? (name :: directory) = some content := by
  unfold sortedNames
  rw [List.mem_mergeSort, mem_childNames_iff, mem_locations_iff]

theorem WellFormed.nodup_sortedNames (hfiles : files.WellFormed) (directory : Location) :
    (files.sortedNames directory).Nodup := by
  unfold sortedNames
  apply (List.mergeSort_perm _ _).nodup_iff.mpr
  rw [childNames_eq]
  apply List.Pairwise.filterMap _ _ hfiles.nodup_locations
  intro first second hne name hfirst name' hsecond heq
  apply hne
  split at hfirst
  · cases hfirst
  · split at hsecond
    · cases hsecond
    · simp_all

theorem WellFormed.isEntryName_of_contentAt? (hfiles : files.WellFormed)
    (h : files.contentAt? (name :: directory) = some content) : IsEntryName name :=
  hfiles.isEntryName _ (mem_locations_iff.mpr ⟨content, h⟩) name rfl

/-- Whether an entry of a directory leads to a location, if as many links are followed as there
are. -/
def Leads (files : FileSystem) (directory : Location) (name : Text) (target : Location) : Prop :=
  (∃ content, files.contentAt? (name :: directory) = some content) ∧
    ∃ links remaining, files.walk true links directory [name] = .ok (target, remaining)

theorem Leads.unique (h : files.Leads directory name target)
    (h' : files.Leads directory name location) :
    target = location := by
  obtain ⟨_, _, _, hwalk⟩ := h
  obtain ⟨_, _, _, hwalk'⟩ := h'
  exact walk_location_unique hwalk hwalk'

/-- An entry that is no link leads to itself. -/
theorem walk_entry (hfiles : files.WellFormed) (hdirectory : files.isDirectoryAt directory = true)
    (hcontent : files.contentAt? (name :: directory) = some content)
    (hlink : ∀ target, content ≠ .link target) (links : Nat) :
    files.walk true links directory [name] = .ok (name :: directory, links) := by
  rw [walk_name hdirectory (hfiles.isEntryName_of_contentAt? hcontent).1 hcontent hlink, walk_nil]

theorem Leads.eq_of_not_link (hfiles : files.WellFormed) (h : files.Leads directory name target)
    (hcontent : files.contentAt? (name :: directory) = some content)
    (hlink : ∀ target, content ≠ .link target) : target = name :: directory := by
  obtain ⟨_, links, _, hwalk⟩ := h
  exact walk_location_unique hwalk
    (walk_entry hfiles (walk_cons_cases hwalk).1 hcontent hlink links)

theorem isAbsolute_of_not_mem (hname : '/' ∉ name) : (⟨name⟩ : Path).isAbsolute = false := by
  cases name with
  | nil => rfl
  | cons first others =>
    rw [List.mem_cons, not_or] at hname
    exact beq_false_of_ne fun heq ↦ hname.1 (Option.some.inj heq).symm

theorem isAbsolute_join (hbase : base.spelling ≠ []) (hname : '/' ∉ name) :
    (base.join ⟨name⟩).isAbsolute = base.isAbsolute := by
  obtain ⟨c, rest, hspelling⟩ := List.exists_cons_of_ne_nil hbase
  unfold Path.join
  rw [isAbsolute_of_not_mem hname, if_neg Bool.false_ne_true]
  split <;> simp [Path.isAbsolute, hspelling]

/-- The segments of a path with a name put after it. -/
theorem splitOn_join (hbase : base.spelling ≠ []) (hname : '/' ∉ name) :
    ∃ segments, Text.splitOn '/' (base.join ⟨name⟩).spelling = segments ++ [name] ∧
      (Text.splitOn '/' base.spelling = segments ∨
        Text.splitOn '/' base.spelling = segments ++ [[]]) := by
  by_cases hend : base.spelling.getLast? = some '/'
  · obtain ⟨front, hfront⟩ := List.getLast?_eq_some_iff.mp hend
    have hspelling : (base.join ⟨name⟩).spelling = front ++ '/' :: name := by
      unfold Path.join
      rw [isAbsolute_of_not_mem hname, if_neg Bool.false_ne_true, if_pos (by simp [hend]), hfront,
        List.append_assoc]
      rfl
    refine ⟨Text.splitOn '/' front, ?_, Or.inr ?_⟩
    · rw [hspelling, Text.splitOn_append_separator, Text.splitOn_of_not_mem hname]
    · rw [hfront, Text.splitOn_append_separator]
      rfl
  · refine ⟨Text.splitOn '/' base.spelling, ?_, Or.inl rfl⟩
    rw [Path.spelling_join (isAbsolute_of_not_mem hname) hbase hend, Text.splitOn_append_separator,
      Text.splitOn_of_not_mem hname]

theorem extension?_join (hbase : base.spelling ≠ []) (hname : IsEntryName name) :
    (base.join ⟨name⟩).extension? = Path.extensionOf? name := by
  obtain ⟨segments, hsegments, _⟩ := splitOn_join hbase hname.2
  unfold Path.extension?
  rw [Path.fileName?_of_splitOn hsegments hname.1.1 hname.1.2]
  rfl

theorem spelling_ne_nil_of_locate (h : files.locate base = .ok location) : base.spelling ≠ [] := by
  intro hnil
  unfold locate locateWith at h
  rw [if_pos hnil] at h
  cases h

theorem locate_of_isTooLong (hlong : path.isTooLong = true) :
    files.locate path = .error .nameTooLong := by
  have hspelling : path.spelling ≠ [] := by
    intro hnil
    unfold Path.isTooLong at hlong
    rw [hnil] at hlong
    cases hlong
  unfold locate locateWith
  rw [if_neg hspelling, if_pos hlong]

theorem isTooLong_of_locate (h : files.locate path = .ok location) : path.isTooLong = false := by
  rw [Bool.eq_false_iff]
  intro hlong
  rw [locate_of_isTooLong hlong] at h
  cases h

theorem locate_eq_map (hpath : path.spelling ≠ []) (hshort : path.isTooLong = false) :
    files.locate path = (files.walk true maxLinks (origin path files.working)
      (Text.splitOn '/' path.spelling)).map Prod.fst := by
  unfold locate locateWith
  rw [if_neg hpath, if_neg (Bool.eq_false_iff.mp hshort)]
  cases files.walk true maxLinks (origin path files.working) (Text.splitOn '/' path.spelling) with
  | error reason => rfl
  | ok found => rfl

/-- The way to an entry begins with a way to its directory. -/
theorem exists_front_of_join (hbase : files.locate base = .ok directory) (hname : '/' ∉ name) :
    ∃ segments left, Text.splitOn '/' (base.join ⟨name⟩).spelling = segments ++ [name] ∧
      files.walk true maxLinks (origin (base.join ⟨name⟩) files.working) segments =
        .ok (directory, left) := by
  have hspelling := spelling_ne_nil_of_locate hbase
  obtain ⟨segments, hjoin, hsegments⟩ := splitOn_join hspelling hname
  have horigin : origin (base.join ⟨name⟩) files.working = origin base files.working :=
    origin_congr (isAbsolute_join hspelling hname) _
  obtain ⟨left, hwalk⟩ := locate_eq_ok hbase
  refine ⟨segments, left, hjoin, ?_⟩
  rw [horigin]
  cases hsegments with
  | inl hsame => rwa [← hsame]
  | inr hslash =>
    rw [hslash] at hwalk
    apply walk_of_append_idle _ hwalk
    intro segment hsegment
    rw [List.mem_singleton.mp hsegment]
    rfl

/-- Following the path of an entry is following the entry, with the links that are left. -/
theorem walk_join (hbase : files.locate base = .ok directory) (hname : '/' ∉ name) :
    ∃ left, ∀ more, files.walk true (maxLinks + more) (origin (base.join ⟨name⟩) files.working)
      (Text.splitOn '/' (base.join ⟨name⟩).spelling) =
        files.walk true (left + more) directory [name] := by
  obtain ⟨segments, left, hjoin, hfront⟩ := exists_front_of_join hbase hname
  refine ⟨left, fun more ↦ ?_⟩
  rw [hjoin, walk_append, walk_add_links hfront more]
  rfl

theorem locate_join (hbase : files.locate base = .ok directory) (hname : '/' ∉ name)
    (hshort : (base.join ⟨name⟩).isTooLong = false) :
    ∃ left, files.locate (base.join ⟨name⟩) =
      (files.walk true left directory [name]).map Prod.fst := by
  obtain ⟨left, hwalk⟩ := walk_join hbase hname
  have hjoin : (base.join ⟨name⟩).spelling ≠ [] := by
    have hspelling := spelling_ne_nil_of_locate hbase
    unfold Path.join
    rw [isAbsolute_of_not_mem hname, if_neg Bool.false_ne_true]
    split <;> simp [hspelling]
  exact ⟨left, (locate_eq_map hjoin hshort).trans (congrArg (Except.map Prod.fst) (hwalk 0))⟩

theorem exists_walk_of_locate_join (hbase : files.locate base = .ok directory) (hname : '/' ∉ name)
    (h : files.locate (base.join ⟨name⟩) = .ok location) :
    ∃ left remaining, files.walk true left directory [name] = .ok (location, remaining) := by
  obtain ⟨left, hjoin⟩ := locate_join hbase hname (isTooLong_of_locate h)
  rw [hjoin] at h
  cases hwalk : files.walk true left directory [name] with
  | error reason => simp [hwalk, Except.map] at h
  | ok found =>
    rw [hwalk] at h
    exact ⟨left, found.2, hwalk.trans (by rw [← Except.ok.inj h])⟩

theorem eq_of_locate_join (hbase : files.locate base = .ok directory) (hname : IsEntryName name)
    (hlink : ∀ target, files.contentAt? (name :: directory) ≠ some (.link target))
    (hlocate : files.locate (base.join ⟨name⟩) = .ok location) : location = name :: directory := by
  obtain ⟨left, remaining, hwalk⟩ := exists_walk_of_locate_join hbase hname.2 hlocate
  obtain ⟨_, ⟨_, _, _, hend⟩ | ⟨target, _, htarget, _⟩⟩ := walk_name_cases hname.1 hwalk
  · rw [walk_nil] at hend
    cases hend
    rfl
  · exact absurd htarget (hlink target)

theorem leads_of_locate (hfiles : files.WellFormed) (hbase : files.locate base = .ok directory)
    (hcontent : files.contentAt? (name :: directory) = some content)
    (hpath : files.locate (base.join ⟨name⟩) = .ok target) : files.Leads directory name target := by
  have hname := hfiles.isEntryName_of_contentAt? hcontent
  obtain ⟨left, remaining, hwalk⟩ := exists_walk_of_locate_join hbase hname.2 hpath
  exact ⟨⟨content, hcontent⟩, left, remaining, hwalk⟩

/-- Whether the limits on the number of links and on the length of a path do not keep a path from
leading anywhere. -/
def WithinLimit (files : FileSystem) (path : Path) : Prop :=
  ∀ links location remaining,
    files.walk true links (origin path files.working) (Text.splitOn '/' path.spelling) =
      .ok (location, remaining) → files.locate path = .ok location

theorem withinLimit_of_locate (h : files.locate path = .ok location) : files.WithinLimit path := by
  intro links found remaining hwalk
  have hspelling := spelling_ne_nil_of_locate h
  obtain ⟨left, hfound⟩ := locate_eq_ok h
  rw [locate_eq_map hspelling (isTooLong_of_locate h), walk_location_unique hwalk hfound, hfound]
  rfl

theorem locate_of_leads (hfiles : files.WellFormed) (hbase : files.locate base = .ok directory)
    (hlimit : files.WithinLimit (base.join ⟨name⟩)) (h : files.Leads directory name target) :
    files.locate (base.join ⟨name⟩) = .ok target := by
  obtain ⟨⟨content, hcontent⟩, links, remaining, hwalk⟩ := h
  obtain ⟨left, hjoin⟩ := walk_join hbase (hfiles.isEntryName_of_contentAt? hcontent).2
  apply hlimit (maxLinks + links) target (remaining + left)
  rw [hjoin, Nat.add_comm]
  exact walk_add_links hwalk left

end FileSystem

end DefCatalog
