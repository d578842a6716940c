import DefCatalog.Proofs.Files.Components

/-!
# Paths with a tilde

A path in a home directory gets a tilde in place of the directory, and any other path stays as it is
spelled. Whether it is in the directory is settled by components, while what follows the tilde
keeps its spelling. Putting the home directory back in the place of the tilde leads to where the
path leads, however the two are spelled.
-/

namespace DefCatalog.Path

variable {path base home rest : Path}

theorem filter_dropSteps (count : Nat) (segments : List Text) :
    (dropSteps count segments).filter (!isIdle ·) = (segments.filter (!isIdle ·)).drop count := by
  induction count, segments using dropSteps.induct with
  | case1 segments => rw [dropSteps, List.drop_zero]
  | case2 count => rfl
  | case3 count segment segments hidle ih =>
    rw [dropSteps, if_pos hidle, ih, List.filter_cons_of_neg (by simp [hidle])]
  | case4 count segment segments hkept ih =>
    rw [dropSteps, if_neg hkept, ih, List.filter_cons_of_pos (by simp [hkept]), List.drop_succ_cons]

theorem filter_dropWhile_isIdle (segments : List Text) :
    (segments.dropWhile isIdle).filter (!isIdle ·) = segments.filter (!isIdle ·) := by
  have hidle : ∀ segment ∈ segments.takeWhile isIdle, isIdle segment = true :=
    List.all_eq_true.mp List.all_takeWhile
  calc
    (segments.dropWhile isIdle).filter (!isIdle ·) =
        (segments.takeWhile isIdle ++ segments.dropWhile isIdle).filter (!isIdle ·) := by
      rw [List.filter_append, filter_isIdle hidle, List.nil_append]
    _ = segments.filter (!isIdle ·) := by rw [List.takeWhile_append_dropWhile]

theorem mem_of_mem_dropSteps {count : Nat} {segments : List Text} {segment : Text}
    (h : segment ∈ dropSteps count segments) : segment ∈ segments := by
  induction count, segments using dropSteps.induct with
  | case1 segments => rwa [dropSteps] at h
  | case2 count => exact h
  | case3 count first segments hidle ih =>
    rw [dropSteps, if_pos hidle] at h
    exact List.mem_cons_of_mem _ (ih h)
  | case4 count first segments hkept ih =>
    rw [dropSteps, if_neg hkept] at h
    exact List.mem_cons_of_mem _ (ih h)

/-- The path that consists of segments whose first one is not idle. -/
theorem steps_intercalate {segments : List Text} (hplain : ∀ segment ∈ segments, '/' ∉ segment)
    (hfirst : ∀ segment ∈ segments.head?, isIdle segment = false) :
    (⟨['/'].intercalate segments⟩ : Path).steps = segments.filter (!isIdle ·) ∧
      (⟨['/'].intercalate segments⟩ : Path).isAbsolute = false := by
  cases segments with
  | nil => exact ⟨rfl, rfl⟩
  | cons first more =>
    have hsplit := Text.splitOn_intercalate (List.cons_ne_nil first more) hplain
    have hne : first ≠ [] := ne_nil_of_isIdle (hfirst first rfl)
    refine ⟨congrArg (List.filter _) hsplit, ?_⟩
    have hspelling : (⟨['/'].intercalate (first :: more)⟩ : Path).spelling ≠ [] := by
      intro hnil
      dsimp only at hnil
      rw [hnil] at hsplit
      exact hne (List.cons.inj hsplit).1.symm
    rw [Bool.eq_false_iff, Ne, isAbsolute_iff hspelling, hsplit]
    exact fun hhead ↦ hne (Option.some.inj hhead)

/-- The path that is left of some segments after a number of steps. -/
theorem steps_left {body : List Text} (hbody : ∀ segment ∈ body, '/' ∉ segment) (count : Nat) :
    (⟨['/'].intercalate (trimEnd ((dropSteps count body).dropWhile isIdle))⟩ : Path).steps =
        (body.filter (!isIdle ·)).drop count ∧
      (⟨['/'].intercalate (trimEnd ((dropSteps count body).dropWhile isIdle))⟩ : Path).isAbsolute =
        false := by
  obtain ⟨idle, htrim, _⟩ := trimEnd_append ((dropSteps count body).dropWhile isIdle)
  have hplain : ∀ segment ∈ trimEnd ((dropSteps count body).dropWhile isIdle), '/' ∉ segment := by
    intro segment hmem
    have hdropped : segment ∈ (dropSteps count body).dropWhile isIdle := by
      rw [htrim]
      exact List.mem_append_left _ hmem
    exact hbody segment (mem_of_mem_dropSteps ((List.dropWhile_sublist _).subset hdropped))
  have hfirst : ∀ segment ∈ (trimEnd ((dropSteps count body).dropWhile isIdle)).head?,
      isIdle segment = false := by
    intro segment hmem
    have hhead := List.head?_dropWhile_not isIdle (dropSteps count body)
    rw [htrim, List.head?_append, Option.mem_def.mp hmem] at hhead
    simpa using hhead
  obtain ⟨hsteps, hrelative⟩ := steps_intercalate hplain hfirst
  refine ⟨?_, hrelative⟩
  rw [hsteps, steps_trimEnd, filter_dropWhile_isIdle, filter_dropSteps]

theorem relativeTo?_eq_none_iff :
    path.relativeTo? base = none ↔ ¬base.components <+: path.components := by
  rw [← List.isPrefixOf_iff_prefix]
  unfold relativeTo?
  dsimp only
  split
  · rename_i hbegin
    exact iff_of_false (by simp) (not_not_intro hbegin)
  · rename_i hbegin
    exact iff_of_true rfl hbegin

/-- What is left of a path has the components that the path has after those of the base. -/
theorem components_of_relativeTo? (hbase : base.spelling ≠ [])
    (h : path.relativeTo? base = some rest) :
    path.components = base.components ++ rest.steps.map Component.ofSegment ∧
      rest.isAbsolute = false := by
  obtain ⟨head, body, hparts⟩ : ∃ head body, path.headAndBody = (head, body) := ⟨_, _, rfl⟩
  have hcomponents : path.components = head.toList ++ path.steps.map Component.ofSegment := by
    rw [components_eq, hparts]
  have hplain : ∀ segment ∈ body, '/' ∉ segment := fun segment hmem ↦
    Text.not_mem_of_mem_splitOn ((headAndBody_cases hparts).2 segment hmem)
  -- the head of the path is one of the components of the base
  have hlength : head.toList.length ≤ base.components.length := by
    have hsome : 0 < base.components.length :=
      List.length_pos_iff.mpr (components_ne_nil hbase)
    cases head with
    | none => exact Nat.zero_le _
    | some component => exact hsome
  obtain ⟨count, hcount⟩ := Nat.exists_eq_add_of_le hlength
  unfold relativeTo? at h
  rw [hparts] at h
  dsimp only at h
  split at h
  · rename_i hbegin
    rw [hcount, Nat.add_sub_cancel_left] at h
    obtain rfl := Option.some.inj h
    obtain ⟨hsteps, hrelative⟩ := steps_left hplain count
    refine ⟨?_, hrelative⟩
    obtain ⟨below, hbelow⟩ := List.isPrefixOf_iff_prefix.mp hbegin
    have hdrop : below = (path.steps.map Component.ofSegment).drop count := by
      have hsame := congrArg (List.drop base.components.length) (hbelow.trans hcomponents)
      rwa [List.drop_left, hcount, List.drop_append, Nat.add_sub_cancel_left,
        List.drop_of_length_le (Nat.le_add_right _ _), List.nil_append] at hsame
    rw [hsteps, ← steps_eq hparts, List.map_drop, ← hdrop, hbelow]
  · cases h

/-- Whether the first component of a path is a tilde. -/
def BeginsWithTilde (path : Path) : Prop :=
  path.components.head? = some (.name ['~'])

instance (path : Path) : Decidable path.BeginsWithTilde :=
  inferInstanceAs (Decidable (path.components.head? = some (.name ['~'])))

/-- The path that a shown one stands for: a home directory is put in the place of a tilde at its
head. -/
def expand (shown home : Path) : Path :=
  if shown.BeginsWithTilde then ⟨home.spelling ++ shown.spelling.drop 1⟩ else shown

theorem shorten_of_outside (h : ¬home.components <+: path.components) :
    path.shorten home = path := by
  unfold shorten
  rw [relativeTo?_eq_none_iff.mpr h]
  exact ite_self _

/-- A path in a home directory goes on after the tilde as it goes on after the directory. -/
theorem shorten_of_inside (hhome : home.spelling ≠ []) (h : home.components <+: path.components) :
    ∃ after below, path.shorten home = ⟨'~' :: after⟩ ∧ path.components = home.components ++ below ∧
      ∀ base : Path, base.spelling ≠ [] →
        (⟨base.spelling ++ after⟩ : Path).components = base.components ++ below := by
  obtain ⟨rest, hrest⟩ : ∃ rest, path.relativeTo? home = some rest :=
    Option.ne_none_iff_exists'.mp fun hnone ↦ relativeTo?_eq_none_iff.mp hnone h
  obtain ⟨hcomponents, hrelative⟩ := components_of_relativeTo? hhome hrest
  unfold shorten
  rw [if_neg (by simpa using hhome), hrest]
  dsimp only
  by_cases hempty : rest.spelling = []
  · have hsteps : rest.steps = [] := by rw [steps, hempty]; rfl
    refine ⟨[], [], by rw [hempty]; rfl, by rw [hcomponents, hsteps]; rfl, fun base _ ↦ ?_⟩
    rw [List.append_nil, List.append_nil]
  · refine ⟨'/' :: rest.spelling, rest.steps.map Component.ofSegment, ?_, hcomponents,
      fun base hbase ↦ components_append hbase rest.spelling⟩
    rw [if_neg (by simpa using hempty), join, hrelative]
    rfl

theorem beginsWithTilde_shorten_iff (hhome : home.spelling ≠ []) (hpath : ¬path.BeginsWithTilde) :
    (path.shorten home).BeginsWithTilde ↔ home.components <+: path.components := by
  by_cases h : home.components <+: path.components
  · obtain ⟨after, below, hshown, _, hbelow⟩ := shorten_of_inside hhome h
    have htilde : (⟨'~' :: after⟩ : Path).components = .name ['~'] :: below :=
      hbelow ⟨['~']⟩ (List.cons_ne_nil _ _)
    refine iff_of_true ?_ h
    rw [hshown, BeginsWithTilde, htilde, List.head?_cons]
  · rw [shorten_of_outside h]
    exact iff_of_false hpath h

theorem samePlace_expand_shorten (hhome : home.spelling ≠ []) (hpath : ¬path.BeginsWithTilde) :
    ((path.shorten home).expand home).SamePlace path := by
  have hbegins := beginsWithTilde_shorten_iff hhome hpath
  by_cases h : home.components <+: path.components
  · obtain ⟨after, below, hshown, hcomponents, hbelow⟩ := shorten_of_inside hhome h
    rw [expand, if_pos (hbegins.mpr h), hshown]
    calc
      (⟨home.spelling ++ after⟩ : Path).components = home.components ++ below := hbelow home hhome
      _ = path.components := hcomponents.symm
  · rw [expand, if_neg (mt hbegins.mp h), shorten_of_outside h]
    exact rfl

/-- A path begins with a tilde exactly if its components begin with those of the home directory, and
stays as it is spelled otherwise. The place that it leads to can be read off. -/
theorem shorten_reversible (hhome : home.spelling ≠ []) (hpath : ¬path.BeginsWithTilde) :
    ((path.shorten home).BeginsWithTilde ↔ home.components <+: path.components) ∧
      (¬home.components <+: path.components → path.shorten home = path) ∧
      ((path.shorten home).expand home).SamePlace path :=
  ⟨beginsWithTilde_shorten_iff hhome hpath, shorten_of_outside,
    samePlace_expand_shorten hhome hpath⟩

end DefCatalog.Path
