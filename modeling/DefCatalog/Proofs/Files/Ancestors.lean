import DefCatalog.Files.Step
import DefCatalog.Proofs.Files.Standing

/-!
# Making the directories above a path

The paths above a path take some of its steps. If one of them is made as a new directory, then
nothing stands yet at any path that goes on below it.
-/

namespace DefCatalog

namespace Path

variable {path parent other : Path} {head : Option Component} {body : List Text}

/-- The segments of a path that are steps. -/
def steps (path : Path) : List Text :=
  (Text.splitOn '/' path.spelling).filter (!isIdle ·)

theorem filter_concat {front : List Text} {last : Text} (h : isIdle last = false) :
    (front ++ [last]).filter (!isIdle ·) = front.filter (!isIdle ·) ++ [last] := by
  rw [List.filter_append, List.filter_singleton, h, Bool.not_false, cond_true]

theorem steps_of_splitOn {front : List Text} {last : Text}
    (h : Text.splitOn '/' path.spelling = front ++ [last]) (hlast : isIdle last = false) :
    path.steps = front.filter (!isIdle ·) ++ [last] := by
  rw [steps, h, filter_concat hlast]

theorem splitOn_eq_headSegments (h : path.headAndBody = (head, body)) :
    Text.splitOn '/' path.spelling = headSegments head ++ body := by
  unfold headAndBody at h
  split at h
  · rename_i hnil
    exact absurd hnil (Text.splitOn_ne_nil '/' path.spelling)
  · rename_i first rest hsplit
    rw [hsplit]
    split at h
    · rename_i habsolute
      cases h
      have hspelling : path.spelling ≠ [] := by
        intro hnil
        rw [isAbsolute, hnil] at habsolute
        cases habsolute
      have hfirst := (isAbsolute_iff hspelling).mp habsolute
      rw [hsplit] at hfirst
      cases hfirst
      rfl
    · split at h
      · rename_i hhere
        cases h
        rw [hhere]
        rfl
      · cases h
        rfl

theorem steps_eq (h : path.headAndBody = (head, body)) : path.steps = body.filter (!isIdle ·) := by
  rw [steps, splitOn_eq_headSegments h, List.filter_append, filter_headSegments, List.nil_append]

theorem components_eq (path : Path) :
    path.components = path.headAndBody.1.toList ++ path.steps.map Component.ofSegment := by
  obtain ⟨head, body, hparts⟩ : ∃ head body, path.headAndBody = (head, body) := ⟨_, _, rfl⟩
  unfold components
  rw [steps_eq hparts, hparts]

theorem up_not_mem_steps (h : Component.up ∉ path.components) : ['.', '.'] ∉ path.steps := by
  intro hup
  apply h
  rw [components_eq]
  exact List.mem_append_right _ (List.mem_map_of_mem hup)

theorem splitOn_cases (hup : Component.up ∉ path.components) :
    ∃ before last, Text.splitOn '/' path.spelling = before ++ [last] ∧
      (FileSystem.IsName last ∨ isIdle last = true) := by
  obtain ⟨before, last, hsegments⟩ : ∃ before last,
      Text.splitOn '/' path.spelling = before ++ [last] :=
    ⟨_, _, (List.dropLast_concat_getLast (Text.splitOn_ne_nil '/' path.spelling)).symm⟩
  have hmem : last ∈ Text.splitOn '/' path.spelling := by simp [hsegments]
  refine ⟨before, last, hsegments, ?_⟩
  cases hidle : isIdle last with
  | true => exact Or.inr rfl
  | false =>
    refine Or.inl ⟨hidle, ?_⟩
    rintro rfl
    exact up_not_mem_steps hup (List.mem_filter.mpr ⟨hmem, by simp [hidle]⟩)

theorem isAbsolute_iff_head (h : path.headAndBody = (head, body)) :
    path.isAbsolute = true ↔ head = some .root := by
  unfold headAndBody at h
  split at h
  · rename_i hnil
    exact absurd hnil (Text.splitOn_ne_nil '/' path.spelling)
  · split at h
    · rename_i habsolute
      cases h
      exact iff_of_true habsolute rfl
    · rename_i hrelative
      split at h
      · cases h
        exact iff_of_false hrelative (by simp)
      · cases h
        exact iff_of_false hrelative (by simp)

/-! ## The path above -/

theorem filter_isIdle {idle : List Text} (h : ∀ segment ∈ idle, isIdle segment = true) :
    idle.filter (!isIdle ·) = [] := by
  rw [List.filter_eq_nil_iff]
  intro segment hmem
  simp [h segment hmem]

theorem steps_trimEnd (segments : List Text) :
    (trimEnd segments).filter (!isIdle ·) = segments.filter (!isIdle ·) := by
  obtain ⟨idle, hsegments, hidle⟩ := trimEnd_append segments
  rw [congrArg (List.filter _) hsegments, List.filter_append, filter_isIdle hidle, List.append_nil]

theorem splitOn_assemble (head : Option Component) {segments : List Text} (hne : segments ≠ [])
    (hplain : ∀ segment ∈ segments, '/' ∉ segment) :
    Text.splitOn '/' (assemble head segments).spelling = headSegments head ++ segments := by
  rw [spelling_assemble head hne]
  exact Text.splitOn_intercalate (by simp [hne]) (not_mem_headSegments_append hplain)

theorem mem_splitOn_of_trimEnd {front : List Text} {last segment : Text}
    (hparts : path.headAndBody = (head, body)) (hbody : trimEnd body = front ++ [last])
    (hmem : segment ∈ trimEnd front) : segment ∈ Text.splitOn '/' path.spelling := by
  obtain ⟨idle, hfront, _⟩ := trimEnd_append front
  obtain ⟨idle', hbody', _⟩ := trimEnd_append body
  rw [splitOn_eq_headSegments hparts, hbody', hbody, hfront]
  simp [hmem]

theorem steps_assemble {front : List Text} {last : Text}
    (hparts : path.headAndBody = (head, body)) (hbody : trimEnd body = front ++ [last]) :
    (assemble head (trimEnd front)).steps = (trimEnd front).filter (!isIdle ·) := by
  by_cases hnil : trimEnd front = []
  · rw [hnil]
    rcases (headAndBody_cases hparts).1 with rfl | rfl | rfl <;> rfl
  · rw [steps, splitOn_assemble head hnil, List.filter_append, filter_headSegments, List.nil_append]
    intro segment hmem
    exact Text.not_mem_of_mem_splitOn (mem_splitOn_of_trimEnd hparts hbody hmem)

theorem isAbsolute_assemble {front : List Text} {last : Text}
    (hparts : path.headAndBody = (head, body)) (hbody : trimEnd body = front ++ [last])
    (hspelling : (assemble head (trimEnd front)).spelling ≠ []) :
    (assemble head (trimEnd front)).isAbsolute = path.isAbsolute := by
  have habsolute := isAbsolute_iff_head hparts
  rw [Bool.eq_iff_iff, habsolute]
  rcases (headAndBody_cases hparts).1 with rfl | rfl | rfl
  · -- without a head the first segment is that of the path, which is then not empty
    obtain ⟨first, rest, hfirst⟩ : ∃ first rest, trimEnd front = first :: rest := by
      apply List.exists_cons_of_ne_nil
      intro hnil
      rw [hnil] at hspelling
      exact hspelling rfl
    have hsplit : Text.splitOn '/' (assemble none (trimEnd front)).spelling = first :: rest := by
      rw [← hfirst]
      exact splitOn_assemble none (by simp [hfirst]) fun segment hmem ↦
        Text.not_mem_of_mem_splitOn (mem_splitOn_of_trimEnd hparts hbody hmem)
    obtain ⟨more, hpath⟩ : ∃ more, Text.splitOn '/' path.spelling = first :: more := by
      obtain ⟨idle, hfront, _⟩ := trimEnd_append front
      obtain ⟨idle', hbody', _⟩ := trimEnd_append body
      have hsegments := splitOn_eq_headSegments hparts
      rw [hbody', hbody, hfront, hfirst] at hsegments
      exact ⟨_, hsegments⟩
    have hspelling' : path.spelling ≠ [] := by
      intro hnil
      obtain ⟨idle', hbody', _⟩ := trimEnd_append body
      have hsegments := splitOn_eq_headSegments hparts
      have hlast : last ∈ Text.splitOn '/' path.spelling := by
        rw [hsegments, hbody', hbody]
        simp
      rw [hnil] at hlast
      obtain rfl := List.mem_singleton.mp hlast
      exact ne_nil_of_isIdle (not_isIdle_of_trimEnd hbody) rfl
    rw [isAbsolute_iff hspelling, hsplit, ← habsolute, isAbsolute_iff hspelling', hpath]
    rfl
  · exact iff_of_true rfl rfl
  · apply iff_of_false _ (by simp)
    unfold assemble isAbsolute
    dsimp only
    split <;> simp

theorem parent?_cases (hparts : path.headAndBody = (head, body)) (h : path.parent? = some parent) :
    (head = some .here ∧ trimEnd body = [] ∧ parent = ⟨[]⟩) ∨
      ∃ front last, trimEnd body = front ++ [last] ∧ parent = assemble head (trimEnd front) := by
  rcases List.eq_nil_or_concat' (trimEnd body) with hnil | ⟨front, last, hbody⟩
  · left
    unfold parent? at h
    rw [hparts] at h
    dsimp only at h
    rw [hnil] at h
    split at h
    · cases h
      exact ⟨rfl, hnil, rfl⟩
    · cases h
    · rename_i hnone _
      exact absurd rfl hnone
  · rw [parent?_of_trimEnd hparts hbody] at h
    exact Or.inr ⟨front, last, hbody, (Option.some.inj h).symm⟩

theorem parent?_eq_some (h : path.parent? = some parent) :
    parent.steps = path.steps.dropLast ∧
      (parent.spelling ≠ [] → parent.isAbsolute = path.isAbsolute) := by
  obtain ⟨head, body, hparts⟩ : ∃ head body, path.headAndBody = (head, body) := ⟨_, _, rfl⟩
  have hsteps : path.steps = (trimEnd body).filter (!isIdle ·) := by
    rw [steps_eq hparts, steps_trimEnd]
  rcases parent?_cases hparts h with ⟨_, hbody, rfl⟩ | ⟨front, last, hbody, rfl⟩
  · rw [hsteps, hbody]
    exact ⟨rfl, fun hspelling ↦ absurd rfl hspelling⟩
  · have hlast : isIdle last = false := not_isIdle_of_trimEnd hbody
    have hfront : path.steps.dropLast = (trimEnd front).filter (!isIdle ·) := by
      rw [hsteps, hbody, filter_concat hlast, List.dropLast_concat, steps_trimEnd]
    rw [hfront]
    exact ⟨steps_assemble hparts hbody, isAbsolute_assemble hparts hbody⟩

theorem parent?_prefix (h : path.parent? = some parent) : parent.spelling <+: path.spelling := by
  obtain ⟨head, body, hparts⟩ : ∃ head body, path.headAndBody = (head, body) := ⟨_, _, rfl⟩
  rcases parent?_cases hparts h with ⟨_, _, rfl⟩ | ⟨front, last, hbody, rfl⟩
  · exact List.nil_prefix
  · have hsplit := splitOn_eq_headSegments hparts
    by_cases hfront : trimEnd front = []
    · -- what is left is the head
      rw [hfront]
      rcases (headAndBody_cases hparts).1 with rfl | rfl | rfl
      · exact List.nil_prefix
      · have habsolute := (isAbsolute_iff_head hparts).mpr rfl
        obtain ⟨rest, hspelling⟩ := List.head?_eq_some_iff.mp (beq_iff_eq.mp habsolute)
        exact ⟨rest, hspelling.symm⟩
      · have hsegments : Text.splitOn '/' (assemble (some .here) []).spelling <+:
            Text.splitOn '/' path.spelling := ⟨body, hsplit.symm⟩
        exact Text.prefix_of_splitOn_prefix hsegments
    · obtain ⟨idle, hidle, _⟩ := trimEnd_append front
      obtain ⟨idle', hidle', _⟩ := trimEnd_append body
      apply Text.prefix_of_splitOn_prefix
      rw [splitOn_assemble head hfront fun segment hmem ↦ Text.not_mem_of_mem_splitOn
        (mem_splitOn_of_trimEnd hparts hbody hmem), hsplit, hidle', hbody]
      refine (List.prefix_append_right_inj _).mpr ⟨idle ++ ([last] ++ idle'), ?_⟩
      rw [← List.append_assoc, ← hidle, List.append_assoc]

theorem isTooLong_of_prefix (h : parent.spelling <+: path.spelling)
    (hshort : path.isTooLong = false) : parent.isTooLong = false := by
  obtain ⟨rest, hrest⟩ := h
  unfold isTooLong Utf8.encode at *
  rw [← hrest, List.flatMap_append, List.length_append] at hshort
  rw [decide_eq_false_iff_not] at hshort ⊢
  omega

theorem splitOn_of_parent? (h : path.parent? = some parent) (hsteps : parent.steps ≠ []) :
    ∃ before last, Text.splitOn '/' parent.spelling = before ++ [last] ∧
      isIdle last = false := by
  obtain ⟨head, body, hparts⟩ : ∃ head body, path.headAndBody = (head, body) := ⟨_, _, rfl⟩
  rcases parent?_cases hparts h with ⟨_, _, rfl⟩ | ⟨front, last, hbody, rfl⟩
  · exact absurd rfl hsteps
  · rw [steps_assemble hparts hbody] at hsteps
    have hfront : trimEnd front ≠ [] := by
      intro hnil
      rw [hnil] at hsteps
      exact hsteps rfl
    obtain ⟨before, final, hconcat⟩ := (List.eq_nil_or_concat' (trimEnd front)).resolve_left hfront
    refine ⟨headSegments head ++ before, final, ?_, not_isIdle_of_trimEnd hconcat⟩
    rw [splitOn_assemble head hfront fun segment hmem ↦ Text.not_mem_of_mem_splitOn
      (mem_splitOn_of_trimEnd hparts hbody hmem), hconcat, List.append_assoc]

theorem exists_parent_of_fileName? {name : Text} (h : path.fileName? = some name) :
    ∃ parent, path.parent? = some parent := by
  obtain ⟨head, body, hparts⟩ : ∃ head body, path.headAndBody = (head, body) := ⟨_, _, rfl⟩
  rcases List.eq_nil_or_concat' (trimEnd body) with hbody | ⟨front, last, hbody⟩
  · -- without steps the last component is the head
    have hsteps : path.steps = [] := by
      rw [steps_eq hparts, ← steps_trimEnd, hbody, List.filter_nil]
    rw [fileName?, components_eq, hparts, hsteps] at h
    rcases (headAndBody_cases hparts).1 with rfl | rfl | rfl <;> simp at h
  · exact ⟨_, parent?_of_trimEnd hparts hbody⟩

theorem steps_of_fileName? {name : Text} (h : path.fileName? = some name) :
    path.steps = path.steps.dropLast ++ [name] := by
  obtain ⟨head, body, hparts⟩ : ∃ head body, path.headAndBody = (head, body) := ⟨_, _, rfl⟩
  rw [fileName?, components_eq, hparts] at h
  rcases List.eq_nil_or_concat' path.steps with hnil | ⟨before, last, hsteps⟩
  · rw [hnil] at h
    rcases (headAndBody_cases hparts).1 with rfl | rfl | rfl <;> simp at h
  · rw [hsteps, List.map_append, ← List.append_assoc, List.map_singleton, List.getLast?_concat] at h
    unfold Component.ofSegment at h
    split at h
    · rename_i hlast
      split at hlast
      · cases hlast
      · cases hlast
        cases h
        rw [hsteps, List.dropLast_concat]
    · cases h

/-- A path with a name at its end has only idle segments after the name. -/
theorem splitOn_of_fileName? {name : Text} (h : path.fileName? = some name) :
    ∃ before rest, Text.splitOn '/' path.spelling = before ++ name :: rest ∧
      before.filter (!isIdle ·) = path.steps.dropLast ∧
      ∀ segment ∈ rest, isIdle segment = true := by
  obtain ⟨front, last, hsegments, hfront, hlast⟩ :=
    List.filter_eq_append_iff.mp (steps_of_fileName? h)
  obtain ⟨idle, rest, rfl, hidle, _, hrest⟩ := List.filter_eq_cons_iff.mp hlast
  refine ⟨front ++ idle, rest, by rw [hsegments, List.append_assoc], ?_, ?_⟩
  · rw [List.filter_append, hfront, List.filter_eq_nil_iff.mpr hidle, List.append_nil]
  · simpa using List.filter_eq_nil_iff.mp hrest

theorem steps_eq_nil_of_fileName? (h : path.fileName? = none)
    (hup : Component.up ∉ path.components) : path.steps = [] := by
  rcases List.eq_nil_or_concat' path.steps with hnil | ⟨before, last, hsteps⟩
  · exact hnil
  · exfalso
    have hlast : last ≠ ['.', '.'] := by
      rintro rfl
      apply up_not_mem_steps hup
      rw [hsteps]
      exact List.mem_append_right _ (List.mem_singleton.mpr rfl)
    rw [fileName?, components_eq, hsteps, List.map_append, ← List.append_assoc, List.map_singleton,
      List.getLast?_concat, Component.ofSegment, if_neg hlast] at h
    cases h

theorem spelling_eq_nil_of_parent? (h : path.parent? = some parent) (hsteps : path.steps = []) :
    parent.spelling = [] := by
  obtain ⟨head, body, hparts⟩ : ∃ head body, path.headAndBody = (head, body) := ⟨_, _, rfl⟩
  rcases parent?_cases hparts h with ⟨_, _, rfl⟩ | ⟨front, last, hbody, _⟩
  · rfl
  · rw [steps_eq hparts, ← steps_trimEnd, hbody,
      filter_concat (not_isIdle_of_trimEnd hbody)] at hsteps
    simp at hsteps

theorem spelling_parent_ne_nil (h : path.parent? = some parent) (habsolute : path.isAbsolute = true) :
    parent.spelling ≠ [] := by
  obtain ⟨head, body, hparts⟩ : ∃ head body, path.headAndBody = (head, body) := ⟨_, _, rfl⟩
  obtain rfl := (isAbsolute_iff_head hparts).mp habsolute
  rcases parent?_cases hparts h with ⟨hhead, _⟩ | ⟨front, last, _, rfl⟩
  · cases hhead
  · exact List.cons_ne_nil _ _

/-- The path with another name at the end takes the same steps before it. -/
theorem splitOn_withFileName_of_fileName? {name other : Text} (h : path.fileName? = some name)
    (hother : '/' ∉ other) :
    ∃ segments, Text.splitOn '/' (path.withFileName other).spelling = segments ++ [other] ∧
      segments.filter (!isIdle ·) = path.steps.dropLast ∧
      (path.withFileName other).isAbsolute = path.isAbsolute := by
  obtain ⟨parent, hparent⟩ := exists_parent_of_fileName? h
  obtain ⟨hsteps, habsolute⟩ := parent?_eq_some hparent
  have hwith : path.withFileName other = parent.join ⟨other⟩ := by
    unfold withFileName
    rw [h, hparent]
  rw [hwith, ← hsteps]
  by_cases hspelling : parent.spelling = []
  · have hrelative : path.isAbsolute = false := by
      rw [Bool.eq_false_iff]
      exact fun hroot ↦ spelling_parent_ne_nil hparent hroot hspelling
    have hplain := FileSystem.isAbsolute_of_not_mem hother
    have hjoin : parent.join ⟨other⟩ = ⟨other⟩ := by
      unfold join
      rw [hplain, hspelling]
      rfl
    refine ⟨[], ?_, ?_, ?_⟩
    · rw [hjoin]
      exact Text.splitOn_of_not_mem hother
    · rw [steps, hspelling]
      rfl
    · rw [hjoin, hplain, hrelative]
  · obtain ⟨segments, hsegments, hbase⟩ := FileSystem.splitOn_join hspelling hother
    refine ⟨segments, hsegments, ?_, ?_⟩
    · rw [steps]
      rcases hbase with hbase | hbase
      · rw [hbase]
      · have hslash : ([[]] : List Text).filter (!isIdle ·) = [] := rfl
        rw [hbase, List.filter_append, hslash, List.append_nil]
    · rw [FileSystem.isAbsolute_join hspelling hother, habsolute hspelling]

theorem steps_prefix_of_mem_ancestorsUpTo {count : Nat} (h : other ∈ ancestorsUpTo count path)
    (hspelling : other.spelling ≠ []) :
    other.steps <+: path.steps ∧ other.isAbsolute = path.isAbsolute := by
  induction count generalizing path with
  | zero =>
    rw [List.mem_singleton.mp h]
    exact ⟨List.prefix_refl _, rfl⟩
  | succ count ih =>
    unfold ancestorsUpTo at h
    split at h
    · rw [List.mem_singleton.mp h]
      exact ⟨List.prefix_refl _, rfl⟩
    · rename_i parent hparent
      rcases List.mem_cons.mp h with rfl | hmem
      · exact ⟨List.prefix_refl _, rfl⟩
      · obtain ⟨hsteps, habsolute⟩ := parent?_eq_some hparent
        obtain ⟨hbegin, hsame⟩ := ih hmem
        refine ⟨hbegin.trans (hsteps ▸ List.dropLast_prefix _), hsame.trans (habsolute ?_)⟩
        -- nothing lies above the empty path
        rintro hempty
        obtain rfl : parent = ⟨[]⟩ := congrArg Path.mk hempty
        have hmem' : other ∈ [(⟨[]⟩ : Path)] := by
          cases count with
          | zero => exact hmem
          | succ count => exact hmem
        rw [List.mem_singleton.mp hmem'] at hspelling
        exact hspelling rfl

end Path

namespace FileSystem

variable {files after : FileSystem} {path : Path} {name : Text} {place directory : Location}
  {front : List Text}

/-! ## Making a directory -/

/-- What a new directory at the last step of a path means. -/
theorem makeDirectory_eq_ok (h : files.makeDirectory path = .ok after) :
    ∃ before name directory, path.steps = before ++ [name] ∧ IsName name ∧
      files.ArrivesAt (origin path files.working) before directory ∧
      files.contentAt? (name :: directory) = none ∧
      after = files.setContent (name :: directory) .directory := by
  obtain ⟨-, h⟩ := checkLength_bind_eq_ok_iff.mp h
  simp only [bind, Except.bind] at h
  split at h
  · cases h
  · rename_i step hstep
    split at h
    · cases h
    · rename_i name hname
      split at h
      · cases h
      · rename_i hnone
        cases h
        obtain ⟨segments, count, hsegments, hstepName, hwalk, hdirectory⟩ :=
          lastStepFrom_cases hstep hname
        have hslashes : (List.replicate count ([] : Text)).filter (!Path.isIdle ·) = [] := by
          apply Path.filter_isIdle
          intro segment hmem
          rw [List.eq_of_mem_replicate hmem]
          decide
        have harrives := walk_filter.mp ⟨hwalk, hdirectory⟩
        refine ⟨segments.filter (!Path.isIdle ·), name, step.directory, ?_, hstepName, ?_, ?_, rfl⟩
        · rw [Path.steps, hsegments, List.filter_append,
            List.filter_cons_of_pos (by simp [hstepName.1]), hslashes]
        · -- the limit is that of the whole path
          exact ⟨⟨step.links, harrives.1⟩, harrives.2⟩
        · unfold contentAt?
          rw [hnone]
          rfl

theorem run_ensureDirectory_eq_ok (h : (FileStep.ensureDirectory path).run files = .ok after) :
    files.makeDirectory path = .ok after ∨ after = files := by
  simp only [FileStep.run] at h
  split at h
  · rename_i hmake
    cases h
    exact Or.inl hmake
  · split at h
    · cases h
      exact Or.inr rfl
    · cases h

theorem not_arrivesAt_of_makeDirectory (h : files.makeDirectory path = .ok after)
    (hsteps : path.steps <+: front) :
    ¬ files.ArrivesAt (origin path files.working) front directory := by
  obtain ⟨before, name, parent, hpath, hname, hbefore, hnone, rfl⟩ := makeDirectory_eq_ok h
  obtain ⟨rest, hrest⟩ := hsteps
  rintro ⟨⟨left, hwalk⟩, _⟩
  rw [← hrest, hpath, List.append_assoc, List.singleton_append] at hwalk
  obtain ⟨⟨_, hparent⟩, _⟩ := hbefore
  obtain ⟨fewer, hend⟩ := exists_walk_behind hparent hwalk
  exact walk_name_ne_ok hname hnone hend

theorem isFree_of_none {location : Location} (h : files.contentAt? location = none) :
    files.IsFree location := by
  intro content hcontent
  rw [h] at hcontent
  cases hcontent

theorem keeps_makeDirectory (h : files.makeDirectory path = .ok after) : Keeps after files := by
  obtain ⟨_, name, directory, _, _, _, hnone, rfl⟩ := makeDirectory_eq_ok h
  exact keeps_set (isFree_of_none hnone) _

/-- A path leads nowhere if there is no entry for one of its steps. -/
theorem locate_of_none {rest : List Text} (hsteps : path.steps = front ++ name :: rest)
    (harrives : files.ArrivesAt (origin path files.working) front directory) (hname : IsName name)
    (hnone : files.contentAt? (name :: directory) = none) :
    files.locate path = .error (if path.isTooLong then .nameTooLong else .notFound) := by
  by_cases hlong : path.isTooLong = true
  · rw [locate_of_isTooLong hlong, if_pos hlong]
  rw [if_neg hlong]
  rw [Bool.not_eq_true] at hlong
  obtain ⟨before, others, hsegments, hbefore, hothers⟩ := List.filter_eq_append_iff.mp hsteps
  obtain ⟨idle, after, rfl, hidle, _, _⟩ := List.filter_eq_cons_iff.mp hothers
  have hfront : (before ++ idle).filter (!Path.isIdle ·) = front := by
    rw [List.filter_append, hbefore, Path.filter_isIdle (by simpa using hidle), List.append_nil]
  obtain ⟨⟨left, hwalk⟩, hdirectory⟩ := harrives
  rw [← hfront] at hwalk
  obtain ⟨hwalk, _⟩ := walk_filter.mpr ⟨hwalk, hdirectory⟩
  have hspelling : path.spelling ≠ [] := by
    intro hnil
    rw [Path.steps, hnil] at hsteps
    simp [Text.splitOn, Path.isIdle] at hsteps
  calc
    files.locate path = (files.walk true maxLinks (origin path files.working)
        ((before ++ idle) ++ name :: after)).map Prod.fst := by
      rw [locate_eq_map hspelling hlong, hsegments, List.append_assoc]
    _ = (files.walk true left directory (name :: after)).map Prod.fst := by
      rw [walk_append, hwalk]
      rfl
    _ = .error .notFound := by
      rw [walk_cons, hdirectory, hname.1, if_neg (by decide), if_neg (by decide), if_neg hname.2,
        hnone]
      rfl

theorem arrivesAt_of_makeDirectory (h : files.makeDirectory path = .ok after) :
    ∃ location, files.contentAt? location = none ∧ after = files.setContent location .directory ∧
      after.ArrivesAt (origin path files.working) path.steps location := by
  have hkeeps := keeps_makeDirectory h
  obtain ⟨before, name, directory, hsteps, hname, harrives, hnone, rfl⟩ := makeDirectory_eq_ok h
  have hnew := contentAt?_setContent files (name :: directory) .directory
  obtain ⟨⟨left, hbefore⟩, hparent⟩ := hkeeps.arrivesAt harrives
  have hlast : (files.setContent (name :: directory) .directory).walk true left directory [name] =
      .ok (name :: directory, left) := by
    rw [walk_name hparent hname hnew fun _ heq ↦ Content.noConfusion heq, walk_nil]
  refine ⟨name :: directory, hnone, rfl, ⟨left, ?_⟩, isDirectoryAt_iff.mpr hnew⟩
  rw [hsteps]
  exact walk_append_eq_ok.mpr ⟨directory, left, hbefore, hlast⟩

/-- A path leads to the directory that was made at it. -/
theorem locate_of_makeDirectory (h : files.makeDirectory path = .ok after)
    (hspelling : path.spelling ≠ []) :
    ∃ location, files.contentAt? location = none ∧ after = files.setContent location .directory ∧
      after.isDirectoryAt location = true ∧ after.locate path = .ok location := by
  have hshort := (checkLength_bind_eq_ok_iff.mp h).1
  obtain ⟨location, hnone, rfl, ⟨left, hwalk⟩, hdirectory⟩ := arrivesAt_of_makeDirectory h
  refine ⟨location, hnone, rfl, hdirectory, ?_⟩
  rw [locate_eq_map hspelling hshort]
  exact congrArg (Except.map Prod.fst) (walk_filter.mpr ⟨hwalk, hdirectory⟩).1

theorem IsTree.makeDirectory (htree : files.IsTree) (h : files.makeDirectory path = .ok after) :
    after.IsTree := by
  obtain ⟨_, name, directory, _, _, harrives, hnone, rfl⟩ := makeDirectory_eq_ok h
  exact htree.set harrives.2 (isFree_of_none hnone) _

theorem IsTree.contentAt?_cons_setContent {location : Location} (htree : files.IsTree)
    (hnone : files.contentAt? location = none) (name : Text) :
    (files.setContent location .directory).contentAt? (name :: location) = none := by
  have hne : name :: location ≠ location := by simp
  have hplain : files.isDirectoryAt location = false := by
    unfold isDirectoryAt
    rw [hnone]
    rfl
  rw [setContent, contentAt?_set_of_ne _ hne]
  exact htree.contentAt?_cons hplain name

/-- Nothing stands at the end of steps that go on below a directory that was just made. -/
theorem contentAt?_of_makeDirectory (htree : files.IsTree)
    (h : files.makeDirectory path = .ok after) (hsteps : path.steps <+: front)
    (hnames : ∀ segment ∈ front, IsName segment)
    (harrives : after.ArrivesAt (origin path files.working) front directory) (name : Text) :
    after.contentAt? (name :: directory) = none := by
  have hkeeps := keeps_makeDirectory h
  obtain ⟨before, made, parent, hpath, hmade, hbefore, hnone, rfl⟩ := makeDirectory_eq_ok h
  obtain ⟨rest, hrest⟩ := hsteps
  have hempty := htree.contentAt?_cons_setContent hnone
  obtain ⟨⟨left, hwalk⟩, _⟩ := harrives
  rw [← hrest, hpath, List.append_assoc, List.singleton_append] at hwalk
  obtain ⟨⟨_, hparent⟩, _⟩ := hkeeps.arrivesAt hbefore
  obtain ⟨fewer, hend⟩ := exists_walk_behind hparent hwalk
  have hnew := contentAt?_setContent files (made :: parent) .directory
  obtain ⟨_, ⟨_, _, _, hbelow⟩ | ⟨target, _, hlink, _, _⟩⟩ := walk_name_cases hmade hend
  · cases rest with
    | nil =>
      rw [walk_nil] at hbelow
      cases hbelow
      exact hempty name
    | cons segment more =>
      -- the walk would go on from an entry of the new directory
      have hsegment : IsName segment := hnames segment (by simp [← hrest])
      exact absurd hbelow (walk_name_ne_ok hsegment (hempty segment))
  · cases hnew.symm.trans hlink

end FileSystem

end DefCatalog
