import DefCatalog.Files.Edit

/-!
# Walks

A walk takes one segment after the other, so it can be cut at any point, and how many links may be
followed decides only whether it comes to an end. A walk in a changed file system is compared with
one in the file system before: it goes the same way as long as it does not come to what was
changed.
-/

namespace DefCatalog.FileSystem

/-- Whether a segment is the name of something in a directory. -/
def IsName (segment : Text) : Prop :=
  Path.isIdle segment = false ∧ segment ≠ ['.', '.']

variable {files : FileSystem} {links : Nat} {place : Location} {segment : Text} {rest : List Text}
  {found : Location × Nat}

theorem origin_congr {path other : Path} (h : path.isAbsolute = other.isAbsolute)
    (place : Location) : origin path place = origin other place := by
  unfold origin
  rw [h]

theorem isDirectoryAt_iff :
    files.isDirectoryAt place = true ↔ files.contentAt? place = some .directory := by
  unfold isDirectoryAt
  rw [beq_iff_eq]

theorem not_isDirectoryAt {content : Content} (h : files.contentAt? place = some content)
    (hcontent : content ≠ .directory) : files.isDirectoryAt place = false := by
  unfold isDirectoryAt
  rw [h]
  exact beq_false_of_ne fun heq ↦ hcontent (Option.some.inj heq)

theorem walk_idle (hplace : files.isDirectoryAt place = true) (h : Path.isIdle segment = true) :
    files.walk true links place (segment :: rest) = files.walk true links place rest := by
  rw [walk_cons, hplace, h]
  rfl

theorem walk_up (hplace : files.isDirectoryAt place = true) :
    files.walk true links place (['.', '.'] :: rest) = files.walk true links place.tail rest := by
  rw [walk_cons, hplace]
  rfl

theorem walk_name (hplace : files.isDirectoryAt place = true) (h : IsName segment) {content : Content}
    (hcontent : files.contentAt? (segment :: place) = some content)
    (hlink : ∀ target, content ≠ .link target) :
    files.walk true links place (segment :: rest) = files.walk true links (segment :: place) rest := by
  rw [walk_cons, hplace, h.1, if_neg (by decide), if_neg (by decide), if_neg h.2, hcontent]
  cases content with
  | link target => exact absurd rfl (hlink target)
  | directory => rfl
  | file bytes => rfl

theorem walk_link (hplace : files.isDirectoryAt place = true) (h : IsName segment) {target : Path}
    (hcontent : files.contentAt? (segment :: place) = some (.link target)) :
    files.walk true (links + 1) place (segment :: rest) =
      files.walk true links (origin target place) (Text.splitOn '/' target.spelling ++ rest) := by
  rw [walk_cons, hplace, h.1, if_neg (by decide), if_neg (by decide), if_neg h.2, hcontent]
  exact if_neg (fun hand ↦ Bool.noConfusion hand.2)

/-- What the first step of a walk that succeeds can be. -/
theorem walk_cons_cases (h : files.walk true links place (segment :: rest) = .ok found) :
    files.isDirectoryAt place = true ∧
      ((Path.isIdle segment = true ∧ files.walk true links place rest = .ok found) ∨
        (segment = ['.', '.'] ∧ files.walk true links place.tail rest = .ok found) ∨
        (∃ content, IsName segment ∧ files.contentAt? (segment :: place) = some content ∧
          (∀ target, content ≠ .link target) ∧
          files.walk true links (segment :: place) rest = .ok found) ∨
        (∃ target fewer, IsName segment ∧
          files.contentAt? (segment :: place) = some (.link target) ∧ links = fewer + 1 ∧
          files.walk true fewer (origin target place) (Text.splitOn '/' target.spelling ++ rest) =
            .ok found)) := by
  rw [walk_cons] at h
  split at h
  · cases h
  · rename_i hplace
    refine ⟨by simpa using hplace, ?_⟩
    split at h
    · rename_i hidle
      exact Or.inl ⟨hidle, h⟩
    · rename_i hidle
      split at h
      · rename_i hup
        exact Or.inr (Or.inl ⟨hup, h⟩)
      · rename_i hup
        have hname : IsName segment := ⟨by simpa using hidle, hup⟩
        split at h
        · cases h
        · rename_i target hcontent
          rw [if_neg (fun hand ↦ Bool.noConfusion hand.2)] at h
          split at h
          · cases h
          · exact Or.inr (Or.inr (Or.inr ⟨target, _, hname, hcontent, rfl, h⟩))
        · rename_i content hlink hcontent
          exact Or.inr (Or.inr (Or.inl ⟨content, hname, hcontent, hlink, h⟩))

/-- A step with a name goes on at what stands there, or along a link. -/
theorem walk_name_cases (hname : IsName segment)
    (h : files.walk true links place (segment :: rest) = .ok found) :
    files.isDirectoryAt place = true ∧
      ((∃ content, files.contentAt? (segment :: place) = some content ∧
          (∀ target, content ≠ .link target) ∧
          files.walk true links (segment :: place) rest = .ok found) ∨
        ∃ target fewer, files.contentAt? (segment :: place) = some (.link target) ∧
          links = fewer + 1 ∧
          files.walk true fewer (origin target place) (Text.splitOn '/' target.spelling ++ rest) =
            .ok found) := by
  obtain ⟨hplace, ⟨hidle, _⟩ | ⟨hup, _⟩ | ⟨content, _, hcontent⟩ | ⟨target, fewer, _, hcontent⟩⟩ :=
    walk_cons_cases h
  · rw [hname.1] at hidle
    cases hidle
  · exact absurd hup hname.2
  · exact ⟨hplace, Or.inl ⟨content, hcontent⟩⟩
  · exact ⟨hplace, Or.inr ⟨target, fewer, hcontent⟩⟩

theorem exists_content_of_walk (hname : IsName segment)
    (h : files.walk true links place (segment :: rest) = .ok found) :
    ∃ content, files.contentAt? (segment :: place) = some content := by
  obtain ⟨_, ⟨content, hcontent, _⟩ | ⟨target, _, hcontent, _⟩⟩ := walk_name_cases hname h
  · exact ⟨content, hcontent⟩
  · exact ⟨.link target, hcontent⟩

theorem walk_name_ne_ok (hname : IsName segment)
    (hnone : files.contentAt? (segment :: place) = none) :
    files.walk true links place (segment :: rest) ≠ .ok found := by
  intro h
  obtain ⟨content, hcontent⟩ := exists_content_of_walk hname h
  cases hnone.symm.trans hcontent

theorem walk_link_cases (hplace : files.isDirectoryAt place = true) (h : IsName segment)
    {target : Path} (hcontent : files.contentAt? (segment :: place) = some (.link target))
    (hwalk : files.walk true links place (segment :: rest) = .ok found) :
    ∃ fewer, links = fewer + 1 ∧
      files.walk true fewer (origin target place) (Text.splitOn '/' target.spelling ++ rest) =
        .ok found := by
  cases links with
  | zero =>
    rw [walk_cons, hplace, h.1, if_neg (by decide), if_neg (by decide), if_neg h.2, hcontent] at hwalk
    simp at hwalk
  | succ fewer =>
    rw [walk_link hplace h hcontent] at hwalk
    exact ⟨fewer, rfl, hwalk⟩

theorem eq_of_walk_from (hplace : files.isDirectoryAt place = false) {segments : List Text}
    {location : Location} {remaining : Nat}
    (h : files.walk true links place segments = .ok (location, remaining)) : location = place := by
  cases segments with
  | nil =>
    rw [walk_nil] at h
    cases h
    rfl
  | cons segment rest =>
    rw [(walk_cons_cases h).1] at hplace
    cases hplace

/-- A walk over some segments and further ones is a walk over the first and then one over the
others. -/
theorem walk_append (before after : List Text) :
    files.walk true links place (before ++ after) =
      (files.walk true links place before).bind fun found ↦ files.walk true found.2 found.1 after := by
  induction links, place, before using walkInduction with
  | nil links place => rw [List.nil_append, walk_nil]; rfl
  | cons links place segment rest ih ihlinks =>
    rw [List.cons_append, walk_cons, walk_cons]
    split
    · rfl
    · split
      · exact ih place
      · split
        · exact ih place.tail
        · split
          · rfl
          · rw [if_neg (fun hand ↦ Bool.noConfusion hand.2),
              if_neg (fun hand ↦ Bool.noConfusion hand.2)]
            split
            · rfl
            · rw [← List.append_assoc]
              exact ihlinks _ (Nat.lt_succ_self _) _ _
          · exact ih _

theorem walk_append_eq_ok {before after : List Text} {location : Location} {remaining : Nat} :
    files.walk true links place (before ++ after) = .ok (location, remaining) ↔
      ∃ middle fewer, files.walk true links place before = .ok (middle, fewer) ∧
        files.walk true fewer middle after = .ok (location, remaining) := by
  rw [walk_append]
  cases files.walk true links place before with
  | error reason => simp [Except.bind]
  | ok found =>
    simp only [Except.bind, Except.ok.injEq]
    constructor
    · intro h
      exact ⟨found.1, found.2, rfl, h⟩
    · rintro ⟨middle, fewer, rfl, h⟩
      exact h

theorem walk_add_links {segments : List Text} {location : Location} {remaining : Nat}
    (h : files.walk true links place segments = .ok (location, remaining)) (more : Nat) :
    files.walk true (links + more) place segments = .ok (location, remaining + more) := by
  induction links, place, segments using walkInduction with
  | nil links place =>
    rw [walk_nil] at h ⊢
    cases h
    rfl
  | cons links place segment rest ih ihlinks =>
    obtain ⟨hplace, ⟨hidle, hwalk⟩ | ⟨rfl, hwalk⟩ | ⟨content, hname, hcontent, hlink, hwalk⟩ |
      ⟨target, fewer, hname, hcontent, rfl, hwalk⟩⟩ := walk_cons_cases h
    · rw [walk_idle hplace hidle]
      exact ih place hwalk
    · rw [walk_up hplace]
      exact ih place.tail hwalk
    · rw [walk_name hplace hname hcontent hlink]
      exact ih _ hwalk
    · rw [Nat.add_right_comm, walk_link hplace hname hcontent]
      exact ihlinks fewer (Nat.lt_succ_self fewer) _ _ hwalk

/-- How many links may be followed does not change where a walk leads. -/
theorem walk_location_unique {links' remaining remaining' : Nat} {segments : List Text}
    {location location' : Location}
    (h : files.walk true links place segments = .ok (location, remaining))
    (h' : files.walk true links' place segments = .ok (location', remaining')) :
    location = location' := by
  have hmore := walk_add_links h links'
  rw [Nat.add_comm, walk_add_links h' links] at hmore
  exact (Prod.mk.inj (Except.ok.inj hmore)).1.symm

/-- A walk that goes on behind some segments goes on from where those lead. -/
theorem exists_walk_behind {links' left remaining : Nat} {before after : List Text}
    {middle location : Location} (hbefore : files.walk true links' place before = .ok (middle, left))
    (h : files.walk true links place (before ++ after) = .ok (location, remaining)) :
    ∃ fewer, files.walk true fewer middle after = .ok (location, remaining) := by
  obtain ⟨middle', fewer, hfirst, hafter⟩ := walk_append_eq_ok.mp h
  obtain rfl := walk_location_unique hbefore hfirst
  exact ⟨fewer, hafter⟩

/-- Idle segments at the end of a walk do not change where it leads. -/
theorem walk_of_append_idle {segments idle : List Text} {location : Location} {remaining : Nat}
    (hidle : ∀ segment ∈ idle, Path.isIdle segment = true)
    (h : files.walk true links place (segments ++ idle) = .ok (location, remaining)) :
    files.walk true links place segments = .ok (location, remaining) := by
  obtain ⟨middle, fewer, hsegments, hend⟩ := walk_append_eq_ok.mp h
  have hstay : files.walk true fewer middle idle = .ok (middle, fewer) := by
    clear hsegments h
    induction idle with
    | nil => exact walk_nil _ _ _ _
    | cons segment rest ih =>
      have hplace := (walk_cons_cases hend).1
      rw [walk_idle hplace (hidle segment List.mem_cons_self)] at hend ⊢
      exact ih (fun other hother ↦ hidle other (List.mem_cons_of_mem _ hother)) hend
  rw [hstay] at hend
  cases hend
  exact hsegments

/-- Whether nothing was added apart from what stands at one location. -/
def AgreesOutside (changed : Location) (after before : FileSystem) : Prop :=
  ∀ location, location ≠ changed →
    after.contentAt? location = before.contentAt? location ∨ after.contentAt? location = none

/-- Whether a changed location leads to a goal that is no directory: it is a file itself, or a link
that led there before the change. -/
def LeadsTo (changed goal : Location) (after before : FileSystem) : Prop :=
  after.isDirectoryAt goal = false ∧
    ((goal = changed ∧ ∃ bytes, after.contentAt? changed = some (.file bytes)) ∨
      ∃ target, after.contentAt? changed = some (.link target) ∧
        ∀ links location remaining,
          before.walk true links (origin target changed.tail)
            (Text.splitOn '/' target.spelling) = .ok (location, remaining) → location = goal)

theorem AgreesOutside.contentAt? {changed location : Location} {after before : FileSystem}
    {content : Content} (h : AgreesOutside changed after before) (hne : location ≠ changed)
    (hcontent : after.contentAt? location = some content) :
    before.contentAt? location = some content := by
  rcases h location hne with hsame | hnone
  · rw [← hsame, hcontent]
  · rw [hnone] at hcontent
    cases hcontent

theorem AgreesOutside.isDirectoryAt {changed location : Location} {after before : FileSystem}
    (h : AgreesOutside changed after before) (hchanged : after.isDirectoryAt changed = false)
    (hdirectory : after.isDirectoryAt location = true) : before.isDirectoryAt location = true := by
  have hne : location ≠ changed := by
    rintro rfl
    rw [hchanged] at hdirectory
    cases hdirectory
  unfold FileSystem.isDirectoryAt at hdirectory ⊢
  rw [beq_iff_eq] at hdirectory ⊢
  exact h.contentAt? hne hdirectory

theorem LeadsTo.isDirectoryAt_changed {changed goal : Location} {after before : FileSystem}
    (h : LeadsTo changed goal after before) : after.isDirectoryAt changed = false := by
  rcases h.2 with ⟨_, bytes, hcontent⟩ | ⟨target, hcontent, _⟩
  · exact not_isDirectoryAt hcontent Content.noConfusion
  · exact not_isDirectoryAt hcontent Content.noConfusion

theorem leadsTo_of_file {goal : Location} {after : FileSystem} {bytes : Bytes}
    (hfile : after.contentAt? goal = some (.file bytes)) (before : FileSystem) :
    LeadsTo goal goal after before :=
  ⟨not_isDirectoryAt hfile Content.noConfusion, Or.inl ⟨rfl, bytes, hfile⟩⟩

theorem LeadsTo.eq_goal_of_link {changed goal location : Location} {after before : FileSystem}
    {target : Path} {remaining : Nat} (h : LeadsTo changed goal after before)
    (hlink : after.contentAt? changed = some (.link target))
    (hwalk : before.walk true links (origin target changed.tail)
      (Text.splitOn '/' target.spelling) = .ok (location, remaining)) : location = goal := by
  rcases h.2 with ⟨_, bytes, hfile⟩ | ⟨target', htarget, hends⟩
  · rw [hlink] at hfile
    cases hfile
  · rw [hlink] at htarget
    cases htarget
    exact hends _ _ _ hwalk

/-- After a change a walk leads to the goal of the changed location, or else where it led before. -/
theorem walk_of_change {changed goal : Location} {after before : FileSystem} {segments : List Text}
    {location : Location} {remaining : Nat} (hagree : AgreesOutside changed after before)
    (hlead : LeadsTo changed goal after before)
    (h : after.walk true links place segments = .ok (location, remaining)) :
    location = goal ∨ before.walk true links place segments = .ok (location, remaining) := by
  induction links, place, segments using walkInduction generalizing location remaining with
  | nil links place =>
    rw [walk_nil] at h ⊢
    exact Or.inr h
  | cons links place segment rest ih ihlinks =>
    obtain ⟨hplace, hstep⟩ := walk_cons_cases h
    have hbefore := hagree.isDirectoryAt hlead.isDirectoryAt_changed hplace
    rcases hstep with ⟨hidle, hwalk⟩ | ⟨rfl, hwalk⟩ | ⟨content, hname, hcontent, hlink, hwalk⟩ |
      ⟨target, fewer, hname, hcontent, rfl, hwalk⟩
    · rw [walk_idle hbefore hidle]
      exact ih place hwalk
    · rw [walk_up hbefore]
      exact ih place.tail hwalk
    · by_cases hchanged : segment :: place = changed
      · rw [hchanged] at hcontent hwalk
        rcases hlead.2 with ⟨rfl, _⟩ | ⟨target, htarget, _⟩
        · exact Or.inl (eq_of_walk_from hlead.1 hwalk)
        · rw [htarget] at hcontent
          exact absurd (Option.some.inj hcontent).symm (hlink target)
      · rw [walk_name hbefore hname (hagree.contentAt? hchanged hcontent) hlink]
        exact ih _ hwalk
    · by_cases hchanged : segment :: place = changed
      · obtain ⟨middle, left, hmiddle, hrest⟩ := walk_append_eq_ok.mp hwalk
        have hgoal : middle = goal := by
          rcases ihlinks fewer (Nat.lt_succ_self fewer) _ _ hmiddle with hgoal | hsame
          · exact hgoal
          · subst hchanged
            exact hlead.eq_goal_of_link hcontent hsame
        rw [hgoal] at hrest
        exact Or.inl (eq_of_walk_from hlead.1 hrest)
      · rw [walk_link hbefore hname (hagree.contentAt? hchanged hcontent)]
        exact ihlinks fewer (Nat.lt_succ_self fewer) _ _ hwalk

/-- A directory that a walk leads to after a change is the one that it led to before. -/
theorem directory_of_change {changed goal : Location} {after before : FileSystem}
    {segments : List Text} {location location' : Location} {links' remaining remaining' : Nat}
    (hagree : AgreesOutside changed after before) (hlead : LeadsTo changed goal after before)
    (hdirectory : after.isDirectoryAt location = true)
    (hafter : after.walk true links place segments = .ok (location, remaining))
    (hbefore : before.walk true links' place segments = .ok (location', remaining')) :
    location = location' := by
  rcases walk_of_change hagree hlead hafter with rfl | hsame
  · rw [hlead.1] at hdirectory
    cases hdirectory
  · exact walk_location_unique hsame hbefore

/-- A walk whose last step is the changed location leads to its goal. -/
theorem location_of_change {name : Text} {directory goal location : Location} {remaining : Nat}
    {after before : FileSystem} (hagree : AgreesOutside (name :: directory) after before)
    (hlead : LeadsTo (name :: directory) goal after before) (hname : IsName name)
    (h : after.walk true links directory [name] = .ok (location, remaining)) : location = goal := by
  obtain ⟨hplace, _⟩ := walk_cons_cases h
  rcases hlead.2 with ⟨rfl, bytes, hfile⟩ | ⟨target, htarget, _⟩
  · rw [walk_name hplace hname hfile (fun target heq ↦ Content.noConfusion heq), walk_nil] at h
    cases h
    rfl
  · obtain ⟨fewer, rfl, hwalk⟩ := walk_link_cases hplace hname htarget h
    rw [List.append_nil] at hwalk
    rcases walk_of_change hagree hlead hwalk with hgoal | hsame
    · exact hgoal
    · exact hlead.eq_goal_of_link htarget hsame

end DefCatalog.FileSystem
