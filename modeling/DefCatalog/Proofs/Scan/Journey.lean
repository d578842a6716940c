import DefCatalog.Proofs.Scan.Touring
import DefCatalog.Scan.Journey

/-!
# Every journey ends

A journey is over after finitely many steps, whatever the links, and has then met what its route
meets. On a descent, the entries of a directory and everything below them are visited before the
directory is left, and directories cannot be opened forever. On a tour, each step lists a new
directory or leaves fewer entries and open directories to be dealt with.
-/

namespace DefCatalog

open Relation

variable {files : FileSystem} {root : Path} {route : Route} {trail : List Stop} {here : Stop}
  {name : Text} {listed : List Location} {met : List Encounter}

namespace Visit

/-- An entry is passed, and then it is all that is met there, or a directory is opened at it. -/
theorem onDescent_cases (files : FileSystem) (root : Path) (trail : List Stop) (here : Stop)
    (name : Text) :
    onDescent files root trail here name = passed (files.descendEntry root trail here name) ∨
      ∃ child, onDescent files root trail here name = entered child ∧
        files.Opens (here :: trail) (child :: here :: trail) ∧
        files.descendEntry root trail here name = files.descend root (here :: trail) child := by
  unfold onDescent FileSystem.descendEntry
  dsimp only
  cases hentry : files.contentAt? (name :: here.location) with
  | none => exact Or.inl rfl
  | some content =>
    cases content with
    | file bytes => exact Or.inl rfl
    | directory =>
      dsimp only
      cases hpath : files.locateDirectory (here.path.join ⟨name⟩) with
      | error reason => exact Or.inl rfl
      | ok found => exact Or.inr ⟨_, rfl, .folder hentry hpath, rfl⟩
    | link path =>
      cases hpath : files.locate (here.path.join ⟨name⟩) with
      | error reason => exact Or.inl rfl
      | ok target =>
        dsimp only
        cases htarget : files.contentAt? target with
        | none => exact Or.inl rfl
        | some content =>
          cases content with
          | file bytes => exact Or.inl rfl
          | link path' => exact Or.inl rfl
          | directory =>
            dsimp only
            cases hopen : FileSystem.openAt? (here :: trail) target with
            | some ancestor => exact Or.inl rfl
            | none =>
              have hdirectory := FileSystem.isDirectoryAt_iff.mpr htarget
              exact Or.inr ⟨_, rfl, .link hentry hpath hdirectory hopen, rfl⟩

/-- A path is passed, and then it is all that is met there, or a directory is entered that has not
been listed. -/
theorem onTour_cases (files : FileSystem) (listed : List Location) (path : Path) :
    (∃ met, onTour files listed path = passed met ∧ ∀ agenda,
      files.tourFrom listed (path :: agenda) = met ++ files.tourFrom listed agenda) ∨
    ∃ target, onTour files listed path = entered ⟨path, target⟩ ∧
      files.isDirectoryAt target = true ∧ target ∉ listed ∧ ∀ agenda,
        files.tourFrom listed (path :: agenda) =
          files.tourFrom (target :: listed) (files.listing path target ++ agenda) := by
  unfold onTour
  simp only [FileSystem.tourFrom_cons]
  cases files.locate path with
  | error reason => exact Or.inl ⟨_, rfl, fun _ ↦ rfl⟩
  | ok target =>
    dsimp only
    cases htarget : files.contentAt? target with
    | none => exact Or.inl ⟨_, rfl, fun _ ↦ rfl⟩
    | some content =>
      cases content with
      | file bytes => exact Or.inl ⟨_, rfl, fun _ ↦ rfl⟩
      | link path' => exact Or.inl ⟨_, rfl, fun _ ↦ rfl⟩
      | directory =>
        dsimp only
        by_cases hlisted : target ∈ listed
        · simp only [List.contains_iff_mem, if_pos hlisted]
          exact Or.inl ⟨_, rfl, fun _ ↦ rfl⟩
        · simp only [List.contains_iff_mem, if_neg hlisted]
          have hdirectory := FileSystem.isDirectoryAt_iff.mpr htarget
          exact Or.inr ⟨_, rfl, hdirectory, hlisted, fun _ ↦ rfl⟩

end Visit

namespace Journey

variable {journey last : Journey} {outer : List OpenDirectory} {left : List Text}

/-- Whether a journey is the other one some steps later. -/
def Becomes (files : FileSystem) (root : Path) (route : Route) : Journey → Journey → Prop :=
  ReflTransGen fun earlier later ↦ next files root route earlier = later

theorem Becomes.of_next (h : Becomes files root route (next files root route journey) last) :
    Becomes files root route journey last :=
  ReflTransGen.head rfl h

theorem becomes_leave (files : FileSystem) (root : Path) (route : Route) (here : Stop)
    (outer : List OpenDirectory) (listed : List Location) (met : List Encounter) :
    Becomes files root route ⟨⟨here, []⟩ :: outer, listed, met⟩ ⟨outer, listed, met⟩ :=
  ReflTransGen.single rfl

theorem next_visit (files : FileSystem) (root : Path) (route : Route) (here : Stop) (name : Text)
    (left : List Text) (outer : List OpenDirectory) (listed : List Location)
    (met : List Encounter) :
    next files root route ⟨⟨here, name :: left⟩ :: outer, listed, met⟩ =
      proceed files ⟨⟨here, left⟩ :: outer, listed, met⟩
        (visit files root ⟨outer, listed, met⟩ here name route) :=
  rfl

theorem exists_after_eq (h : Becomes files root route (start files root route) last) :
    ∃ steps, after files root route steps = last := by
  induction h with
  | refl => exact ⟨0, rfl⟩
  | tail _ hnext ih =>
    obtain ⟨steps, hsteps⟩ := ih
    refine ⟨steps + 1, ?_⟩
    rw [after, hsteps, hnext]

theorem next_of_isOver (h : journey.IsOver) : next files root route journey = journey := by
  unfold next
  rw [show journey.trail = [] from h]

/-- On a descent, the entries that are left in a directory are visited together with everything below
them, and the directory is left. -/
theorem descent_becomes (files : FileSystem) (root : Path) (trail : List Stop) (here : Stop) :
    ∀ (outer : List OpenDirectory), outer.map OpenDirectory.stop = trail →
      ∀ (left : List Text) (listed : List Location) (met : List Encounter), ∃ listed',
        Becomes files root .descent ⟨⟨here, left⟩ :: outer, listed, met⟩
          ⟨outer, listed', met ++ left.flatMap (files.descendEntry root trail here)⟩ := by
  induction trail, here using FileSystem.opensInduction files with
  | step trail here ihchild =>
    intro outer houter left
    induction left with
    | nil =>
      intro listed met
      refine ⟨listed, ?_⟩
      rw [List.flatMap_nil, List.append_nil]
      exact becomes_leave files root .descent here outer listed met
    | cons name left ih =>
      intro listed met
      have hvisit : visit files root ⟨outer, listed, met⟩ here name .descent =
          .onDescent files root trail here name := by
        rw [← houter]
        rfl
      rw [List.flatMap_cons, ← List.append_assoc]
      cases Visit.onDescent_cases files root trail here name with
      | inl hpassed =>
        obtain ⟨listed', hrest⟩ := ih listed (met ++ files.descendEntry root trail here name)
        refine ⟨listed', Becomes.of_next ?_⟩
        rw [next_visit, hvisit, hpassed]
        exact hrest
      | inr hentered =>
        obtain ⟨child, hchild, hopens, hmet⟩ := hentered
        -- the directory is visited as a whole before the next entry
        have houter' : (⟨here, left⟩ :: outer : List OpenDirectory).map OpenDirectory.stop =
            here :: trail := congrArg (here :: ·) houter
        obtain ⟨between, hbelow⟩ := ihchild child hopens (⟨here, left⟩ :: outer) houter'
          (files.sortedNames child.location) (child.location :: listed) met
        rw [← FileSystem.descend_eq, ← hmet] at hbelow
        obtain ⟨listed', hrest⟩ := ih between (met ++ files.descendEntry root trail here name)
        refine ⟨listed', Becomes.of_next ?_⟩
        rw [next_visit, hvisit, hchild]
        exact hbelow.trans hrest

/-- The paths of all entries that are left in some open directories, in the order of their
visits. -/
def agenda (trail : List OpenDirectory) : List Path :=
  trail.flatMap fun directory ↦ directory.left.map fun name ↦ directory.stop.path.join ⟨name⟩

/-- On a tour, all entries that are left are visited together with everything below them, and all
directories are left. -/
theorem tour_becomes (files : FileSystem) (root : Path) (trail : List OpenDirectory)
    (listed : List Location) (met : List Encounter) : ∃ listed',
      Becomes files root .tour ⟨trail, listed, met⟩
        ⟨[], listed', met ++ files.tourFrom listed (agenda trail)⟩ := by
  match trail with
  | [] =>
    refine ⟨listed, ?_⟩
    rw [show agenda [] = [] from rfl, FileSystem.tourFrom, List.append_nil]
    exact ReflTransGen.refl
  | ⟨here, []⟩ :: outer =>
    obtain ⟨listed', hrest⟩ := tour_becomes files root outer listed met
    exact ⟨listed', (becomes_leave files root .tour here outer listed met).trans hrest⟩
  | ⟨here, name :: left⟩ :: outer =>
    have hagenda : agenda (⟨here, name :: left⟩ :: outer) =
        here.path.join ⟨name⟩ :: agenda (⟨here, left⟩ :: outer) := rfl
    have hvisit : visit files root ⟨outer, listed, met⟩ here name .tour =
        .onTour files listed (here.path.join ⟨name⟩) := rfl
    rw [hagenda]
    obtain ⟨found, hpassed, htour⟩ | ⟨target, hentered, htarget, hnew, htour⟩ :=
      Visit.onTour_cases files listed (here.path.join ⟨name⟩)
    · obtain ⟨listed', hrest⟩ := tour_becomes files root (⟨here, left⟩ :: outer) listed (met ++ found)
      refine ⟨listed', Becomes.of_next ?_⟩
      rw [next_visit, hvisit, hpassed, htour, ← List.append_assoc]
      exact hrest
    · have hfewer := FileSystem.unseenCount_cons_lt htarget hnew
      obtain ⟨listed', hrest⟩ := tour_becomes files root
        (⟨⟨here.path.join ⟨name⟩, target⟩, files.sortedNames target⟩ :: ⟨here, left⟩ :: outer)
        (target :: listed) met
      refine ⟨listed', Becomes.of_next ?_⟩
      rw [next_visit, hvisit, hentered, htour]
      exact hrest
-- a directory that is entered is new, and otherwise an entry or a directory less is left
termination_by (files.unseenCount listed, (trail.map fun directory ↦ directory.left.length + 1).sum)
decreasing_by
  · exact Prod.Lex.right _ (by simp)
  · exact Prod.Lex.right _ (by simp)
  · exact Prod.Lex.left _ _ hfewer

/-- A journey becomes one that is over and has met what its route meets. -/
theorem start_becomes (files : FileSystem) (root : Path) (route : Route) : ∃ listed,
    Becomes files root route (start files root route)
      ⟨[], listed, route.encounters files root⟩ := by
  cases route with
  | descent =>
    unfold start Visit.ofDescentRoot Route.encounters FileSystem.descent
    cases files.locate root with
    | error reason => exact ⟨[], ReflTransGen.refl⟩
    | ok location =>
      dsimp only
      cases files.contentAt? location with
      | none => exact ⟨[], ReflTransGen.refl⟩
      | some content =>
        cases content with
        | file bytes => exact ⟨[], ReflTransGen.refl⟩
        | link path => exact ⟨[], ReflTransGen.refl⟩
        | directory =>
          dsimp only
          rw [FileSystem.descend_eq]
          exact descent_becomes files root [] ⟨root, location⟩ [] rfl
            (files.sortedNames location) [location] []
  | tour =>
    unfold start Visit.ofTourRoot Route.encounters FileSystem.tour
    cases files.locateDirectory root with
    | error reason => exact ⟨[], ReflTransGen.refl⟩
    | ok location =>
      dsimp only
      have hagenda : agenda [⟨⟨root, location⟩, files.sortedNames location⟩] =
          files.listing root location := List.append_nil _
      rw [← hagenda]
      exact tour_becomes files root [⟨⟨root, location⟩, files.sortedNames location⟩] [location] []

/-- A journey from any path on any route, whatever links there are, is over from some step on, and
has then met what the route meets. -/
theorem exists_forall_isOver (files : FileSystem) (root : Path) (route : Route) :
    ∃ steps, ∀ later ≥ steps, (after files root route later).IsOver ∧
      (after files root route later).met = route.encounters files root := by
  obtain ⟨listed, hbecomes⟩ := start_becomes files root route
  obtain ⟨steps, hsteps⟩ := exists_after_eq hbecomes
  refine ⟨steps, fun later hlater ↦ ?_⟩
  induction hlater with
  | refl =>
    rw [hsteps]
    exact ⟨rfl, rfl⟩
  | step _ ih =>
    rw [after, next_of_isOver ih.1]
    exact ih

end Journey

end DefCatalog
