import DefCatalog.Files.Bound
import DefCatalog.Scan.Encounter

/-!
# Descents

A descent goes through everything below a path, in the order of the names, and follows links. A link
to a directory that is open at that moment is passed over; a link to any other directory is
descended into each time it is met. Every descent ends, since a link that is followed adds a new
directory to the open ones and since only finitely many directories lie below each other.
-/

namespace DefCatalog

/-- A directory that is open during a descent. -/
structure Stop where
  /-- The path by which it was reached. -/
  path : Path
  location : Location
deriving DecidableEq, Repr

namespace FileSystem

/-- The innermost open directory at a location. -/
def openAt? (trail : List Stop) (location : Location) : Option Stop :=
  trail.find? (·.location = location)

theorem not_mem_of_openAt?_eq_none {trail : List Stop} {location : Location}
    (h : openAt? trail location = none) : location ∉ trail.map Stop.location := by
  simp only [openAt?, List.find?_eq_none, decide_eq_true_eq] at h
  simp only [List.mem_map, not_exists, not_and]
  exact h

/-- What is met in the directory `here` and below, while the directories of `trail` are open
around it. -/
def descend (files : FileSystem) (root : Path) (trail : List Stop) (here : Stop) :
    List Encounter :=
  (files.sortedNames here.location).flatMap fun name ↦
    let path := here.path.join ⟨name⟩
    let location := name :: here.location
    match _hcontent : files.contentAt? location with
    | none => []
    | some (.file _) => Encounter.ofFile files path
    | some .directory =>
      match files.locateDirectory path with
      | .error reason => [.skipped (.unreadableBelow root path reason)]
      | .ok _ => files.descend root (here :: trail) ⟨path, location⟩
    | some (.link _) =>
      match files.locate path with
      | .error reason => [.skipped (.unreadableBelow root path reason)]
      | .ok target =>
        match _htarget : files.contentAt? target with
        | some .directory =>
          match _hopen : openAt? (here :: trail) target with
          | some ancestor => [.skipped (.loop root path ancestor.path)]
          | none => files.descend root (here :: trail) ⟨path, target⟩
        | some (.file _) => Encounter.ofFile files path
        | _ => []
termination_by
  (files.unseenCount ((here :: trail).map Stop.location), files.depth - here.location.length)
decreasing_by
  · have hdirectory : files.isDirectoryAt location = true := by
      simp [isDirectoryAt, _hcontent]
    have hdepth := length_le_depth hdirectory
    have hle := files.unseenCount_cons_le location ((here :: trail).map Stop.location)
    rw [List.length_cons] at hdepth
    rcases Nat.lt_or_eq_of_le hle with hlt | heq
    · exact Prod.Lex.left _ _ hlt
    · simp only [List.map_cons] at heq ⊢
      rw [heq]
      refine Prod.Lex.right _ ?_
      simp only [List.length_cons]
      omega
  · have hdirectory : files.isDirectoryAt target = true := by
      simp [isDirectoryAt, _htarget]
    exact Prod.Lex.left _ _ (unseenCount_cons_lt hdirectory (not_mem_of_openAt?_eq_none _hopen))

/-- What is met at a path and below. -/
def descent (files : FileSystem) (root : Path) : List Encounter :=
  match files.locate root with
  | .error reason => [.skipped (.unreadableBelow root root reason)]
  | .ok location =>
    match files.contentAt? location with
    | some .directory => files.descend root [] ⟨root, location⟩
    | some (.file _) => Encounter.ofFile files root
    | _ => []

end FileSystem

end DefCatalog
