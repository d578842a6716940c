import DefCatalog.Files.Bound
import DefCatalog.Scan.Encounter

/-!
# Tours

A tour goes through everything below a directory, in the order of the names, and follows links. It
lists each directory once, when it first gets there, and passes over every later path to it.
-/

namespace DefCatalog.FileSystem

/-- The paths of the entries of a directory, in the order of their names. -/
def listing (files : FileSystem) (path : Path) (location : Location) : List Path :=
  (files.sortedNames location).map fun name ↦ path.join ⟨name⟩

/-- What is met on the paths of the agenda and below. The directories of `listed` have been listed
already. -/
def tourFrom (files : FileSystem) (listed : List Location) : List Path → List Encounter
  | [] => []
  | path :: agenda =>
    match files.locate path with
    | .error reason => .skipped (.unreadable path reason) :: files.tourFrom listed agenda
    | .ok location =>
      match _hcontent : files.contentAt? location with
      | some .directory =>
        if _hlisted : location ∈ listed then
          .skipped (.revisited path) :: files.tourFrom listed agenda
        else files.tourFrom (location :: listed) (files.listing path location ++ agenda)
      | some (.file _) => Encounter.ofFile files path ++ files.tourFrom listed agenda
      | _ => files.tourFrom listed agenda
termination_by agenda => (files.unseenCount listed, agenda.length)
decreasing_by
  · exact Prod.Lex.right _ (by simp)
  · exact Prod.Lex.right _ (by simp)
  · exact Prod.Lex.left _ _ (unseenCount_cons_lt (by simp [isDirectoryAt, _hcontent]) _hlisted)
  · exact Prod.Lex.right _ (by simp)
  · exact Prod.Lex.right _ (by simp)

/-- What is met below a path. A path that does not lead to a directory is passed over. -/
def tour (files : FileSystem) (root : Path) : List Encounter :=
  match files.locateDirectory root with
  | .error reason => [.skipped (.unreadableDirectory root reason)]
  | .ok location => files.tourFrom [location] (files.listing root location)

end DefCatalog.FileSystem
