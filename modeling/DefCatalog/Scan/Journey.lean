import DefCatalog.Scan.Harvest

/-!
# Journeys

A route goes from entry to entry. The directories that it has entered and not left yet lie on each
other, each with the names of its entries that have not been visited. The next entry is always one of
the innermost directory. An entry that is a directory to be entered is put on top; a directory without
entries that are left is taken away.
-/

namespace DefCatalog

/-- A directory that has been entered and has not been left, with the names of the entries that have
still to be visited. -/
structure OpenDirectory where
  stop : Stop
  left : List Text
deriving DecidableEq, Repr

/-- What comes of a visit to a path. -/
inductive Visit where
  /-- The path does not lead to a directory that is entered. -/
  | passed (met : List Encounter)
  | entered (directory : Stop)
deriving DecidableEq, Repr

namespace Visit

/-- A visit to the path from which a descent sets out. -/
def ofDescentRoot (files : FileSystem) (root : Path) : Visit :=
  match files.locate root with
  | .error reason => passed [.skipped (.unreadableBelow root root reason)]
  | .ok location =>
    match files.contentAt? location with
    | some .directory => entered ⟨root, location⟩
    | some (.file _) => passed (Encounter.ofFile files root)
    | _ => passed []

/-- A visit to the path from which a tour sets out. -/
def ofTourRoot (files : FileSystem) (root : Path) : Visit :=
  match files.locateDirectory root with
  | .error reason => passed [.skipped (.unreadableDirectory root reason)]
  | .ok location => entered ⟨root, location⟩

/-- A visit to an entry of the directory `here` on a descent, while the directories of `trail` are
open around it. Only a link is held against the open directories. -/
def onDescent (files : FileSystem) (root : Path) (trail : List Stop) (here : Stop) (name : Text) :
    Visit :=
  let path := here.path.join ⟨name⟩
  let location := name :: here.location
  match files.contentAt? location with
  | none => passed []
  | some (.file _) => passed (Encounter.ofFile files path)
  | some .directory =>
    match files.locateDirectory path with
    | .error reason => passed [.skipped (.unreadableBelow root path reason)]
    | .ok _ => entered ⟨path, location⟩
  | some (.link _) =>
    match files.locate path with
    | .error reason => passed [.skipped (.unreadableBelow root path reason)]
    | .ok target =>
      match files.contentAt? target with
      | some .directory =>
        match FileSystem.openAt? (here :: trail) target with
        | some ancestor => passed [.skipped (.loop root path ancestor.path)]
        | none => entered ⟨path, target⟩
      | some (.file _) => passed (Encounter.ofFile files path)
      | _ => passed []

/-- A visit to a path on a tour, when the directories of `listed` have been listed. -/
def onTour (files : FileSystem) (listed : List Location) (path : Path) : Visit :=
  match files.locate path with
  | .error reason => passed [.skipped (.unreadable path reason)]
  | .ok location =>
    match files.contentAt? location with
    | some .directory =>
      if listed.contains location then passed [.skipped (.revisited path)]
      else entered ⟨path, location⟩
    | some (.file _) => passed (Encounter.ofFile files path)
    | _ => passed []

end Visit

/-- How far a route has come. -/
structure Journey where
  /-- The open directories, the innermost first. -/
  trail : List OpenDirectory
  /-- Every directory that has been entered. -/
  listed : List Location
  /-- What has been met, oldest first. -/
  met : List Encounter
deriving DecidableEq, Repr

namespace Journey

/-- The open directories, the innermost first. -/
def stops (journey : Journey) : List Stop :=
  journey.trail.map OpenDirectory.stop

/-- Whether no directory is open any more. -/
def IsOver (journey : Journey) : Prop :=
  journey.trail = []

instance (journey : Journey) : Decidable journey.IsOver :=
  inferInstanceAs (Decidable (journey.trail = []))

/-- The journey after a visit. -/
def proceed (files : FileSystem) (journey : Journey) : Visit → Journey
  | .passed met => { journey with met := journey.met ++ met }
  | .entered stop =>
    { journey with
      trail := ⟨stop, files.sortedNames stop.location⟩ :: journey.trail
      listed := stop.location :: journey.listed }

/-- The visit to an entry of the directory `here` when the journey has come so far and the
directories of `journey` are open around it. -/
def visit (files : FileSystem) (root : Path) (journey : Journey) (here : Stop) (name : Text) :
    Route → Visit
  | .descent => .onDescent files root journey.stops here name
  | .tour => .onTour files journey.listed (here.path.join ⟨name⟩)

/-- The journey as it sets out from a path. -/
def start (files : FileSystem) (root : Path) : Route → Journey
  | .descent => proceed files ⟨[], [], []⟩ (.ofDescentRoot files root)
  | .tour => proceed files ⟨[], [], []⟩ (.ofTourRoot files root)

/-- The journey one step later: the next entry has been visited, or the innermost directory has been
left. A journey that is over stays as it is. -/
def next (files : FileSystem) (root : Path) (route : Route) (journey : Journey) : Journey :=
  match journey.trail with
  | [] => journey
  | ⟨_, []⟩ :: outer => { journey with trail := outer }
  | ⟨here, name :: left⟩ :: outer =>
    proceed files { journey with trail := ⟨here, left⟩ :: outer }
      (visit files root { journey with trail := outer } here name route)

/-- The journey from a path after some steps. -/
def after (files : FileSystem) (root : Path) (route : Route) : Nat → Journey
  | 0 => start files root route
  | steps + 1 => next files root route (after files root route steps)

end Journey

end DefCatalog
