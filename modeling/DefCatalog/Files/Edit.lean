import DefCatalog.Files.Resolve

/-!
# Changing a file system

Directories are made, files are written, renamed and removed. Each operation looks up the directory
that the last step of its path is taken in. It either succeeds or leaves the file system as it is.
-/

namespace DefCatalog.FileSystem

/-- Turns away a path that is too long. -/
def checkLength (path : Path) : Except FileError Unit :=
  if path.isTooLong then throw .nameTooLong else return ()

theorem checkLength_of_short {path : Path} (hshort : path.isTooLong = false) :
    checkLength path = .ok () := by
  unfold checkLength
  rw [hshort]
  rfl

theorem checkLength_bind_eq_ok_iff {α : Type} {path : Path} {next : Unit → Except FileError α}
    {result : α} :
    (checkLength path >>= next) = .ok result ↔ path.isTooLong = false ∧ next () = .ok result := by
  unfold checkLength
  cases path.isTooLong
  · exact (and_iff_right rfl).symm
  · exact iff_of_false (fun h ↦ nomatch h) (fun h ↦ nomatch h.1)

/-- The last step of a path, with the directory that it is taken in. -/
structure LastStep where
  directory : Location
  /-- The name of the step. A root, a dot and two dots have none. -/
  name? : Option Text
  /-- Whether a slash follows the step. -/
  slashed : Bool
  /-- How many links may still be followed. -/
  links : Nat
deriving DecidableEq, Repr

/-- The segments before the last step, and the name of that step if it has one. -/
def cutLast (segments : List Text) : List Text × Option Text :=
  match segments.reverse.dropWhile (· = []) with
  | [] => ([], none)
  | last :: before =>
    (before.reverse, if last = ['.'] ∨ last = ['.', '.'] then none else some last)

/-- Looks up the directory of the last step of a path. -/
def lastStepFrom (files : FileSystem) (links : Nat) (directory : Location) (path : Path) :
    Except FileError LastStep :=
  if path.spelling = [] then .error .notFound
  else
    let (before, name?) := cutLast (Text.splitOn '/' path.spelling)
    match files.walk true links (origin path directory) before with
    | .error reason => .error reason
    | .ok (location, links) =>
      if files.isDirectoryAt location then
        .ok ⟨location, name?, path.spelling.getLast? = some '/', links⟩
      else .error .notDirectory

/-- The last step of a path that is followed from the working directory. -/
def lastStep (files : FileSystem) (path : Path) : Except FileError LastStep :=
  files.lastStepFrom maxLinks files.working path

theorem lastStepFrom_links_le {files : FileSystem} {links : Nat} {directory : Location}
    {path : Path} {step : LastStep} (h : files.lastStepFrom links directory path = .ok step) :
    step.links ≤ links := by
  simp only [lastStepFrom] at h
  split at h
  · cases h
  · split at h
    · cases h
    · rename_i hwalk
      split at h
      · cases h
        exact walk_links_le hwalk
      · cases h

/-- Makes a directory. -/
def makeDirectory (files : FileSystem) (path : Path) : Except FileError FileSystem := do
  checkLength path
  let step ← files.lastStep path
  match step.name? with
  | none => throw .alreadyExists
  | some name =>
    match files.get? (name :: step.directory) with
    | some _ => throw .alreadyExists
    | none => return files.setContent (name :: step.directory) .directory

/-- The location that a file is written to. Links at the end of the path are followed, also the
last one if it leads nowhere yet. -/
def writeLocation (files : FileSystem) (links : Nat) (directory : Location) (path : Path) :
    Except FileError Location :=
  match hstep : files.lastStepFrom links directory path with
  | .error reason => .error reason
  | .ok ⟨_, none, _, _⟩ => .error .isDirectory
  | .ok ⟨parent, some name, slashed, remaining⟩ =>
    if slashed then .error .isDirectory
    else match files.contentAt? (name :: parent) with
      | none => .ok (name :: parent)
      | some (.file _) => .ok (name :: parent)
      | some .directory => .error .isDirectory
      | some (.link target) =>
        match remaining, lastStepFrom_links_le hstep with
        | 0, _ => .error .tooManyLinks
        | remaining + 1, _ => files.writeLocation remaining parent target
termination_by links

/-- Writes a file, in place of the content that it had. -/
def writeFile (files : FileSystem) (path : Path) (bytes : Bytes) : Except FileError FileSystem := do
  checkLength path
  let location ← files.writeLocation maxLinks files.working path
  return files.setContent location (.file bytes)

/-- Gives a file or a link another path, in place of the file or link that stands there. Links at
the end of a path stand for themselves. -/
def rename (files : FileSystem) (source target : Path) : Except FileError FileSystem := do
  checkLength source
  checkLength target
  let sourceStep ← files.lastStep source
  let targetStep ← files.lastStep target
  match sourceStep.name?, targetStep.name? with
  | some sourceName, some targetName =>
    let sourceLocation := sourceName :: sourceStep.directory
    let targetLocation := targetName :: targetStep.directory
    match files.get? sourceLocation with
    | none => throw .notFound
    | some ⟨.directory, _⟩ => throw .isDirectory
    | some node =>
      if sourceStep.slashed || targetStep.slashed then throw .notDirectory
      else if files.isDirectoryAt targetLocation then throw .isDirectory
      else return (files.erase sourceLocation).set targetLocation node
  | _, _ => throw .busy

/-- Removes a file or a link. -/
def removeFile (files : FileSystem) (path : Path) : Except FileError FileSystem := do
  checkLength path
  let step ← files.lastStep path
  match step.name? with
  | none => throw .isDirectory
  | some name =>
    match files.contentAt? (name :: step.directory) with
    | none => throw .notFound
    | some .directory => throw .isDirectory
    | some _ =>
      if step.slashed then throw .notDirectory else return files.erase (name :: step.directory)

end DefCatalog.FileSystem
