import DefCatalog.Files.Edit

/-!
# Steps of a file change

Larger changes of a file system, such as saving a cache, are lists of steps. They are carried out in
order until one fails.
-/

namespace DefCatalog

/-- A step of a larger change. -/
inductive FileStep where
  /-- Make a directory, unless there is one. -/
  | ensureDirectory (path : Path)
  | write (path : Path) (bytes : Bytes)
  | rename (source target : Path)
deriving DecidableEq, Repr

namespace FileStep

/-- Carries out one step. -/
def run (files : FileSystem) : FileStep → Except FileError FileSystem
  | ensureDirectory path =>
    match files.makeDirectory path with
    | .ok files => .ok files
    | .error reason => if files.isDirectory path then .ok files else .error reason
  | write path bytes => files.writeFile path bytes
  | rename source target => files.rename source target

/-- Carries out steps until one fails. That step and the reason come with the file system. -/
def runAll (files : FileSystem) : List FileStep → FileSystem × Option (FileStep × FileError)
  | [] => (files, none)
  | step :: steps =>
    match step.run files with
    | .ok files => runAll files steps
    | .error reason => (files, some (step, reason))

/-- Whether a directory cannot be made because the one that it belongs in is missing. -/
def lacksParent (files : FileSystem) (path : Path) : Bool :=
  match files.makeDirectory path with
  | .error .notFound => true
  | _ => false

/-- The steps that make a directory and those missing above it, the outermost first. -/
def makeDirectories (files : FileSystem) (path : Path) : List FileStep :=
  let paths := path.ancestors.filter (·.spelling ≠ [])
  let missing := paths.takeWhile (lacksParent files)
  (paths.take (missing.length + 1)).reverse.map ensureDirectory

end FileStep

end DefCatalog
