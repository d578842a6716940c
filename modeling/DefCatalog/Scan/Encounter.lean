import DefCatalog.Files.Resolve
import DefCatalog.Markup.Extract

/-!
# Encounters

What is met on the way through a folder: documents, among them those that cannot be read, and paths
that are passed over.
-/

namespace DefCatalog

/-- Why a path is passed over. -/
inductive Skip where
  /-- Below `root`, a link leads back to a directory that is being descended into. -/
  | loop (root link ancestor : Path)
  /-- Below `root`, a path leads nowhere. -/
  | unreadableBelow (root path : Path) (reason : FileError)
  /-- A path leads nowhere. -/
  | unreadable (path : Path) (reason : FileError)
  /-- A path leads to no directory that could be listed. -/
  | unreadableDirectory (path : Path) (reason : FileError)
  /-- The directory has been listed before. -/
  | revisited (path : Path)
deriving DecidableEq, Repr

namespace Skip

/-- The text of a reason. -/
def message : Skip → String
  | loop root link ancestor =>
    s!"Skipping unreadable path under {root}: " ++
      s!"File system loop found: {link} points to an ancestor {ancestor}"
  | unreadableBelow root path reason =>
    s!"Skipping unreadable path under {root}: IO error for operation on {path}: {reason}"
  | unreadable path reason => s!"Skipping unreadable path {path}: {reason}"
  | unreadableDirectory path reason => s!"Skipping unreadable directory {path}: {reason}"
  | revisited path => s!"Skipping already visited directory {path}"

end Skip

/-- What is met on the way through a folder. -/
inductive Encounter where
  | document (path : Path) (content : Bytes)
  /-- A document that is listed but cannot be read. -/
  | unread (path : Path) (reason : FileError)
  | skipped (reason : Skip)
deriving DecidableEq, Repr

namespace Encounter

/-- The extension of the names of documents. -/
def documentExtension : Text := "xml".toList

/-- The encounter of a file at a path: a document if its name says so. -/
def ofFile (files : FileSystem) (path : Path) : List Encounter :=
  if path.extension? = some documentExtension then
    match files.readFile path with
    | .ok content => [document path content]
    | .error reason => [unread path reason]
  else []

/-- The definitions in what is met. -/
def definitions (matching : Matching) : Encounter → List Definition
  | document _ content => Markup.extract matching (Utf8.decodeLossy content)
  | unread _ _ | skipped _ => []

/-- Whether a document is met that can be read. -/
def isDocument : Encounter → Bool
  | document _ _ => true
  | unread _ _ | skipped _ => false

/-- Whether a document is met, be it that it cannot be read. -/
def isCounted : Encounter → Bool
  | document _ _ | unread _ _ => true
  | skipped _ => false

end Encounter

end DefCatalog
