/-!
# File errors

Why an operation on a path fails.
-/

namespace DefCatalog

/-- Why a path cannot be found, read or changed. -/
inductive FileError where
  /-- The path, or a directory on the way to it, does not exist. -/
  | notFound
  /-- Something stands where a new directory was to be made. -/
  | alreadyExists
  /-- The path leads through something that is no directory. -/
  | notDirectory
  /-- A directory stands where a file is needed. -/
  | isDirectory
  /-- The path has more bytes than are accepted. -/
  | nameTooLong
  /-- More links lie on the way than are followed. -/
  | tooManyLinks
  /-- The last step of the path is no name, so nothing can be put in its place. -/
  | busy
  /-- The file holds bytes that are no text. -/
  | notText
deriving DecidableEq, Repr

namespace FileError

/-- The text of an error, with its number where it has one. -/
def message : FileError → String
  | notFound => "No such file or directory (os error 2)"
  | busy => "Device or resource busy (os error 16)"
  | alreadyExists => "File exists (os error 17)"
  | notDirectory => "Not a directory (os error 20)"
  | isDirectory => "Is a directory (os error 21)"
  | nameTooLong => "File name too long (os error 36)"
  | tooManyLinks => "Too many levels of symbolic links (os error 40)"
  | notText => "stream did not contain valid UTF-8"

instance : ToString FileError where
  toString := message

end FileError

end DefCatalog
