import DefCatalog.Files.System

/-!
# From paths to locations

A path is followed from the working directory, or from the root if it is absolute, one segment
after the other. A link on the way is replaced by its target; no more than forty links are followed
for one path. A path that is too long is not followed at all, even if its components lead somewhere.
-/

namespace DefCatalog.FileSystem

/-- How many links are followed for one path. -/
def maxLinks : Nat := 40

/-- Where the segments of a path are followed from, given the directory for relative paths. -/
def origin (path : Path) (directory : Location) : Location :=
  if path.isAbsolute then [] else directory

/-- Follows segments from a location, up to the first link that is followed, from where `follow` goes
on. The number is that of the links that may still be followed. -/
def walkWith (files : FileSystem) (followLast : Bool) (links : Nat)
    (follow : Location → List Text → Except FileError (Location × Nat)) (place : Location) :
    List Text → Except FileError (Location × Nat)
  | [] => .ok (place, links)
  | segment :: rest =>
    if !files.isDirectoryAt place then .error .notDirectory
    else if Path.isIdle segment then files.walkWith followLast links follow place rest
    else if segment = ['.', '.'] then files.walkWith followLast links follow place.tail rest
    else match files.contentAt? (segment :: place) with
      | none => .error .notFound
      | some (.link target) =>
        if rest = [] ∧ followLast = false then .ok (segment :: place, links)
        else follow (origin target place) (Text.splitOn '/' target.spelling ++ rest)
      | some _ => files.walkWith followLast links follow (segment :: place) rest

/-- Follows segments from a location. The numbers are those of the links that may still be
followed, before and after. A link in the last segment is followed if `followLast` is set. -/
def walk (files : FileSystem) (followLast : Bool) :
    Nat → Location → List Text → Except FileError (Location × Nat)
  | 0 => files.walkWith followLast 0 fun _ _ ↦ .error .tooManyLinks
  | links + 1 => files.walkWith followLast (links + 1) (files.walk followLast links)

theorem walk_nil (files : FileSystem) (followLast : Bool) (links : Nat) (place : Location) :
    files.walk followLast links place [] = .ok (place, links) := by
  cases links <;> rfl

theorem walk_cons (files : FileSystem) (followLast : Bool) (links : Nat) (place : Location)
    (segment : Text) (rest : List Text) :
    files.walk followLast links place (segment :: rest) =
      if !files.isDirectoryAt place then .error .notDirectory
      else if Path.isIdle segment then files.walk followLast links place rest
      else if segment = ['.', '.'] then files.walk followLast links place.tail rest
      else match files.contentAt? (segment :: place) with
        | none => .error .notFound
        | some (.link target) =>
          if rest = [] ∧ followLast = false then .ok (segment :: place, links)
          else match links with
            | 0 => .error .tooManyLinks
            | links + 1 =>
              files.walk followLast links (origin target place)
                (Text.splitOn '/' target.spelling ++ rest)
        | some _ => files.walk followLast links (segment :: place) rest := by
  cases links <;> simp only [walk, walkWith]

/-- Walks are gone through by induction on the segments that are left, with anything at all allowed
behind a link. -/
theorem walkInduction {motive : Nat → Location → List Text → Prop}
    (nil : ∀ links place, motive links place [])
    (cons : ∀ links place segment rest, (∀ place, motive links place rest) →
      (∀ fewer < links, ∀ place segments, motive fewer place segments) →
      motive links place (segment :: rest)) (links : Nat) (place : Location)
    (segments : List Text) : motive links place segments := by
  induction links using Nat.strongRecOn generalizing place segments with
  | ind links ihlinks =>
    induction segments generalizing place with
    | nil => exact nil links place
    | cons segment rest ih => exact cons links place segment rest ih ihlinks

/-- Following links never gives links back. -/
theorem walk_links_le {files : FileSystem} {followLast : Bool} {links remaining : Nat}
    {place location : Location} {segments : List Text}
    (h : files.walk followLast links place segments = .ok (location, remaining)) :
    remaining ≤ links := by
  induction links, place, segments using walkInduction with
  | nil links place =>
    rw [walk_nil] at h
    cases h
    exact Nat.le_refl _
  | cons links place segment rest ih ihlinks =>
    rw [walk_cons] at h
    split at h
    · cases h
    · split at h
      · exact ih _ h
      · split at h
        · exact ih _ h
        · split at h
          · cases h
          · split at h
            · cases h
              exact Nat.le_refl _
            · split at h
              · cases h
              · exact Nat.le_succ_of_le (ihlinks _ (Nat.lt_succ_self _) _ _ h)
          · exact ih _ h

/-- The location that a path leads to. If `followLast` is not set, a link at the end of the path
stands for itself. -/
def locateWith (files : FileSystem) (followLast : Bool) (path : Path) :
    Except FileError Location :=
  if path.spelling = [] then .error .notFound
  else if path.isTooLong then .error .nameTooLong
  else
    match files.walk followLast maxLinks (origin path files.working)
        (Text.splitOn '/' path.spelling) with
    | .ok (location, _) => .ok location
    | .error reason => .error reason

/-- The location that a path leads to. -/
def locate (files : FileSystem) (path : Path) : Except FileError Location :=
  files.locateWith true path

/-- The node that a path leads to. -/
def stat (files : FileSystem) (path : Path) : Except FileError Node :=
  match files.locate path with
  | .error reason => .error reason
  | .ok location =>
    match files.get? location with
    | some node => .ok node
    | none => .error .notFound

/-- Whether the path leads anywhere. -/
def pathExists (files : FileSystem) (path : Path) : Bool :=
  match files.stat path with
  | .ok _ => true
  | .error _ => false

/-- Whether the path leads to a directory. -/
def isDirectory (files : FileSystem) (path : Path) : Bool :=
  match files.stat path with
  | .ok node => node.content == .directory
  | .error _ => false

/-- Whether the path leads to a file. -/
def isFile (files : FileSystem) (path : Path) : Bool :=
  match files.stat path with
  | .ok ⟨.file _, _⟩ => true
  | _ => false

/-- The content of the file that a path leads to. -/
def readFile (files : FileSystem) (path : Path) : Except FileError Bytes :=
  match files.stat path with
  | .error reason => .error reason
  | .ok ⟨.file bytes, _⟩ => .ok bytes
  | .ok _ => .error .isDirectory

/-- The content of the file that a path leads to, as a text. -/
def readText (files : FileSystem) (path : Path) : Except FileError Text :=
  match files.readFile path with
  | .error reason => .error reason
  | .ok bytes =>
    match Utf8.decode? bytes with
    | some text => .ok text
    | none => .error .notText

/-- The directory that a path leads to. -/
def locateDirectory (files : FileSystem) (path : Path) : Except FileError Location :=
  match files.locate path with
  | .error reason => .error reason
  | .ok location =>
    if files.isDirectoryAt location then .ok location else .error .notDirectory

end DefCatalog.FileSystem
