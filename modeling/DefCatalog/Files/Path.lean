import DefCatalog.Text.Utf8

/-!
# Paths

A path is kept as it is spelled, since messages show it that way. Two spellings name the same place
in the tree of names when their components agree: repeated and trailing slashes and inner `.` do
not count, a leading `.` does, and `..` is left alone.
-/

namespace DefCatalog

/-- A path, as it is spelled. -/
structure Path where
  spelling : Text
deriving DecidableEq, Repr

namespace Path

/-- A step of a path. -/
inductive Component where
  /-- The slash at the head of an absolute path. -/
  | root
  /-- A dot at the head of a relative path. -/
  | here
  | up
  | name (name : Text)
deriving DecidableEq, Repr

instance : ToString Path where
  toString path := String.ofList path.spelling

/-- The path with the spelling of a string. -/
def ofString (spelling : String) : Path :=
  ⟨spelling.toList⟩

def isAbsolute (path : Path) : Bool :=
  path.spelling.head? == some '/'

/-- The greatest number of bytes that a path may have. -/
def maxBytes : Nat := 4095

/-- Whether the spelling has too many bytes in UTF-8 for the path to be followed. -/
def isTooLong (path : Path) : Bool :=
  maxBytes < (Utf8.encode path.spelling).length

/-- Whether a segment between slashes is no step: it is empty or a dot. -/
def isIdle (segment : Text) : Bool :=
  segment == [] || segment == ['.']

/-- The step that a segment stands for. -/
def Component.ofSegment (segment : Text) : Component :=
  if segment = ['.', '.'] then .up else .name segment

/-- A path cut into its head, which is a root, a leading dot or nothing, and the segments after
it. -/
def headAndBody (path : Path) : Option Component × List Text :=
  match Text.splitOn '/' path.spelling with
  | [] => (none, [])
  | first :: rest =>
    if path.isAbsolute then (some .root, rest)
    else if first = ['.'] then (some .here, rest)
    else (none, first :: rest)

/-- The steps of a path. -/
def components (path : Path) : List Component :=
  let (head, body) := path.headAndBody
  head.toList ++ (body.filter (!isIdle ·)).map Component.ofSegment

/-- Whether two spellings have the same components. -/
def SamePlace (a b : Path) : Prop :=
  a.components = b.components

instance (a b : Path) : Decidable (SamePlace a b) :=
  inferInstanceAs (Decidable (a.components = b.components))

/-- The segments without the idle ones at the end. -/
def trimEnd (segments : List Text) : List Text :=
  (segments.reverse.dropWhile isIdle).reverse

/-- The path with the given head and segments. -/
def assemble (head : Option Component) (body : List Text) : Path :=
  let joined := ['/'].intercalate body
  match head with
  | some .root => ⟨'/' :: joined⟩
  | some .here => if body.isEmpty then ⟨['.']⟩ else ⟨'.' :: '/' :: joined⟩
  | _ => ⟨joined⟩

/-- The path without its last component. A root and the empty path have none. -/
def parent? (path : Path) : Option Path :=
  match path.headAndBody with
  | (head, body) =>
    match trimEnd body, head with
    | [], some .here => some ⟨[]⟩
    | [], _ => none
    | segments, head => some (assemble head (trimEnd segments.dropLast))

/-- The path and the paths that are left when components are taken off its end, up to a number of
them. -/
def ancestorsUpTo : Nat → Path → List Path
  | 0, path => [path]
  | count + 1, path =>
    match path.parent? with
    | none => [path]
    | some parent => path :: ancestorsUpTo count parent

/-- The path and the paths that are left when components are taken off its end. -/
def ancestors (path : Path) : List Path :=
  ancestorsUpTo path.components.length path

/-- The last component, if it is a name. -/
def fileName? (path : Path) : Option Text :=
  match path.components.getLast? with
  | some (.name name) => some name
  | _ => none

/-- What follows the last dot of a file name, unless that dot is its first character. -/
def extensionOf? (name : Text) : Option Text :=
  let reversed := name.reverse
  match reversed.dropWhile (· != '.') with
  | [] => none
  | [_] => none
  | _ => some (reversed.takeWhile (· != '.')).reverse

/-- The extension of the last component. -/
def extension? (path : Path) : Option Text :=
  path.fileName?.bind extensionOf?

/-- The path with another one appended. An absolute one replaces it. -/
def join (base path : Path) : Path :=
  if path.isAbsolute then path
  else if base.spelling.isEmpty || base.spelling.getLast? == some '/' then
    ⟨base.spelling ++ path.spelling⟩
  else ⟨base.spelling ++ '/' :: path.spelling⟩

instance : HDiv Path String Path where
  hDiv base name := base.join (ofString name)

/-- The path with its last component, if that is a name, replaced by another name. -/
def withFileName (path : Path) (name : Text) : Path :=
  match path.fileName?, path.parent? with
  | some _, some parent => parent.join ⟨name⟩
  | _, _ => path.join ⟨name⟩

/-- The segments after as many steps. -/
def dropSteps : Nat → List Text → List Text
  | 0, segments => segments
  | _ + 1, [] => []
  | count + 1, segment :: segments =>
    if isIdle segment then dropSteps (count + 1) segments else dropSteps count segments

/-- The rest of a path after the components of `base`, if it begins with them. The rest keeps its
spelling, without idle segments at its two ends. -/
def relativeTo? (path base : Path) : Option Path :=
  let steps := base.components
  if steps.isPrefixOf path.components then
    let (head, body) := path.headAndBody
    let rest := dropSteps (steps.length - head.toList.length) body
    some ⟨['/'].intercalate (trimEnd (rest.dropWhile isIdle))⟩
  else none

/-- The path with `~` for a home directory at its head. -/
def shorten (path home : Path) : Path :=
  if home.spelling.isEmpty then path
  else match path.relativeTo? home with
    | none => path
    | some rest => if rest.spelling.isEmpty then ⟨['~']⟩ else (⟨['~']⟩ : Path).join rest

example : (ofString "a//b/./").parent? = some (ofString "a") := by decide

example : (ofString "a/b/").ancestors = [ofString "a/b/", ofString "a", ofString ""] := by decide

example : (ofString "/h//al/./x//y/").shorten (ofString "/h/al") = ofString "~/x//y" := by decide

example : (ofString "/h/alice").shorten (ofString "/h/al") = ofString "/h/alice" := by decide

end Path

end DefCatalog
