import DefCatalog.CommandLine.Run
import Std.Data.HashMap
import Std.Data.HashSet
import Std.Time.DateTime.Timestamp

/-!
# The program

The part of the disk that a run looks at is copied into a file system, the run is computed, and what
it changed is written back.
-/

namespace DefCatalog.Host

/-- A location as an absolute path. -/
def spelling (location : Location) : String :=
  String.ofList ('/' :: ['/'].intercalate location.reverse)

/-- The copy of the disk so far. -/
structure Copy where
  /-- What stands at locations, by their spelling. -/
  nodes : Std.HashMap String (Location × Node) := {}
  /-- The directories whose entries have been copied. -/
  listed : Std.HashSet String := {}

/-- The location of an absolute path without dots and links. -/
def locationOf (path : String) : Location :=
  ((Text.splitOn '/' path.toList).filter (· ≠ [])).reverse

/-- The target that stands for that of a link which cannot be followed: itself if it leads round in
circles, and otherwise a name that no file can have. -/
def brokenTarget (location : Location) (missing : Bool) : Path :=
  if missing then ⟨[Char.ofNat 0]⟩ else ⟨'/' :: ['/'].intercalate location.reverse⟩

/-- The target of the link at a location. -/
def readTarget (location : Location) : IO Path := do
  let path := (← IO.currentDir) / spelling location
  try
    let _ ← path.metadata
    return .ofString (← IO.FS.realPath path).toString
  catch
    | .noFileOrDirectory _ _ _ => return brokenTarget location true
    | _ => return brokenTarget location false

/-- What a location holds. The content of a file is read only if that is wished; a file that cannot be
read counts as empty. -/
def readNode (location : Location) (whole : Bool) : IO (Option Node) := do
  let path := (← IO.currentDir) / spelling location
  try
    let metadata ← path.symlinkMetadata
    let content ← match metadata.type with
      | .dir => pure .directory
      | .symlink => pure (.link (← readTarget location))
      | _ =>
        let bytes ← try if whole then IO.FS.readBinFile path else pure .empty catch _ => pure .empty
        pure (.file bytes.toList)
    return some ⟨content, metadata.modified.sec, metadata.modified.nsec.toNat⟩
  catch _ => return none

/-- Whether the name of a location is that of a document. -/
def isDocument (location : Location) : Bool :=
  (location.head?.bind Path.extensionOf?) = some Encounter.documentExtension

/-- Copies the locations of an agenda. Each one comes with the wish to copy everything below it, and
to read it if it is a file. -/
partial def copyAll (copy : Copy) : List (Location × Bool × Bool) → IO Copy
  | [] => return copy
  | (location, below, whole) :: agenda => do
    let known := (copy.nodes[spelling location]?).map Prod.snd
    let node ← match known, whole with
      | none, _ | some ⟨.file [], _⟩, true => readNode location whole
      | some node, _ => pure (some node)
    match node with
    | none => copyAll copy agenda
    | some node =>
      let copy := { copy with nodes := copy.nodes.insert (spelling location) (location, node) }
      let above := match known, location with
        | none, _ :: parent => [(parent, false, false)]
        | _, _ => []
      match node.content with
      | .file _ => copyAll copy (above ++ agenda)
      | .link target =>
        let next := locationOf (toString target)
        if next ≠ location && (known.isNone || below) then
          copyAll copy (above ++ (next, below, whole) :: agenda)
        else copyAll copy (above ++ agenda)
      | .directory =>
        if below && !copy.listed.contains (spelling location) then
          -- a directory that cannot be listed is passed over, as one without entries
          let directory := (← IO.currentDir) / spelling location
          let entries ← try directory.readDir catch _ => pure #[]
          let children := entries.toList.map fun entry ↦
            let child := entry.fileName.toList :: location
            (child, true, isDocument child)
          copyAll { copy with listed := copy.listed.insert (spelling location) }
            (above ++ children ++ agenda)
        else copyAll copy (above ++ agenda)

/-- The locations on the way along a path, where each directory can be followed. -/
def locationsAlong (path : Path) : IO (List Location) := do
  let segments := Text.splitOn '/' path.spelling
  let here ← IO.currentDir
  let mut found := []
  for count in List.range segments.length do
    let before := String.ofList (['/'].intercalate (segments.take count))
    let name := segments.getD count []
    unless Path.isIdle name || name = ['.', '.'] do
      try
        let directory := if count = 0 then here else here / (before ++ "/")
        found := (name :: locationOf (← IO.FS.realPath directory).toString) :: found
      catch _ => pure ()
  return found

/-- Copies what lies along some paths, and what is below them if that is wished. -/
def copyPaths (copy : Copy) (below : Bool) (paths : List Path) : IO Copy := do
  let mut agenda := []
  for path in paths do
    for location in ← locationsAlong path do
      agenda := (location, false, true) :: agenda
    if below then
      try
        let location := locationOf (← IO.FS.realPath (toString path)).toString
        agenda := (location, true, false) :: agenda
      catch _ => pure ()
  copyAll copy agenda

/-- The file system of a copy. -/
def filesOf (copy : Copy) (working : Location) (now : Instant) : FileSystem :=
  ⟨copy.nodes.values, working, now⟩

/-- Writes to the disk what has changed since the copy was made. A file is written beside its place
and then moved there. -/
def writeBack (copy : Copy) (after : FileSystem) : IO Unit := do
  let changed := after.nodes.filter fun (location, node) ↦
    (copy.nodes[spelling location]?).map (·.2.modified) ≠ some node.modified
  for (location, node) in changed.mergeSort (fun a b ↦ a.1.length ≤ b.1.length) do
    let path := spelling location
    match node.content with
    | .directory => IO.FS.createDir path
    | .file bytes =>
      IO.FS.writeBinFile (path ++ ".tmp") ⟨bytes.toArray⟩
      IO.FS.rename (path ++ ".tmp") path
    | .link _ => pure ()
  let kept := Std.HashSet.ofList (after.nodes.map fun (location, _) ↦ spelling location)
  for path in copy.nodes.keys do
    unless kept.contains path do IO.FS.removeFile path

/-- The bindings that the program looks at. -/
def variableNames : List String :=
  ["HOME", "XDG_CACHE_HOME", "XDG_CONFIG_HOME", "RUST_LOG"] ++
    Setting.all.filterMap Setting.variableName?

def readEnvironment : IO Environment := do
  let mut bindings := []
  for name in variableNames do
    if let some value ← IO.getEnv name then
      bindings := (name, value.toList) :: bindings
  return ⟨bindings⟩

def readClock : IO Instant := do
  let time ← Std.Time.Timestamp.now
  let nanoseconds := time.toNanosecondsSinceUnixEpoch.val
  return ⟨nanoseconds / 1000000000, (nanoseconds % 1000000000).toNat⟩

/-- The part of the disk that the program looks at when it is run on some words. -/
def copyFor (environment : Environment) (words : List Text) (working : Location) (now : Instant) :
    IO Copy := do
  let copy ← copyAll {} [(working, false, false)]
  match Invocation.read environment words with
  | .error _ => return copy
  | .ok invocation =>
    let session (copy : Copy) : Session :=
      ⟨environment, invocation, .standard, filesOf copy working now⟩
    let copy ← copyPaths copy false (session copy).paths
    let roots := match (session copy).provider with
      | .ok provider => provider.installRoot.toList
      | .error _ => []
    let copy ← copyPaths copy false (roots.map (· / modsName))
    let scanned := (session copy).scannedRoot?.toList
    copyPaths copy true
      (scanned.flatMap fun root ↦ [root / Folder.dataName, root / modsName])

end DefCatalog.Host

open DefCatalog DefCatalog.Host in
def main (arguments : List String) : IO UInt32 := do
  let environment ← readEnvironment
  let words := arguments.map String.toList
  let now ← readClock
  let working := locationOf (← IO.FS.realPath (← IO.currentDir)).toString
  let copy ← copyFor environment words working now
  let (output, after) := runProgram environment .standard (filesOf copy working now) words
  writeBack copy after
  IO.print (String.ofList output.out)
  let stamp := String.ofList (Timestamp.write Timestamp.zulu now)
  for line in output.err do
    IO.eprintln (line.render stamp)
  return output.code.toUInt32
