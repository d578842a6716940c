import DefCatalog.CommandLine.Arguments
import DefCatalog.CommandLine.Output
import DefCatalog.Provider.Basic
import DefCatalog.Settings.Basic

/-!
# Running commands

Each command sets up a provider from the invocation and the settings, does its work and prints what
came of it.
-/

namespace DefCatalog

/-- What a command works with. -/
structure Session where
  environment : Environment
  invocation : Invocation
  wording : Wording
  files : FileSystem

namespace Session

/-- How notices of the session become lines. -/
def reporter (session : Session) (showsProgress : Bool) : Reporter where
  filter := LogFilter.choose session.environment.logFilter? session.invocation.verbose
  wording := session.wording
  showsProgress := showsProgress

def settingsPath (session : Session) : Path :=
  session.invocation.settingsFile.getD session.environment.settingsFile

/-- The provider that the session is configured for. -/
def provider (session : Session) : Except Failure Provider :=
  match Settings.resolveRoot session.files session.invocation.root session.settingsPath with
  | .error fault => .error (fault.failure session.wording)
  | .ok root => .ok
      { installRoot := root
        cache := ⟨session.invocation.cacheFile.getD session.environment.cacheFile⟩
        strategy := session.invocation.strategy
        matching := session.invocation.matching }

/-- Runs a command that needs a provider. -/
def withProvider (session : Session) (command : Provider → Output × FileSystem) :
    Output × FileSystem :=
  match session.provider with
  | .error failure => (.failed failure [], session.files)
  | .ok provider => command provider

def saveWarning (summary : ScanSummary) : List OutputLine :=
  summary.saveError.toList.map fun error ↦
    .plain ("Warning: definitions indexed but cache not saved: " ++ error.failure.message)

/-- The output of a command that scans. -/
def scanOutput (session : Session) (first : List OutputLine) (headline : String)
    (printed : ScanSummary → List String)
    (noted : Noted (Reply (Except ScanError ScanSummary))) : Output × FileSystem :=
  let lines := first ++ (session.reporter true).lines noted
  match noted.value.answer with
  | .error error => (.failed ⟨headline, some error.message⟩ lines, noted.value.files)
  | .ok summary =>
    (.success ((printed summary).map String.toList) (lines ++ saveWarning summary),
      noted.value.files)

/-- Scans and saves the catalog. -/
def generateCache (session : Session) (provider : Provider) : Output × FileSystem :=
  session.scanOutput [.plain "Generating RimWorld cache..."] "Cache generation failed"
    (fun summary ↦
      ["Cache generation complete!", s!"Scanned {summary.folders} folders successfully"])
    (provider.generate session.files)

/-- Removes the cache file and scans anew. -/
def reload (session : Session) (provider : Provider) : Output × FileSystem :=
  session.scanOutput [] "Reload failed"
    (fun summary ↦ [s!"Definitions reloaded ({summary.folders} folders scanned)"])
    (provider.reload session.files)

/-- Removes the cache file. -/
def clearCache (session : Session) (provider : Provider) : Output × FileSystem :=
  let noted := provider.clearCache session.files
  let printed :=
    if noted.value.answer then "Cache cleared successfully" else "No cache file found"
  (.success [printed.toList] ((session.reporter false).lines noted), noted.value.files)

/-- Runs a command on loaded definitions. -/
def withDefinitions (session : Session) (provider : Provider)
    (printed : LoadSource → Provider → List Text) : Output × FileSystem :=
  let noted := provider.load session.files
  let lines := (session.reporter false).lines noted
  match noted.value.answer with
  | .error error =>
    (.failed ⟨"Failed to load definitions", some error.message⟩ lines, noted.value.files)
  | .ok source => (.success (printed source noted.value.provider) lines, noted.value.files)

/-- A suggestion as a JSON value. -/
def suggestionValue (suggestion : Suggestion) : Json.Value :=
  .object
    [(Json.ofText "text".toList, .ofText suggestion.text),
      (Json.ofText "type".toList, .ofText Suggestion.group),
      (Json.ofText "leftLabel".toList, .ofText suggestion.label),
      (Json.ofText "description".toList, .ofText suggestion.description),
      (Json.ofText "replacementPrefix".toList, .ofText suggestion.replaced)]

def suggestionLine (suggestion : Suggestion) : Text :=
  suggestion.text ++ '\t' :: suggestion.label

/-- Prints the suggestions for a line. -/
def suggest (session : Session) (provider : Provider) (line : Text) (asJson : Bool) :
    Output × FileSystem :=
  session.withDefinitions provider fun _ provider ↦
    let suggestions := provider.suggestions line
    if asJson then [Json.write (.array (suggestions.map suggestionValue))]
    else suggestions.map suggestionLine

/-- Where definitions were taken from, for the user. -/
def sourceText : LoadSource → String
  | .cache => "cache"
  | .scan folders => s!"scan ({folders} folders)"
  | .notConfigured => "nothing"

/-- A path on a line with a label. -/
def pathLine (session : Session) (label : String) (path : Path) : Text :=
  label.toList ++ session.environment.display path

/-- The lines of the statistics on a catalog. -/
def statistics (session : Session) (source : LoadSource) (provider : Provider) : List Text :=
  let catalog := provider.definitions
  let root := match provider.installRoot with
    | some root => session.pathLine "RimWorld path: " root
    | none => "RimWorld path: (not configured)".toList
  ["RimWorld Definition Statistics".toList, List.replicate 30 '=', root,
    session.pathLine "Cache file: " provider.cache.path,
    ("Loaded from: " ++ sourceText source).toList,
    s!"Total definitions: {catalog.size}".toList] ++
    catalog.entries.map fun entry ↦
      "  ".toList ++ entry.kind ++ s!": {entry.names.length}".toList

def stats (session : Session) (provider : Provider) : Output × FileSystem :=
  session.withDefinitions provider session.statistics

/-- Remembers an install root. -/
def setRoot (session : Session) (root : Path) : Output × FileSystem :=
  match Settings.load session.files session.settingsPath with
  | .error fault => (.failed (fault.failure session.wording) [], session.files)
  | .ok settings =>
    let changed := { settings with installRoot := some root }
    match changed.save session.files session.settingsPath with
    | (after, some error) => (.failed error.failure [], after)
    | (after, none) =>
      let warnings :=
        if after.pathExists root then [] else [.plain s!"Warning: {root} does not exist"]
      (.success [session.pathLine "RimWorld path set to " root] warnings, after)

/-- Runs the command of the invocation. The second part of the answer is the file system
afterwards. -/
def run (session : Session) : Output × FileSystem :=
  match session.invocation.command with
  | none => (.success ["Use --help for usage information".toList] [], session.files)
  | some .generateCache => session.withProvider session.generateCache
  | some .clearCache => session.withProvider session.clearCache
  | some .reload => session.withProvider session.reload
  | some (.suggest line asJson) =>
    session.withProvider fun provider ↦ session.suggest provider line asJson
  | some .stats => session.withProvider session.stats
  | some (.setRoot root) => session.setRoot root

/-- The paths that a run may read or write by themselves. -/
def paths (session : Session) : List Path :=
  let cache := session.invocation.cacheFile.getD session.environment.cacheFile
  let roots := match session.invocation.command with
    | some (.setRoot root) => [root]
    | _ => []
  [session.settingsPath, cache, (⟨cache⟩ : CacheFile).draft] ++ roots

/-- The install root whose folders a run goes through, if it scans. -/
def scannedRoot? (session : Session) : Option Path :=
  match session.provider with
  | .error _ => none
  | .ok provider => do
    let root ← provider.installRoot
    match ← session.invocation.command with
    | .generateCache | .reload => some root
    | .suggest _ _ | .stats =>
      match provider.cache.read session.files with
      | .ok snapshot => (snapshot.staleness session.files root).map fun _ ↦ root
      | .error _ => some root
    | .clearCache | .setRoot _ => none

end Session

def programVersion : String := "rimcomplete 0.1.0"

/-- How the program is used. -/
def usage : List String :=
  ["Usage: rimcomplete [OPTIONS] [COMMAND]",
    "",
    "Commands: generate-cache, clear-cache, reload, suggest <LINE> [--json], stats, set-root <PATH>",
    "Options: --root <PATH>, --cache-file <PATH>, --config <PATH>,",
    "  --mode <sync|cooperative|worker>, --strict, -v/--verbose, -h/--help, -V/--version"]

/-- Runs the program on the words of a command line. -/
def runProgram (environment : Environment) (wording : Wording) (files : FileSystem)
    (words : List Text) : Output × FileSystem :=
  match Invocation.read environment words with
  | .error .usage => (⟨2, [], usage.map .plain⟩, files)
  | .error .version => (.success [programVersion.toList] [], files)
  | .error .help => (.success (usage.map String.toList) [], files)
  | .ok invocation => Session.run ⟨environment, invocation, wording, files⟩

end DefCatalog
