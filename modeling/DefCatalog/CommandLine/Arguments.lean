import DefCatalog.CommandLine.Environment
import DefCatalog.Scan.Run

/-!
# Arguments

A command line is read at two levels: what stands before the word for a command, and what follows
it. Settings and switches may stand at both levels, but only once at each. A setting at the level of
the command wins over one before it, and both win over a variable of the environment.
-/

namespace DefCatalog

/-- The kind of a command. -/
inductive CommandKind where
  | generateCache
  | clearCache
  | reload
  | suggest
  | stats
  | setRoot
deriving DecidableEq, Repr

namespace CommandKind

def all : List CommandKind := [generateCache, clearCache, reload, suggest, stats, setRoot]

/-- The word for a kind. -/
def word : CommandKind → String
  | generateCache => "generate-cache"
  | clearCache => "clear-cache"
  | reload => "reload"
  | suggest => "suggest"
  | stats => "stats"
  | setRoot => "set-root"

/-- The kind that a word stands for. -/
def ofWord? (word : Text) : Option CommandKind :=
  all.find? (·.word.toList = word)

/-- Whether a command of this kind is about an operand. -/
def hasOperand : CommandKind → Bool
  | suggest | setRoot => true
  | _ => false

end CommandKind

/-- A setting, which has a value. -/
inductive Setting where
  | root
  | cacheFile
  | settingsFile
  | strategy
deriving DecidableEq, Repr

namespace Setting

def all : List Setting := [root, cacheFile, settingsFile, strategy]

/-- The name of a setting. -/
def name : Setting → String
  | root => "root"
  | cacheFile => "cache-file"
  | settingsFile => "config"
  | strategy => "mode"

/-- The variable that holds the value if the command line does not. -/
def variableName? : Setting → Option String
  | root => some "RIMWORLD_PATH"
  | cacheFile => some "RIMCOMPLETE_CACHE_FILE"
  | settingsFile => some "RIMCOMPLETE_CONFIG"
  | strategy => none

/-- Whether a setting may have the value. Paths are not empty. -/
def accepts (value : Text) : Setting → Bool
  | strategy => (Strategy.ofName? (String.ofList value)).isSome
  | _ => !value.isEmpty

end Setting

/-- A switch, which is set or not. -/
inductive Switch where
  | strict
  | verbose
  /-- Print suggestions as a JSON document. -/
  | json
deriving DecidableEq, Repr

namespace Switch

def all : List Switch := [strict, verbose, json]

/-- The name of a switch. -/
def name : Switch → String
  | strict => "strict"
  | verbose => "verbose"
  | json => "json"

/-- Whether the switch may stand at a level: after a command, or before any. -/
def standsAt (level : Option CommandKind) : Switch → Bool
  | json => level = some .suggest
  | _ => true

end Switch

/-- Why reading a command line ends early. -/
inductive Interruption where
  /-- The arguments do not fit together. -/
  | usage
  /-- The user asks for the version. -/
  | version
  /-- The user asks for help. -/
  | help
deriving DecidableEq, Repr

/-- What is given at one level. -/
structure Given where
  settings : List (Setting × Text) := []
  switches : List Switch := []
  operand : Option Text := none
deriving DecidableEq, Repr

namespace Given

def addSetting (given : Given) (setting : Setting) (value : Text) : Except Interruption Given :=
  if (given.settings.lookup setting).isSome ∨ ¬setting.accepts value then .error .usage
  else .ok { given with settings := (setting, value) :: given.settings }

def addSwitch (given : Given) (switch : Switch) : Except Interruption Given :=
  if switch ∈ given.switches then .error .usage
  else .ok { given with switches := switch :: given.switches }

/-- Notes an operand. A root that is to be remembered is not empty. -/
def addOperand (level : Option CommandKind) (given : Given) (word : Text) :
    Except Interruption Given :=
  match level with
  | none => .error .usage
  | some kind =>
    if ¬kind.hasOperand ∨ given.operand.isSome ∨ (kind = .setRoot ∧ word = []) then .error .usage
    else .ok { given with operand := some word }

/-- Notes the switches of a block of letters, or stops where one asks for a text to be shown. -/
def addLetters (level : Option CommandKind) (given : Given) : Text → Except Interruption Given
  | [] => .ok given
  | letter :: letters =>
    if letter = 'v' then do
      let given ← given.addSwitch .verbose
      given.addLetters level letters
    else if letter = 'h' then .error .help
    else if letter = 'V' ∧ level = none then .error .version
    else .error .usage

def addOperands (level : Option CommandKind) (given : Given) (words : List Text) :
    Except Interruption Given :=
  words.foldlM (addOperand level) given

end Given

/-- What a word of the command line is. -/
inductive Argument where
  /-- A word after which all words are operands. -/
  | separator
  /-- A setting, with its value if that stands in the same word. -/
  | setting (setting : Setting) (value : Option Text)
  | switch (switch : Switch)
  | letters (letters : Text)
  | interruption (reason : Interruption)
  | plain (word : Text)
deriving DecidableEq, Repr

namespace Argument

/-- A long option, split at the first equals sign. -/
def ofOption (level : Option CommandKind) (text : Text) : Argument :=
  let name := text.takeWhile (· != '=')
  let value := match text.dropWhile (· != '=') with
    | [] => none
    | _ :: value => some value
  match Setting.all.find? (·.name.toList = name), value with
  | some which, value => setting which value
  | none, some _ => interruption .usage
  | none, none =>
    match Switch.all.find? (·.name.toList = name) with
    | some which => if which.standsAt level then switch which else interruption .usage
    | none =>
      if name = "help".toList then interruption .help
      else if name = "version".toList ∧ level = none then interruption .version
      else interruption .usage

/-- What a word is at a level. -/
def ofWord (level : Option CommandKind) : Text → Argument
  | ['-', '-'] => separator
  | '-' :: '-' :: text => ofOption level text
  | '-' :: letter :: text => letters (letter :: text)
  | word => plain word

/-- Whether a word cannot be the value of the setting before it. -/
def isOption (word : Text) : Bool :=
  word.head? = some '-' && word ≠ ['-']

end Argument

/-- The command that the words after `help` ask about, if it can be shown. -/
def helpFor (words : List Text) : Interruption :=
  match words with
  | [] => .help
  | [word] => if (CommandKind.ofWord? word).isSome ∨ word = "help".toList then .help else .usage
  | _ => .usage

/-- Reads one level. Before a command, the level ends with the word for it; the words after it are
in the answer. -/
def readLevel (level : Option CommandKind) (given : Given) :
    List Text → Except Interruption (Given × Option (CommandKind × List Text))
  | [] => .ok (given, none)
  | word :: rest =>
    match Argument.ofWord level word, rest with
    | .separator, rest => do return (← given.addOperands level rest, none)
    | .setting setting (some value), rest => do
      let given ← given.addSetting setting value
      readLevel level given rest
    | .setting setting none, value :: rest =>
      if Argument.isOption value then .error .usage
      else do
        let given ← given.addSetting setting value
        readLevel level given rest
    | .setting _ none, [] => .error .usage
    | .switch switch, rest => do
      let given ← given.addSwitch switch
      readLevel level given rest
    | .letters letters, rest => do
      let given ← given.addLetters level letters
      readLevel level given rest
    | .interruption reason, _ => .error reason
    | .plain word, rest =>
      match level, CommandKind.ofWord? word with
      | none, some kind => .ok (given, some (kind, rest))
      | none, none => .error (if word = "help".toList then helpFor rest else .usage)
      | some _, _ => do
        let given ← given.addOperand level word
        readLevel level given rest
termination_by words => words.length

/-- What is to be done. -/
inductive Command where
  | generateCache
  | clearCache
  | reload
  | suggest (line : Text) (asJson : Bool)
  | stats
  | setRoot (path : Path)
deriving DecidableEq, Repr

/-- How and what the program is asked to do. -/
structure Invocation where
  root : Option Path
  cacheFile : Option Path
  settingsFile : Option Path
  strategy : Strategy
  matching : Matching
  verbose : Bool
  command : Option Command
deriving DecidableEq, Repr

/-- The command of a kind, with what is given at its level. -/
def Command.ofGiven? (given : Given) : CommandKind → Option Command
  | .generateCache => some generateCache
  | .clearCache => some clearCache
  | .reload => some reload
  | .stats => some stats
  | .suggest => given.operand.map fun line ↦ suggest line (.json ∈ given.switches)
  | .setRoot => given.operand.map fun path ↦ setRoot ⟨path⟩

namespace Invocation

/-- Whether every setting that is missing at a level may have the value that its variable holds. -/
def fitsEnvironment (environment : Environment) (given : Given) : Bool :=
  Setting.all.all fun setting ↦
    (given.settings.lookup setting).isSome ||
      match setting.variableName?.bind environment.get? with
      | some value => setting.accepts value
      | none => true

def value? (environment : Environment) (before after : Given) (setting : Setting) : Option Text :=
  (after.settings.lookup setting).or
    ((before.settings.lookup setting).or (setting.variableName?.bind environment.get?))

/-- What is given at two levels and by the environment, put together. -/
def assemble (environment : Environment) (before after : Given) (command : Option Command) :
    Invocation :=
  let path? (setting : Setting) := (value? environment before after setting).map Path.mk
  let isSet (switch : Switch) : Bool := switch ∈ before.switches ++ after.switches
  { root := path? .root
    cacheFile := path? .cacheFile
    settingsFile := path? .settingsFile
    strategy :=
      ((value? environment before after .strategy).bind fun word ↦
        Strategy.ofName? (String.ofList word)).getD .sync
    matching := if isSet .strict then .strict else .loose
    verbose := isSet .verbose
    command := command }

/-- The invocation that the words of a command line stand for. -/
def read (environment : Environment) (words : List Text) : Except Interruption Invocation := do
  let (before, rest) ← readLevel none {} words
  match rest with
  | none =>
    if fitsEnvironment environment before then return assemble environment before {} none
    else throw .usage
  | some (kind, rest) =>
    let (after, _) ← readLevel (some kind) {} rest
    match Command.ofGiven? after kind with
    | none => throw .usage
    | some command =>
      if fitsEnvironment environment before && fitsEnvironment environment after then
        return assemble environment before after (some command)
      else throw .usage

end Invocation

end DefCatalog
