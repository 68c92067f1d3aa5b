import SymbolIndex.Engine

/-!
# Command lines

The words of a command line are read in two levels: what stands before the name of a command, and
what follows it. Most options are global and may stand at either level; what follows the command
then counts.
-/

namespace SymbolIndex.Cli

inductive Setting where
  | db
  | jobs
  | frontend
  | define
  | includePath
  | systemInclude
  | verbose
  | disablePch
  | dontIndex
  | systemHeaderDependencies
  | debugAllSymbols
  | logLevel
  | logFile
  | logJson
  | compileCommands
  | sourceDir
  | unsaved
  | help
  | version
deriving DecidableEq, Inhabited

inductive ValueKind where
  | none
  | text
  | path
  | count
  | pair
deriving DecidableEq, Inhabited

inductive Level where
  | top
  | build
  | update
deriving DecidableEq, Inhabited

structure OptionSpec where
  setting : Setting
  short : Option Char := none
  long : Option String := none
  value : ValueKind := .none
  repeatable : Bool := false
  level : Option Level := none
deriving DecidableEq, Inhabited

def options : List OptionSpec :=
  [{ setting := .db, long := some "db", value := .path },
   { setting := .jobs, short := some 'j', long := some "jobs", value := .count },
   { setting := .frontend, long := some "frontend", value := .text },
   { setting := .define, short := some 'D', value := .text, repeatable := true },
   { setting := .includePath, short := some 'I', value := .path, repeatable := true },
   { setting := .systemInclude, long := some "isystem", value := .path, repeatable := true },
   { setting := .verbose, short := some 'v', long := some "verbose" },
   { setting := .disablePch, long := some "disable-pch" },
   { setting := .dontIndex, long := some "dont-index" },
   { setting := .systemHeaderDependencies, long := some "system-header-dependencies" },
   { setting := .debugAllSymbols, long := some "debug-all-symbols" },
   { setting := .logLevel, long := some "log-level", value := .text },
   { setting := .logFile, long := some "log-file", value := .path },
   { setting := .logJson, long := some "log-json" },
   { setting := .compileCommands, short := some 'c', long := some "compile-commands", value := .path
     repeatable := true, level := some .build },
   { setting := .sourceDir, long := some "source-dir", value := .path, level := some .build },
   { setting := .unsaved, long := some "unsaved", value := .pair, repeatable := true
     level := some .update },
   { setting := .help, short := some 'h', long := some "help" },
   { setting := .version, short := some 'V', long := some "version", level := some .top }]

inductive Halt where
  | usage
  | help
deriving DecidableEq, Inhabited

structure Found where
  settings : List (Setting × String) := []
  words : List String := []
deriving DecidableEq, Inhabited

namespace Found

def has (f : Found) (s : Setting) : Bool := f.settings.any (fun e => e.1 = s)

def values (f : Found) (s : Setting) : List String :=
  (f.settings.filter (fun e => e.1 = s)).map Prod.snd

end Found

/-! ## Values -/

def pair? (value : String) : Option (Path × Path) :=
  match value.toList.span (· ≠ '=') with
  | (path, '=' :: contents) =>
    if path = [] ∨ contents = [] then none
    else some (⟨String.ofList path⟩, ⟨String.ofList contents⟩)
  | _ => none

def ValueKind.accepts (k : ValueKind) (value : String) : Bool :=
  match k with
  | .none => false
  | .text => true
  | .path => value ≠ ""
  | .count => (Text.count? value).isSome
  | .pair => (pair? value).isSome

def Found.take (f : Found) (o : OptionSpec) (value : String) : Except Halt Found :=
  if f.has o.setting && !o.repeatable then .error .usage
  else if o.value = .none ∨ o.value.accepts value then
    .ok { f with settings := f.settings ++ [(o.setting, value)] }
  else .error .usage

def Found.takeSwitch (f : Found) (o : OptionSpec) : Except Halt Found :=
  if o.setting = .help ∨ o.setting = .version then .error .help else f.take o ""

def Found.takeSource (f : Found) (word : String) : Except Halt Found :=
  if word = "" then .error .usage else .ok { f with words := f.words ++ [word] }

/-! ## Words -/

def find? (level : Level) (p : OptionSpec → Bool) : Option OptionSpec :=
  options.find? (fun o => (o.level = none ∨ o.level = some level) && p o)

def looksLikeOption (word : String) : Bool :=
  match word.toList with
  | ['-'] => false
  | '-' :: _ => true
  | _ => false

inductive Step where
  | done (found : Found)
  | needsValue (found : Found) (option : OptionSpec)

def readLong (level : Level) (f : Found) (cs : List Char) : Except Halt Step := do
  let (name, rest) := cs.span (· ≠ '=')
  match find? level (fun o => o.long = some (String.ofList name)) with
  | none => .error .usage
  | some o =>
    match rest, o.value with
    | _ :: _, .none => .error .usage
    | [], .none => return .done (← f.takeSwitch o)
    | '=' :: value, _ => return .done (← f.take o (String.ofList value))
    | _, _ => return .needsValue f o

def readShorts (level : Level) (f : Found) : List Char → Except Halt Step
  | [] => .ok (.done f)
  | c :: cs =>
    match find? level (fun o => o.short = some c) with
    | none => .error .usage
    | some o =>
      if o.value = .none then do
        readShorts level (← f.takeSwitch o) cs
      else
        match cs with
        | [] => .ok (.needsValue f o)
        | '=' :: value => (f.take o (String.ofList value)).map .done
        | value => (f.take o (String.ofList value)).map .done

def readOption (level : Level) (f : Found) (word : String) : Except Halt Step :=
  match word.toList with
  | '-' :: '-' :: cs => readLong level f cs
  | '-' :: cs => readShorts level f cs
  | _ => .error .usage

structure Rest where
  found : Found
  /-- An option whose value stands right before the command: it is taken when the words of the
  command have been read. -/
  late : Option (OptionSpec × String) := none
  command : Option (String × List String) := none

def Rest.complete (r : Rest) : Except Halt Found :=
  match r.late with
  | none => .ok r.found
  | some (o, value) => r.found.take o value

def commandAt (level : Level) : List String → Option (String × List String)
  | name :: rest => if level = .top ∧ !looksLikeOption name then some (name, rest) else none
  | [] => none

def readLevel (level : Level) (f : Found) : List String → Except Halt Rest
  | [] => .ok { found := f }
  | word :: rest =>
    if word = "--" then
      match level with
      | .top => .error .usage
      | .build => do return { found := ← rest.foldlM Found.takeSource f }
      | .update => if rest = [] then .ok { found := f } else .error .usage
    else if looksLikeOption word then
      match readOption level f word with
      | .error halt => .error halt
      | .ok (.done f) => readLevel level f rest
      | .ok (.needsValue f o) =>
        match rest with
        | [] => .error .usage
        | value :: rest =>
          if looksLikeOption value then .error .usage
          else match commandAt level rest, f.take o value with
            | some command, _ => .ok { found := f, late := some (o, value), command }
            | none, .error halt => .error halt
            | none, .ok f => readLevel level f rest
    else
      match level with
      | .top => .ok { found := f, command := some (word, rest) }
      | .build =>
        match f.takeSource word with
        | .error halt => .error halt
        | .ok f => readLevel level f rest
      | .update => .error .usage

/-! ## Whole command lines -/

inductive Command where
  | build (request : BuildRequest)
  | update (unsaved : List (Path × Path))
deriving DecidableEq, Inhabited

structure Arguments where
  command : Command
  overrides : ConfigOverrides := {}
  frontend : Option String := none
  logLevel : Option String := none
  logFile : Option Path := none
  logJson : Bool := false
deriving DecidableEq, Inhabited

/-- Join the levels of a command line: an option that follows the command hides the same option
before it. -/
def Found.under (inner outer : Found) : Found :=
  { inner with settings := outer.settings.filter (fun e => !inner.has e.1) ++ inner.settings }

def Found.arguments (f : Found) (command : Command) : Arguments :=
  let first (s : Setting) : Option String := (f.values s).head?
  { command
    overrides :=
      { dbPath := (first .db).map Path.mk
        concurrency := (first .jobs).bind Text.count?
        flags :=
          { verbose := f.has .verbose
            disablePch := f.has .disablePch
            dontIndex := f.has .dontIndex
            systemHeaderDependencies := f.has .systemHeaderDependencies
            debugAllSymbols := f.has .debugAllSymbols }
        extraDefines := f.values .define
        includePaths := (f.values .includePath).map Path.mk
        systemIncludes := (f.values .systemInclude).map Path.mk }
    frontend := first .frontend
    logLevel := first .logLevel
    logFile := (first .logFile).map Path.mk
    logJson := f.has .logJson }

def isHelpTopic : List String → Bool
  | [] => true
  | [name] => name = "build" ∨ name = "update" ∨ name = "help"
  | _ => false

def Arguments.parse (words : List String) : Except Halt Arguments := do
  let top ← readLevel .top {} words
  match top.command with
  | some ("build", rest) =>
    let f ← (← readLevel .build {} rest).complete
    return (f.under (← top.complete)).arguments (.build
      { compileCommands := (f.values .compileCommands).map Path.mk
        sources := f.words.map Path.mk
        sourceDir := (f.values .sourceDir).head?.map Path.mk })
  | some ("update", rest) =>
    let f ← (← readLevel .update {} rest).complete
    return (f.under (← top.complete)).arguments (.update ((f.values .unsaved).filterMap pair?))
  | some ("help", topic) => .error (if isHelpTopic topic then .help else .usage)
  | _ => .error .usage

end SymbolIndex.Cli
