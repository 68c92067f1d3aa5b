import SymbolIndex.Cli.Arguments
import SymbolIndex.Frontend.Process
import SymbolIndex.Log.Filter
import SymbolIndex.LogConfig

/-!
# The program

A run of the program from its command line to its exit status, as a function of the environment, of
the file tree, and of what the commands do that it runs.
-/

namespace SymbolIndex.Cli

structure Outcome where
  exit : UInt8
  messages : List String := []
  disk : Disk
  calls : List Call := []
deriving DecidableEq, Inhabited

def searchPath (env : Environment) : List Path :=
  (Text.cutAt ':' ((env.get? "PATH").getD "/bin:/usr/bin").toList).map (fun directory =>
    if directory = [] then ⟨"."⟩ else ⟨String.ofList directory⟩)

def logFilter (c : LogConfig) : Except FilterError LogFilter :=
  match LogFilter.parse c.filter with
  | .error .malformed => LogFilter.parse ({} : LogConfig).filter
  | result => result

def startRecords (env : Environment) (program : String) (config : Config) : List LogRecord :=
  let threads := (env.get? "CXREF_THREAD_COUNT").filter
    (fun v => (Config.parseThreadCount? v).isNone)
  threads.toList.map (fun v =>
      { level := .warn, source := .configuration
        message := "Ignoring invalid CXREF_THREAD_COUNT=" ++ Json.quote v : LogRecord })
    ++ [{ level := .info, source := .program
          message := "Using indexer " ++ program ++ ", database " ++ config.dbPath.text }]

/-- What is told once the work is done; a run that has broken down tells nothing. -/
def endRecords : Except EngineError RunSummary → List LogRecord
  | .error .tooManyWorkers => []
  | .error e => [{ level := .error, source := .program, message := e.message }]
  | .ok r =>
    if r.nothingChanged then
      [{ level := .info, source := .program, message := "Nothing has changed" }]
    else
      r.stats.toList.map (fun c =>
        { level := .info, source := .program
          message := toString c.completed ++ " indexed, " ++ toString c.failed ++ " failed, "
            ++ toString c.aborted ++ " aborted, " ++ toString c.duplicates ++ " duplicates" })

def logLines (c : LogConfig) (f : LogFilter) (rs : List LogRecord) : List String :=
  (rs.filter f.keeps).map (fun r => r.line c.jsonFormat)

def appendLog (disk : Disk) (path : Path) (lines : List String) : Disk :=
  match lines, disk.read path with
  | [], _ | _, .error _ => disk
  | lines, .ok old =>
    (disk.write path (old ++ (String.join (lines.map (· ++ "\n"))).toUTF8)).toOption.getD disk

/-- Add lines to the log of a run: to its file, unless another one has taken the place of that, or
to what is printed. -/
def showLines (c : LogConfig) (opened : Option Disk.Entry) (o : Outcome) (lines : List String) :
    Outcome :=
  match c.filePath with
  | none => { o with messages := o.messages ++ lines }
  | some path =>
    if (o.disk.stat path).toOption = opened then { o with disk := appendLog o.disk path lines }
    else o

def configuration (a : Arguments) (env : Environment) : Config :=
  (Config.ofEnvironment env).override a.overrides

def frontendProgram (a : Arguments) (env : Environment) : String :=
  (a.frontend <|> env.get? "CXREF_FRONTEND").getD "cxref-frontend"

def execute (a : Arguments) (env : Environment) (behaviour : Call → Child) (disk : Disk) :
    Except EngineError RunSummary × Site :=
  let config := configuration a env
  let program := frontendProgram a env
  let frontend : ProcessFrontend :=
    { program, staging := config.stagingPath, searchPath := searchPath env, behaviour }
  let engine : Engine :=
    { config, frontend := frontend.parse, backend := .filesystem
      scratch := ⟨(env.get? "TMPDIR").getD "/tmp"⟩ }
  let site : Site := { storage := { disk } }
  match a.command with
  | .build request => engine.build site request
  | .update pairs =>
    match Engine.readUnsaved disk pairs with
    | .error e => (.error e, site)
    | .ok unsaved => engine.update site unsaved

def exitStatus : Except EngineError RunSummary → UInt8
  | .ok r => if r.isSuccess then 0 else 1
  | .error .tooManyWorkers => 101
  | .error _ => 1

def complaints : Except EngineError RunSummary → List String
  | .ok _ => []
  | .error .tooManyWorkers => [EngineError.tooManyWorkers.message]
  | .error e => ["cxref: " ++ e.message]

def runLogged (a : Arguments) (env : Environment) (behaviour : Call → Child) (log : LogConfig)
    (filter : LogFilter) (disk : Disk) : Outcome :=
  match log.filePath.elim (.ok disk) disk.touchLog with
  | .error e => { exit := 1, messages := ["Failed to initialize logging: " ++ e.message], disk }
  | .ok disk =>
    let opened (disk : Disk) : Option Disk.Entry :=
      log.filePath.bind (fun path => (disk.stat path).toOption)
    let begun := showLines log (opened disk) { exit := 0, disk }
      (logLines log filter (startRecords env (frontendProgram a env) (configuration a env)))
    let (result, site) := execute a env behaviour begun.disk
    let ended := showLines log (opened begun.disk)
      { begun with
        exit := exitStatus result
        disk := site.storage.disk
        calls := site.calls }
      (logLines log filter (site.log ++ endRecords result))
    { ended with messages := ended.messages ++ complaints result }

/-- Run the program. A filter that would be cut inside a character breaks it down at once. -/
def run (words : List String) (env : Environment) (pid : String) (behaviour : Call → Child)
    (disk : Disk) : Outcome :=
  match Arguments.parse words with
  | .error .help => { exit := 0, disk }
  | .error .usage => { exit := 2, disk }
  | .ok a =>
    let log := (LogConfig.ofEnvironment env pid).override a.logLevel a.logFile a.logJson
    match logFilter log with
    | .error e => { exit := 101, messages := [e.message], disk }
    | .ok filter => runLogged a env behaviour log filter disk

end SymbolIndex.Cli
