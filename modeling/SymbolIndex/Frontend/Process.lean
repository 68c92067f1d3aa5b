import SymbolIndex.Frontend.Basic
import SymbolIndex.Json.Reader
import SymbolIndex.Text.Blank

/-!
# Front ends that are commands

Each unit is parsed by a command of its own. It is told where to put the unit, which buffers stand
for files, the flags and the input; it answers with one event a line, and with its exit status. What
commands do is a parameter here: a function from calls to what the command then does.
-/

namespace SymbolIndex

/-! ## Commands -/

inductive ExitStatus where
  | code (value : UInt8)
  | signal (number : Nat)
deriving DecidableEq, Inhabited

namespace ExitStatus

def signalNames : List String :=
  ["SIGHUP", "SIGINT", "SIGQUIT", "SIGILL", "SIGTRAP", "SIGABRT", "SIGBUS", "SIGFPE", "SIGKILL",
    "SIGUSR1", "SIGSEGV", "SIGUSR2", "SIGPIPE", "SIGALRM", "SIGTERM", "SIGSTKFLT", "SIGCHLD",
    "SIGCONT", "SIGSTOP", "SIGTSTP", "SIGTTIN", "SIGTTOU", "SIGURG", "SIGXCPU", "SIGXFSZ",
    "SIGVTALRM", "SIGPROF", "SIGWINCH", "SIGIO", "SIGPWR", "SIGSYS"]

def text : ExitStatus → String
  | .code value => "exit status: " ++ toString value.toNat
  | .signal number =>
    "signal: " ++ toString number ++
      (match number with
        | 0 => ""
        | n + 1 => match signalNames[n]? with
          | some name => " (" ++ name ++ ")"
          | none => "")

def isSuccess (s : ExitStatus) : Bool := s = .code 0

def unnoticed : List Nat := [0, 17, 18, 23, 28]

def afterSignal (signal : Option Nat) (exit : UInt8) : ExitStatus :=
  match signal.filter (fun n => !unnoticed.contains n) with
  | some n => .signal n
  | none => .code exit

end ExitStatus

structure Child where
  stdout : ByteArray := .empty
  stderr : ByteArray := .empty
  artifact : Option ByteArray := none
  removesArtifact : Bool := false
  status : ExitStatus := .code 0
deriving DecidableEq, Inhabited

namespace Child

/-- Read what a command does from an object; what is not said is left at its default. -/
def ofJson (j : Json) : Child :=
  let bytes (name : String) : Option ByteArray := (j.field? name).bind Json.bytes?
  let signal := (j.field? "signal").bind (fun n => n.natBelow? UInt64.size)
  let exit := match j.field? "exit" with
    | some (.int i) => UInt8.ofNat (i % 256).toNat
    | _ => 0
  { stdout := (bytes "stdout").getD .empty
    stderr := (bytes "stderr").getD .empty
    artifact := bytes "artifact"
    removesArtifact := j.field? "remove_artifact" == some (.bool true)
    status := .afterSignal signal exit }

def act (c : Child) (disk : Disk) (artifact : Path) : Disk :=
  if c.removesArtifact then disk.removeTree artifact
  else match c.artifact with
    | some content => (disk.write artifact content).toOption.getD disk
    | none => disk

/-- Bytes cut after each newline; what follows the last one counts when it is not empty. -/
def byteLines : List UInt8 → List (List UInt8)
  | [] => []
  | b :: rest =>
    if b = 10 then [] :: byteLines rest
    else match byteLines rest with
      | [] => [[b]]
      | line :: lines => (b :: line) :: lines

def textsOf : List (List UInt8) → List String × Option DiskError
  | [] => ([], none)
  | line :: rest =>
    match String.fromUTF8? ⟨line.toArray⟩ with
    | none => ([], some .notText)
    | some s =>
      let (texts, error) := textsOf rest
      (s :: texts, error)

def reports (c : Child) : List String × Option DiskError :=
  let (texts, error) := textsOf (byteLines c.stdout.toList)
  (texts.filter (fun s => !Text.isBlankText s), error)

def eventOf? (line : String) : Option Event := (Json.parse? line).bind Event.decode?

def events (c : Child) : List Event := c.reports.1.filterMap eventOf?

def complaints (c : Child) : List String :=
  ((String.fromUTF8? c.stderr).map Text.lines).getD []

def reason (c : Child) : String :=
  match c.complaints.getLast? with
  | some line => line
  | none => "exited with " ++ c.status.text

def records (c : Child) (input : Path) : List LogRecord :=
  let malformed := c.reports.1.filter (fun line => (eventOf? line).isNone)
  malformed.map (fun line =>
      { level := .warn, source := .process
        message := "Skipping malformed frontend event: " ++ line })
    ++ match c.reports.2 with
      | some e =>
        [{ level := .warn, source := .process
           message := "Lost frontend output for " ++ input.text ++ ": " ++ e.message }]
      | none =>
        c.complaints.map (fun line => { level := .trace, source := .complaint, message := line })
          ++ if c.status.isSuccess && !malformed.isEmpty then
              [{ level := .debug, source := .process
                 message := "Frontend for " ++ input.text ++ " emitted malformed events" }]
            else []

end Child

/-! ## Running commands -/

structure ProcessFrontend where
  program : String
  leadingArguments : List String := []
  staging : Path
  searchPath : List Path := []
  behaviour : Call → Child

namespace ProcessFrontend

/-- Look for a program in directories. One that is missing is passed over, and so is one that cannot
be run, but that is told of when there is no other. Any other error ends the search. -/
def search (disk : Disk) (name : String) (error : DiskError) :
    List Path → Except DiskError Unit
  | [] => .error error
  | directory :: rest =>
    match disk.checkExecutable (directory.child name) with
    | .ok () => .ok ()
    | .error .permissionDenied => search disk name .permissionDenied rest
    | .error .notFound | .error .notDirectory => search disk name error rest
    | .error e => .error e

def launch (p : ProcessFrontend) (disk : Disk) (directory : Path) (arguments : List String) :
    Except DiskError Path := do
  if (p.program :: directory.text :: arguments).any (fun s => s.toList.contains '\x00') then
    .error .nulInCommand
  else
    let spot ← disk.resolve true directory
    match disk.entryAt? spot with
    | some .directory =>
      let here : Path := ⟨"/" ++ String.intercalate "/" spot⟩
      let inside := { disk with workingDirectory := here }
      if p.program.toList.contains '/' then inside.checkExecutable ⟨p.program⟩
      else if p.program = "" then .error .notFound
      else if p.program.utf8ByteSize > Disk.maxName then .error .nameTooLong
      else search inside p.program .notFound p.searchPath
      return here
    | _ => .error .notDirectory

def writeBuffers (directory : Path) (disk : Disk) (arguments : List String) (n : Nat) :
    List (Path × ByteArray) → Except DiskError (List String × Disk)
  | [] => .ok (arguments, disk)
  | (path, content) :: rest => do
    let buffer := directory.child ("buffer-" ++ toString n)
    let disk ← disk.write buffer content
    writeBuffers directory disk
      (arguments ++ ["--unsaved", path.text ++ "=" ++ buffer.text]) (n + 1) rest

/-- Put buffers on the disk, when there are any: the directory they are in, and arguments that name
them. -/
def stageUnsaved (p : ProcessFrontend) (disk : Disk) (unsaved : UnsavedFiles) :
    Except DiskError (Option Path × List String × Disk) :=
  if unsaved.isEmpty then .ok (none, [], disk)
  else do
    let (directory, disk) ← disk.createTemporaryDirectory p.staging "cxref-unsaved-"
    let (arguments, disk) ← writeBuffers directory disk [] 0 unsaved.toList
    return (some directory, arguments, disk)

def execute (p : ProcessFrontend) (disk : Disk) (request : ParseRequest) (artifact : Path)
    (buffers : Option Path) (bufferArguments : List String) : ParseRun :=
  let input := request.invocation.input
  let tidy (d : Disk) : Disk := buffers.elim d d.removeTree
  let before := p.leadingArguments ++ ["--emit-unit", artifact.text]
  let after := "--" :: request.arguments ++ [input.text]
  let spawning : LogRecord :=
    { level := .debug, source := .process, message := "Spawning frontend"
      fields := [("program", p.program), ("input", input.text)] }
  match p.launch disk request.invocation.directory (before ++ bufferArguments ++ after) with
  | .error e =>
    { disk := (tidy disk).removeTree artifact
      ending := .failed (.process (p.program ++ ": " ++ e.message))
      log := [spawning] }
  | .ok directory =>
    let call : Call := { before, after, unsaved := request.unsaved, directory }
    let child := p.behaviour call
    let disk := tidy (child.act disk artifact)
    let ended (disk : Disk) (ending : ParseEnd) : ParseRun :=
      { disk, events := child.events, ending, call := some call
        log := spawning :: child.records input }
    match child.reports.2 with
    | some e => ended (disk.removeTree artifact) (.failed (.io e))
    | none =>
      if child.status.isSuccess then ended disk (.parsed (.staged artifact))
      else ended (disk.removeTree artifact) (.failed (.parseFailed input child.reason))

def parse (p : ProcessFrontend) (disk : Disk) (request : ParseRequest) : ParseRun :=
  match disk.createDirectories p.staging with
  | .error e => { disk := disk.tryDirectories p.staging, ending := .failed (.io e) }
  | .ok disk =>
    match disk.createTemporary p.staging "cxref-unit-" "" with
    | .error e => { disk, ending := .failed (.io e) }
    | .ok (artifact, disk) =>
      match p.stageUnsaved disk request.unsaved with
      | .error e => { disk := disk.removeTree artifact, ending := .failed (.io e) }
      | .ok (buffers, bufferArguments, disk) =>
        p.execute disk request artifact buffers bufferArguments

end ProcessFrontend

end SymbolIndex
