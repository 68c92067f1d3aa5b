import SymbolIndex.Scheduler.Basic

/-!
# Steps of a run

What each task does next. A step is one action that no other task can interrupt; it also tells
which tasks it has woken. A task that is asleep has no step, and neither has one whose front end is
held up.
-/

namespace SymbolIndex.Scheduler

abbrev Moved := Scheduler × List Nat

def releasePermit (s : Scheduler) : Moved :=
  match s.line with
  | [] => ({ s with permits := s.permits + 1 }, [])
  | n :: rest => ({ s with line := rest }.setPhase n .granted, [n])

def sleepers (s : Scheduler) (ticket : Nat) : List Nat :=
  (List.range s.tasks.length).filter (fun n =>
    match s.tasks[n]? with
    | some t =>
      match t.phase with
      | .awaiting k _ => k = ticket
      | .expecting k _ => k = ticket
      | _ => false
    | none => false)

def askPermit (s : Scheduler) (n : Nat) : Scheduler :=
  match s.permits with
  | 0 => { s with line := s.line ++ [n] }.setPhase n .inLine
  | free + 1 => { s with permits := free }.setPhase n .granted

def startLocal? (s : Scheduler) (id : JobId) (attempt : UInt32) :
    Option (Invocation × Scheduler) :=
  match s.jobs.get? id with
  | none => none
  | some job =>
    if job.attempts = attempt ∧ (job.state = .queued ∨ job.state = .rescheduled) then
      match job.transition .runningLocal with
      | .ok job => some (job.invocation, { s with jobs := s.jobs.insert id job })
      | .error _ => none
    else none

/-! ## Parsing -/

structure PchUse where
  arguments : List String := []
  originHeaders : List Path := []
  fromUnsaved : Bool := false
  log : List LogRecord := []

def goneRecord (key : String) (entry : PchEntry) : LogRecord :=
  { level := .warn, source := .header
    message := "Dropping precompiled header " ++ key ++ ": " ++ entry.artifactPath.text
      ++ " is gone" }

def useHeader (disk : Disk) (acc : PchUse × PchTable) (key : String) : PchUse × PchTable :=
  let (use, table) := acc
  match table.lookupForInclude disk key with
  | (none, rest) =>
    let gone := (table.toMap.get? key).toList.map (goneRecord key)
    ({ use with log := use.log ++ gone }, rest)
  | (some entry, table) =>
    ({ use with
       arguments := use.arguments ++ ["-include-pch", entry.artifactPath.text]
       originHeaders := use.originHeaders ++ [entry.originHeader]
       fromUnsaved := use.fromUnsaved || table.isFromUnsaved key }, table)

def preparePchUse (setup : RunSetup) (s : Scheduler) (i : Invocation) : PchUse × Scheduler :=
  if setup.config.flags.disablePch then ({}, s)
  else
    let (use, table) := i.includedHeaderKeys.foldl (useHeader s.world.disk) ({}, s.state.pch)
    (use, { s.mapPch (fun _ => table) with log := s.log ++ use.log })

/-- Begin to parse a unit: the request that goes to the front end, and the unit before its first
event, which depends on the headers it uses. -/
def beginParse (setup : RunSetup) (s : Scheduler) (i : Invocation) :
    ParseRequest × UnitIndexer × Scheduler :=
  let (use, s) := preparePchUse setup s i
  let request : ParseRequest :=
    { invocation := i
      arguments := setup.config.frontendArguments i ++ use.arguments
      unsaved := setup.unsaved }
  let fresh := UnitIndexer.start
    { input := i.input
      unsavedPaths := SortedSet.ofList setup.unsaved.keys
      systemIncludes := setup.config.systemIncludes
      flags := setup.config.flags }
  let indexer :=
    if use.fromUnsaved then fresh.markUnsaved
    else use.originHeaders.foldl (UnitIndexer.addDependency s.world.lastModified) fresh
  (request, indexer,
    if setup.config.flags.dontIndex then s else { s with requests := s.requests ++ [request] })

/-- The record of a unit that was parsed; the time of its input is looked up now. -/
def sourceOf (s : Scheduler) (i : Invocation) (c : Contribution) : Source :=
  { invocation := i
    lastModified := s.world.lastModified i.input
    dependencies := c.dependencies
    fromUnsavedFile := c.fromUnsaved }

def noteParsed (s : Scheduler) (i : Invocation) (indexer : UnitIndexer) : Scheduler :=
  s.note .debug .scheduler "Parsed unit"
    [("input", i.input.text), ("errors", toString indexer.errorCount),
      ("dependencies", toString indexer.contribution.dependencies.size), ("elapsed_ms", "0")]

/-- Save a unit under a name of its own in the staging directory; nothing is left behind when that
fails. -/
def stageArtifact (setup : RunSetup) (disk : Disk) (image : UnitImage) :
    Disk × Except FrontendError Path :=
  let staging := setup.config.stagingPath
  match disk.createDirectories staging with
  | .error e => (disk.tryDirectories staging, .error (.io e))
  | .ok disk =>
    match disk.createTemporary staging "cxref-pch-" ".pch" with
    | .error e => (disk, .error (.io e))
    | .ok (target, disk) =>
      match image.save disk target with
      | .ok disk => (disk, .ok target)
      | .error e => ((disk.removeFile target).toOption.getD disk, .error e)

def unparsed (s : Scheduler) (errand : Errand) (i : Invocation) (indexer : UnitIndexer) :
    Except FrontendError ParsedUnit :=
  match errand with
  | .header _ _ => .error (.saveFailed i.input "no translation unit")
  | _ =>
    .ok { contribution := indexer.contribution, source := s.sourceOf i indexer.contribution }

/-- Let the front end work, take in its events, and save a header. -/
def runFrontend (setup : RunSetup) (s : Scheduler) (errand : Errand) (request : ParseRequest)
    (indexer : UnitIndexer) : Scheduler × Except FrontendError ParsedUnit :=
  let i := request.invocation
  let run := setup.frontend s.world.disk request
  let s := { s.mapDisk (fun _ => run.disk) with calls := s.calls ++ run.call.toList }
  let (indexer, overflow) := indexer.handleAll s.world.lastModified run.events
  let s := { s with
    errors := s.errors ++ indexer.errors
    log := s.log ++ run.log ++ indexer.log }
  let crashed : FrontendError := .process "parse task failed: the parse was cut short"
  match overflow, run.ending with
  | some _, .parsed image => (s.mapDisk image.discard, .error crashed)
  | some _, _ => (s, .error crashed)
  | none, .crashed => (s, .error crashed)
  | none, .failed e => (s, .error e)
  | none, .parsed image =>
    let s := s.noteParsed i indexer
    let unit : ParsedUnit :=
      { contribution := indexer.contribution, source := s.sourceOf i indexer.contribution }
    match errand with
    | .header _ _ =>
      let (disk, saved) := stageArtifact setup s.world.disk image
      let s := s.mapDisk (fun _ => image.discard disk)
      match saved with
      | .ok artifact => (s, .ok { unit with artifact := some artifact })
      | .error e => (s, .error e)
    | _ => (s.mapDisk image.discard, .ok unit)

/-! ## Closing -/

def noteReplaced (s : Scheduler) (source : Source) : Scheduler :=
  if s.state.sources.any (fun old => old.invocation.signature.same source.invocation.signature) then
    s.note .debug .state ("Replacing source for " ++ source.input.text)
  else s

/-- Integrate a unit into the state and mark its job complete. A unit that the file table has no
room for is lost together with its job. -/
def integrateUnit (s : Scheduler) (id : JobId) (unit : ParsedUnit) : Option Scheduler :=
  match s.state.integrate unit.contribution unit.source with
  | .error _ => none
  | .ok (visited, state) =>
    some ({ s.noteReplaced unit.source with state }.updateJob id
      (fun j => { j with visited }.advance .completeLocal)).countCompleted

def noteDiscarded (s : Scheduler) (job : Job) : Scheduler :=
  s.note .debug .scheduler ("Discarding results of aborted " ++ job.text)

def closeUnit (s : Scheduler) (n : Nat) (job : Job) (outcome : Except FrontendError ParsedUnit) :
    Scheduler :=
  if job.state = .aborted then (s.noteDiscarded job).finish n none
  else match outcome with
    | .ok unit =>
      match s.integrateUnit job.id unit with
      | some s => s.setPhase n .retiring
      | none => s.finish n none
    | .error e =>
      let s := s.note .error .scheduler
        ("Failed to index " ++ job.sourceFile.text ++ ": " ++ e.message)
      ((s.updateJob job.id (·.advance .crashed)).countFailed).setPhase n .retiring

def releaseReservation (s : Scheduler) (r : Pch.Reservation) : Moved :=
  (s.mapPch (·.release r), s.sleepers r.ticket)

/-- A header is ready: integrate it and hand it to those who wait, unless its job was aborted. One
that the file table has no room for is lost together with its job, and its reservation is thrown
away. -/
def closeHeader (s : Scheduler) (n : Nat) (job : Job) (r : Pch.Reservation)
    (outcome : Except FrontendError ParsedUnit) : Moved :=
  let refused : TaskAnswer := .refused (.pchUnavailable r.key)
  if job.state = .aborted then
    let s := match outcome with
      | .ok { artifact := some a, .. } => s.mapDisk (fun d => (d.removeFile a).toOption.getD d)
      | _ => s
    let (s, woken) := s.releaseReservation r
    ((s.noteDiscarded job).finish n (some refused), woken)
  else match outcome with
    | .ok unit =>
      let entry : PchEntry :=
        { artifactPath := unit.artifact.getD ⟨""⟩, originHeader := job.invocation.input }
      match s.integrateUnit job.id unit with
      | some s =>
        let s := (s.mapPch (·.complete r entry unit.contribution.fromUnsaved)).note .debug
          .scheduler ("Precompiled " ++ job.invocation.input.text ++ " into "
            ++ entry.artifactPath.text)
        ({ s with tasks := s.tasks.modify n (fun t =>
            { t with phase := .retiring, answer := some (.entry entry) }) },
          s.sleepers r.ticket)
      | none => ((s.mapPch (·.abandon r)).finish n none, s.sleepers r.ticket)
    | .error e =>
      let (s, woken) := (s.note .error .scheduler
        ("Failed to precompile " ++ job.invocation.input.text ++ ": " ++ e.message)
        ).releaseReservation r
      let s := (s.updateJob job.id (·.advance .crashed)).countFailed
      ({ s with tasks := s.tasks.modify n (fun t =>
          { t with phase := .retiring, answer := some refused }) }, woken)

def closeRemote (s : Scheduler) (n : Nat) (job : Job) (i : Invocation)
    (outcome : Except FrontendError ParsedUnit) : Scheduler :=
  if job.state = .aborted then s.finish n (some (.refused (.aborted job.id)))
  else match outcome with
    | .ok unit =>
      (s.updateJob job.id (·.advance .completeLocal)).finish n
        (some (.unit { invocation := i, contribution := unit.contribution, source := unit.source }))
    | .error e =>
      (s.updateJob job.id (·.advance .crashed)).finish n
        (some (.refused (.failed job.id e.message)))

/-! ## One step -/

def noteReserved (s : Scheduler) (key : String) : Scheduler :=
  s.note .debug .header ("Reserved precompiled header slot " ++ key)

def begin (setup : RunSetup) (s : Scheduler) (n : Nat) : Errand → Scheduler
  | .unit id _ | .remote id =>
    match s.jobs.get? id with
    | none => s.finish n (some (.refused (.unknownJob id)))
    | some job =>
      s.setPhase n (.seeking
        (if setup.config.flags.disablePch then [] else job.invocation.includedHeaderKeys))
  | .header _ _ => s.setPhase n .asking
  | .request i =>
    match i.headerKey? with
    | none => s.finish n (some (.refused (.notPrecompilable i.input)))
    | some key =>
      match s.state.pch.reserve key with
      | (.ready entry, _) => s.finish n (some (.entry entry))
      | (.wait ticket, _) => s.setPhase n (.expecting ticket key)
      | (.reserved r, table) =>
        let s := (s.noteReserved key).mapPch (fun _ => table)
        let s := s.mapCompletion Completion.countJob
        let (id, s) := s.createJob .pch i false
        s.setTask n { errand := .header id r, phase := .asking }

/-- A task that got its permit starts its job, or returns the permit when the job is not to be run
by it. -/
def launch (setup : RunSetup) (s : Scheduler) (n : Nat) (errand : Errand) : Moved :=
  let started := match errand with
    | .unit id attempt => s.startLocal? id attempt
    | .header id _ | .remote id => s.startLocal? id 0
    | .request _ => none
  match started with
  | some (i, s) =>
    let (request, indexer, s) := beginParse setup s i
    if setup.config.flags.dontIndex then
      ((s.noteParsed i indexer).setPhase n (.parsed i (s.unparsed errand i indexer)), [])
    else (s.setPhase n (.parsing request indexer), [])
  | none =>
    let s := s.note .trace .scheduler "Not running a job locally"
    let (s, woken) := match errand with
      | .header _ r =>
        let (s, woken) := s.releaseReservation r
        (s.finish n (some (.refused (.pchUnavailable r.key))), woken)
      | .remote id => (s.finish n (some (.refused (.aborted id))), [])
      | _ => (s.finish n none, [])
    let (s, next) := s.releasePermit
    (s, woken ++ next)

def close (s : Scheduler) (n : Nat) (errand : Errand) (i : Invocation)
    (outcome : Except FrontendError ParsedUnit) : Moved :=
  match errand with
  | .unit id _ =>
    match s.jobs.get? id with
    | some job => (s.closeUnit n job outcome, [])
    | none => (s.finish n none, [])
  | .header id r =>
    match s.jobs.get? id with
    | some job => s.closeHeader n job r outcome
    | none => (s.finish n none, [])
  | .remote id =>
    match s.jobs.get? id with
    | some job => (s.closeRemote n job i outcome, [])
    | none => (s.finish n none, [])
  | .request _ => (s.finish n none, [])

/-- The next step of a task; none when it sleeps, when its front end still works, or when it has
ended. -/
def step? (setup : RunSetup) (s : Scheduler) (n : Nat) : Option Moved :=
  match s.tasks[n]? with
  | none => none
  | some t =>
    match t.phase with
    | .fresh => some (s.begin setup n t.errand, [])
    | .seeking [] => some (s.setPhase n .asking, [])
    | .seeking (key :: keys) =>
      match s.state.pch.inFlight? key with
      | none => some (s.setPhase n (.seeking keys), [])
      | some ticket =>
        some ((s.note .trace .scheduler ("A unit waits for precompiled header " ++ key)).setPhase n
          (.awaiting ticket keys), [])
    | .awaiting ticket keys =>
      if s.state.pch.settled ticket then some (s.setPhase n (.seeking keys), []) else none
    | .expecting ticket key =>
      if s.state.pch.settled ticket then
        some (s.finish n (some (match s.state.pch.outcome? ticket with
          | some entry => .entry entry
          | none => .refused (.pchUnavailable key))), [])
      else none
    | .asking => some (s.askPermit n, [])
    | .inLine => none
    | .granted => some (s.launch setup n t.errand)
    | .parsing _ _ => none
    | .parsed i outcome =>
      let (s, woken) := s.releasePermit
      some (s.setPhase n (.closing i outcome), woken)
    | .closing i outcome => some (s.close n t.errand i outcome)
    | .retiring =>
      let (last, completion) := s.completion.releaseJob
      some ({ s with completion }.setPhase n (if last then .checking else .finished), [])
    | .checking =>
      some ((s.mapCompletion Completion.checkIntrospections).setPhase n .finished, [])
    | .finished => none

def endParse? (setup : RunSetup) (s : Scheduler) (n : Nat) : Option Scheduler :=
  match s.tasks[n]? with
  | none => none
  | some t =>
    match t.phase with
    | .parsing request indexer =>
      if s.gates.contains request.invocation.input then none
      else
        let (s, outcome) := s.runFrontend setup t.errand request indexer
        some (s.setPhase n (.parsed request.invocation outcome))
    | _ => none

end SymbolIndex.Scheduler
