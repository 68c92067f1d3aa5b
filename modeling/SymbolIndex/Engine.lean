import SymbolIndex.Database
import SymbolIndex.Plan
import SymbolIndex.Scheduler.Schedule

/-!
# Building and updating a database

A build parses every unit from scratch and writes a new database. An update loads a database, finds
the units that have become stale, forgets what they contributed, and parses only those. In both
cases the run has come to its end before its result is written.
-/

namespace SymbolIndex

inductive EngineError where
  | nothingToDo
  | project (error : ProjectError)
  | database (error : DatabaseError)
  | incomplete (error : LatchError)
  | io (error : DiskError)
  /-- The run breaks down because its workers cannot be counted. -/
  | tooManyWorkers
deriving DecidableEq, Inhabited

namespace EngineError

def kind : EngineError → String
  | .nothingToDo => "NothingToDo"
  | .project error => error.kind
  | .database error => error.kind
  | .incomplete error => error.kind
  | .io _ => "Io"
  | .tooManyWorkers => "Panic"

def message : EngineError → String
  | .nothingToDo => "Nothing to do: no compile commands or source files given"
  | .project error => "Project error: " ++ error.message
  | .database error => "Database error: " ++ error.message
  | .incomplete error => "Run did not complete: " ++ error.message
  | .io error => "IO error: " ++ error.message
  | .tooManyWorkers =>
    "a semaphore may not have more than MAX_PERMITS permits (" ++ toString RunSetup.maxPermits
      ++ ")"

end EngineError

structure BuildRequest where
  compileCommands : List Path := []
  sources : List Path := []
  invocations : List Invocation := []
  /-- The directory whose files are listed, by default the working directory. -/
  sourceDir : Option Path := none
deriving DecidableEq, Inhabited

structure RunSummary where
  submitted : Nat := 0
  stats : Option Counters := none
  reconcile : ReconcileReport := {}
  relocation : Pch.RelocationReport := {}
  errorDiagnostics : Nat := 0
  errorLog : Option Path := none
  nothingChanged : Bool := false
deriving DecidableEq, Inhabited

def RunSummary.isSuccess (r : RunSummary) : Bool := r.stats.all (fun c => c.failed = 0)

def RunSummary.encode (r : RunSummary) (log : Option ByteArray) : Json :=
  .obj [("success", .bool r.isSuccess), ("submitted", .ofNat r.submitted),
    ("nothing_changed", .bool r.nothingChanged),
    ("stats", .ofOption (fun c => .ofList .ofNat c.toList) r.stats),
    ("reconcile", r.reconcile.encode), ("relocation", r.relocation.encode),
    ("error_diagnostics", .ofNat r.errorDiagnostics), ("error_log", .ofOption .ofBytes log)]

structure Engine where
  config : Config
  frontend : Frontend
  backend : Backend
  scratch : Path := ⟨"/tmp"⟩
  /-- How the tasks of a run and the submission of its units take turns. -/
  schedule : Schedule := {}

/-- Where an engine works: stores, the times of source files, what was asked of the front end, and
what is told of the work. -/
structure Site where
  storage : Storage := {}
  stamps : Option (SortedMap Path Stamp) := none
  requests : List ParseRequest := []
  calls : List Call := []
  log : List LogRecord := []
deriving DecidableEq, Inhabited

namespace Site

def noteAll (site : Site) (records : List LogRecord) : Site :=
  { site with log := site.log ++ records }

def note (site : Site) (level : LogLevel) (source : LogSource) (message : String)
    (fields : List (String × String) := []) : Site :=
  site.noteAll [{ level, source, message, fields }]

def world (site : Site) : World := { disk := site.storage.disk, stamps := site.stamps }

def withDisk (site : Site) (disk : Disk) : Site :=
  { site with storage := { site.storage with disk } }

def withStorage (site : Site) (storage : Storage) : Site := { site with storage }

end Site

namespace Engine

/-! ## Running jobs -/

structure Finished where
  submitted : Nat
  stats : Counters
  state : IndexState
  errors : List String

def notePhase (site : Site) (phase : String) : Site :=
  site.note .info .engine "Phase finished" [("phase", phase), ("duration_ms", "0")]

def run (e : Engine) (site : Site) (kind : JobKind) (unsaved : UnsavedFiles) (state : IndexState)
    (invocations : List Invocation) : Except EngineError Finished × Site :=
  let setup : RunSetup := { config := e.config, frontend := e.frontend, unsaved, kind }
  if !setup.canStart then (.error .tooManyWorkers, site.noteAll [setup.startRecord])
  else
    let (submitted, s) :=
      e.schedule.run setup (Scheduler.start setup site.world state) invocations
    let (answer, s) := s.waitForCompletion
    let site := { site.withDisk s.world.disk with
      requests := site.requests ++ s.requests
      calls := site.calls ++ s.calls
      log := site.log ++ s.log }
    match answer with
    | .error error => (.error (.incomplete error), site)
    | .ok stats =>
      (.ok { submitted, stats, state := s.state, errors := s.errors },
        notePhase site (if kind = .dirty then "reindex" else "index"))

/-! ## Writing the result -/

def openRecords (before : Storage) (store : Store) (mode : OpenMode) : List LogRecord :=
  match store.place with
  | .volume _ => []
  | .directory =>
    let dropped := if mode = .create then Store.valueCount before.disk store.path else 0
    (if dropped = 0 then [] else
      [{ level := .debug, source := .store
         message := "Dropped " ++ toString dropped ++ " values of the previous database" }])
      ++ [{ level := .debug, source := .store
            message := "Opened database " ++ store.path.text }]

def openStore (e : Engine) (site : Site) (mode : OpenMode) :
    Except EngineError Store × Site :=
  match Store.open site.storage e.backend e.config.dbPath mode with
  | .error error =>
    (.error (.database (.store error)),
      site.withStorage (Store.afterFailure site.storage e.backend e.config.dbPath mode))
  | .ok (store, storage) =>
    (.ok store, (site.withStorage storage).noteAll (openRecords site.storage store mode))

def noteClosed (store : Store) (site : Site) : Site :=
  match store.place with
  | .volume _ => site
  | .directory => site.note .debug .store ("Closed database " ++ store.path.text)

/-- Keep the error diagnostics beside the database. None are kept when there were none, when they
could not be collected, or when the database has no directory. -/
def keepErrors (scratch : Path) (site : Site) (db : Path) (errors : List String) :
    Option Path × Site :=
  let disk := site.storage.disk
  if errors.isEmpty then (none, site)
  else match disk.createTemporary scratch "cxref-errors-" ".log" with
    | .error e => (none, site.note .warn .errorLog ("Failed to create error log: " ++ e.message))
    | .ok _ =>
      let target := db.child ("errors_" ++ toString (Disk.millis disk.now).toNat ++ ".log")
      match disk.write target (String.join (errors.map (· ++ "\n"))).toUTF8 with
      | .error e => (none, site.note .warn .engine ("Failed to keep error log: " ++ e.message))
      | .ok disk =>
        (some target,
          ((site.withDisk disk).note .debug .errorLog ("Error log written to " ++ target.text)).note
            .warn .engine (toString errors.length ++ " error diagnostics, see " ++ target.text))

def reconcileRecords (r : ReconcileReport) : List LogRecord :=
  [{ level := .debug, source := .unit, message := "Reconciled pending references"
     fields := [("resolved", toString r.resolved),
       ("via_specialization", toString r.viaSpecialization),
       ("unresolved", toString r.unresolved)] }]

/-- What is told of the records of symbols once they are written; the values that follow them may
still fail to be written. -/
def entityRecords (store : Store) (storage : Storage) (state : IndexState) : List LogRecord :=
  let m : Entities := state.graph.entities
  let written := [Database.fileTableMutation state.files]
    ++ Database.entitiesMutations m state.files
  match (Database.commit store storage written).1 with
  | .error _ => []
  | .ok () =>
    [{ level := .debug, source := .writer, message := "Wrote entities"
       fields := [("entities", toString m.size), ("files", toString m.symbolsByFile.size)] }]

/-- Resolve what is pending, move artifacts into the database, and write everything; a build also
lists the files of its source tree. The answer is the summary and the number of files listed. -/
def save (e : Engine) (store : Store) (site : Site) (listing : Option Path) (f : Finished) :
    Except EngineError (RunSummary × Nat) × Site :=
  let (graph, reconcile) := f.state.graph.reconcile
  let moved := f.state.pch.relocateAll site.storage.disk store.path
  let site := (site.withDisk moved.disk).noteAll (reconcileRecords reconcile ++ moved.log)
  let state := { f.state with graph, pch := moved.table }
  let site := site.noteAll (entityRecords store site.storage state)
  match Database.commit store site.storage (Database.saveMutations state) with
  | (.error error, storage) => (.error (.database error), site.withStorage storage)
  | (.ok (), storage) =>
    let listed := match listing with
      | some root => Database.writeListing store storage root
      | none => (.ok 0, storage)
    match listed with
    | (.error error, storage) => (.error (.database error), site.withStorage storage)
    | (.ok listed, storage) =>
      let site := noteClosed store (site.withStorage storage)
      let (errorLog, site) := keepErrors e.scratch site store.path f.errors
      let summary : RunSummary :=
        { submitted := f.submitted, stats := some f.stats, reconcile
          relocation := moved.report, errorDiagnostics := f.errors.length, errorLog }
      (.ok (summary, listed), site)

/-! ## Building -/

def databaseInvocations (disk : Disk) (files : List Path) :
    Except EngineError (List Invocation) := do
  let loaded ← files.mapM (fun p =>
    (CompilationDatabase.load disk p).mapError (fun e => .project (.compilationDatabase e)))
  return loaded.flatMap CompilationDatabase.invocations

def databaseRecords (db : CompilationDatabase) : List LogRecord :=
  [{ level := .debug, source := .compilationDatabase
     message := "Loaded compilation database " ++ db.path.text ++ " with "
       ++ toString db.entries.length ++ " entries" }]
    ++ db.entries.filterMap (fun c =>
      match c.invocation with
      | .ok _ => none
      | .error e =>
        some { level := .warn, source := .compilationDatabase
               message := "Skipping entry for " ++ c.file.text ++ ": " ++ e.message })
    ++ [{ level := .debug, source := .engine
          message := db.path.text ++ " yielded " ++ toString db.invocations.length
            ++ " invocations" }]

def collectRecords (disk : Disk) : List Path → List LogRecord
  | [] => []
  | p :: rest =>
    match CompilationDatabase.load disk p with
    | .ok db => databaseRecords db ++ collectRecords disk rest
    | .error _ => []

def sourceInvocation (world : World) (p : Path) : Except EngineError Invocation :=
  if world.isFile p then .ok (Invocation.forSource p) else .error (.project (.notAFile p))

def collect (world : World) (r : BuildRequest) : Except EngineError (List Invocation) := do
  let listed ← databaseInvocations world.disk r.compileCommands
  let bare ← r.sources.mapM (sourceInvocation world)
  return listed ++ bare ++ r.invocations

def sourceRoot (disk : Disk) (r : BuildRequest) : Except EngineError Path := do
  let root ← (disk.absolute (r.sourceDir.getD ⟨"."⟩)).mapError .io
  if disk.isDirectory root then return root else .error (.project (.sourceRootNotFound root))

def build (e : Engine) (site : Site) (r : BuildRequest) : Except EngineError RunSummary × Site :=
  match sourceRoot site.storage.disk r with
  | .error error => (.error error, site)
  | .ok root =>
    let world := site.world
    let site := site.noteAll (collectRecords world.disk r.compileCommands)
    match collect world r with
    | .error error => (.error error, site)
    | .ok [] => (.error .nothingToDo, site.note .warn .engine "Nothing to do")
    | .ok invocations =>
      match e.run site .compile ∅ {} invocations with
      | (.error error, site) => (.error error, site)
      | (.ok f, site) =>
        match e.openStore site .create with
        | (.error error, site) => (.error error, site)
        | (.ok store, site) =>
          match e.save store site (some root) f with
          | (.error error, site) => (.error error, site)
          | (.ok (summary, listed), site) =>
            (.ok summary, (notePhase site "save").note .info .engine "Database built"
              [("run_id", "0"), ("submitted", toString f.submitted),
                ("listed", toString listed), ("total_ms", "0")])

/-! ## Updating -/

def retainedState (loaded : Database.Loaded) (plan : Plan) (entities : Entities) : IndexState :=
  { files := loaded.files
    graph := { entities }
    pch := plan.invalidatedPchKeys.foldl PchTable.remove (PchTable.ofMap loaded.pch)
    sources := plan.retained }

def loadRecords (store : Store) (loaded : Database.Loaded) (plan : Plan) : List LogRecord :=
  [{ level := .debug, source := .writer, message := "Loaded database " ++ store.path.text
     fields := [("sources", toString loaded.sources.length), ("pch", toString loaded.pch.size),
       ("files", toString loaded.files.size)] },
   { level := .debug, source := .dependencies, message := "Planned update"
     fields := [("retained", toString plan.retained.length),
       ("reparse", toString plan.reparse.length),
       ("dirty_files", toString plan.dirtyFiles.size)] }]

/-- What is told of the headers that an update drops; one that is dropped twice is told once. -/
def invalidationRecords (loaded : Database.Loaded) (plan : Plan) : List LogRecord :=
  (plan.invalidatedPchKeys.eraseDups.filter loaded.pch.contains).map (fun key =>
    { level := .debug, source := .engine
      message := "Invalidated precompiled header " ++ key })

/-- What is told of the entries that an update removes, given the records that are left. -/
def removalRecords (store : Store) (before : Storage) (dirty : SortedSet Path) (files : FileTable)
    (kept : Entities) : List LogRecord :=
  let stored : Entities :=
    (Database.readValue store before DbKey.entities ∅ Entities.decode?).toOption.getD ∅
  let ids := SortedSet.ofList (dirty.members.filterMap files.id?)
  let pruned := (stored.toList.filter (fun m => m.2.prunedBy ids)).length
  let removed := (dirty.members.filter (fun p =>
    match store.read before (DbKey.symbols p) with
    | .ok (some _) => true
    | _ => false)).length
  (match store.place with
    | .volume _ => []
    | .directory =>
      [{ level := .debug, source := .store
         message := "Invalidated " ++ toString removed ++ " of " ++ toString dirty.size
           ++ " keys" }])
    ++ [{ level := .info, source := .writer, message := "Invalidated database entries"
          fields := [("dirty_files", toString dirty.size), ("removed_keys", toString removed),
            ("pruned", toString pruned), ("dropped", toString (stored.size - kept.size))] }]

/-- Index what has changed since the database was written. Buffers that stand for files always
count as changed. -/
def update (e : Engine) (site : Site) (unsaved : UnsavedFiles) :
    Except EngineError RunSummary × Site :=
  match e.openStore site .readWrite with
  | (.error error, site) => (.error error, site)
  | (.ok store, site) =>
    match Database.load store site.storage with
    | .error error => (.error (.database error), site)
    | .ok loaded =>
      let plan := Plan.make site.world.lastModified loaded.sources unsaved.keys
      let site := site.noteAll (loadRecords store loaded plan)
      if plan.isEmpty then
        (.ok { nothingChanged := true }, noteClosed store
          (site.note .info .engine "Nothing has changed" [("elapsed_ms", "0")]))
      else
        let site := site.noteAll (invalidationRecords loaded plan)
        match Database.invalidate store site.storage plan.dirtyFiles loaded.files with
        | (.error error, storage) => (.error (.database error), site.withStorage storage)
        | (.ok entities, storage) =>
          let removal := removalRecords store site.storage plan.dirtyFiles loaded.files entities
          let site := (site.withStorage storage).noteAll removal
          let state := retainedState loaded plan entities
          match e.run site .dirty unsaved state plan.reparse with
          | (.error error, site) => (.error error, site)
          | (.ok f, site) =>
            match e.save store site none f with
            | (.error error, site) => (.error error, site)
            | (.ok (summary, _), site) =>
              (.ok summary, site.note .info .engine "Database updated"
                [("run_id", "0"), ("submitted", toString f.submitted),
                  ("dirty_files", toString plan.dirtyFiles.size), ("total_ms", "0")])

/-! ## Buffers -/

/-- Read the buffers that stand for files, given as paths and the files that hold their contents.
Of two buffers for one path the later counts. -/
def readUnsaved (disk : Disk) (pairs : List (Path × Path)) : Except EngineError UnsavedFiles := do
  let read ← pairs.mapM (fun (path, contents) => do
    let path ← (disk.absolute path).mapError EngineError.io
    let bytes ← (disk.read contents).mapError EngineError.io
    return (path, bytes))
  return SortedMap.ofList read

end Engine

end SymbolIndex
