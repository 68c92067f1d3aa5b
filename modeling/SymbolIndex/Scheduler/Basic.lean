import SymbolIndex.Frontend.Basic
import SymbolIndex.IndexState
import SymbolIndex.Job
import SymbolIndex.Scheduler.Completion
import SymbolIndex.Unit.Indexer
import SymbolIndex.World

/-!
# Schedulers

A run parses units as jobs. Each dispatch of a job is a task that moves in small steps: it waits
for the precompiled headers its unit includes, takes a permit, parses, gives the permit back,
integrates what was parsed, and takes the job off the count. All of it is data: a step takes a
scheduler to a scheduler.
-/

namespace SymbolIndex

structure RunSetup where
  config : Config
  frontend : Frontend
  unsaved : UnsavedFiles := ∅
  kind : JobKind := .compile

namespace RunSetup

def permits (setup : RunSetup) : Nat := max 1 (setup.config.concurrency.getD 1).toNat

def maxPermits : Nat := Nat.pow 2 61 - 1

def canStart (setup : RunSetup) : Bool := setup.permits ≤ maxPermits

def startRecord (setup : RunSetup) : LogRecord :=
  { level := .info, source := .scheduler, message := "Starting indexing run"
    fields := [("run_id", "0"), ("concurrency", toString setup.permits),
      ("kind", setup.kind.name)] }

end RunSetup

structure UnitResult where
  invocation : Invocation
  contribution : Contribution
  source : Source
deriving DecidableEq, Inhabited

namespace UnitResult

def encode (r : UnitResult) : Json :=
  .obj [("invocation", r.invocation.encode), ("contribution", r.contribution.encode),
    ("source", r.source.encode)]

def decode? (j : Json) : Option UnitResult := do
  match ← j.record? ["invocation", "contribution", "source"] 0 with
  | [invocation, contribution, source] =>
    return { invocation := ← Json.required Invocation.decode? invocation
             contribution := ← Json.required Contribution.decode? contribution
             source := ← Json.required Source.decode? source }
  | _ => none

end UnitResult

structure Counters where
  completed : Nat := 0
  failed : Nat := 0
  aborted : Nat := 0
  duplicates : Nat := 0
deriving DecidableEq, Inhabited

def Counters.toList (c : Counters) : List Nat := [c.completed, c.failed, c.aborted, c.duplicates]

def Counters.encode (c : Counters) : Json :=
  .obj [("completed", .ofNat c.completed), ("failed", .ofNat c.failed),
    ("aborted", .ofNat c.aborted), ("duplicates", .ofNat c.duplicates)]

def Counters.fields (c : Counters) : List (String × String) :=
  [("run_id", "0"), ("completed", toString c.completed), ("failed", toString c.failed),
    ("aborted", toString c.aborted), ("duplicates", toString c.duplicates), ("elapsed_ms", "0")]

structure ParsedUnit where
  contribution : Contribution
  source : Source
  artifact : Option Path := none
deriving DecidableEq, Inhabited

inductive Errand where
  | unit (job : JobId) (attempt : UInt32)
  | header (job : JobId) (reservation : Pch.Reservation)
  | remote (job : JobId)
  | request (invocation : Invocation)
deriving DecidableEq, Inhabited

inductive Phase where
  | fresh
  | seeking (keys : List String)
  | awaiting (ticket : Nat) (keys : List String)
  /-- Asleep until a reservation is settled, to answer with what it led to. -/
  | expecting (ticket : Nat) (key : String)
  | asking
  | inLine
  | granted
  | parsing (request : ParseRequest) (indexer : UnitIndexer)
  | parsed (invocation : Invocation) (outcome : Except FrontendError ParsedUnit)
  | closing (invocation : Invocation) (outcome : Except FrontendError ParsedUnit)
  | retiring
  | checking
  | finished
deriving Inhabited

inductive TaskAnswer where
  | entry (entry : PchEntry)
  | unit (result : UnitResult)
  | refused (error : JobError)
deriving DecidableEq, Inhabited

structure Task where
  errand : Errand
  phase : Phase := .fresh
  answer : Option TaskAnswer := none
deriving Inhabited

def Task.result? (t : Task) : Option TaskAnswer :=
  match t.phase with
  | .finished => t.answer
  | _ => none

structure Scheduler where
  world : World := {}
  state : IndexState := {}
  jobs : SortedMap JobId Job := ∅
  queued : List Signature := []
  completion : Completion := {}
  counters : Counters := {}
  errors : List String := []
  permits : Nat := 1
  line : List Nat := []
  tasks : List Task := []
  requests : List ParseRequest := []
  calls : List Call := []
  gates : SortedSet Path := ∅
  log : List LogRecord := []

namespace Scheduler

def start (setup : RunSetup) (world : World) (state : IndexState) : Scheduler :=
  { world, state, permits := setup.permits, log := [setup.startRecord] }

def note (s : Scheduler) (level : LogLevel) (source : LogSource) (message : String)
    (fields : List (String × String) := []) : Scheduler :=
  { s with log := s.log ++ [{ level, source, message, fields }] }

def setTask (s : Scheduler) (n : Nat) (t : Task) : Scheduler := { s with tasks := s.tasks.set n t }

def setPhase (s : Scheduler) (n : Nat) (phase : Phase) : Scheduler :=
  { s with tasks := s.tasks.modify n (fun t => { t with phase }) }

def finish (s : Scheduler) (n : Nat) (answer : Option TaskAnswer) : Scheduler :=
  { s with tasks := s.tasks.modify n (fun t => { t with phase := .finished, answer }) }

def spawn (s : Scheduler) (errand : Errand) : Scheduler :=
  { s with tasks := s.tasks ++ [{ errand }] }

def createJob (s : Scheduler) (kind : JobKind) (invocation : Invocation) (fromRemote : Bool) :
    JobId × Scheduler :=
  let id : JobId := ⟨UInt64.ofNat (s.jobs.size + 1)⟩
  let job := Job.make id kind invocation fromRemote
  (id, { s with jobs := s.jobs.insert id job }.note .trace .scheduler ("Created " ++ job.text))

def updateJob (s : Scheduler) (id : JobId) (f : Job → Job) : Scheduler :=
  { s with jobs := s.jobs.modify id f }

def mapPch (s : Scheduler) (f : PchTable → PchTable) : Scheduler :=
  { s with state := { s.state with pch := f s.state.pch } }

def mapCompletion (s : Scheduler) (f : Completion → Completion) : Scheduler :=
  let completion := f s.completion
  let fired := completion.latch.isTriggered && !s.completion.latch.isTriggered
  let s := { s with completion }
  if fired then s.note .debug .latch "CompletionLatch: Triggered success" else s

def mapDisk (s : Scheduler) (f : Disk → Disk) : Scheduler :=
  { s with world := { s.world with disk := f s.world.disk } }

def countCompleted (s : Scheduler) : Scheduler :=
  { s with counters := { s.counters with completed := s.counters.completed + 1 } }

def countFailed (s : Scheduler) : Scheduler :=
  { s with counters := { s.counters with failed := s.counters.failed + 1 } }

def countAborted (s : Scheduler) : Scheduler :=
  { s with counters := { s.counters with aborted := s.counters.aborted + 1 } }

def countDuplicate (s : Scheduler) : Scheduler :=
  { s with counters := { s.counters with duplicates := s.counters.duplicates + 1 } }

end Scheduler

end SymbolIndex
