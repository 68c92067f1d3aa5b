import SymbolIndex.Scheduler.Settle

/-!
# Steering a run

What can be asked of a run from outside: submitting units, handing jobs to remote workers and
taking them back, aborting them, and waiting for the end. A request that is refused changes nothing.
-/

namespace SymbolIndex.Scheduler

/-- Submit a header. It is skipped when headers are not precompiled or when it makes none, and it is
a duplicate when its key is ready or being built. -/
def submitHeader (setup : RunSetup) (s : Scheduler) (i : Invocation) : Option JobId × Scheduler :=
  let flags := setup.config.flags
  if flags.disablePch || flags.dontIndex then
    (none, s.note .debug .scheduler ("Skipping header " ++ i.input.text))
  else match i.headerKey? with
    | none =>
      (none, s.note .debug .scheduler (i.input.text ++ " has no .gch output, skipping"))
    | some key =>
      match s.state.pch.reserve key with
      | (.reserved r, table) =>
        let s := (s.noteReserved key).mapPch (fun _ => table)
        let s := s.mapCompletion Completion.countJob
        let (id, s) := s.createJob .pch i false
        (some id, s.spawn (.header id r))
      | _ =>
        let s := s.note .debug .scheduler ("Precompiled header " ++ key ++ " already requested")
        (none, s.countDuplicate)

def submit (setup : RunSetup) (s : Scheduler) (i : Invocation) : Option JobId × Scheduler :=
  if i.language.isHeader then s.submitHeader setup i
  else if s.queued.any (fun q => q.same i.signature) then
    let s := s.note .debug .scheduler ("Skipping duplicate invocation for " ++ i.input.text)
    (none, s.countDuplicate)
  else
    let s := { s with queued := s.queued ++ [i.signature] }.mapCompletion Completion.countJob
    let (id, s) := s.createJob setup.kind i false
    (some id, s.spawn (.unit id 0))

/-- Submit units one after the other; the answer is how many became jobs, with those before. -/
def submitEach (setup : RunSetup) (count : Nat) (s : Scheduler) (is : List Invocation) :
    Nat × Scheduler :=
  is.foldl
    (fun (count, s) i =>
      match s.submit setup i with
      | (some _, s) => (count + 1, s)
      | (none, s) => (count, s))
    (count, s)

/-- Submit units, holding completion open meanwhile; the answer is how many became jobs. -/
def submitAll (setup : RunSetup) (s : Scheduler) (is : List Invocation) : Nat × Scheduler :=
  let (count, s) := submitEach setup 0 (s.mapCompletion Completion.beginIntrospection) is
  (count, s.mapCompletion Completion.endIntrospection)

def requestHeader (s : Scheduler) (i : Invocation) : Scheduler := s.spawn (.request i)

def submitFromRemote (setup : RunSetup) (s : Scheduler) (i : Invocation) : Scheduler :=
  let (id, s) := s.createJob setup.kind i true
  s.spawn (.remote id)

def moveJob (s : Scheduler) (id : JobId) (next : JobState) (f : Job → Job) :
    Except JobError (Job × Scheduler) :=
  match s.jobs.get? id with
  | none => .error (.unknownJob id)
  | some job => do
    let job ← job.transition next
    return (f job, { s with jobs := s.jobs.insert id (f job) })

def handOff (s : Scheduler) (id : JobId) (destination : String) (port : UInt16) :
    Except JobError Scheduler := do
  let (job, s) ← s.moveJob id .remote
    (fun j => { j with destination := some destination, port := some port })
  return s.note .debug .scheduler ("Handed off " ++ job.text)

def completeRemote (s : Scheduler) (id : JobId) (c : Contribution) (source : Source) :
    Except JobError Scheduler := do
  if (s.jobs.get? id).any (fun j => j.state = .aborted) then .error (.aborted id)
  else
    let (_, moved) ← s.moveJob id .completeRemote (fun j => j)
    match s.state.integrate c source with
    | .error _ => return s
    | .ok (visited, state) =>
      let merged := { moved.noteReplaced source with state }
      return (merged.updateJob id (fun j => { j with visited })).countCompleted.mapCompletion
        Completion.jobDone

/-- Take a job back from a remote worker and dispatch it here. -/
def reschedule (s : Scheduler) (id : JobId) : Except JobError Scheduler := do
  let (job, s) ← s.moveJob id .rescheduled (fun j => { j with attempts := j.attempts + 1 })
  return s.spawn (.unit id job.attempts)

def abort (s : Scheduler) (id : JobId) : Except JobError Scheduler := do
  let (job, s) ← s.moveJob id .aborted (fun j => j)
  let s := (s.note .info .scheduler ("Aborted " ++ job.text)).countAborted
  return if job.fromRemote then s else s.mapCompletion Completion.jobDone

def recordBlockedFile (s : Scheduler) (id : JobId) (path : Path) : Except JobError Scheduler :=
  match s.jobs.get? id with
  | none => .error (.unknownJob id)
  | some _ => .ok (s.updateJob id (fun j =>
      { j with blockedFiles :=
          j.blockedFiles.insert path ((j.blockedFiles.get? path).getD 0 + 1) }))

def waitForCompletion (s : Scheduler) : Except LatchError Counters × Scheduler :=
  let (answer, completion) := s.completion.wait
  let s := s.mapCompletion (fun _ => completion)
  match answer with
  | .error e => (.error e, s)
  | .ok () => (.ok s.counters, s.note .info .scheduler "Indexing run finished" s.counters.fields)

def openGates (s : Scheduler) : Scheduler := { s with gates := ∅ }

end SymbolIndex.Scheduler
