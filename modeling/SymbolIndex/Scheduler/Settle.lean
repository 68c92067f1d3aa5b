import SymbolIndex.Scheduler.Step

/-!
# Letting a run settle

The order in which tasks move. A task that can move does so until it sleeps or ends; tasks that
are woken queue up behind those that can already move. Only when none can move does a front end
come to an end. The run has settled when that too is held up or no front end is at work.
-/

namespace SymbolIndex.Scheduler

def freshTasks (s : Scheduler) : List Nat :=
  (List.range s.tasks.length).filter (fun n =>
    match s.tasks[n]? with
    | some { phase := .fresh, .. } => true
    | _ => false)

def endSomeParse? (setup : RunSetup) (s : Scheduler) : Option (Nat × Scheduler) :=
  (List.range s.tasks.length).findSome? (fun n =>
    (s.endParse? setup n).map (fun s => (n, s)))

def settleWith (setup : RunSetup) (fuel : Nat) (s : Scheduler) (ready : List Nat) : Scheduler :=
  match fuel with
  | 0 => s
  | fuel + 1 =>
    match ready with
    | n :: rest =>
      match s.step? setup n with
      | some (s, woken) => settleWith setup fuel s (n :: rest ++ woken)
      | none => settleWith setup fuel s rest
    | [] =>
      match s.endSomeParse? setup with
      | some (n, s) => settleWith setup fuel s [n]
      | none => s

def stepsLeft (s : Scheduler) (t : Task) : Nat :=
  16 + 3 * (match t.errand with
    | .unit id _ | .remote id =>
      ((s.jobs.get? id).map (fun j => j.invocation.includedHeaderKeys.length)).getD 0
    | _ => 0)

def settle (setup : RunSetup) (s : Scheduler) : Scheduler :=
  settleWith setup (s.tasks.foldl (fun n t => n + s.stepsLeft t) 1) s s.freshTasks

end SymbolIndex.Scheduler
