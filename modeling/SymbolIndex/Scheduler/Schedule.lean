import SymbolIndex.Scheduler.Control

/-!
# The order of a run

Units are submitted one after the other, and meanwhile the tasks of those that were submitted before
move in any order. A `Schedule` is such an order. By default all units are submitted at once and
then the run settles.
-/

namespace SymbolIndex

/-- What comes next in a run. -/
inductive Move where
  /-- The one who submits goes on. -/
  | driver
  | task (n : Nat)
  /-- The front end of a task comes to its end. -/
  | parse (n : Nat)
deriving DecidableEq, Inhabited

/-- An order in which a run goes on. A move that cannot be made is left out. -/
structure Schedule where
  /-- What happens until all units are submitted; those that are left are submitted at its end. -/
  early : List Move := []
  /-- What happens after the last submission. -/
  late : List Move := []
  /-- Whether the run settles before its end is waited for. -/
  settles : Bool := true
deriving DecidableEq, Inhabited

/-- A run to which units are submitted: how many have become jobs, and which are left. -/
structure Intake where
  scheduler : Scheduler
  count : Nat := 0
  rest : List Invocation := []

namespace Intake

def submitNext (setup : RunSetup) (p : Intake) : Intake :=
  match p.rest with
  | [] => p
  | i :: rest =>
    let (count, scheduler) := Scheduler.submitEach setup p.count p.scheduler [i]
    { scheduler, count, rest }

def move (setup : RunSetup) (p : Intake) : Move → Intake
  | .driver => p.submitNext setup
  | .task n =>
    match p.scheduler.step? setup n with
    | some (scheduler, _) => { p with scheduler }
    | none => p
  | .parse n =>
    match p.scheduler.endParse? setup n with
    | some scheduler => { p with scheduler }
    | none => p

end Intake

/-- Carry out a run; the answer is how many units became jobs. -/
def Schedule.run (o : Schedule) (setup : RunSetup) (s : Scheduler) (is : List Invocation) :
    Nat × Scheduler :=
  let begun : Intake := { scheduler := s.mapCompletion Completion.beginIntrospection, rest := is }
  let opened := o.early.foldl (Intake.move setup) begun
  let (count, s) := Scheduler.submitEach setup opened.count opened.scheduler opened.rest
  let closed := s.mapCompletion Completion.endIntrospection
  let ended := (o.late.foldl (Intake.move setup) { scheduler := closed }).scheduler
  (count, if o.settles then ended.settle setup else ended)

end SymbolIndex
