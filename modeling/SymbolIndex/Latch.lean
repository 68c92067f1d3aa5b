/-!
# Completion latches

A latch fires once, with success or with a failure, and then answers every wait alike. At most one
waiter may stand before it. A wait consists of two locked steps, registering and returning, with
a sleep between them that ends when the latch fires or when the time is up.
-/

namespace SymbolIndex

inductive LatchError where
  | multipleWaiters
  | timeout
  | cancelled
  | failed (reason : String)
deriving DecidableEq, Inhabited

namespace LatchError

def kind : LatchError → String
  | .multipleWaiters => "MultipleWaiters"
  | .timeout => "Timeout"
  | .cancelled => "Cancelled"
  | .failed _ => "Failed"

def message : LatchError → String
  | .multipleWaiters => "Multiple waiters not allowed - only one waiter can wait at a time"
  | .timeout => "Timeout waiting for completion"
  | .cancelled => "Latch was cancelled"
  | .failed reason => "Run failed: " ++ reason

end LatchError

structure Latch where
  completed : Bool := false
  error : Option String := none
  hasWaiter : Bool := false
deriving DecidableEq, Inhabited

namespace Latch

def isTriggered (l : Latch) : Bool := l.completed || l.error.isSome

def triggerSuccess (l : Latch) : Latch :=
  if l.isTriggered then l else { l with completed := true }

def triggerFailure (l : Latch) (reason : String) : Latch :=
  if l.isTriggered then l else { l with error := some reason }

def outcome? (l : Latch) : Option (Except LatchError Unit) :=
  if l.completed then some (.ok ())
  else l.error.map (fun reason => .error (.failed reason))

def register (l : Latch) : Except (Except LatchError Unit) Latch :=
  match l.outcome? with
  | some answer => .error answer
  | none =>
    if l.hasWaiter then .error (.error .multipleWaiters) else .ok { l with hasWaiter := true }

def wake (l : Latch) : Except LatchError Unit × Latch :=
  (l.outcome?.getD (.error .cancelled), { l with hasWaiter := false })

def giveUp (l : Latch) : Except LatchError Unit × Latch :=
  (.error .timeout, { l with hasWaiter := false })

def waitBriefly (l : Latch) : Except LatchError Unit × Latch :=
  match l.register with
  | .error answer => (answer, l)
  | .ok l => l.giveUp

end Latch

/-! ## Sleepers -/

inductive Sleeper where
  | asleep
  | ended (answer : Except LatchError Unit)
  | gone

structure LatchRoom where
  latch : Latch := {}
  sleepers : List Sleeper := []

namespace LatchRoom

def wakeOne (r : LatchRoom) : Sleeper → LatchRoom
  | .asleep =>
    if r.latch.isTriggered then
      let (answer, latch) := r.latch.wake
      { latch, sleepers := r.sleepers ++ [.ended answer] }
    else { r with sleepers := r.sleepers ++ [.asleep] }
  | s => { r with sleepers := r.sleepers ++ [s] }

def wakeAll (r : LatchRoom) : LatchRoom := r.sleepers.foldl wakeOne { latch := r.latch }

def enter (r : LatchRoom) : LatchRoom :=
  let r := r.wakeAll
  match r.latch.register with
  | .ok latch => { latch, sleepers := r.sleepers ++ [.asleep] }
  | .error answer => { r with sleepers := r.sleepers ++ [.ended answer] }

/-- What a wait has come to: nothing is known of it, it sleeps, or its answer, which is then
gone. -/
def leave (r : LatchRoom) (n : Nat) : Option (Option (Except LatchError Unit)) × LatchRoom :=
  match r.sleepers[n]? with
  | none | some .gone => (none, r)
  | _ =>
    let r := r.wakeAll
    match r.sleepers[n]? with
    | some (.ended answer) => (some (some answer), { r with sleepers := r.sleepers.set n .gone })
    | _ => (some none, r)

end LatchRoom

end SymbolIndex
