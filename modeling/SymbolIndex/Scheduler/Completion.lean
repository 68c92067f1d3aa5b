import SymbolIndex.Latch

/-!
# Completion of a run

A run is complete when no counted job is left and no one is still adding jobs. Both are counted;
each side takes itself off its own count first and looks at the other count afterwards, and
whoever finds both at zero fires the latch. The counts are words of 64 bits.
-/

namespace SymbolIndex

structure Completion where
  pending : UInt64 := 0
  introspections : UInt64 := 0
  latch : Latch := {}
deriving DecidableEq, Inhabited

namespace Completion

def countJob (c : Completion) : Completion := { c with pending := c.pending + 1 }

def releaseJob (c : Completion) : Bool × Completion :=
  (c.pending == 1, { c with pending := c.pending - 1 })

def checkIntrospections (c : Completion) : Completion :=
  if c.introspections = 0 then { c with latch := c.latch.triggerSuccess } else c

def jobDone (c : Completion) : Completion :=
  let (last, c) := c.releaseJob
  if last then c.checkIntrospections else c

def beginIntrospection (c : Completion) : Completion :=
  { c with introspections := c.introspections + 1 }

def releaseIntrospection (c : Completion) : Bool × Completion :=
  (c.introspections == 1, { c with introspections := c.introspections - 1 })

def checkPending (c : Completion) : Completion :=
  if c.pending = 0 then { c with latch := c.latch.triggerSuccess } else c

def endIntrospection (c : Completion) : Completion :=
  let (last, c) := c.releaseIntrospection
  if last then c.checkPending else c

def isIdle (c : Completion) : Bool := c.pending = 0 && c.introspections = 0

def wait (c : Completion) : Except LatchError Unit × Completion :=
  let latch := if c.isIdle then c.latch.triggerSuccess else c.latch
  let (answer, latch) := latch.waitBriefly
  (answer, { c with latch })

end Completion

end SymbolIndex
