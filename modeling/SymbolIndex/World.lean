import SymbolIndex.Disk.Change
import SymbolIndex.Json.Value

/-!
# The outside

What the index sees of the outside: a file tree, and the times of source files. The times are those
of the tree unless a table of their own is given.
-/

namespace SymbolIndex

structure Stamp where
  micros : Int
  regular : Bool := true
deriving DecidableEq, Inhabited

/-- Read a time: milliseconds, or an object with microseconds, or with milliseconds and a mark for
what is no regular file. -/
def Stamp.ofJson : Json → Stamp
  | .int ms => { micros := ms * 1000 }
  | j =>
    match j.field? "us", j.field? "ms" with
    | some (.int us), _ => { micros := us }
    | _, some (.int ms) => { micros := ms * 1000, regular := j.field? "dir" != some (.bool true) }
    | _, _ => { micros := 0, regular := j.field? "dir" != some (.bool true) }

/-- A file tree, and the times of source files when they are not the tree's. -/
structure World where
  disk : Disk := {}
  stamps : Option (SortedMap Path Stamp) := none
deriving DecidableEq, Inhabited

namespace World

def lastModified (w : World) (p : Path) : UInt64 :=
  match w.stamps with
  | none => w.disk.lastModified p
  | some table =>
    match table.get? p with
    | some stamp => Disk.millis stamp.micros
    | none => 0

def isFile (w : World) (p : Path) : Bool :=
  match w.stamps with
  | none => w.disk.isFile p
  | some table => (table.get? p).any Stamp.regular

def touch (w : World) (p : Path) (stamp : Stamp) : World :=
  { w with stamps := w.stamps.map (fun table => table.insert p stamp) }

end World

end SymbolIndex
