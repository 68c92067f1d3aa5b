import SymbolIndex.Symbol.Location

/-!
# File tables

A file table numbers paths. Numbers are handed out in increasing order and never reused, so a table
that was stored and read back keeps every location valid. Only the map from paths to numbers is
stored: the inverse map and the last number are rebuilt from it.
-/

namespace SymbolIndex

inductive Overflow where
  | overflow
deriving DecidableEq, Inhabited

namespace Overflow

def message (_ : Overflow) : String := "attempt to add with overflow"

end Overflow

def checkedSucc (n : UInt32) : Except Overflow UInt32 :=
  if n = 0xFFFFFFFF then .error .overflow else .ok (n + 1)

structure FileTable where
  byName : SortedMap Path FileId := ∅
  byId : SortedMap FileId Path := ∅
  lastId : UInt32 := 0
deriving DecidableEq, Inhabited

namespace FileTable

/-- The table of a stored map. When paths share a number, the last of them in path order is the one
found by the number. -/
def ofMap (m : SortedMap Path FileId) : FileTable :=
  m.toList.foldl
    (fun t e =>
      { byName := t.byName.insert e.1 e.2
        byId := t.byId.insert e.2 e.1
        lastId := max t.lastId e.2.val })
    {}

def toMap (t : FileTable) : SortedMap Path FileId := t.byName

def pairs (t : FileTable) : Json :=
  .ofList (fun e => .arr [Path.encode e.1, FileId.encode e.2]) t.byName.toList

def intern (t : FileTable) (p : Path) : Except Overflow (FileId × FileTable) :=
  match t.byName.get? p with
  | some id => .ok (id, t)
  | none => do
    let last ← checkedSucc t.lastId
    let id : FileId := ⟨last⟩
    return (id, { byName := t.byName.insert p id, byId := t.byId.insert id p, lastId := last })

def id? (t : FileTable) (p : Path) : Option FileId := t.byName.get? p

def path? (t : FileTable) (id : FileId) : Option Path := t.byId.get? id

def location (t : FileTable) (p : SourcePosition) : Except Overflow (Location × FileTable) := do
  let (file, t) ← t.intern p.path
  return ({ file, line := p.line, column := p.column }, t)

def size (t : FileTable) : Nat := t.byName.size

def isEmpty (t : FileTable) : Bool := t.byName.isEmpty

/-- Two tables are the same when they answer every question alike: paths are compared by what they
name, not by how they are written. -/
def same (t u : FileTable) : Bool :=
  t.lastId == u.lastId
    && t.byName.size == u.byName.size
    && t.byName.toList.all (fun e => u.byName.get? e.1 == some e.2)
    && t.byId.size == u.byId.size
    && t.byId.toList.all (fun e => (u.byId.get? e.1).any (fun p => p.same e.2))

def encode (t : FileTable) : Json := .ofMap Path.text FileId.encode t.toMap

def decode? (j : Json) : Option FileTable :=
  (j.map? Path.mk FileId.decode?).map ofMap

end FileTable

end SymbolIndex
