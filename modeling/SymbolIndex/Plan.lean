import SymbolIndex.Source

/-!
# Planning an update

Stored units are visited in order. A unit is dirty when its input or one of its dependencies has
changed; the input of a dirty unit counts as changed for the units after it.
-/

namespace SymbolIndex

structure Plan where
  retained : List Source := []
  reparse : List Invocation := []
  dirtyFiles : SortedSet Path := ∅
  invalidatedPchKeys : List String := []
deriving DecidableEq, Inhabited

namespace Plan

/-- Look at one dependency: it makes the unit dirty when it counts as changed or when its time is
not the recorded one, and then it counts as changed from now on. -/
def visitDependency (times : Path → UInt64) (acc : Bool × SortedSet Path) (d : Path × UInt64) :
    Bool × SortedSet Path :=
  let (isDirty, dirty) := acc
  if dirty.contains d.1 then (true, dirty)
  else if times d.1 ≠ d.2 then (true, dirty.add d.1)
  else (isDirty, dirty)

/-- Whether a unit must be parsed again, and the files that count as changed after looking at it.
The dependencies of a unit whose input counts as changed are not looked at. -/
def isSourceDirty (times : Path → UInt64) (dirty : SortedSet Path) (s : Source) :
    Bool × SortedSet Path :=
  if s.fromUnsavedFile then (true, dirty.add s.input)
  else if dirty.contains s.input then (true, dirty)
  else
    s.dependencies.toList.foldl (visitDependency times)
      (times s.input ≠ s.lastModified, dirty)

def visit (times : Path → UInt64) (p : Plan) (s : Source) : Plan :=
  let (isDirty, dirty) := isSourceDirty times p.dirtyFiles s
  if isDirty then
    { p with
      reparse := p.reparse ++ [s.invocation]
      dirtyFiles := dirty.add s.input
      invalidatedPchKeys :=
        if s.invocation.language.isHeader then
          p.invalidatedPchKeys ++ s.invocation.headerKey?.toList
        else p.invalidatedPchKeys }
  else { p with retained := p.retained ++ [s], dirtyFiles := dirty }

def make (times : Path → UInt64) (sources : List Source) (changed : List Path) : Plan :=
  sources.foldl (visit times) { dirtyFiles := SortedSet.collect changed }

def isEmpty (p : Plan) : Bool := p.reparse.isEmpty

def encode (p : Plan) : Json :=
  .obj [("retained", .ofList Source.encode p.retained),
    ("reparse", .ofList Invocation.encode p.reparse),
    ("dirty_files", .ofSet Path.encode p.dirtyFiles),
    ("invalidated_pch_keys", .ofList .str p.invalidatedPchKeys), ("is_empty", .bool p.isEmpty)]

end Plan

end SymbolIndex
