import SymbolIndex.Graph
import SymbolIndex.Pch
import SymbolIndex.Source

/-!
# The state of an index

File table, symbol graph, precompiled headers and indexed units: what the jobs of a run share.
-/

namespace SymbolIndex

structure IndexState where
  files : FileTable := {}
  graph : Graph := {}
  pch : PchTable := {}
  sources : List Source := []
deriving DecidableEq, Inhabited

namespace IndexState

def addSource (s : IndexState) (source : Source) : IndexState :=
  let signature := source.invocation.signature
  { s with
    sources := s.sources.filter (fun old => !old.invocation.signature.same signature) ++ [source] }

def internAll (files : FileTable) (visited : SortedSet FileId) :
    List Path → Except Overflow (SortedSet FileId × FileTable)
  | [] => .ok (visited, files)
  | p :: rest => do
    let (id, files) ← files.intern p
    internAll files (visited.add id) rest

def integrate (s : IndexState) (c : Contribution) (source : Source) :
    Except Overflow (SortedSet FileId × IndexState) := do
  let (graph, files) ← s.graph.merge s.files c
  let (visited, files) ← internAll files ∅ (source.input :: source.dependencies.keys)
  return (visited, { s with graph, files }.addSource source)

def encode (s : IndexState) : Json :=
  .obj [("files", s.files.pairs), ("entities", .ofMap id Entity.encode s.graph.entities),
    ("pending", .ofList (fun e => .arr [.str (Location.text e.1), PendingReference.encode e.2])
      s.graph.pending.toList),
    ("sources", .ofList Source.encode s.sources),
    ("pch", .ofMap id PchEntry.encode s.pch.toMap), ("pch_slots", .ofNat s.pch.size)]

end IndexState

end SymbolIndex
