import SymbolIndex.Invocation.Basic

/-!
# Indexed units

What is stored of a unit so that a later update can tell whether it must be parsed again.
-/

namespace SymbolIndex

structure Source where
  invocation : Invocation
  lastModified : UInt64
  dependencies : SortedMap Path UInt64 := ∅
  fromUnsavedFile : Bool := false
deriving DecidableEq, Inhabited

namespace Source

def input (s : Source) : Path := s.invocation.input

def encode (s : Source) : Json :=
  .obj [("invocation", s.invocation.encode), ("last_modified", .ofUInt64 s.lastModified),
    ("dependencies", .ofMap Path.text .ofUInt64 s.dependencies),
    ("from_unsaved_file", .bool s.fromUnsavedFile)]

def decode? (j : Json) : Option Source := do
  match ← j.record? ["invocation", "last_modified", "dependencies", "from_unsaved_file"] 0 with
  | [invocation, lastModified, dependencies, fromUnsaved] =>
    return { invocation := ← Json.required Invocation.decode? invocation
             lastModified := ← Json.required Json.uint64? lastModified
             dependencies := ← Json.required (Json.map? Path.mk Json.uint64?) dependencies
             fromUnsavedFile := ← Json.required Json.bool? fromUnsaved }
  | _ => none

end Source

end SymbolIndex
