import SymbolIndex.Symbol.Entity

/-!
# Contributions

What one unit adds to the index: operations on symbol records in the order they were reported, the
first reference at each place, and the files the unit depends on with their times.
-/

namespace SymbolIndex

inductive EntityOp where
  /-- The symbol is declared, perhaps defined, perhaps overriding a method. -/
  | declare (usr : Usr) (name : String) (scope : List String) (location : SourcePosition)
      (isDefinition : Bool) (superLocation : Option SourcePosition) (overriddenUsr : Option Usr)
  | extraDeclaration (container : Usr) (location : SourcePosition)
  | synthesize (usr : Usr) (name : String) (definition : SourcePosition) (scope : List String)
deriving DecidableEq, Inhabited

namespace EntityOp

def target : EntityOp → Usr
  | .declare usr _ _ _ _ _ _ => usr
  | .extraDeclaration container _ => container
  | .synthesize usr _ _ _ => usr

def encode : EntityOp → Json
  | .declare usr name scope location isDefinition superLocation overriddenUsr =>
    .obj [("op", .str "declare"), ("usr", .str usr), ("name", .str name),
      ("scope", .ofList .str scope), ("location", location.encode),
      ("is_definition", .bool isDefinition),
      ("super_location", .ofOption SourcePosition.encode superLocation),
      ("overridden_usr", .ofOption .str overriddenUsr)]
  | .extraDeclaration container location =>
    .obj [("op", .str "extra_declaration"), ("container", .str container),
      ("location", location.encode)]
  | .synthesize usr name definition scope =>
    .obj [("op", .str "synthesize"), ("usr", .str usr), ("name", .str name),
      ("definition", definition.encode), ("scope", .ofList .str scope)]

def declareFields : List String :=
  ["usr", "name", "scope", "location", "is_definition", "super_location", "overridden_usr"]

def decode? (j : Json) : Option EntityOp := do
  let (kind, body) ← j.tagged? "op"
  match kind with
  | "declare" =>
    match ← body.record? declareFields 0 with
    | [usr, name, scope, location, isDefinition, superLocation, overridden] =>
      return .declare (← Json.required Json.str? usr) (← Json.required Json.str? name)
        (← Json.required (Json.list? Json.str?) scope)
        (← Json.required SourcePosition.decode? location)
        (← Json.required Json.bool? isDefinition)
        (← Json.optional SourcePosition.decode? superLocation)
        (← Json.optional Json.str? overridden)
    | _ => none
  | "extra_declaration" =>
    match ← body.record? ["container", "location"] 0 with
    | [container, location] =>
      return .extraDeclaration (← Json.required Json.str? container)
        (← Json.required SourcePosition.decode? location)
    | _ => none
  | "synthesize" =>
    match ← body.record? ["usr", "name", "definition", "scope"] 0 with
    | [usr, name, definition, scope] =>
      return .synthesize (← Json.required Json.str? usr) (← Json.required Json.str? name)
        (← Json.required SourcePosition.decode? definition)
        (← Json.required (Json.list? Json.str?) scope)
    | _ => none
  | _ => none

end EntityOp

structure Contribution where
  ops : List EntityOp := []
  pending : SortedMap SourcePosition PendingReference := ∅
  dependencies : SortedMap Path UInt64 := ∅
  fromUnsaved : Bool := false
deriving DecidableEq, Inhabited

namespace Contribution

def isEmpty (c : Contribution) : Bool := c.ops.isEmpty && c.pending.isEmpty

def encodePair (e : SourcePosition × PendingReference) : Json := .arr [e.1.encode, e.2.encode]

def decodePair? : Json → Option (SourcePosition × PendingReference)
  | .arr [position, reference] => do
    return (← SourcePosition.decode? position, ← PendingReference.decode? reference)
  | _ => none

def encode (c : Contribution) : Json :=
  .obj [("ops", .ofList EntityOp.encode c.ops),
    ("pending", .ofList encodePair c.pending.toList),
    ("dependencies", .ofMap Path.text .ofUInt64 c.dependencies),
    ("from_unsaved", .bool c.fromUnsaved)]

def decode? (j : Json) : Option Contribution := do
  match ← j.record? ["ops", "pending", "dependencies", "from_unsaved"] 0 with
  | [ops, pending, dependencies, fromUnsaved] =>
    return { ops := ← Json.required (Json.list? EntityOp.decode?) ops
             pending := SortedMap.collect (← Json.required (Json.list? decodePair?) pending)
             dependencies := ← Json.required (Json.map? Path.mk Json.uint64?) dependencies
             fromUnsaved := ← Json.required Json.bool? fromUnsaved }
  | _ => none

end Contribution

end SymbolIndex
