import SymbolIndex.Symbol.Entity
import SymbolIndex.Symbol.Kind

/-!
# Front-end events

What a front end reports while it parses a unit: files it includes, symbols it declares and refers
to, and diagnostics. Each event travels as one JSON document that names its kind.
-/

namespace SymbolIndex

structure Scope where
  kind : SymbolKind
  displayName : String := ""
deriving DecidableEq, Inhabited

namespace Scope

/-- The names of the scopes around a symbol, the outermost first, from its scopes given innermost
first. The walk outwards ends at a scope without a name. -/
def qualify (parents : List Scope) : List String :=
  (((parents.takeWhile (fun s => s.displayName ≠ "")).filter (fun s => s.kind.isScope)).map
    displayName).reverse

def encode (s : Scope) : Json :=
  .obj [("kind", s.kind.encode), ("display_name", .str s.displayName)]

def decodeWith? (kind? : Json → Option SymbolKind) (j : Json) : Option Scope := do
  match ← j.record? ["kind", "display_name"] 1 with
  | [kind, name] =>
    return { kind := ← Json.required kind? kind
             displayName := ← Json.defaulted "" Json.str? name }
  | _ => none

def decode? (j : Json) : Option Scope := decodeWith? SymbolKind.decode? j

def decodePart? (j : Json) : Option Scope := decodeWith? SymbolKind.decodePart? j

end Scope

structure Cursor where
  usr : Usr
  kind : SymbolKind
  displayName : String := ""
  location : SourcePosition
  semanticParents : List Scope := []
  specializedTemplate : Option Usr := none
deriving DecidableEq, Inhabited

namespace Cursor

def encode (c : Cursor) : Json :=
  .obj [("usr", .str c.usr), ("kind", c.kind.encode), ("display_name", .str c.displayName),
    ("location", c.location.encode), ("semantic_parents", .ofList Scope.encode c.semanticParents),
    ("specialized_template", .ofOption .str c.specializedTemplate)]

def fieldNames : List String :=
  ["usr", "kind", "display_name", "location", "semantic_parents", "specialized_template"]

def decode? (j : Json) : Option Cursor := do
  match ← j.record? fieldNames 2 with
  | [usr, kind, name, location, parents, template] =>
    return { usr := ← Json.required Json.str? usr
             kind := ← Json.required SymbolKind.decodePart? kind
             displayName := ← Json.defaulted "" Json.str? name
             location := ← Json.required SourcePosition.decode? location
             semanticParents := ← Json.defaulted [] (Json.list? Scope.decodePart?) parents
             specializedTemplate := ← Json.optional Json.str? template }
  | _ => none

end Cursor

structure Inclusion where
  includedFile : Path
  /-- The places of the inclusions that lead to the file, empty for the main file. -/
  inclusionStack : List SourcePosition := []
deriving DecidableEq, Inhabited

structure Reference where
  referenced : Cursor
  location : SourcePosition
deriving DecidableEq, Inhabited

structure Declaration where
  cursor : Cursor
  location : SourcePosition
  isDefinition : Bool := false
  semanticContainer : Option Usr := none
  overridden : List Cursor := []
  childReferences : List Reference := []
deriving DecidableEq, Inhabited

structure Diagnostic where
  severity : Severity
  message : String
  location : Option SourcePosition := none
deriving DecidableEq, Inhabited

namespace Inclusion

def members (e : Inclusion) : List (String × Json) :=
  [("included_file", e.includedFile.encode),
    ("inclusion_stack", .ofList SourcePosition.encode e.inclusionStack)]

def decode? (j : Json) : Option Inclusion := do
  match ← j.record? ["included_file", "inclusion_stack"] 1 with
  | [file, stack] =>
    return { includedFile := ← Json.required Path.decode? file
             inclusionStack := ← Json.defaulted [] (Json.list? SourcePosition.decode?) stack }
  | _ => none

end Inclusion

namespace Reference

def members (e : Reference) : List (String × Json) :=
  [("referenced", e.referenced.encode), ("location", e.location.encode)]

def decode? (j : Json) : Option Reference := do
  match ← j.record? ["referenced", "location"] 0 with
  | [referenced, location] =>
    return { referenced := ← Json.required Cursor.decode? referenced
             location := ← Json.required SourcePosition.decode? location }
  | _ => none

end Reference

namespace Declaration

def members (e : Declaration) : List (String × Json) :=
  [("cursor", e.cursor.encode), ("location", e.location.encode),
    ("is_definition", .bool e.isDefinition),
    ("semantic_container", .ofOption .str e.semanticContainer),
    ("overridden", .ofList Cursor.encode e.overridden),
    ("child_references", .ofList (fun r => .obj r.members) e.childReferences)]

def fieldNames : List String :=
  ["cursor", "location", "is_definition", "semantic_container", "overridden", "child_references"]

def decode? (j : Json) : Option Declaration := do
  match ← j.record? fieldNames 4 with
  | [cursor, location, isDefinition, container, overridden, children] =>
    return { cursor := ← Json.required Cursor.decode? cursor
             location := ← Json.required SourcePosition.decode? location
             isDefinition := ← Json.defaulted false Json.bool? isDefinition
             semanticContainer := ← Json.optional Json.str? container
             overridden := ← Json.defaulted [] (Json.list? Cursor.decode?) overridden
             childReferences := ← Json.defaulted [] (Json.list? Reference.decode?) children }
  | _ => none

end Declaration

namespace Diagnostic

def text (e : Diagnostic) : String :=
  (match e.location with
    | some p => p.text ++ ": "
    | none => "") ++ e.severity.name ++ ": " ++ e.message

def members (e : Diagnostic) : List (String × Json) :=
  [("severity", e.severity.encode), ("message", .str e.message),
    ("location", .ofOption SourcePosition.encode e.location)]

def decode? (j : Json) : Option Diagnostic := do
  match ← j.record? ["severity", "message", "location"] 1 with
  | [severity, message, location] =>
    return { severity := ← Json.required Severity.decodePart? severity
             message := ← Json.required Json.str? message
             location := ← Json.optional SourcePosition.decode? location }
  | _ => none

end Diagnostic

inductive Event where
  | inclusion (e : Inclusion)
  | declaration (e : Declaration)
  | reference (e : Reference)
  | diagnostic (e : Diagnostic)
deriving DecidableEq, Inhabited

namespace Event

def encode : Event → Json
  | .inclusion e => .obj (("event", .str "inclusion") :: e.members)
  | .declaration e => .obj (("event", .str "declaration") :: e.members)
  | .reference e => .obj (("event", .str "reference") :: e.members)
  | .diagnostic e => .obj (("event", .str "diagnostic") :: e.members)

def decode? (j : Json) : Option Event := do
  let (kind, body) ← j.tagged? "event"
  match kind with
  | "inclusion" => (Inclusion.decode? body).map .inclusion
  | "declaration" => (Declaration.decode? body).map .declaration
  | "reference" => (Reference.decode? body).map .reference
  | "diagnostic" => (Diagnostic.decode? body).map .diagnostic
  | _ => none

end Event

end SymbolIndex
