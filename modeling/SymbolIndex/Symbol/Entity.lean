import SymbolIndex.Symbol.Location

/-!
# Symbol records

An entity gathers what the index knows of one symbol: where it is defined, declared and used, the
method it overrides and the methods that override it.
-/

namespace SymbolIndex

/-- The name by which a front end tells symbols apart, the same in every unit. -/
abbrev Usr := String

structure Entity where
  symbolName : String := ""
  definition : Option Location := none
  declarations : SortedSet Location := ∅
  /-- Constructor and destructor places, kept with the enclosing type. -/
  extraDeclarations : SortedSet Location := ∅
  references : SortedSet Location := ∅
  superLocation : Option Location := none
  overriddenUsr : Option Usr := none
  subs : SortedSet Location := ∅
  cursorScope : List String := []
deriving DecidableEq, Inhabited

namespace Entity

def setDefinition (e : Entity) (l : Location) : Entity :=
  { e with declarations := e.declarations.erase l, definition := some l }

def addDeclaration (e : Entity) (l : Location) : Entity :=
  if e.definition = some l then e else { e with declarations := e.declarations.add l }

def declarationIsNew (e : Entity) (l : Location) : Bool :=
  e.definition ≠ some l && !e.declarations.contains l

def isEmpty (e : Entity) : Bool :=
  e.definition.isNone && e.declarations.isEmpty && e.extraDeclarations.isEmpty
    && e.references.isEmpty

/-- The number of places held, those of related symbols included. -/
def locationCount (e : Entity) : Nat :=
  (if e.definition.isSome then 1 else 0) + (if e.superLocation.isSome then 1 else 0)
    + e.declarations.size + e.extraDeclarations.size + e.references.size + e.subs.size

def pruneFiles (files : SortedSet FileId) (e : Entity) : Entity :=
  let stays (l : Location) : Bool := !files.contains l.file
  let superStays := e.superLocation.all stays
  { e with
    definition := e.definition.filter stays
    superLocation := e.superLocation.filter stays
    overriddenUsr := if superStays then e.overriddenUsr else none
    declarations := e.declarations.restrict stays
    extraDeclarations := e.extraDeclarations.restrict stays
    references := e.references.restrict stays
    subs := e.subs.restrict stays }

def prunedBy (files : SortedSet FileId) (e : Entity) : Bool :=
  e.locationCount ≠ (e.pruneFiles files).locationCount

def ownLocations (e : Entity) : List Location :=
  e.definition.toList ++ e.declarations.members ++ e.extraDeclarations.members
    ++ e.references.members

def files (e : Entity) : SortedSet FileId :=
  SortedSet.ofList (e.ownLocations.map Location.file)

/-- Written with its fields in order; the overridden method is left out when there is none. -/
def encode (e : Entity) : Json :=
  .obj
    ([("symbol_name", .str e.symbolName),
      ("definition", .ofOption Location.encode e.definition),
      ("declarations", .ofSet Location.encode e.declarations),
      ("extra_declarations", .ofSet Location.encode e.extraDeclarations),
      ("references", .ofSet Location.encode e.references),
      ("super", .ofOption Location.encode e.superLocation)]
    ++ (match e.overriddenUsr with
      | none => []
      | some usr => [("overridden_usr", .str usr)])
    ++ [("subs", .ofSet Location.encode e.subs),
      ("cursor_scope", .ofList .str e.cursorScope)])

def fieldNames : List String :=
  ["symbol_name", "definition", "declarations", "extra_declarations", "references", "super",
    "overridden_usr", "subs", "cursor_scope"]

def decode? (j : Json) : Option Entity := do
  match ← j.record? fieldNames 0 with
  | [name, definition, declarations, extra, references, superAt, overridden, subs, scope] =>
    let places := Json.required (Json.set? Location.decode?)
    return { symbolName := ← Json.required Json.str? name
             definition := ← Json.optional Location.decode? definition
             declarations := ← places declarations
             extraDeclarations := ← places extra
             references := ← places references
             superLocation := ← Json.optional Location.decode? superAt
             overriddenUsr := ← Json.optional Json.str? overridden
             subs := ← places subs
             cursorScope := ← Json.required (Json.list? Json.str?) scope }
  | _ => none

end Entity

structure PendingReference where
  usr : Usr
  /-- The template the symbol was made from, used when the symbol has no record of its own. -/
  specialized : Option Usr := none
deriving DecidableEq, Inhabited

namespace PendingReference

def encode (r : PendingReference) : Json :=
  .obj [("usr", .str r.usr), ("specialized", .ofOption .str r.specialized)]

def decode? (j : Json) : Option PendingReference := do
  match ← j.record? ["usr", "specialized"] 0 with
  | [usr, specialized] =>
    return { usr := ← Json.required Json.str? usr
             specialized := ← Json.optional Json.str? specialized }
  | _ => none

end PendingReference

end SymbolIndex
