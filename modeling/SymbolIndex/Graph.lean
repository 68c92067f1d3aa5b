import SymbolIndex.Symbol.FileTable
import SymbolIndex.Unit.Contribution

/-!
# The symbol graph

Contributions of units are merged into one map of symbol records. References wait in a table until
all units are merged; reconciling attaches them to the symbols they name, and derives for each
method the methods that override it.
-/

namespace SymbolIndex

structure ReconcileReport where
  resolved : Nat := 0
  viaSpecialization : Nat := 0
  unresolved : Nat := 0
deriving DecidableEq, Inhabited

def ReconcileReport.encode (r : ReconcileReport) : Json :=
  .obj [("resolved", .ofNat r.resolved), ("via_specialization", .ofNat r.viaSpecialization),
    ("unresolved", .ofNat r.unresolved)]

structure Graph where
  entities : SortedMap Usr Entity := ∅
  pending : SortedMap Location PendingReference := ∅
deriving DecidableEq, Inhabited

namespace Entity

def nameOnce (e : Entity) (name : String) (scope : List String) : Entity :=
  if e.symbolName = "" then { e with symbolName := name, cursorScope := scope } else e

def declareAt (e : Entity) (l : Location) (isDefinition : Bool) : Entity :=
  if isDefinition then (if e.definition.isNone then e.setDefinition l else e)
  else e.addDeclaration l

end Entity

namespace Graph

def entity (g : Graph) (usr : Usr) : Entity := (g.entities.get? usr).getD {}

def setEntity (g : Graph) (usr : Usr) (e : Entity) : Graph :=
  { g with entities := g.entities.insert usr e }

def applyOp (g : Graph) (files : FileTable) : EntityOp → Except Overflow (Graph × FileTable)
  | .declare usr name scope location isDefinition superLocation overriddenUsr => do
    let (l, files) ← files.location location
    let e := ((g.entity usr).nameOnce name scope).declareAt l isDefinition
    match e.superLocation, superLocation with
    | none, some base => do
      let (s, files) ← files.location base
      return (g.setEntity usr { e with superLocation := some s, overriddenUsr }, files)
    | _, _ => return (g.setEntity usr e, files)
  | .extraDeclaration container location => do
    let (l, files) ← files.location location
    let e := g.entity container
    return (g.setEntity container { e with extraDeclarations := e.extraDeclarations.add l }, files)
  | .synthesize usr name definition scope => do
    let (l, files) ← files.location definition
    if g.entities.contains usr then return (g, files)
    else
      return (g.setEntity usr { symbolName := name, definition := some l, cursorScope := scope },
        files)

def applyOps (g : Graph) (files : FileTable) : List EntityOp → Except Overflow (Graph × FileTable)
  | [] => .ok (g, files)
  | op :: rest => do
    let (g, files) ← g.applyOp files op
    g.applyOps files rest

def addPending (g : Graph) (files : FileTable) :
    List (SourcePosition × PendingReference) → Except Overflow (Graph × FileTable)
  | [] => .ok (g, files)
  | (position, reference) :: rest => do
    let (l, files) ← files.location position
    { g with pending := g.pending.insertIfNew l reference }.addPending files rest

def merge (g : Graph) (files : FileTable) (c : Contribution) :
    Except Overflow (Graph × FileTable) := do
  let (g, files) ← g.applyOps files c.ops
  g.addPending files c.pending.toList

inductive Target where
  | symbol (usr : Usr)
  | template (usr : Usr)
  | unknown
deriving DecidableEq, Inhabited

/-- Where a reference is attached: to its symbol, or to the template when the symbol has no
record. -/
def targetOf (g : Graph) (r : PendingReference) : Target :=
  if g.entities.contains r.usr then .symbol r.usr
  else match r.specialized with
    | some usr => if g.entities.contains usr then .template usr else .unknown
    | none => .unknown

def attach (g : Graph) (usr : Usr) (l : Location) : Graph :=
  { g with entities :=
      g.entities.modify usr (fun e => { e with references := e.references.add l }) }

def reconcileOne (acc : Graph × ReconcileReport) (e : Location × PendingReference) :
    Graph × ReconcileReport :=
  let (g, report) := acc
  match g.targetOf e.2 with
  | .symbol usr => (g.attach usr e.1, { report with resolved := report.resolved + 1 })
  | .template usr =>
    (g.attach usr e.1, { report with viaSpecialization := report.viaSpecialization + 1 })
  | .unknown => (g, { report with unresolved := report.unresolved + 1 })

def overrides (g : Graph) : List (Usr × Location) :=
  g.entities.values.filterMap (fun e =>
    match e.overriddenUsr, e.definition with
    | some base, some l => some (base, l)
    | _, _ => none)

def rebuildSubs (g : Graph) : Graph :=
  let cleared := g.entities.mapValues (fun _ e => { e with subs := ∅ })
  { g with
    entities := g.overrides.foldl
      (fun m o => m.modify o.1 (fun e => { e with subs := e.subs.add o.2 })) cleared }

/-- Attach the waiting references and derive the overriding methods. The table is kept, so a second
pass changes nothing. -/
def reconcile (g : Graph) : Graph × ReconcileReport :=
  let (g, report) := g.pending.toList.foldl reconcileOne (g, {})
  (g.rebuildSubs, report)

def clearPending (g : Graph) : Graph := { g with pending := ∅ }

end Graph

end SymbolIndex
