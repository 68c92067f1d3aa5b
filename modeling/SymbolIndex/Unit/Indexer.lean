import SymbolIndex.Config
import SymbolIndex.Frontend.Event
import SymbolIndex.Log.Record
import SymbolIndex.Symbol.FileTable
import SymbolIndex.Unit.Contribution

/-!
# Indexing a unit

The events of one unit are folded into its contribution. Nothing shared is touched: the only thing
an event reads from outside is the time of a file.
-/

namespace SymbolIndex

structure UnitContext where
  input : Path
  unsavedPaths : SortedSet Path := ∅
  systemIncludes : List Path := []
  flags : Flags := {}
deriving DecidableEq, Inhabited

structure UnitIndexer where
  context : UnitContext
  contribution : Contribution := {}
  errors : List String := []
  log : List LogRecord := []
deriving DecidableEq, Inhabited

namespace UnitIndexer

def start (context : UnitContext) : UnitIndexer :=
  { context, contribution := { fromUnsaved := context.unsavedPaths.contains context.input } }

def errorCount (u : UnitIndexer) : Nat := u.errors.length

def note (u : UnitIndexer) (level : LogLevel) (message : String) : UnitIndexer :=
  { u with log := u.log ++ [{ level, source := .unit, message }] }

def traceSymbol (u : UnitIndexer) (message : String) : UnitIndexer :=
  if u.context.flags.debugAllSymbols then u.note .trace message else u

abbrev FileTimes := Path → UInt64

def recordDependency (times : FileTimes) (u : UnitIndexer) (path : Path) : UnitIndexer :=
  { u with
    contribution :=
      { u.contribution with dependencies := u.contribution.dependencies.insert path (times path) } }

/-- Depend on a file that no event names; a unit made from a buffer has no dependencies. -/
def addDependency (times : FileTimes) (u : UnitIndexer) (path : Path) : UnitIndexer :=
  if u.contribution.fromUnsaved then u else u.recordDependency times path

/-- A buffer takes part in the unit, so the times of its files mean nothing. -/
def markUnsaved (u : UnitIndexer) : UnitIndexer :=
  { u with contribution := { u.contribution with fromUnsaved := true, dependencies := ∅ } }

def isSystemHeader (u : UnitIndexer) (path : Path) : Bool :=
  u.context.systemIncludes.any (fun dir => path.startsWith dir)

def isDependency (u : UnitIndexer) (path : Path) : Bool :=
  !path.same u.context.input
    && (u.context.flags.systemHeaderDependencies || !u.isSystemHeader path)

def onInclusion (times : FileTimes) (u : UnitIndexer) (e : Inclusion) : UnitIndexer :=
  if u.contribution.fromUnsaved || e.inclusionStack.isEmpty then u
  else if u.context.unsavedPaths.contains e.includedFile then
    (u.note .debug
      (u.context.input.text ++ " includes unsaved buffer " ++ e.includedFile.text)).markUnsaved
  else if u.isDependency e.includedFile then u.recordDependency times e.includedFile
  else u

def pushOp (u : UnitIndexer) (op : EntityOp) : UnitIndexer :=
  { u with contribution := { u.contribution with ops := u.contribution.ops ++ [op] } }

/-- Record a use of a symbol; of several at one place the first counts. -/
def onReference (u : UnitIndexer) (e : Reference) : UnitIndexer :=
  let u := u.traceSymbol (e.location.text ++ ": ref of " ++ e.referenced.kind.name ++ " "
    ++ e.referenced.displayName ++ " " ++ e.referenced.location.text)
  if u.contribution.pending.contains e.location then u
  else
    let u :=
      if e.referenced.kind = .templateTypeParameter then
        u.pushOp (.synthesize e.referenced.usr e.referenced.displayName e.referenced.location
          (Scope.qualify e.referenced.semanticParents))
      else u
    let pending := u.contribution.pending.insert e.location
      { usr := e.referenced.usr, specialized := e.referenced.specializedTemplate }
    { u with contribution := { u.contribution with pending } }

def overriddenBy (e : Declaration) : Option Cursor :=
  match e.overridden with
  | [base] => if e.cursor.kind.canOverride then some base else none
  | _ => none

def declareOp (e : Declaration) : EntityOp :=
  .declare e.cursor.usr e.cursor.displayName (Scope.qualify e.cursor.semanticParents) e.location
    e.isDefinition ((overriddenBy e).map Cursor.location) ((overriddenBy e).map Cursor.usr)

/-- The place of a constructor or destructor that is kept with its type: a destructor's lies behind
the tilde. -/
def extraDeclarationOp (e : Declaration) : Except Overflow (Option EntityOp) :=
  match e.semanticContainer with
  | none => .ok none
  | some container =>
    if e.cursor.kind = .constructor then .ok (some (.extraDeclaration container e.location))
    else if e.cursor.kind = .destructor then do
      let column ← checkedSucc e.location.column
      return some (.extraDeclaration container { e.location with column })
    else .ok none

def noteStray (u : UnitIndexer) (e : Declaration) : UnitIndexer :=
  if (e.cursor.kind = .constructor ∨ e.cursor.kind = .destructor) ∧ e.semanticContainer = none then
    u.note .warn (e.cursor.displayName ++ " has no semantic container")
  else u

def onDeclaration (u : UnitIndexer) (e : Declaration) : Except Overflow UnitIndexer := do
  let extra ← extraDeclarationOp e
  let u := (u.traceSymbol (e.location.text ++ ": " ++ e.cursor.kind.name ++ " "
    ++ e.cursor.displayName ++ " " ++ if e.isDefinition then "definition" else "")).noteStray e
  let u := extra.toList.foldl pushOp (u.pushOp (declareOp e))
  return if e.cursor.kind.scansChildren then e.childReferences.foldl onReference u else u

def onDiagnostic (u : UnitIndexer) (e : Diagnostic) : UnitIndexer :=
  let line := u.context.input.text ++ ": " ++ e.text
  if e.severity.isError then { u with errors := u.errors ++ [line] }.note .error line
  else if u.context.flags.verbose then u.note .info line
  else u

def handle (times : FileTimes) (u : UnitIndexer) : Event → Except Overflow UnitIndexer
  | .inclusion e => .ok (u.onInclusion times e)
  | .declaration e => u.onDeclaration e
  | .reference e => .ok (u.onReference e)
  | .diagnostic e => .ok (u.onDiagnostic e)

def handleAll (times : FileTimes) (u : UnitIndexer) : List Event → UnitIndexer × Option Overflow
  | [] => (u, none)
  | e :: rest =>
    match u.handle times e with
    | .ok u => handleAll times u rest
    | .error failure => (u, some failure)

end UnitIndexer

end SymbolIndex
