import SymbolIndex.Proofs.FileTable
import SymbolIndex.Unit.Indexer

/-!
# What an event makes of a unit

An inclusion touches the dependencies of a unit and nothing that the unit has told. Every other
event touches what is told, and leaves the dependencies alone (`UnitIndexer.moored_handle`). What is
told after an event is a function of the event and of what was told before
(`UnitIndexer.symbolReport_handle`): neither the times of files nor the options of a run have a part
in it.
-/

namespace SymbolIndex

open List

/-- What a unit tells of symbols: operations, and references by place. -/
abbrev SymbolReport := List EntityOp × SortedMap SourcePosition PendingReference

namespace SymbolReport

/-- A use of a symbol; of several at one place the first counts. -/
def refer (t : SymbolReport) (e : Reference) : SymbolReport :=
  if t.2.contains e.location then t
  else
    (if e.referenced.kind = .templateTypeParameter then
        t.1 ++ [.synthesize e.referenced.usr e.referenced.displayName e.referenced.location
          (Scope.qualify e.referenced.semanticParents)]
      else t.1,
      t.2.insert e.location
        { usr := e.referenced.usr, specialized := e.referenced.specializedTemplate })

/-- A declaration, with the place that is kept with its type and the uses inside of it. -/
def declare (t : SymbolReport) (e : Declaration) (extra : Option EntityOp) : SymbolReport :=
  let told := (t.1 ++ UnitIndexer.declareOp e :: extra.toList, t.2)
  if e.cursor.kind.scansChildren then e.childReferences.foldl refer told else told

end SymbolReport

/-- What an event adds to what is told. -/
def Event.tell (t : SymbolReport) : Event → Except Overflow SymbolReport
  | .declaration e => (UnitIndexer.extraDeclarationOp e).map (t.declare e)
  | .reference e => .ok (t.refer e)
  | _ => .ok t

namespace UnitIndexer

variable {u u' v : UnitIndexer} {times times' : FileTimes} {e : Event}

def symbolReport (u : UnitIndexer) : SymbolReport := (u.contribution.ops, u.contribution.pending)

def retold (u : UnitIndexer) (t : SymbolReport) (errors : List String) (log : List LogRecord) :
    UnitIndexer :=
  { u with contribution := { u.contribution with ops := t.1, pending := t.2 }, errors, log }

/-! ## One event -/

theorem onReference_eq (u : UnitIndexer) (e : Reference) :
    ∃ log, u.onReference e = u.retold (u.symbolReport.refer e) u.errors log := by
  unfold onReference traceSymbol note SymbolReport.refer symbolReport
  cases hseen : u.contribution.pending.contains e.location with
  | true => split <;> simp only [hseen, if_true] <;> exact ⟨_, rfl⟩
  | false =>
    split <;> simp only [hseen, Bool.false_eq_true, if_false] <;> split <;> exact ⟨_, rfl⟩

theorem onReferences_eq (es : List Reference) (u : UnitIndexer) :
    ∃ log, es.foldl onReference u
      = u.retold (es.foldl SymbolReport.refer u.symbolReport) u.errors log := by
  induction es generalizing u with
  | nil => exact ⟨u.log, rfl⟩
  | cons e _ ih =>
    obtain ⟨log, hone⟩ := u.onReference_eq e
    obtain ⟨log', hrest⟩ := ih (u.onReference e)
    refine ⟨log', ?_⟩
    rw [foldl_cons, hrest, hone]
    rfl

theorem pushOps_eq (ops : List EntityOp) (u : UnitIndexer) : ops.foldl pushOp u
      = u.retold (u.contribution.ops ++ ops, u.contribution.pending) u.errors u.log := by
  induction ops generalizing u with
  | nil => rw [append_nil]; rfl
  | cons _ _ ih =>
    rw [foldl_cons, ih, append_cons]
    rfl

theorem onDeclaration_eq (u : UnitIndexer) (e : Declaration) :
    ∃ log, u.onDeclaration e = (extraDeclarationOp e).map
      (fun extra => u.retold (u.symbolReport.declare e extra) u.errors log) := by
  have hnoted : ∀ message, ∃ log,
      (u.traceSymbol message).noteStray e = u.retold u.symbolReport u.errors log := by
    intro message
    unfold traceSymbol noteStray
    split <;> split <;> exact ⟨_, rfl⟩
  obtain ⟨log, hnoted⟩ := hnoted (e.location.text ++ ": " ++ e.cursor.kind.name ++ " "
    ++ e.cursor.displayName ++ " " ++ if e.isDefinition then "definition" else "")
  unfold onDeclaration SymbolReport.declare
  rw [hnoted]
  cases extraDeclarationOp e with
  | error => exact ⟨log, rfl⟩
  | ok extra =>
    have hpushed : extra.toList.foldl pushOp
        ((u.retold u.symbolReport u.errors log).pushOp (declareOp e))
        = u.retold (u.contribution.ops ++ declareOp e :: extra.toList, u.contribution.pending)
          u.errors log := by
      rw [pushOps_eq, append_cons]
      rfl
    obtain ⟨log', hall⟩ := onReferences_eq e.childReferences (u.retold
      (u.contribution.ops ++ declareOp e :: extra.toList, u.contribution.pending) u.errors log)
    cases hscans : e.cursor.kind.scansChildren with
    | false => exact ⟨log, congrArg Except.ok hpushed⟩
    | true =>
      refine ⟨log', congrArg Except.ok ?_⟩
      simp only [if_true, hpushed, hall]
      rfl

/-- **What an event makes of a unit** that is no inclusion. -/
theorem handle_eq (u : UnitIndexer) (times : FileTimes) (hother : ∀ i, e ≠ .inclusion i) :
    ∃ errors log,
      u.handle times e = (e.tell u.symbolReport).map (fun t => u.retold t errors log) := by
  cases e with
  | inclusion i => exact absurd rfl (hother i)
  | declaration e =>
    obtain ⟨log, heq⟩ := u.onDeclaration_eq e
    refine ⟨u.errors, log, heq.trans ?_⟩
    simp only [Event.tell]
    cases extraDeclarationOp e <;> rfl
  | reference e =>
    obtain ⟨log, heq⟩ := u.onReference_eq e
    exact ⟨u.errors, log, congrArg Except.ok heq⟩
  | diagnostic =>
    unfold handle onDiagnostic
    simp only
    split
    · exact ⟨_, _, rfl⟩
    · split <;> exact ⟨_, _, rfl⟩

/-- **What is told after an event** depends on nothing but the event and what was told before. -/
theorem symbolReport_handle (u : UnitIndexer) (times : FileTimes) (e : Event) :
    (u.handle times e).map symbolReport = e.tell u.symbolReport := by
  have hother : (∀ i, e ≠ .inclusion i) →
      (u.handle times e).map symbolReport = e.tell u.symbolReport := by
    intro hother
    obtain ⟨errors, log, heq⟩ := u.handle_eq times hother
    rw [heq]
    cases e.tell u.symbolReport <;> rfl
  cases e with
  | inclusion =>
    refine congrArg Except.ok ?_
    unfold onInclusion
    split
    · rfl
    · split
      · rfl
      · split <;> rfl
  | _ => exact hother nofun

/-- The dependencies of a unit stay as they are. -/
structure Moored (u u' : UnitIndexer) : Prop where
  context : u'.context = u.context
  saved : u'.contribution.fromUnsaved = u.contribution.fromUnsaved
  dependencies : u'.contribution.dependencies = u.contribution.dependencies

/-- **No event but an inclusion touches the dependencies.** -/
theorem moored_handle (hok : u.handle times e = .ok u') (hother : ∀ i, e ≠ .inclusion i) :
    u.Moored u' := by
  obtain ⟨errors, log, heq⟩ := u.handle_eq times hother
  rw [hok] at heq
  cases htell : e.tell u.symbolReport with
  | error =>
    rw [htell] at heq
    simp [Except.map] at heq
  | ok =>
    rw [htell] at heq
    cases heq
    exact ⟨rfl, rfl, rfl⟩

/-! ## All events -/

theorem handleAll_keeps {P : UnitIndexer → Prop} (h : P u) (es : List Event)
    (hone : ∀ {u u' : UnitIndexer} {e : Event}, P u → u.handle times e = .ok u' → P u') :
    P (u.handleAll times es).1 := by
  induction es generalizing u with
  | nil => exact h
  | cons _ _ ih =>
    unfold handleAll
    split
    · next hok => exact ih (hone h hok)
    · exact h

/-- **What a unit tells depends on nothing but what it has told and on its events.** -/
theorem symbolReport_handleAll (h : u.symbolReport = u'.symbolReport) (times times' : FileTimes)
    (es : List Event) :
    (u.handleAll times es).1.symbolReport = (u'.handleAll times' es).1.symbolReport
      ∧ (u.handleAll times es).2 = (u'.handleAll times' es).2 := by
  induction es generalizing u u' with
  | nil => exact ⟨h, rfl⟩
  | cons e _ ih =>
    have hsame : (u.handle times e).map symbolReport = (u'.handle times' e).map symbolReport := by
      rw [symbolReport_handle, symbolReport_handle, h]
    unfold handleAll
    cases hu : u.handle times e <;> cases hu' : u'.handle times' e <;> rw [hu, hu'] at hsame
    · exact ⟨h, congrArg some (Except.error.inj hsame)⟩
    · simp [Except.map] at hsame
    · simp [Except.map] at hsame
    · exact ih (Except.ok.inj hsame)

end UnitIndexer

end SymbolIndex
