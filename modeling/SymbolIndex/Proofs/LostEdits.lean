import SymbolIndex.Proofs.Makers

/-!
# When times are looked up

A unit is recorded with the times of its files, and an update compares them with the times it finds.
An edit during a parse is found that way if the recorded time is that of what the front end has read.

But most times are looked up when the files have been read: that of an included file when its
inclusion is told, and that of the input when the front end is done. Only the headers that come
precompiled are looked up before it starts. So an edit that comes between the two goes into the
record, the unit counts as up to date, and what it has left in the index is out of date.

In a `Parse` files may change at any point: it has a world of its own for every lookup. A run that
parses a unit is such a parse, with one world for all that comes after its beginning.
-/

namespace SymbolIndex

open List Scheduler

/-! ## What is recorded -/

namespace UnitIndexer

variable {u u' : UnitIndexer} {w : World}

def handleEach (u : UnitIndexer) : List (World × Event) → UnitIndexer × Option Overflow
  | [] => (u, none)
  | x :: rest =>
    match u.handle x.1.lastModified x.2 with
    | .ok u => handleEach u rest
    | .error failure => (u, some failure)

theorem handleEach_map (u : UnitIndexer) (w : World) (es : List Event) :
    u.handleEach (es.map (fun e => (w, e))) = u.handleAll w.lastModified es := by
  induction es generalizing u with
  | nil => rfl
  | cons e _ ih =>
    rw [map_cons]
    unfold handleEach handleAll
    simp only
    cases u.handle w.lastModified e with
    | ok u₁ => exact ih u₁
    | error => rfl

def lookup? (u : UnitIndexer) (w : World) : Event → Option (Path × UInt64)
  | .inclusion e =>
    if e.inclusionStack.isEmpty || !u.isDependency e.includedFile then none
    else some (e.includedFile, w.lastModified e.includedFile)
  | _ => none

theorem lookup?_congr (h : u'.context = u.context) : u'.lookup? = u.lookup? := by
  funext w e
  unfold lookup? isDependency isSystemHeader
  rw [h]

/-- Bind the times that were looked up; of several for one file the last one stands. -/
def recordAll (deps : SortedMap Path UInt64) (looked : List (Path × UInt64)) :
    SortedMap Path UInt64 :=
  looked.foldl (fun m d => m.insert d.1 d.2) deps

/-- **One event.** Unless a buffer takes part, the record grows by what the event has looked up. -/
theorem handle_record {e : Event} (h : u.handle w.lastModified e = .ok u') :
    u'.context = u.context ∧ (u'.contribution.fromUnsaved = false →
      u.contribution.fromUnsaved = false ∧ u'.contribution.dependencies
          = recordAll u.contribution.dependencies (u.lookup? w e).toList) := by
  have htakes := takes_handle h
  refine ⟨htakes.context, fun hsaved => ⟨htakes.saved hsaved, ?_⟩⟩
  have hlookup : u.lookup? w e = (u.context.counted? e).map (fun p => (p, w.lastModified p)) := by
    cases e with
    | inclusion e =>
      have hcounts : (start u.context).isDependency = u.isDependency := rfl
      simp only [lookup?, UnitContext.counted?, hcounts]
      split <;> rfl
    | _ => rfl
  rw [htakes.recorded hsaved, hlookup]
  cases u.context.counted? e <;> rfl

/-- **All events.** -/
theorem handleEach_record {events : List (World × Event)} (h : u.handleEach events = (u', none)) :
    u'.context = u.context ∧ (u'.contribution.fromUnsaved = false →
      u.contribution.fromUnsaved = false
        ∧ u'.contribution.dependencies = recordAll u.contribution.dependencies
          (events.filterMap (fun x => u.lookup? x.1 x.2))) := by
  induction events generalizing u with
  | nil =>
    cases h
    exact ⟨rfl, fun hsaved => ⟨hsaved, rfl⟩⟩
  | cons x _ ih =>
    unfold handleEach at h
    split at h
    · next u₁ hone =>
      obtain ⟨hcontext, hrecord⟩ := handle_record hone
      obtain ⟨hcontext', hrecord'⟩ := ih h
      refine ⟨hcontext'.trans hcontext, fun hsaved => ?_⟩
      obtain ⟨hsaved₁, hdeps'⟩ := hrecord' hsaved
      obtain ⟨hsaved₀, hdeps⟩ := hrecord hsaved₁
      refine ⟨hsaved₀, ?_⟩
      rw [hdeps', hdeps, lookup?_congr hcontext]
      cases hlook : u.lookup? x.1 x.2 with
      | none | some => simp only [filterMap_cons, hlook]; rfl
    · cases congrArg Prod.snd h

end UnitIndexer

/-- **The beginning.** The headers that come precompiled are looked up when a parse begins. -/
theorem Scheduler.beginParse_record (setup : RunSetup) (s : Scheduler) (i : Invocation)
    (hsaved : (beginParse setup s i).2.1.contribution.fromUnsaved = false) :
    (beginParse setup s i).2.1.contribution.dependencies = SortedMap.ofList
      ((uses setup s i).map (fun use =>
        (use.2.originHeader, s.world.lastModified use.2.originHeader))) := by
  have horigins := (preparePchUse_eq setup s i).2
  have hworld : (preparePchUse setup s i).2.world = s.world := by
    unfold preparePchUse
    split <;> rfl
  revert hsaved
  unfold beginParse
  simp only [hworld, horigins]
  split
  · exact fun hsaved => absurd hsaved (by simp [UnitIndexer.markUnsaved])
  · intro hsaved
    rw [(UnitIndexer.takes_addDependencies _ _ _).recorded hsaved]
    unfold UnitIndexer.depending SortedMap.ofList
    rw [foldl_map, foldl_map]
    rfl

/-! ## What an update finds -/

/-- **A unit is parsed again by every update** that finds its record out of date, and by no other. -/
theorem Plan.always_reparse_iff (times : Path → UInt64) (x : Source) :
    (∀ sources changed, x ∈ sources → x.invocation ∈ (make times sources changed).reparse)
      ↔ x.fromUnsavedFile = true ∨ ¬ x.UpToDate times := by
  constructor
  · intro h
    have hone := h ([] ++ [x]) [] (by simp)
    rw [make_concat, mem_reparse_visit_iff] at hone
    rcases hone with hnone | ⟨hdirty, -⟩
    · cases hnone
    · rcases isSourceDirty_true hdirty with hunsaved | hstale | ⟨q, -, hq⟩
      · exact .inl hunsaved
      · exact .inr hstale
      · cases hq.symm.trans (SortedMap.contains_empty q)
  · intro h sources changed hx
    obtain ⟨before, after, rfl⟩ := append_of_mem hx
    refine mem_reparse_of_not_stays (fun hstays => ?_) after
    obtain ⟨hsaved, hcurrent, -⟩ := isSourceDirty_false hstays
    rcases h with hunsaved | hstale
    · simp [hsaved] at hunsaved
    · exact hstale hcurrent

/-- Of a unit made from files no change is overlooked exactly when its record is of what the front
end has seen, or when no files have the times it names. -/
theorem Plan.finds_edits_iff (seen : Path → UInt64) (x : Source) :
    (∀ times sources changed, x ∈ sources → (∃ f ∈ x.files, times f ≠ seen f) →
        x.invocation ∈ (make times sources changed).reparse)
      ↔ x.fromUnsavedFile = true ∨ (¬ ∃ times, x.UpToDate times) ∨ x.UpToDate seen := by
  constructor
  · intro h
    by_cases hunsaved : x.fromUnsavedFile = true
    · exact .inl hunsaved
    · refine .inr (Classical.or_iff_not_imp_left.mpr fun hsome => ?_)
      obtain ⟨times, hcurrent⟩ := Classical.not_not.mp hsome
      -- files that fit the record are those that were seen, or their change would be overlooked
      have hseen : ∀ f ∈ x.files, times f = seen f := by
        by_contra hedited
        push Not at hedited
        rcases (always_reparse_iff times x).mp (fun sources changed hx =>
          h times sources changed hx hedited) with hunsaved' | hstale
        · exact hunsaved hunsaved'
        · exact hstale hcurrent
      refine ⟨?_, fun d hd => ?_⟩
      · rw [← hseen x.input (Source.mem_files_iff.mpr (.inl rfl))]
        exact hcurrent.1
      · rw [← hseen d.1 (Source.mem_files_iff.mpr (.inr ⟨d, hd, rfl⟩))]
        exact hcurrent.2 d hd
  · intro h times sources changed hx hedited
    obtain ⟨f, hf, hedit⟩ := hedited
    refine (always_reparse_iff times x).mpr ?_ sources changed hx
    rcases h with hunsaved | hnone | hseen
    · exact .inl hunsaved
    · exact .inr (fun hcurrent => hnone ⟨times, hcurrent⟩)
    · refine .inr (fun hcurrent => hedit ?_)
      rcases Source.mem_files_iff.mp hf with rfl | ⟨d, hd, rfl⟩
      · rw [hcurrent.1, hseen.1]
      · rw [hcurrent.2 d hd, hseen.2 d hd]

/-! ## A parse while files change -/

/-- A parse that has come to its end, with the world at every moment at which a time is looked up. -/
structure Parse where
  setup : RunSetup
  invocation : Invocation
  begun : Scheduler
  events : List (World × Event)
  indexer : UnitIndexer
  told : (Scheduler.beginParse setup begun invocation).2.1.handleEach events = (indexer, none)
  closed : Scheduler

namespace Parse

def source (p : Parse) : Source := p.closed.sourceOf p.invocation p.indexer.contribution

/-- The times of dependencies that were looked up, in order. -/
def lookups (p : Parse) : List (Path × UInt64) :=
  (Scheduler.uses p.setup p.begun p.invocation).map (fun use =>
      (use.2.originHeader, p.begun.world.lastModified use.2.originHeader))
    ++ p.events.filterMap (fun x => p.indexer.lookup? x.1 x.2)

/-- **The record is what was looked up**, unless a buffer takes part in the unit. -/
theorem dependencies_source (p : Parse) (hsaved : p.source.fromUnsavedFile = false) :
    p.source.dependencies = SortedMap.ofList p.lookups := by
  obtain ⟨hcontext, hrecord⟩ := UnitIndexer.handleEach_record p.told
  obtain ⟨hbegun, hdeps⟩ := hrecord hsaved
  show p.indexer.contribution.dependencies = _
  unfold lookups SortedMap.ofList
  rw [hdeps, beginParse_record p.setup p.begun p.invocation hbegun, foldl_append,
    UnitIndexer.lookup?_congr hcontext]
  rfl

/-- **A run that parses a unit is a parse**, with one world for all that comes after its beginning:
the one that the front end leaves. -/
theorem exists_of_runFrontend {setup : RunSetup} {begun s : Scheduler} {i : Invocation}
    {errand : Errand} {unit : ParsedUnit}
    (h : (Scheduler.runFrontend setup s errand (Scheduler.beginParse setup begun i).1
      (Scheduler.beginParse setup begun i).2.1).2 = .ok unit) :
    ∃ p : Parse, p.setup = setup ∧ p.invocation = i ∧ p.begun = begun ∧ p.source = unit.source
      ∧ p.closed.world = s.world.after setup.frontend (Scheduler.beginParse setup begun i).1
      ∧ ∀ x ∈ p.events, x.1 = p.closed.world := by
  obtain ⟨u, htold, -, hsource⟩ := runFrontend_eq_ok h
  rw [← UnitIndexer.handleEach_map] at htold
  refine ⟨⟨setup, i, begun, _, u, htold, { s with world := s.world.after setup.frontend _ }⟩, rfl, rfl,
    rfl, hsource.symm, rfl, fun x hx => ?_⟩
  obtain ⟨e, -, rfl⟩ := mem_map.mp hx
  rfl

/-- No file has changed since its time was looked up: the input since the unit was recorded, and
every other file since it was named last. -/
def Unedited (times : Path → UInt64) (p : Parse) : Prop :=
  times p.invocation.input = p.closed.world.lastModified p.invocation.input
    ∧ ∀ d ∈ (SortedMap.ofList p.lookups).toList, times d.1 = d.2

theorem upToDate_source_iff (p : Parse) (hsaved : p.source.fromUnsavedFile = false)
    (times : Path → UInt64) : p.source.UpToDate times ↔ p.Unedited times := by
  unfold Source.UpToDate Unedited
  rw [p.dependencies_source hsaved]
  rfl

/-- **Edits are found from the lookup on.**

Whatever happens to its files while a unit is parsed, the update after that parses it again, among
any units, unless no file has changed since its time was looked up. If `seen` are the times of what
the front end has read, then no edit after that is lost exactly when no file has changed between
being read and being looked up, where the input is looked up last of all. There are two exceptions: a
unit that a buffer takes part in is always parsed again, and so is one whose input was looked up
twice with different times.

Every unit that a run parses is recorded that way, the headers that come precompiled being looked
up when the parse begins and all else when the front end is done. -/
theorem edits_found_iff (p : Parse) (seen : Path → UInt64) :
    (∀ times, (∀ sources changed, p.source ∈ sources →
          p.invocation ∈ (Plan.make times sources changed).reparse)
        ↔ p.source.fromUnsavedFile = true ∨ ¬ p.Unedited times)
      ∧ ((∀ times sources changed, p.source ∈ sources → (∃ f ∈ p.source.files, times f ≠ seen f) →
            p.invocation ∈ (Plan.make times sources changed).reparse)
          ↔ p.source.fromUnsavedFile = true ∨ (¬ ∃ times, p.Unedited times) ∨ p.Unedited seen)
      ∧ ∀ (setup : RunSetup) (begun s : Scheduler) (i : Invocation) (errand : Errand)
        (unit : ParsedUnit), (Scheduler.runFrontend setup s errand
          (Scheduler.beginParse setup begun i).1 (Scheduler.beginParse setup begun i).2.1).2
            = .ok unit →
        ∃ p : Parse, p.setup = setup ∧ p.invocation = i ∧ p.begun = begun ∧ p.source = unit.source
          ∧ p.closed.world = s.world.after setup.frontend (Scheduler.beginParse setup begun i).1
          ∧ ∀ x ∈ p.events, x.1 = p.closed.world := by
  refine ⟨fun times => ?_, ?_, fun _ _ _ _ _ _ h => exists_of_runFrontend h⟩
  · refine (Plan.always_reparse_iff times p.source).trans ?_
    cases hsaved : p.source.fromUnsavedFile with
    | true => simp
    | false => rw [p.upToDate_source_iff hsaved]
  · refine (Plan.finds_edits_iff seen p.source).trans ?_
    cases hsaved : p.source.fromUnsavedFile with
    | true => simp
    | false => simp only [p.upToDate_source_iff hsaved]

/-! ## A lost edit -/

def definingSetup : RunSetup :=
  let f : Cursor :=
    { usr := "f", kind := .function, displayName := "f", location := ⟨⟨"/a.c"⟩, 1, 1⟩ }
  { config := { dbPath := ⟨"/db"⟩ }
    frontend := .replay (SortedMap.ofList [(⟨"/a.c"⟩,
      { events := [.declaration { cursor := f, location := f.location, isDefinition := true }] })]) }

def definingUnit : Invocation :=
  { directory := ⟨"/"⟩, compiler := "gcc", input := ⟨"/a.c"⟩, language := .c }

def inputAt (micros : Int) : World :=
  { stamps := some (SortedMap.ofList [(⟨"/a.c"⟩, { micros })]) }

/-- The input is edited after the parse has begun. No update can tell: where the input has the time
of the edit, the unit counts as up to date. -/
theorem edits_found_iff_defining :
    ∃ p : Parse, p.invocation = definingUnit ∧ p.begun.world = inputAt 1000
      ∧ p.closed.world = inputAt 2000 ∧ ¬ p.Unedited (inputAt 1000).lastModified
      ∧ ¬ ∀ times sources changed, p.source ∈ sources →
        (∃ f ∈ p.source.files, times f ≠ (inputAt 1000).lastModified f) →
        p.invocation ∈ (Plan.make times sources changed).reparse := by
  let begun := Scheduler.start definingSetup (inputAt 1000) {}
  let outcome := (Scheduler.runFrontend definingSetup
    (Scheduler.start definingSetup (inputAt 2000) {}) (.unit (jobOf 0) 0)
    (Scheduler.beginParse definingSetup begun definingUnit).1
    (Scheduler.beginParse definingSetup begun definingUnit).2.1).2
  have hrecorded : outcome.toOption.map ParsedUnit.source
      = some { invocation := definingUnit, lastModified := 2 } := by
    decide
  obtain ⟨unit, hunit, hrecord⟩ := Option.map_eq_some_iff.mp hrecorded
  obtain ⟨p, -, hi, hbegun, hsource, hworld, -⟩ := exists_of_runFrontend (eq_ok_of_toOption hunit)
  rw [hrecord] at hsource
  have hsaved : p.source.fromUnsavedFile = false := by rw [hsource]
  have hedited : ¬ p.Unedited (inputAt 1000).lastModified := by
    rw [← p.upToDate_source_iff hsaved, hsource]
    exact fun hcurrent => absurd hcurrent.1 (by decide)
  refine ⟨p, hi, by rw [hbegun]; rfl, hworld, hedited, fun h => ?_⟩
  obtain ⟨-, hexact, -⟩ := edits_found_iff p (inputAt 1000).lastModified
  rcases hexact.mp h with hunsaved | hnone | hseen
  · cases hsaved.symm.trans hunsaved
  · refine hnone ⟨(inputAt 2000).lastModified, ?_⟩
    rw [← p.upToDate_source_iff hsaved, hsource]
    exact ⟨by decide, fun d hd => absurd hd List.not_mem_nil⟩
  · exact hedited hseen

def heldUp : Scheduler :=
  let s := ((Scheduler.start definingSetup (inputAt 1000) {}).submit definingSetup definingUnit).2
  Scheduler.settle definingSetup { s with gates := SortedSet.ofList [⟨"/a.c"⟩] }

/-- The input is edited, and then the front end goes on to its end. -/
def goneOn : Scheduler :=
  Scheduler.settle definingSetup { heldUp with world := inputAt 2000, gates := ∅ }

/-- An edit of the input while the front end works: the unit is recorded with the time of the edit,
and no update parses it again. -/
theorem edit_during_parse_lost : heldUp.requests.map (fun r => r.invocation) = [definingUnit]
      ∧ heldUp.world.lastModified definingUnit.input = 1
      ∧ goneOn.world.lastModified definingUnit.input = 2
      ∧ goneOn.state.sources = [{ invocation := definingUnit, lastModified := 2 }]
      ∧ (Plan.make goneOn.world.lastModified goneOn.state.sources []).reparse = [] := by
  decide

end Parse

end SymbolIndex
