import SymbolIndex.Proofs.StaleHeaders
import SymbolIndex.Proofs.Times

/-!
# What a unit tells depends on its events

The operations and the references of a unit are read off the events of its front end: neither the
times of files nor the options of the run have a part in them. Its dependencies are all the files
that the events report as included, its input and system headers apart. In a run without precompiled
headers and buffers the front end is asked the same for an invocation whenever it is asked, so when
its answers are known, so is what every landed unit tells (`Run.heard_landing`).
-/

namespace SymbolIndex

open List Scheduler

/-! ## What is asked -/

/-- No header is ready. -/
def PchTable.Bare (t : PchTable) : Prop := ∀ key, t.origin? key = none

theorem PchTable.Bare.lookupForInclude {t : PchTable} (h : t.Bare) (disk : Disk) (key : String) :
    t.lookupForInclude disk key = (none, t) := by
  have hkey := h key
  unfold origin? at hkey
  unfold PchTable.lookupForInclude
  split
  · next entry hentry =>
    rw [hentry] at hkey
    cases hkey
  · rfl

/-- What a front end is asked for an invocation, when no header stands for a part of it. -/
def Config.request (c : Config) (i : Invocation) : ParseRequest :=
  { invocation := i, arguments := c.frontendArguments i }

def Config.unit (c : Config) (i : Invocation) : UnitIndexer :=
  UnitIndexer.start { input := i.input, systemIncludes := c.systemIncludes, flags := c.flags }

namespace Scheduler

variable {setup : RunSetup} {s : Scheduler}

theorem useHeaders_of_bare (disk : Disk) (keys : List String) (use : PchUse) {table : PchTable}
    (h : table.Bare) :
    ∃ log, keys.foldl (useHeader disk) (use, table) = ({ use with log := log }, table) := by
  induction keys generalizing use with
  | nil => exact ⟨_, rfl⟩
  | cons key _ ih =>
    have hone : useHeader disk (use, table) key
        = ({ use with log := use.log ++ (table.toMap.get? key).toList.map (goneRecord key) },
          table) := by
      unfold useHeader
      simp only [h.lookupForInclude disk key]
    rw [foldl_cons, hone]
    exact ih _

/-- **A parse begins with the plain request** when there are no headers and no buffers. -/
theorem beginParse_of_bare (hunsaved : setup.unsaved = ∅) (hbare : s.state.pch.Bare)
    (i : Invocation) :
    (beginParse setup s i).1 = setup.config.request i
      ∧ (beginParse setup s i).2.1 = setup.config.unit i := by
  have huse : ∃ log, (preparePchUse setup s i).1 = { log := log } := by
    unfold preparePchUse
    split
    · exact ⟨[], rfl⟩
    · obtain ⟨log, hlog⟩ := useHeaders_of_bare s.world.disk i.includedHeaderKeys {} hbare
      exact ⟨log, by rw [hlog]⟩
  obtain ⟨log, huse⟩ := huse
  unfold beginParse Config.request
  constructor
  · simp only [huse, hunsaved, append_nil]
  · simp only [huse, hunsaved]
    rfl

end Scheduler

/-! ## What is heard -/

/-- What events tell. -/
def reportOf (es : List Event) : Contribution :=
  ((UnitIndexer.start { input := ⟨""⟩ }).handleAll (fun _ => 0) es).1.contribution

/-- A unit tells what is read off its events. -/
structure ParsedUnit.Heard (unit : ParsedUnit) (c : Config) (i : Invocation) (es : List Event) :
    Prop where
  ops : unit.contribution.ops = (reportOf es).ops
  pending : unit.contribution.pending = (reportOf es).pending
  dependencies : ∀ p, Includes es p → (c.unit i).isDependency p = true →
    unit.source.dependencies.contains p = true

/-- The events that a run takes in for an invocation, when the answers of its front end are
known. -/
def Config.heard (c : Config) (answers : ParseRequest → List Event) (i : Invocation) :
    List Event :=
  if c.flags.dontIndex then [] else answers (c.request i)

def TaskInvariant.heard (c : Config) (answers : ParseRequest → List Event) : TaskInvariant where
  asked := fun _ i request indexer => c.flags.dontIndex = false ∧ request = c.request i
    ∧ indexer = c.unit i
  brought := fun _ i outcome => ∀ unit, outcome = .ok unit → unit.Heard c i (c.heard answers i)

namespace Scheduler

theorem heard_runFrontend {setup : RunSetup} {s : Scheduler} {errand : Errand}
    {request : ParseRequest} {indexer : UnitIndexer} {i : Invocation} {es : List Event}
    (hevents : (setup.frontend s.world.disk request).events = es)
    (hindexer : indexer = setup.config.unit i) {unit : ParsedUnit}
    (hunit : (runFrontend setup s errand request indexer).2 = .ok unit) :
    unit.Heard setup.config i es := by
  obtain ⟨u, hall, hcontribution, hsource⟩ := runFrontend_eq_ok hunit
  rw [hevents, hindexer] at hall
  have hfresh : (setup.config.unit i).symbolReport
      = (UnitIndexer.start { input := ⟨""⟩ }).symbolReport := rfl
  obtain ⟨htold, -⟩ := UnitIndexer.symbolReport_handleAll hfresh
    (s.world.after setup.frontend request).lastModified (fun _ => 0) es
  rw [hall] at htold
  refine ⟨by rw [hcontribution]; exact congrArg Prod.fst htold,
    by rw [hcontribution]; exact congrArg Prod.snd htold, fun p hp hcounts => ?_⟩
  obtain ⟨taken, -, htaken, htakes⟩ := UnitIndexer.takes_handleAll
    (s.world.after setup.frontend request).lastModified (setup.config.unit i) es
  rw [hall] at htaken htakes
  rw [htaken rfl] at htakes
  have hsaved := htakes.unsaved
  rw [UnitIndexer.any_buffers_eq_false rfl] at hsaved
  rw [hsource]
  show u.contribution.dependencies.contains p = true
  rw [htakes.recorded hsaved, UnitIndexer.contains_depending]
  exact .inr ⟨p, UnitIndexer.mem_counted.mpr ⟨hp, hcounts⟩, Path.same_refl p⟩

end Scheduler

theorem TaskInvariant.heard_kept {setup : RunSetup} {s : Scheduler}
    {answers : ParseRequest → List Event} (hunsaved : setup.unsaved = ∅) (hbare : s.state.pch.Bare)
    (hanswers : ∀ t ∈ s.tasks, ∀ request indexer, t.phase = .parsing request indexer →
      (setup.frontend s.world.disk request).events = answers request) :
    (TaskInvariant.heard setup.config answers).Kept setup s where
  begun := by
    intro hdo errand i s₁ _ hstate
    rw [← hstate] at hbare
    obtain ⟨hrequest, hindexer⟩ := beginParse_of_bare hunsaved hbare i
    exact ⟨hdo, hrequest, hindexer⟩
  skipped := by
    intro hdont errand i s₁ _ hstate unit hunit
    rw [← hstate] at hbare
    obtain ⟨-, hindexer⟩ := beginParse_of_bare hunsaved hbare i
    obtain ⟨hcontribution, -⟩ := unparsed_eq_ok hunit
    unfold Config.heard
    rw [hdont, if_pos rfl]
    rw [hindexer] at hcontribution
    exact ⟨by rw [hcontribution]; rfl, by rw [hcontribution]; rfl,
      fun p ⟨e, he, _⟩ => absurd he not_mem_nil⟩
  parsed := by
    rintro errand request indexer ⟨t, ht, hphase⟩ ⟨hdo, hrequest, hindexer⟩ unit hunit
    have hevents := hanswers t ht request indexer hphase
    unfold Config.heard
    rw [hdo, if_neg (by simp), ← hrequest]
    exact heard_runFrontend hevents hindexer hunit

namespace Run

variable {r : Run} {answers : ParseRequest → List Event}

/-- What the front end says to each request of the run. -/
def Answers (r : Run) (answers : ParseRequest → List Event) : Prop :=
  ∀ s, r.Moment s → ∀ t ∈ s.tasks, ∀ request indexer, t.phase = .parsing request indexer →
    (r.setup.frontend s.world.disk request).events = answers request

/-- No precompiled header is ready when a run begins, and none lands. -/
structure Headerless (r : Run) : Prop where
  start : r.start.pch.Bare
  landings : ∀ l ∈ r.landings, l.key? = none

theorem Headerless.bare (h : r.Headerless) {is : List Invocation} {ls : List Landing}
    {s : Scheduler} (htrace : Trace r.setup (Scheduler.start r.setup r.world r.start) is ls s)
    (hls : ∀ l ∈ ls, l ∈ r.landings) : s.state.pch.Bare := by
  intro key
  refine Option.eq_none_iff_forall_ne_some.mpr fun o ho => ?_
  have hready := htrace.ready key o ho
  split at hready
  · next l hlast =>
    have hl := mem_reverse.mp (mem_of_find?_eq_some hlast)
    have hkey := find?_some hlast
    rw [h.landings l (hls l hl)] at hkey
    cases hkey
  · cases (h.start key).symm.trans hready

/-- **Every unit that lands was made from the answer to the plain request.** -/
theorem heard_landing (hanswers : r.Answers answers) (hheaderless : r.Headerless)
    (hunsaved : r.setup.unsaved = ∅) (hsize : r.invocations.length < UInt64.size) {l : Landing}
    (hl : l ∈ r.landings) :
    l.unit.Heard r.setup.config l.job.invocation
      (r.setup.config.heard answers l.job.invocation) := by
  have hcarried := r.trace.carried (c := TaskInvariant.heard r.setup.config answers) hsize
    (fun is' ls' s' hto hfrom _ => by
      obtain ⟨is'', ls'', -, hlandings, hfrom⟩ := hfrom
      have hmoment : r.Moment s' := ⟨⟨is', ls', hto⟩, is'', ls'', hfrom⟩
      refine TaskInvariant.heard_kept hunsaved (hheaderless.bare hto fun l hl => ?_)
        (hanswers s' hmoment)
      have hmem : l ∈ ls' ++ ls'' := mem_append_left _ hl
      rwa [← hlandings] at hmem)
  obtain ⟨errand, -, hbrought, -⟩ := hcarried.2 l hl
  exact hbrought l.unit rfl

end Run

end SymbolIndex
