import SymbolIndex.Proofs.TaskInvariants
import SymbolIndex.Proofs.Dependencies
import SymbolIndex.Proofs.History
import SymbolIndex.Proofs.Plan

/-!
# The times a run records

A unit is stored with the time of its input and with the times of the files it depends on. All of
them are looked up while the run goes on: those of the headers it uses when its parse begins, the
others when its front end has come to its end. `Run.Looks` are the worlds in which a run looks up
times, and `Run.timed_landing` says that every time that is stored was looked up in one of them.

A dependency is stored under the spelling that came first and with the time that was looked up last,
perhaps under another spelling of the same path. So the time of a dependency is that of some path
that is the same, and no more than that is true.
-/

namespace SymbolIndex

open Scheduler SortedMap

variable {p q : Path} {looks : World → Prop} {w w' : World} {setup : RunSetup} {s s' : Scheduler}
  {is : List Invocation} {ls : List Landing}

/-! ## Dependencies of a unit -/

/-- Every time was looked up, under some spelling. -/
def Recorded (looks : World → Prop) (deps : SortedMap Path UInt64) : Prop :=
  ∀ d ∈ deps.toList, ∃ w q, looks w ∧ q.same d.1 = true ∧ d.2 = w.lastModified q

section

variable {deps : SortedMap Path UInt64} (h : Recorded looks deps) (hw : looks w)

include h hw

theorem Recorded.insert (p : Path) : Recorded looks (deps.insert p (w.lastModified p)) := by
  intro d hd
  have hget := get?_of_mem hd
  rw [get?_insert] at hget
  by_cases heq : compare d.1 p = .eq
  · rw [if_pos heq] at hget
    exact ⟨w, p, hw, Path.same_symm (Path.compare_eq_iff_same.mp heq), (Option.some.inj hget).symm⟩
  · -- an entry that stays may have been found under another spelling
    rw [if_neg heq] at hget
    obtain ⟨k, hk, hmem⟩ := mem_of_get? hget
    obtain ⟨w', q, hw', hsame, htime⟩ := h _ hmem
    exact ⟨w', q, hw', Path.same_trans hsame (Path.same_symm (Path.compare_eq_iff_same.mp hk)),
      htime⟩

theorem Recorded.depending (ps : List Path) :
    Recorded looks (UnitIndexer.depending w.lastModified deps ps) := by
  induction ps generalizing deps with
  | nil => exact h
  | cons p _ ih => exact ih (h.insert hw p)

end

namespace UnitIndexer

/-- A unit without buffers that has the times at some moment. -/
structure Unbuffered (looks : World → Prop) (u : UnitIndexer) : Prop where
  paths : u.context.unsavedPaths = ∅
  saved : u.contribution.fromUnsaved = false
  recorded : Recorded looks u.contribution.dependencies

variable {looks : World → Prop} {u u' : UnitIndexer} {w : World}

theorem Unbuffered.takes (h : u.Unbuffered looks) (hw : looks w) {ps : List Path}
    (htakes : Takes w.lastModified u false ps u') : u'.Unbuffered looks := by
  have hsaved : u'.contribution.fromUnsaved = false := by rw [htakes.unsaved, h.saved]; rfl
  refine ⟨by rw [htakes.context, h.paths], hsaved, ?_⟩
  rw [htakes.recorded hsaved]
  exact h.recorded.depending hw ps

/-- **All events of a unit** are taken in at one moment. -/
theorem Unbuffered.handleAll (h : u.Unbuffered looks) (hw : looks w) (es : List Event) :
    (u.handleAll w.lastModified es).1.Unbuffered looks := by
  obtain ⟨taken, -, -, htakes⟩ := takes_handleAll w.lastModified u es
  rw [any_buffers_eq_false h.paths] at htakes
  exact h.takes hw htakes

end UnitIndexer

/-! ## Marks of buffers -/

/-- No header is made from a buffer. -/
def PchTable.Unmarked (t : PchTable) : Prop := ∀ key, t.isFromUnsaved key = false

theorem PchTable.Unmarked.fewer {t t' : PchTable} (h : t.Unmarked) (hfewer : t.FewerMarks t') :
    t'.Unmarked := by
  intro key
  cases hkey : t'.isFromUnsaved key with
  | false => rfl
  | true =>
    have hbefore := hfewer key hkey
    rw [h key] at hbefore
    cases hbefore

/-- **A run whose units take no buffers in marks no header.** -/
theorem Trace.unmarked (h : Trace setup s is ls s') (hstart : s.state.pch.Unmarked)
    (hsaved : ∀ l ∈ ls, l.unit.contribution.fromUnsaved = false) : s'.state.pch.Unmarked := by
  induction h with
  | start => exact hstart
  | submit i _ ih => exact (ih hsaved).fewer (kept_submit setup _ i).headers.marks
  | recount f _ ih =>
    rw [state_mapCompletion]
    exact ih hsaved
  | @step is ls s₁ s₂ n woken _ hstep ih =>
    have hbefore := ih (fun l hl => hsaved l (List.mem_append_left _ hl))
    have hlands := landsAll_step hstep
    generalize hlanded : s₁.landingOf n = landed at hlands
    cases hlands with
    | none hkept => exact hbefore.fewer hkept.headers.marks
    | @one l _ _ hone =>
      have hl : l ∈ ls ++ s₁.landingOf n := by
        rw [hlanded]
        exact List.mem_append_right _ List.mem_cons_self
      exact hbefore.fewer (hone.marks (hsaved l hl))
  | parse _ hparse ih =>
    rw [state_endParse hparse]
    exact ih hsaved

namespace Scheduler

theorem fromUnsaved_useHeaders (disk : Disk) (keys : List String) {acc : PchUse × PchTable}
    (hmarks : acc.2.Unmarked) (huse : acc.1.fromUnsaved = false) :
    (keys.foldl (useHeader disk) acc).1.fromUnsaved = false := by
  induction keys generalizing acc with
  | nil => exact huse
  | cons key _ ih =>
    have hlookup := hmarks.fewer (acc.2.fewer_lookupForInclude disk key).marks
    rw [List.foldl_cons]
    unfold useHeader
    simp only
    split <;> next heq =>
      rw [heq] at hlookup
      exact ih hlookup (by simp only [huse, Bool.false_or]; try exact hlookup key)

/-- **A parse begins without buffers** when there are none and no header is marked. -/
theorem unbuffered_beginParse (hunsaved : setup.unsaved = ∅) (hmarks : s.state.pch.Unmarked)
    (hlooks : looks s.world) (i : Invocation) : (beginParse setup s i).2.1.Unbuffered looks := by
  have huse : (preparePchUse setup s i).1.fromUnsaved = false
      ∧ (preparePchUse setup s i).2.world = s.world := by
    unfold preparePchUse
    split
    · exact ⟨rfl, rfl⟩
    · exact ⟨fromUnsaved_useHeaders _ _ hmarks rfl, rfl⟩
  have hfresh : (UnitIndexer.start
      { input := i.input, unsavedPaths := SortedSet.ofList setup.unsaved.keys
        systemIncludes := setup.config.systemIncludes
        flags := setup.config.flags }).Unbuffered looks := by
    rw [hunsaved]
    refine ⟨rfl, rfl, ?_⟩
    intro d hd
    cases hd
  unfold beginParse
  simp only [huse.1, huse.2, Bool.false_eq_true, if_false]
  exact hfresh.takes hlooks (UnitIndexer.takes_addDependencies _ _ _)

end Scheduler

/-! ## Units that land -/

/-- The times of a unit were looked up, and no buffer took part in it. -/
structure Source.Timed (looks : World → Prop) (x : Source) : Prop where
  saved : x.fromUnsavedFile = false
  input : ∃ w, looks w ∧ x.lastModified = w.lastModified x.input
  recorded : Recorded looks x.dependencies

/-- What is asked for and what is brought back is without buffers, with times that were looked
up. -/
def TaskInvariant.timed (looks : World → Prop) : TaskInvariant where
  asked := fun _ _ _ indexer => indexer.Unbuffered looks
  brought := fun _ _ outcome => ∀ unit, outcome = .ok unit →
    unit.contribution.fromUnsaved = false ∧ unit.source.Timed looks

namespace Scheduler

variable {errand : Errand} {indexer : UnitIndexer} {unit : ParsedUnit}

theorem timed_runFrontend {request : ParseRequest} (h : indexer.Unbuffered looks)
    (hlooks : looks (s.world.after setup.frontend request))
    (hunit : (runFrontend setup s errand request indexer).2 = .ok unit) :
    unit.contribution.fromUnsaved = false ∧ unit.source.Timed looks := by
  obtain ⟨u, hall, hcontribution, hsource⟩ := runFrontend_eq_ok hunit
  have hevents := h.handleAll hlooks (setup.frontend s.world.disk request).events
  rw [hall] at hevents
  rw [hcontribution, hsource]
  exact ⟨hevents.saved, hevents.saved, ⟨_, hlooks, rfl⟩, hevents.recorded⟩

theorem timed_unparsed {i : Invocation} (h : indexer.Unbuffered looks) (hlooks : looks s.world)
    (hunit : s.unparsed errand i indexer = .ok unit) :
    unit.contribution.fromUnsaved = false ∧ unit.source.Timed looks := by
  obtain ⟨hcontribution, hsource⟩ := unparsed_eq_ok hunit
  rw [hcontribution, hsource]
  exact ⟨h.saved, h.saved, ⟨_, hlooks, rfl⟩, h.recorded⟩

theorem world_beginParse (setup : RunSetup) (s : Scheduler) (i : Invocation) :
    (beginParse setup s i).2.2.world = s.world := by
  obtain ⟨table, requests, log, hbegun⟩ := exists_beginParse setup s i
  rw [hbegun]

end Scheduler

theorem TaskInvariant.timed_kept (hunsaved : setup.unsaved = ∅) (hmarks : s.state.pch.Unmarked)
    (hbefore : looks s.world)
    (hafter : ∀ t ∈ s.tasks, ∀ request indexer, t.phase = .parsing request indexer →
      looks (s.world.after setup.frontend request)) : (TaskInvariant.timed looks).Kept setup s where
  begun := by
    intro _ errand i s₁ hworld hstate
    refine unbuffered_beginParse hunsaved ?_ ?_ i
    · rw [hstate]; exact hmarks
    · rw [hworld]; exact hbefore
  skipped := by
    intro _ errand i s₁ hworld hstate unit hunit
    refine timed_unparsed ?_ ?_ hunit
    · refine unbuffered_beginParse hunsaved ?_ ?_ i
      · rw [hstate]; exact hmarks
      · rw [hworld]; exact hbefore
    · rw [world_beginParse, hworld]
      exact hbefore
  parsed := by
    rintro errand request indexer ⟨t, ht, hphase⟩ hasked unit hunit
    exact timed_runFrontend hasked (hafter t ht request indexer hphase) hunit

/-! ## Runs -/

namespace Run

/-- A state on the way of a run. -/
def Moment (r : Run) (s : Scheduler) : Prop :=
  (∃ is ls, Trace r.setup (Scheduler.start r.setup r.world r.start) is ls s)
    ∧ ∃ is ls, Trace r.setup s is ls r.ended

/-- The worlds in which a run looks up times: when it is planned, at the moments of its jobs, and
when a front end has done its work. -/
inductive Looks (r : Run) : World → Prop where
  | planned : Looks r r.seen
  | moment {s : Scheduler} : r.Moment s → Looks r s.world
  | parsed {s : Scheduler} {t : Task} {request : ParseRequest} {indexer : UnitIndexer} :
      r.Moment s → t ∈ s.tasks → t.phase = .parsing request indexer →
      Looks r (s.world.after r.setup.frontend request)

variable {r : Run}

/-- **Every unit that lands was timed in the run.** -/
theorem timed_landing (hunsaved : r.setup.unsaved = ∅) (hstart : r.start.pch.Unmarked)
    (hsize : r.invocations.length < UInt64.size) {l : Landing} (hl : l ∈ r.landings) :
    l.unit.source.Timed r.Looks := by
  have hkept : ∀ is' ls' s', Trace r.setup (Scheduler.start r.setup r.world r.start) is' ls' s' →
      (∃ is'' ls'', r.invocations = is' ++ is'' ∧ r.landings = ls' ++ ls''
        ∧ Trace r.setup s' is'' ls'' r.ended) →
      (∀ l ∈ ls', (TaskInvariant.timed r.Looks).Landed l) →
      (TaskInvariant.timed r.Looks).Kept r.setup s' := by
    intro is' ls' s' hto hfrom hlanded
    obtain ⟨is'', ls'', -, -, hfrom⟩ := hfrom
    have hmoment : r.Moment s' := ⟨⟨is', ls', hto⟩, is'', ls'', hfrom⟩
    refine TaskInvariant.timed_kept hunsaved (hto.unmarked hstart (fun l hl => ?_)) (.moment hmoment)
      (fun t ht request indexer hphase => .parsed hmoment ht hphase)
    obtain ⟨errand, -, hbrought, -⟩ := hlanded l hl
    exact (hbrought l.unit rfl).1
  obtain ⟨errand, -, hbrought, -⟩ := (r.trace.carried hsize hkept).2 l hl
  exact (hbrought l.unit rfl).2

end Run

variable {table : SortedMap Path Stamp}

/-! ## Times that are not the disk's -/

/-- **A run leaves a table of times of its own as it is.** -/
theorem Trace.stamps (h : Trace setup s is ls s') : s'.world.stamps = s.world.stamps := by
  induction h with
  | start => rfl
  | submit i _ ih => exact (spares_submit setup _ i).2.trans ih
  | recount f _ ih =>
    exact (congrArg Prod.fst ((Scheduler.Spares.refl _).mapCompletion f).backdrop).trans ih
  | step _ hstep ih => exact (congrArg Prod.fst (lands_step hstep).2).trans ih
  | parse _ hparse ih => exact (congrArg Prod.fst (spares_endParse hparse).2).trans ih

theorem World.lastModified_congr (h : w.stamps = some table) (h' : w'.stamps = some table)
    (p : Path) : w.lastModified p = w'.lastModified p := by
  unfold lastModified
  rw [h, h']

theorem World.lastModified_of_same (h : w.stamps = some table) (hsame : p.same q = true) :
    w.lastModified p = w.lastModified q := by
  unfold lastModified
  rw [h]
  simp only
  rw [get?_congr table (Path.compare_eq_iff_same.mpr hsame)]

theorem Run.lastModified_of_looks {r : Run} (hseen : r.seen.stamps = some table)
    (hworld : r.world.stamps = some table) (hw : r.Looks w) (hw' : w'.stamps = some table)
    (p : Path) : w.lastModified p = w'.lastModified p := by
  have hmoment : ∀ s, r.Moment s → s.world.stamps = some table := by
    rintro s ⟨⟨is, ls, hto⟩, -⟩
    rw [hto.stamps]
    exact hworld
  refine World.lastModified_congr ?_ hw' p
  cases hw with
  | planned => exact hseen
  | moment hs | parsed hs => exact hmoment _ hs

end SymbolIndex
