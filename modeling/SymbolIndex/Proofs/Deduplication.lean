import SymbolIndex.Proofs.LostUnits

/-!
# Units that are submitted more than once

Of the units of one signature the first that is submitted becomes a job, and all others are counted
as duplicates. What the jobs have parsed takes the place of what was stored under the same
signature; everything else that was stored stays where it is.

`Scheduler.run_deduplicates` says so of every moment of every run. The order in which units are
stored is the one in which their jobs land, and that need not be the one of their submission, even
if only one of them is parsed at a time.
-/

namespace SymbolIndex

open List Option Scheduler Trace

variable {setup : RunSetup} {world : World} {state : IndexState} {is : List Invocation}
  {ls : List Landing} {s s' : Scheduler} {i : Invocation}

/-! ## The units that are stored -/

/-- **The stored units once some have landed that have signatures of their own.** -/
theorem IndexState.sources_integrateAll {a b : IndexState} {us : List ParsedUnit}
    (h : a.integrateAll us = .ok b)
    (hapart : us.Pairwise (fun u v => u.source.invocation.Apart v.source.invocation)) :
    b.sources = a.sources.filter (fun x => us.all (fun u =>
        !x.invocation.signature.same u.source.invocation.signature))
      ++ us.map ParsedUnit.source := by
  induction us generalizing a with
  | nil =>
    cases h
    simp
  | cons u us ih =>
    obtain ⟨⟨visited, a₁⟩, hone, hrest⟩ := bind_eq_ok_iff.mp h
    obtain ⟨hu, hus⟩ := pairwise_cons.mp hapart
    have hkept : [u.source].filter (fun x => us.all (fun v =>
        !x.invocation.signature.same v.source.invocation.signature)) = [u.source] := by
      refine filter_eq_self.mpr fun x hx => all_eq_true.mpr fun v hv => ?_
      rw [mem_singleton.mp hx]
      simpa [Invocation.Apart] using hu v hv
    rw [ih hrest hus, sources_integrate hone, Source.landIn, List.filter_append, List.filter_filter,
      hkept, List.append_assoc, List.singleton_append, List.map_cons]
    simp only [all_cons, Bool.and_comm]

section

variable (h : Trace setup (Scheduler.start setup world state) is ls s)
  (hsize : is.length < UInt64.size)

include h hsize

theorem Trace.nodup_landed : (ls.map (fun l => l.job.id)).Nodup := by
  obtain ⟨g, rfl, horderly⟩ := h.orderly hsize
  refine nodup_iff_count_le_one.mpr fun id => ?_
  rw [count_eq_countP, countP_map]
  rcases Nat.eq_zero_or_pos (g.landed.countP ((· == id) ∘ fun l => l.job.id)) with hzero | hpos
  · omega
  · obtain ⟨l, hl, hid⟩ := countP_pos_iff.mp hpos
    obtain rfl : l.job.id = id := eq_of_beq hid
    obtain ⟨job, hjob, -⟩ := map_eq_some_iff.mp ((h.filed hsize).2 l hl)
    have hcount : g.landings l.job.id = job.state.isComplete.toNat :=
      (horderly.sound _ job hjob).landings (h.home hsize _ job hjob).1
    have hsame : g.landings l.job.id = g.landed.countP ((· == l.job.id) ∘ fun l => l.job.id) := rfl
    have hle := Bool.toNat_le job.state.isComplete
    omega

/-- **No two units land that have one signature.** -/
theorem Trace.pairwise_landed (hunits : ∀ i ∈ is, i.language.isHeader = false) :
    (ls.map Landing.unit).Pairwise (fun u v => u.source.invocation.Apart v.source.invocation) := by
  have hfiled := (h.filed hsize).2
  refine pairwise_map.mpr ((pairwise_map.mp (h.nodup_landed hsize)).imp_of_mem ?_)
  intro a b ha hb hne
  rw [(h.landed_own hsize ha).1, (h.landed_own hsize hb).1]
  exact (h.registered hsize (not_precompiles hunits)).apart (hfiled a ha) (hfiled b hb) hne

end

/-! ## Whole runs -/

/-- A job of the invocation is complete. -/
def Scheduler.Parsed (s : Scheduler) (i : Invocation) : Prop :=
  ∃ id job, s.jobs.get? id = some job ∧ job.invocation = i ∧ job.state = .completeLocal

/-- What has come of units that were submitted to a run in which others were stored, `new` being
those that were stored since. -/
structure Deduplicated (stored : List Source) (is : List Invocation) (s : Scheduler)
    (new : List Source) : Prop where
  registered : Registered is s
  sources : s.state.sources = stored.filter (fun x => new.all (fun y =>
    !x.invocation.signature.same y.invocation.signature)) ++ new
  parsed : ∀ i, i ∈ new.map Source.invocation ↔ i ∈ firsts is ∧ s.Parsed i
  apart : Apart s.state.sources

theorem Trace.deduplicated (h : Trace setup (Scheduler.start setup world state) is ls s)
    (hsize : is.length < UInt64.size) (hunits : ∀ i ∈ is, i.language.isHeader = false)
    (hapart : Apart state.sources) :
    Deduplicated state.sources is s (ls.map (fun l => l.unit.source)) := by
  have hregistered := h.registered hsize (not_precompiles hunits)
  obtain ⟨r, hall, hindex⟩ := h.integrated
  have hsources : s.state.sources = r.sources := congrArg (fun i => i.2.2) hindex
  refine ⟨hregistered, ?_, fun i => ?_, ?_⟩
  · rw [hsources, IndexState.sources_integrateAll hall (h.pairwise_landed hsize hunits), List.map_map]
    simp only [List.all_map]
    rfl
  · have hown : i ∈ (ls.map (fun l => l.unit.source)).map Source.invocation
        ↔ ∃ l ∈ ls, l.job.invocation = i := by
      rw [List.map_map, List.mem_map]
      exact exists_congr fun l => and_congr_right fun hl => by
        rw [← (h.landed_own hsize hl).1]
        rfl
    rw [hown, h.landed_iff hsize]
    refine ⟨fun hparsed => ⟨?_, hparsed⟩, fun hparsed => hparsed.2⟩
    obtain ⟨id, job, hjob, rfl, -⟩ := hparsed
    exact (hregistered.exists_job_iff hsize).mp ⟨id, map_eq_some_iff.mpr ⟨job, hjob, rfl⟩⟩
  · rw [hsources]
    exact IndexState.apart_integrateAll hall hapart

/-- **Units that are submitted to a run are parsed and stored once each**, in whatever order tasks
move. What is new is stored in the order in which the jobs have landed it. If all units were
submitted before the first task moved, no job is open once the run is found complete. -/
theorem Scheduler.run_deduplicates (h : Trace setup (Scheduler.start setup world state) is ls s)
    (hsize : is.length < UInt64.size) (hunits : ∀ i ∈ is, i.language.isHeader = false)
    (hapart : Apart state.sources) :
    Deduplicated state.sources is s (ls.map (fun l => l.unit.source))
      ∧ (∀ id job, s.jobs.get? id = some job → job.state.isTerminal = true →
        job.state = .completeLocal ∨ job.state = .crashed)
      ∧ ∀ (o : Schedule) stats, o.early = [] →
        (o.ended setup world state is).waitForCompletion.1 = .ok stats →
        ∀ id job, (o.ended setup world state is).jobs.get? id = some job →
          job.state.isTerminal = true := by
  refine ⟨h.deduplicated hsize hunits hapart, fun id job hjob hended => ?_,
    fun o stats hearly hwait id job => Schedule.ended_of_wait hearly hsize hwait⟩
  rcases (h.home hsize id job hjob).2 with hstate | hstate | hstate
  · rw [hstate] at hended
    cases hended
  · rw [hstate] at hended
    cases hended
  · exact hstate

/-- A front end that fails on one unit, and one permit. -/
def brittleSetup : RunSetup :=
  { config := { stagingDir := some ⟨"/staging"⟩ }
    frontend := fun disk request =>
      { disk, ending := if request.invocation = fileUnit "/c.c" then .crashed
          else .parsed (.bytes ⟨#[]⟩) } }

def twoStored : IndexState :=
  { sources := ["/b.c", "/c.c"].map (fun name => { invocation := fileUnit name, lastModified := 7 }) }

/-- One of them is submitted twice and one fails: it stays, and what is parsed comes behind it. -/
theorem Scheduler.run_deduplicates_brittle :
    let is := ["/c.c", "/b.c", "//b.c", "/a.c"].map fileUnit
    let run := ({} : Schedule).ended brittleSetup {} twoStored is
    (∃ new, Deduplicated twoStored.sources is run new)
    ∧ run.waitForCompletion.1.toOption.isSome = true
    ∧ run.counters.duplicates = 1
    ∧ run.state.sources.map Source.invocation = ["/c.c", "/b.c", "/a.c"].map fileUnit := by
  intro is run
  obtain ⟨hnew, -⟩ := run_deduplicates (({} : Schedule).trace brittleSetup {} twoStored is)
    (by decide) (by decide) (by unfold Apart Invocation.Apart; decide)
  exact ⟨⟨_, hnew⟩, by decide, by decide, by decide⟩

/-- The first task gives its permit back before it stores what it has parsed, and the second takes
it and comes to its end. -/
def overtaking : Schedule :=
  { late := replicate 4 (.task 0) ++ .parse 0 :: .task 0 :: replicate 4 (.task 1)
      ++ .parse 1 :: replicate 3 (.task 1) ++ replicate 3 (.task 0)
    settles := false }

/-- **With one permit, what is submitted first may be stored last.** -/
theorem Scheduler.one_permit_overtaken :
    let run := overtaking.ended brittleSetup {} {} (["/a.c", "/b.c"].map fileUnit)
    brittleSetup.permits = 1 ∧ run.waitForCompletion.1.toOption.isSome = true
      ∧ run.state.sources.map Source.invocation = ["/b.c", "/a.c"].map fileUnit := by
  decide

end SymbolIndex
