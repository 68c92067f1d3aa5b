import SymbolIndex.Proofs.Composition
import SymbolIndex.Proofs.LostUnits
import SymbolIndex.Proofs.UnitReports

/-!
# Which units of a run are indexed

Of several units with one signature a run takes up the first, and of headers those that it
precompiles. A list without headers to precompile is therefore reduced to the units that lead their
signature (`Run.Hears.exists_job_iff`). When a run completes and no job fails, these are the units
that land (`Run.Hears.landed_iff_leads`), and what it hears of them is all that it merges
(`Run.Hears.mem_ops_toldBy`, `Run.Hears.mem_pending_toldBy`).
-/

namespace SymbolIndex

open List

/-- A unit that is no header, and the first of its signature. -/
def Leads (is : List Invocation) (i : Invocation) : Prop :=
  i.language.isHeader = false ∧ ∃ front back, is = front ++ i :: back
    ∧ ∀ j ∈ front, j.language.isHeader = false → i.Apart j

variable {is : List Invocation} {i j : Invocation}

theorem Leads.mem (h : Leads is i) : i ∈ is := by
  obtain ⟨-, front, back, rfl, -⟩ := h
  simp

theorem leads_concat : Leads (is ++ [i]) j ↔ Leads is j ∨ (j = i ∧ i.language.isHeader = false
      ∧ ∀ k ∈ is, k.language.isHeader = false → i.Apart k) := by
  constructor
  · rintro ⟨hunit, front, back, hsplit, hfirst⟩
    rcases split_concat hsplit with ⟨back', rfl⟩ | ⟨rfl, rfl⟩
    · exact .inl ⟨hunit, front, back', rfl, hfirst⟩
    · exact .inr ⟨rfl, hunit, hfirst⟩
  · rintro (⟨hunit, front, back, rfl, hfirst⟩ | ⟨rfl, hunit, hfirst⟩)
    · exact ⟨hunit, front, back ++ [i], by simp, hfirst⟩
    · exact ⟨hunit, is, [], rfl, hfirst⟩

theorem mem_firsts_iff : j ∈ firsts is ↔ Leads is j := by
  induction is using List.reverseRecOn with
  | nil => exact iff_of_false not_mem_nil fun h => not_mem_nil h.mem
  | append_singleton is i ih =>
    have hany := any_firsts is i
    rw [leads_concat, ← ih, firsts_concat]
    split
    · next hnone =>
      refine ⟨.inl, fun h => h.elim id fun ⟨_, hunit, hfirst⟩ => ?_⟩
      obtain ⟨k, hk, hkunit, hnot⟩ := hany.mp (hnone.resolve_left (by simp [hunit]))
      exact absurd (hfirst k hk hkunit) hnot
    · next hnew =>
      obtain ⟨hunit, hfresh⟩ := not_or.mp hnew
      rw [mem_append, mem_singleton]
      refine or_congr_right ⟨fun hj => ⟨hj, by simpa using hunit, fun k hk hkunit => ?_⟩, And.left⟩
      exact Classical.not_not.mp fun hnot => hfresh (hany.mpr ⟨k, hk, hkunit, hnot⟩)

theorem Leads.eq_of_same (hi : Leads is i) (hj : Leads is j)
    (hsame : i.signature.same j.signature = true) : i = j :=
  eq_of_apart id (pairwise_firsts is) (mem_firsts_iff.mpr hi) (mem_firsts_iff.mpr hj) hsame

theorem leads_iff_of_apart (hapart : is.Pairwise Invocation.Apart)
    (hunits : ∀ i ∈ is, i.language.isHeader = false) : Leads is i ↔ i ∈ is := by
  refine ⟨Leads.mem, fun hi => ⟨hunits i hi, ?_⟩⟩
  obtain ⟨front, back, rfl⟩ := append_of_mem hi
  refine ⟨front, back, rfl, fun j hj _ => ?_⟩
  exact ((pairwise_append.mp hapart).2.2 j hj i mem_cons_self).symm

/-! ## Runs -/

namespace Run

/-- No job of a run crashes, and none is open at its end. The latter is asked for only where tasks
move before all units are submitted: otherwise no job of a run that completes is open. -/
def Unfailing (r : Run) : Prop :=
  ∀ id job, r.ended.jobs.get? id = some job →
    job.state ≠ .crashed ∧ (r.schedule.early = [] ∨ job.state.isTerminal = true)

/-- What the chosen units of a run tell. -/
def toldBy (r : Run) (chosen : Invocation → Bool) : List Contribution :=
  (r.units.filter fun u => chosen u.source.invocation).map ParsedUnit.contribution

theorem toldBy_all (r : Run) : r.toldBy (fun _ => true) = r.contributions := by
  simp [toldBy, contributions]

/-- A run without precompiled headers and buffers that completes without a failure, and whose front
end gives known answers. -/
structure Hears (r : Run) (answers : ParseRequest → List Event) : Prop where
  unsaved : r.setup.unsaved = ∅
  size : r.invocations.length + 1 < UInt64.size
  plain : ∀ i ∈ r.invocations, ¬r.setup.config.Precompiles i
  bare : r.start.pch.Bare
  completed : r.Completed
  unfailing : r.Unfailing
  answers : r.Answers answers

namespace Hears

variable {r : Run} {answers : ParseRequest → List Event} {i : Invocation} {l : Landing}
  {chosen : Invocation → Bool}

variable (h : r.Hears answers)

include h

/-- **Which submitted units become jobs.** -/
theorem exists_job_iff : (∃ id, r.ended.invocation? id = some i) ↔ Leads r.invocations i := by
  have hsize := Nat.lt_of_succ_lt h.size
  exact ((r.trace.registered hsize h.plain).exists_job_iff hsize).trans mem_firsts_iff

theorem completeLocal {id : JobId} {job : Job} (hjob : r.ended.jobs.get? id = some job) :
    job.state = .completeLocal := by
  have hsize := Nat.lt_of_succ_lt h.size
  obtain ⟨hcrashed, hended⟩ := h.unfailing id job hjob
  have hended : job.state.isTerminal = true := by
    rcases hended with hearly | hended
    · obtain ⟨stats, hwait⟩ := h.completed
      exact Schedule.ended_of_wait hearly hsize hwait hjob
    · exact hended
  rcases job_cases hsize hjob with hstate | hstate | hopen
  · exact hstate
  · exact absurd hstate hcrashed
  · cases hended.symm.trans hopen

/-- **The units that land are those that lead.** -/
theorem landed_iff_leads : (∃ l ∈ r.landings, l.job.invocation = i) ↔ Leads r.invocations i := by
  rw [r.trace.landed_iff (Nat.lt_of_succ_lt h.size), ← h.exists_job_iff]
  constructor
  · rintro ⟨id, job, hjob, rfl, -⟩
    exact ⟨id, Option.map_eq_some_iff.mpr ⟨job, hjob, rfl⟩⟩
  · rintro ⟨id, hid⟩
    obtain ⟨job, hjob, hinvocation⟩ := Option.map_eq_some_iff.mp hid
    exact ⟨id, job, hjob, hinvocation, h.completeLocal hjob⟩

theorem headerless : r.Headerless := by
  refine ⟨h.bare, fun l hl => ?_⟩
  obtain ⟨-, hheader, -⟩ := r.trace.landed_own (Nat.lt_of_succ_lt h.size) hl
  obtain ⟨hunit, -⟩ := h.landed_iff_leads.mp ⟨l, hl, rfl⟩
  rw [hunit] at hheader
  exact Option.not_isSome_iff_eq_none.mp fun hsome => absurd (hheader.mpr hsome) (by simp)

theorem bare_saved : r.saved.pch.Bare := by
  intro key
  rw [r.origin?_saved]
  split
  · rfl
  · exact h.headerless.bare r.trace (fun _ hl => hl) key

/-- **What lands was heard.** -/
theorem heard (hl : l ∈ r.landings) :
    l.unit.Heard r.setup.config l.job.invocation (r.setup.config.heard answers l.job.invocation) :=
  heard_landing h.answers h.headerless h.unsaved (Nat.lt_of_succ_lt h.size) hl

theorem exists_unit_iff {P : List EntityOp → SortedMap SourcePosition PendingReference → Prop} :
    (∃ u ∈ r.units.filter (fun u => chosen u.source.invocation),
        P u.contribution.ops u.contribution.pending)
      ↔ ∃ i, Leads r.invocations i ∧ chosen i = true
        ∧ P (reportOf (r.setup.config.heard answers i)).ops
          (reportOf (r.setup.config.heard answers i)).pending := by
  constructor
  · rintro ⟨u, hu, hP⟩
    obtain ⟨hu, hchosen⟩ := mem_filter.mp hu
    obtain ⟨l, hl, rfl⟩ := mem_map.mp hu
    have hown := (r.mem_invocations_of_landing h.size hl).1
    have hheard := h.heard hl
    rw [hown] at hchosen
    rw [hheard.ops, hheard.pending] at hP
    exact ⟨_, h.landed_iff_leads.mp ⟨l, hl, rfl⟩, hchosen, hP⟩
  · rintro ⟨i, hleads, hchosen, hP⟩
    obtain ⟨l, hl, rfl⟩ := h.landed_iff_leads.mpr hleads
    have hown := (r.mem_invocations_of_landing h.size hl).1
    have hheard := h.heard hl
    rw [← hheard.ops, ← hheard.pending] at hP
    rw [← hown] at hchosen
    exact ⟨l.unit, mem_filter.mpr ⟨mem_map_of_mem hl, hchosen⟩, hP⟩

theorem mem_ops_toldBy {op : EntityOp} :
    op ∈ Graph.opsOf (r.toldBy chosen) ↔ ∃ i, Leads r.invocations i ∧ chosen i = true
      ∧ op ∈ (reportOf (r.setup.config.heard answers i)).ops := by
  rw [← h.exists_unit_iff (P := fun ops _ => op ∈ ops)]
  simp only [Graph.opsOf, toldBy, mem_flatMap, mem_map]
  grind

theorem mem_pending_toldBy {p : SourcePosition × PendingReference} :
    p ∈ Graph.pendingOf (r.toldBy chosen) ↔ ∃ i, Leads r.invocations i ∧ chosen i = true
      ∧ p ∈ (reportOf (r.setup.config.heard answers i)).pending.toList := by
  rw [← h.exists_unit_iff (P := fun _ pending => p ∈ pending.toList)]
  simp only [Graph.pendingOf, toldBy, mem_flatMap, mem_map]
  grind

end Hears

end Run

end SymbolIndex
