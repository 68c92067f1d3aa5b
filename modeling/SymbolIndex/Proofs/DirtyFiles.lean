import Mathlib.Data.List.Induction
import SymbolIndex.Proofs.Plan

/-!
# Which files a plan takes for changed

The files that count as changed decide what an update forgets. They are the files given as changed,
the inputs of the units that are parsed again, and the outdated dependencies that were met on the
way. Not every outdated dependency is met: a unit made from a buffer, and a unit whose input counts
as changed already, are judged by that alone and their dependencies are passed over.

`contains_dirtyFiles_iff` says exactly what is in the set. The set misses a file whenever a unit
that is passed over is the only one to show that the file has changed, as `make_overlooks_header`
does with two units of one input.
-/

namespace SymbolIndex.Plan

variable (times : Path → UInt64) (changed : List Path)

/-- A unit is parsed again before its dependencies are looked at. -/
def PassedOver (before : List Source) (s : Source) : Prop :=
  s.fromUnsavedFile = true
    ∨ SortedMap.contains (make times before changed).dirtyFiles s.input = true

/-- `p` names a file given as changed, or the input of a unit that is parsed again. -/
def Named (sources : List Source) (p : Path) : Prop :=
  (∃ c ∈ changed, p.same c = true)
    ∨ ∃ i ∈ (make times sources changed).reparse, p.same i.input = true

/-- `p` names an outdated dependency of a unit whose dependencies are looked at. -/
def Met (sources : List Source) (p : Path) : Prop :=
  ∃ before s after, sources = before ++ s :: after ∧ ¬ PassedOver times changed before s
    ∧ s.Outdated times p

/-- A changed dependency that no unit was looked at for. -/
def Overlooked (sources : List Source) (p : Path) : Prop :=
  (∃ s ∈ sources, s.Outdated times p) ∧ ¬ Met times changed sources p
    ∧ ¬ Named times changed sources p

/-! ## One more unit -/

theorem make_concat (sources : List Source) (s : Source) :
    make times (sources ++ [s]) changed = visit times (make times sources changed) s := by
  unfold make
  rw [List.foldl_append]
  rfl

variable {times changed}

variable {s : Source} {p : Path} {plan : Plan} {sources : List Source}

/-- Looking at a unit adds its input when a buffer took part, and its outdated dependencies unless
they are passed over. -/
theorem contains_isSourceDirty_iff {dirty : SortedSet Path} :
    SortedMap.contains (isSourceDirty times dirty s).2 p = true ↔ SortedMap.contains dirty p = true
        ∨ (s.fromUnsavedFile = true ∧ p.same s.input = true)
        ∨ (¬ (s.fromUnsavedFile = true ∨ SortedMap.contains dirty s.input = true)
          ∧ s.Outdated times p) := by
  unfold isSourceDirty
  by_cases hsaved : s.fromUnsavedFile = true
  · rw [if_pos hsaved, SortedSet.contains_add, Bool.or_eq_true, beq_iff_eq,
      Path.compare_eq_iff_same]
    simp [hsaved, or_comm]
  · rw [if_neg hsaved]
    by_cases hinput : SortedMap.contains dirty s.input = true
    · rw [if_pos hinput]
      simp [hsaved, hinput]
    · rw [if_neg hinput]
      have hfold := (foldl_visitDependency times s.dependencies.toList
        (times s.input ≠ s.lastModified) dirty).2 p
      simpa [hsaved, hinput, Source.Outdated] using hfold

theorem contains_visit_iff : SortedMap.contains (visit times plan s).dirtyFiles p = true
      ↔ SortedMap.contains plan.dirtyFiles p = true
        ∨ ((isSourceDirty times plan.dirtyFiles s).1 = true ∧ p.same s.input = true)
        ∨ (¬ (s.fromUnsavedFile = true ∨ SortedMap.contains plan.dirtyFiles s.input = true)
          ∧ s.Outdated times p) := by
  have hlook : SortedMap.contains (isSourceDirty times plan.dirtyFiles s).2 p = true ↔ _ :=
    contains_isSourceDirty_iff
  -- a unit made from a buffer is parsed again, so its input is in the set either way
  have hbuffer : s.fromUnsavedFile = true → (isSourceDirty times plan.dirtyFiles s).1 = true := by
    intro hsaved
    unfold isSourceDirty
    rw [if_pos hsaved]
  cases hb : (isSourceDirty times plan.dirtyFiles s).1 with
  | true =>
    have hv : (visit times plan s).dirtyFiles
        = (isSourceDirty times plan.dirtyFiles s).2.add s.input := by
      simp [visit, hb]
    rw [hv, SortedSet.contains_add, Bool.or_eq_true, beq_iff_eq, Path.compare_eq_iff_same, hlook]
    grind
  | false =>
    have hv : (visit times plan s).dirtyFiles = (isSourceDirty times plan.dirtyFiles s).2 := by
      simp [visit, hb]
    rw [hv, hlook]
    grind

theorem mem_reparse_visit_iff {i : Invocation} : i ∈ (visit times plan s).reparse ↔ i ∈ plan.reparse
        ∨ ((isSourceDirty times plan.dirtyFiles s).1 = true ∧ i = s.invocation) := by
  cases hb : (isSourceDirty times plan.dirtyFiles s).1 with
  | true | false => simp [visit, hb]

theorem named_concat : Named times changed (sources ++ [s]) p ↔ Named times changed sources p
        ∨ ((isSourceDirty times (make times sources changed).dirtyFiles s).1 = true
          ∧ p.same s.input = true) := by
  unfold Named
  rw [make_concat]
  constructor
  · rintro (h | ⟨i, hi, hp⟩)
    · exact .inl (.inl h)
    · rcases mem_reparse_visit_iff.mp hi with hi | ⟨hb, rfl⟩
      · exact .inl (.inr ⟨i, hi, hp⟩)
      · exact .inr ⟨hb, hp⟩
  · rintro ((h | ⟨i, hi, hp⟩) | ⟨hb, hp⟩)
    · exact .inl h
    · exact .inr ⟨i, mem_reparse_visit_iff.mpr (.inl hi), hp⟩
    · exact .inr ⟨s.invocation, mem_reparse_visit_iff.mpr (.inr ⟨hb, rfl⟩), hp⟩

theorem met_concat : Met times changed (sources ++ [s]) p ↔ Met times changed sources p
        ∨ (¬ PassedOver times changed sources s ∧ s.Outdated times p) := by
  unfold Met
  constructor
  · rintro ⟨before, s', after, heq, hlook, hp⟩
    rcases List.eq_nil_or_concat after with rfl | ⟨rest, last, rfl⟩
    · obtain ⟨rfl, hlast⟩ := List.append_inj' heq rfl
      obtain rfl := List.singleton_inj.mp hlast
      exact .inr ⟨hlook, hp⟩
    · have heq' : sources ++ [s] = (before ++ s' :: rest) ++ [last] := by
        rw [heq, List.concat_eq_append]
        simp
      exact .inl ⟨before, s', rest, (List.append_inj' heq' rfl).1, hlook, hp⟩
  · rintro (⟨before, s', after, rfl, hlook, hp⟩ | ⟨hlook, hp⟩)
    · exact ⟨before, s', after ++ [s], by simp, hlook, hp⟩
    · exact ⟨sources, s, [], rfl, hlook, hp⟩

/-! ## All units -/

variable (times changed)

/-- **What counts as changed.** -/
theorem contains_dirtyFiles_iff (sources : List Source) (p : Path) :
    SortedMap.contains (make times sources changed).dirtyFiles p = true
      ↔ Named times changed sources p ∨ Met times changed sources p := by
  induction sources using List.reverseRecOn with
  | nil =>
    show SortedMap.contains (SortedSet.collect changed) p = true ↔ _
    rw [SortedSet.contains_collect]
    simp only [Path.compare_eq_iff_same]
    constructor
    · exact fun h => .inl (.inl h)
    · rintro ((h | ⟨i, hi, _⟩) | ⟨before, s, after, h, _⟩)
      · exact h
      · simp [make] at hi
      · simp at h
  | append_singleton _ _ ih =>
    rw [make_concat, contains_visit_iff, named_concat, met_concat, ih]
    unfold PassedOver
    grind

theorem due_of_contains (h : SortedMap.contains (make times sources changed).dirtyFiles p = true) :
    Named times changed sources p ∨ ∃ s ∈ sources, s.Outdated times p := by
  rcases (contains_dirtyFiles_iff times changed sources p).mp h with h | ⟨before, s, after, rfl, _, hp⟩
  · exact .inl h
  · exact .inr ⟨s, by simp, hp⟩

/--
**Changed files reach the set unless they are overlooked.**

The set holds exactly the files given as changed, the inputs of the units that are parsed again,
and the outdated dependencies of the units whose dependencies are looked at. It is all of the
outdated dependencies, of whichever unit, exactly when none is overlooked.
-/
theorem dirtyFiles_complete_iff (sources : List Source) :
    (∀ p, SortedMap.contains (make times sources changed).dirtyFiles p = true
      ↔ Named times changed sources p ∨ Met times changed sources p)
    ∧ ((∀ p, SortedMap.contains (make times sources changed).dirtyFiles p = true
        ↔ Named times changed sources p ∨ ∃ s ∈ sources, s.Outdated times p)
      ↔ ∀ p, ¬ Overlooked times changed sources p) := by
  refine ⟨contains_dirtyFiles_iff times changed sources, fun hall p hover => ?_, fun hnone p => ?_⟩
  · obtain ⟨hout, hmet, hnamed⟩ := hover
    have hin := (hall p).mpr (.inr hout)
    rcases (contains_dirtyFiles_iff times changed sources p).mp hin with h | h
    · exact hnamed h
    · exact hmet h
  · refine ⟨due_of_contains times changed, fun h => ?_⟩
    rw [contains_dirtyFiles_iff]
    rcases h with h | hout
    · exact .inl h
    · -- a file that only an overlooked unit tells of is excluded by hypothesis
      by_contra hnot
      rw [not_or] at hnot
      exact hnone p ⟨hout, hnot.2, hnot.1⟩

/-- Two units of one input, of which the second alone includes a header. -/
def sharedInput : List Source :=
  [{ invocation := { Invocation.forSource ⟨"/a.c"⟩ with arguments := ["-x", "c"] }, lastModified := 1 },
   { invocation := { Invocation.forSource ⟨"/a.c"⟩ with arguments := ["-x", "c", "-DX"] }
     lastModified := 1
     dependencies := SortedMap.ofList [(⟨"/h.h"⟩, 1)] }]

/-- Input and header have both changed. The first unit makes the input count as changed, so the
header of the second is passed over. -/
theorem make_overlooks_header : (∃ s ∈ sharedInput, s.Outdated (fun _ => 2) ⟨"/h.h"⟩)
      ∧ (make (fun _ => 2) sharedInput []).reparse.length = 2
      ∧ SortedMap.contains (make (fun _ => 2) sharedInput []).dirtyFiles ⟨"/h.h"⟩ = false := by
  refine ⟨⟨_, List.mem_cons_of_mem _ (List.mem_singleton_self _), (⟨"/h.h"⟩, 1), ?_, ?_, ?_⟩, ?_, ?_⟩
    <;> decide

end SymbolIndex.Plan
