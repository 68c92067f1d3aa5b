import SymbolIndex.Plan
import SymbolIndex.Proofs.Order
import SymbolIndex.Proofs.SortedMap

/-!
# What a plan keeps and what it parses again

The set of changed files grows while the units are visited, and the verdict on a unit depends on
all units before it. So the plan is followed together with the list of verdicts: `Split` says of a
list of visited units which verdict each of them got and what the set then holds. A visit adds one
verdict (`split_visit`), and the plan of all units is the split of the whole list (`split_make`).

Of the set only two bounds are kept. From below: the files named as changed and the inputs of the
units to be parsed again are in it. From above: what else is in it is an outdated dependency of a
unit that was visited. Equality would be wrong, since the dependencies of a unit whose input counts
as changed are not looked at.
-/

namespace SymbolIndex

open List SortedSet
open SortedMap (contains)

namespace Source

/-- The input and the dependencies. -/
def files (s : Source) : List Path := s.input :: s.dependencies.keys

/-- All files have the times that are recorded. -/
def UpToDate (times : Path → UInt64) (s : Source) : Prop :=
  times s.input = s.lastModified ∧ ∀ d ∈ s.dependencies.toList, times d.1 = d.2

/-- A dependency has another time than recorded. -/
def Outdated (times : Path → UInt64) (s : Source) (p : Path) : Prop :=
  ∃ d ∈ s.dependencies.toList, times d.1 ≠ d.2 ∧ p.same d.1 = true

theorem mem_files_iff {s : Source} {p : Path} :
    p ∈ s.files ↔ p = s.input ∨ ∃ d ∈ s.dependencies.toList, d.1 = p := by
  unfold files
  rw [mem_cons, SortedMap.mem_keys_iff]
  simp

end Source

namespace Plan

variable {dirty : SortedSet Path}

/-! ## One unit -/

/-- The dependencies make a unit dirty when one of them counts as changed or is outdated; the
outdated ones then count as changed. -/
theorem foldl_visitDependency (times : Path → UInt64) (deps : List (Path × UInt64)) (b : Bool)
    (dirty : SortedSet Path) :
    ((deps.foldl (visitDependency times) (b, dirty)).1 = true
        ↔ b = true ∨ ∃ d ∈ deps, contains dirty d.1 = true ∨ times d.1 ≠ d.2)
      ∧ ∀ p, contains (deps.foldl (visitDependency times) (b, dirty)).2 p = true
        ↔ contains dirty p = true ∨ ∃ d ∈ deps, times d.1 ≠ d.2 ∧ p.same d.1 = true := by
  induction deps generalizing b dirty with
  | nil => simp
  | cons d _ ih =>
    rw [foldl_cons]
    simp only [mem_cons, exists_eq_or_imp]
    by_cases hc : contains dirty d.1 = true
    · have hv : visitDependency times (b, dirty) d = (true, dirty) := by simp [visitDependency, hc]
      rw [hv]
      obtain ⟨h₁, h₂⟩ := ih true dirty
      refine ⟨by rw [h₁]; simp [hc], fun p => ?_⟩
      rw [h₂ p]
      constructor
      · exact fun h => h.imp id .inr
      · rintro (h | ⟨_, hs⟩ | h)
        · exact .inl h
        · -- the dependency is in the set under another spelling
          rw [SortedMap.contains_congr dirty (Path.compare_eq_iff_same.mpr hs)]
          exact .inl hc
        · exact .inr h
    · by_cases ht : times d.1 ≠ d.2
      · have hv : visitDependency times (b, dirty) d = (true, dirty.add d.1) := by
          simp [visitDependency, hc, ht]
        rw [hv]
        obtain ⟨h₁, h₂⟩ := ih true (dirty.add d.1)
        refine ⟨by rw [h₁]; simp [ht], fun p => ?_⟩
        rw [h₂ p, contains_add, Bool.or_eq_true, beq_iff_eq, Path.compare_eq_iff_same]
        constructor
        · rintro ((h | h) | h)
          · exact .inr (.inl ⟨ht, h⟩)
          · exact .inl h
          · exact .inr (.inr h)
        · rintro (h | ⟨_, h⟩ | h)
          · exact .inl (.inr h)
          · exact .inl (.inl h)
          · exact .inr h
      · have hv : visitDependency times (b, dirty) d = (b, dirty) := by
          simp [visitDependency, hc, ht]
        rw [hv]
        obtain ⟨h₁, h₂⟩ := ih b dirty
        refine ⟨by rw [h₁]; simp [hc, ht], fun p => ?_⟩
        rw [h₂ p]
        simp [ht]

variable {times : Path → UInt64} {s : Source} {p : Path} {changed : List Path}
  {split : List (Source × Bool)}

theorem isSourceDirty_false (h : (isSourceDirty times dirty s).1 = false) :
    s.fromUnsavedFile = false ∧ s.UpToDate times
      ∧ ∀ p ∈ s.files, contains dirty p = false := by
  unfold isSourceDirty at h
  split at h
  · cases h
  · next hsaved =>
    split at h
    · cases h
    · next hinput =>
      have hfold := (foldl_visitDependency times s.dependencies.toList
        (times s.input ≠ s.lastModified) dirty).1
      rw [h] at hfold
      simp only [Bool.false_eq_true, false_iff, decide_eq_true_eq, not_or, not_exists,
        not_and, ne_eq, Decidable.not_not] at hfold
      refine ⟨by simpa using hsaved, ⟨hfold.1, fun d hd => (hfold.2 d hd).2⟩, ?_⟩
      intro p hp
      rcases Source.mem_files_iff.mp hp with rfl | ⟨d, hd, rfl⟩
      · simpa using hinput
      · simpa using (hfold.2 d hd).1

theorem isSourceDirty_true (h : (isSourceDirty times dirty s).1 = true) :
    s.fromUnsavedFile = true ∨ ¬ s.UpToDate times
      ∨ ∃ p ∈ s.files, contains dirty p = true := by
  unfold isSourceDirty at h
  split at h
  · next hsaved => exact .inl hsaved
  · split at h
    · next hinput => exact .inr (.inr ⟨s.input, Source.mem_files_iff.mpr (.inl rfl), hinput⟩)
    · rcases (foldl_visitDependency times s.dependencies.toList
        (times s.input ≠ s.lastModified) dirty).1.mp h with hb | ⟨d, hd, hc | ht⟩
      · exact .inr (.inl (fun hup => (of_decide_eq_true hb) hup.1))
      · exact .inr (.inr ⟨d.1, Source.mem_files_iff.mpr (.inr ⟨d, hd, rfl⟩), hc⟩)
      · exact .inr (.inl (fun hup => ht (hup.2 d hd)))

/-- What looking at a unit adds to the changed files: its input when a buffer took part, and
outdated dependencies. -/
theorem contains_isSourceDirty (h : contains (isSourceDirty times dirty s).2 p = true) :
    contains dirty p = true
      ∨ ((isSourceDirty times dirty s).1 = true ∧ p.same s.input = true)
      ∨ s.Outdated times p := by
  unfold isSourceDirty at h ⊢
  split at h
  · next hsaved =>
    rw [contains_add, Bool.or_eq_true, beq_iff_eq, Path.compare_eq_iff_same] at h
    rw [if_pos hsaved]
    exact h.elim (fun h => .inr (.inl ⟨rfl, h⟩)) .inl
  · split at h
    · exact .inl h
    · exact (((foldl_visitDependency times s.dependencies.toList _ dirty).2 p).mp h).imp id .inr

theorem contains_isSourceDirty_of (h : contains dirty p = true) :
    contains (isSourceDirty times dirty s).2 p = true := by
  unfold isSourceDirty
  split
  · rw [contains_add, h, Bool.or_true]
  · split
    · exact h
    · exact ((foldl_visitDependency times s.dependencies.toList _ dirty).2 p).mpr (.inl h)

/-! ## All units -/

/-- `p` names a file that was given as changed, or the input of a unit that is parsed again. -/
def Announced (changed : List Path) (split : List (Source × Bool)) (p : Path) : Prop :=
  (∃ c ∈ changed, p.same c = true) ∨ ∃ e ∈ split, e.2 = true ∧ p.same e.1.input = true

def FoundOutdated (times : Path → UInt64) (split : List (Source × Bool)) (p : Path) : Prop :=
  ∃ e ∈ split, e.1.Outdated times p

/-- A unit that a plan leaves alone, after those before it. -/
structure Clean (times : Path → UInt64) (changed : List Path) (before : List (Source × Bool))
    (s : Source) : Prop where
  saved : s.fromUnsavedFile = false
  upToDate : s.UpToDate times
  quiet : ∀ p ∈ s.files, ¬ Announced changed before p

/-- Why a unit is parsed again after the units before it. -/
def Stale (times : Path → UInt64) (changed : List Path) (before : List (Source × Bool))
    (s : Source) : Prop :=
  s.fromUnsavedFile = true ∨ ¬ s.UpToDate times
    ∨ ∃ p ∈ s.files, Announced changed before p ∨ FoundOutdated times before p

/-- A unit is found stale or clean, and rightly so. -/
def Judged (times : Path → UInt64) (changed : List Path) (before : List (Source × Bool))
    (e : Source × Bool) : Prop :=
  if e.2 then Stale times changed before e.1 else Clean times changed before e.1

/-- The units visited so far with the verdict on each, `true` for those to be parsed again. -/
structure Split (times : Path → UInt64) (changed : List Path) (p : Plan)
    (split : List (Source × Bool)) : Prop where
  retained : p.retained = (split.filter (fun e => !e.2)).map Prod.fst
  reparse : p.reparse = (split.filter (fun e => e.2)).map (fun e => e.1.invocation)
  announced : ∀ q, Announced changed split q → contains p.dirtyFiles q = true
  grounded : ∀ q, contains p.dirtyFiles q = true →
    Announced changed split q ∨ FoundOutdated times split q
  judged : ∀ before e after, split = before ++ e :: after → Judged times changed before e

theorem Announced.append (h : Announced changed split p) (more : List (Source × Bool)) :
    Announced changed (split ++ more) p :=
  h.imp id (fun ⟨e, he, hp⟩ => ⟨e, mem_append_left _ he, hp⟩)

theorem FoundOutdated.append (h : FoundOutdated times split p) (more : List (Source × Bool)) :
    FoundOutdated times (split ++ more) p := by
  obtain ⟨e, he, hp⟩ := h
  exact ⟨e, mem_append_left _ he, hp⟩

theorem announced_append_singleton {b : Bool} : Announced changed (split ++ [(s, b)]) p
      ↔ Announced changed split p ∨ (b = true ∧ p.same s.input = true) := by
  unfold Announced
  simp only [mem_append, mem_singleton]
  constructor
  · rintro (h | ⟨e, he | rfl, hp⟩)
    · exact .inl (.inl h)
    · exact .inl (.inr ⟨e, he, hp⟩)
    · exact .inr hp
  · rintro ((h | ⟨e, he, hp⟩) | hp)
    · exact .inl h
    · exact .inr ⟨e, .inl he, hp⟩
    · exact .inr ⟨(s, b), .inr rfl, hp⟩

theorem judged_append_singleton {e : Source × Bool}
    (h : ∀ before e after, split = before ++ e :: after → Judged times changed before e)
    (he : Judged times changed split e) :
    ∀ before e' after, split ++ [e] = before ++ e' :: after → Judged times changed before e' := by
  intro before e' after heq
  rcases eq_nil_or_concat after with rfl | ⟨rest, last, rfl⟩
  · obtain ⟨rfl, hlast⟩ := append_inj' heq rfl
    rwa [← singleton_inj.mp hlast]
  · rw [concat_eq_append] at heq
    have heq' : split ++ [e] = (before ++ e' :: rest) ++ [last] := by
      rw [heq]
      simp
    exact h before e' rest (append_inj' heq' rfl).1

theorem split_visit {p : Plan} (h : Split times changed p split) (s : Source) :
    ∃ b, Split times changed (visit times p s) (split ++ [(s, b)]) := by
  refine ⟨(isSourceDirty times p.dirtyFiles s).1, ?_⟩
  cases hb : (isSourceDirty times p.dirtyFiles s).1 with
  | false =>
    obtain ⟨hsaved, hup, hquiet⟩ := isSourceDirty_false hb
    have hv : visit times p s = { p with
        retained := p.retained ++ [s]
        dirtyFiles := (isSourceDirty times p.dirtyFiles s).2 } := by
      simp [visit, hb]
    rw [hv]
    refine ⟨by simp [h.retained], by simp [h.reparse], ?_, ?_, ?_⟩
    · intro q hq
      rcases announced_append_singleton.mp hq with hq | ⟨hb', _⟩
      · exact contains_isSourceDirty_of (h.announced q hq)
      · cases hb'
    · intro q hq
      rcases contains_isSourceDirty hq with hq | ⟨hb', _⟩ | hq
      · exact (h.grounded q hq).imp (·.append _) (·.append _)
      · simp [hb] at hb'
      · exact .inr ⟨(s, false), by simp, hq⟩
    · refine judged_append_singleton h.judged ⟨hsaved, hup, fun q hq ha => ?_⟩
      have hc := hquiet q hq
      rw [h.announced q ha] at hc
      cases hc
  | true =>
    have hv : (visit times p s).retained = p.retained
        ∧ (visit times p s).reparse = p.reparse ++ [s.invocation]
        ∧ (visit times p s).dirtyFiles = (isSourceDirty times p.dirtyFiles s).2.add s.input := by
      simp [visit, hb]
    refine ⟨by simp [hv.1, h.retained], by simp [hv.2.1, h.reparse], ?_, ?_, ?_⟩
    · intro q hq
      rw [hv.2.2, contains_add, Bool.or_eq_true, beq_iff_eq, Path.compare_eq_iff_same]
      rcases announced_append_singleton.mp hq with hq | ⟨_, hq⟩
      · exact .inr (contains_isSourceDirty_of (h.announced q hq))
      · exact .inl hq
    · intro q hq
      rw [hv.2.2, contains_add, Bool.or_eq_true, beq_iff_eq,
        Path.compare_eq_iff_same] at hq
      rcases hq with hq | hq
      · exact .inl (announced_append_singleton.mpr (.inr ⟨rfl, hq⟩))
      · rcases contains_isSourceDirty hq with hq | ⟨_, hq⟩ | hq
        · exact (h.grounded q hq).imp (·.append _) (·.append _)
        · exact .inl (announced_append_singleton.mpr (.inr ⟨rfl, hq⟩))
        · exact .inr ⟨(s, true), by simp, hq⟩
    · refine judged_append_singleton h.judged ?_
      show Stale times changed split s
      rcases isSourceDirty_true hb with hsaved | hup | ⟨q, hq, hc⟩
      · exact .inl hsaved
      · exact .inr (.inl hup)
      · exact .inr (.inr ⟨q, hq, h.grounded q hc⟩)

theorem split_foldl (sources : List Source) {p : Plan} (h : Split times changed p split) :
    ∃ more : List (Source × Bool), more.map Prod.fst = sources
      ∧ Split times changed (sources.foldl (visit times) p) (split ++ more) := by
  induction sources generalizing p split with
  | nil => exact ⟨[], rfl, by simpa using h⟩
  | cons s _ ih =>
    obtain ⟨b, hb⟩ := split_visit h s
    obtain ⟨more, hmore, hsplit⟩ := ih hb
    exact ⟨(s, b) :: more, by simp [hmore], by simpa using hsplit⟩

theorem split_nil (times : Path → UInt64) (changed : List Path) :
    Split times changed { dirtyFiles := SortedSet.collect changed } [] where
  retained := rfl
  reparse := rfl
  announced q hq := by
    rcases hq with ⟨c, hc, hs⟩ | ⟨e, he, _⟩
    · exact (contains_collect changed q).mpr ⟨c, hc, Path.compare_eq_iff_same.mpr hs⟩
    · cases he
  grounded q hq := by
    obtain ⟨c, hc, hs⟩ := (contains_collect changed q).mp hq
    exact .inl (.inl ⟨c, hc, Path.compare_eq_iff_same.mp hs⟩)
  judged before e after h := absurd h (by simp)

theorem split_make (times : Path → UInt64) (sources : List Source) (changed : List Path) :
    ∃ split : List (Source × Bool), split.map Prod.fst = sources
      ∧ Split times changed (make times sources changed) split := by
  obtain ⟨split, hmap, hsplit⟩ := split_foldl sources (split_nil times changed)
  exact ⟨split, hmap, hsplit⟩

/--
**A plan is exact.**

The stored units fall into those that are kept and those that are parsed again. Every position of
the list gets one verdict, and both parts keep the stored order. A unit that is kept was made
from files on disk, all of which have the recorded times, and none of its files is given as changed
or is the input of an earlier unit that is parsed again. A unit that is parsed again was made from
a buffer, or a time of one of its files is not the recorded one, or one of its files is given as
changed, is the input of an earlier unit that is parsed again, or is an outdated dependency of an
earlier unit.
-/
theorem make_exact (times : Path → UInt64) (sources : List Source) (changed : List Path) :
    ∃ split : List (Source × Bool), split.map Prod.fst = sources
      ∧ (make times sources changed).retained = (split.filter (fun e => !e.2)).map Prod.fst
      ∧ (make times sources changed).reparse
        = (split.filter (fun e => e.2)).map (fun e => e.1.invocation)
      ∧ ∀ before s after, (split = before ++ (s, false) :: after → Clean times changed before s)
        ∧ (split = before ++ (s, true) :: after → Stale times changed before s) := by
  obtain ⟨split, hmap, hsplit⟩ := split_make times sources changed
  refine ⟨split, hmap, hsplit.retained, hsplit.reparse, fun before s after => ⟨?_, ?_⟩⟩
  · exact fun h => hsplit.judged before (s, false) after h
  · exact fun h => hsplit.judged before (s, true) after h

end Plan

end SymbolIndex
