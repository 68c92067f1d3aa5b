import Mathlib.Data.List.Basic
import Mathlib.Data.List.Pairwise
import SymbolIndex.Proofs.Admission
import SymbolIndex.Proofs.StaleHeaders

/-!
# Units that an update loses

An update takes the units that it parses again off the stored ones, and a unit gets back among them
when its job completes. A unit whose parse fails is therefore lost, and so is a header that is
skipped and a unit whose job is open when the update is over; the next update plans with the units
that are stored and does not know of it any more.

`Run.Continues.lost_iff` says when a unit is lost, and `Runs.gone` that no update brings it back.
-/

namespace SymbolIndex

open List

/-! ## Signatures that are stored -/

/-- All signatures differ. -/
def Apart (sources : List Source) : Prop :=
  sources.Pairwise (fun a b => a.invocation.Apart b.invocation)

/-- The stored units once one has landed: it takes the place of those with its signature. -/
def Source.landIn (new : Source) (sources : List Source) : List Source :=
  sources.filter (fun old => !old.invocation.signature.same new.invocation.signature) ++ [new]

theorem Apart.landIn {sources : List Source} (h : Apart sources) (new : Source) :
    Apart (new.landIn sources) := by
  refine pairwise_append.mpr ⟨h.filter _, pairwise_singleton _ _, fun a ha b hb => ?_⟩
  rw [mem_singleton.mp hb]
  simpa [Invocation.Apart] using (mem_filter.mp ha).2

namespace IndexState

variable {s r : IndexState} {us : List ParsedUnit}

theorem sources_integrate {c : Contribution} {new : Source} {visited : SortedSet FileId}
    (h : s.integrate c new = .ok (visited, r)) :
    r.sources = new.landIn s.sources := by
  obtain ⟨graph, files, files', -, -, rfl⟩ := integrate_eq_ok h
  rfl

theorem apart_integrateAll (h : s.integrateAll us = .ok r) (hs : Apart s.sources) :
    Apart r.sources :=
  integrateAll_keeps (P := fun s => Apart s.sources) h hs
    fun hs hone => sources_integrate hone ▸ hs.landIn _

/-- **The signatures that are stored in the end** are those of the units and those from before. -/
theorem exists_same_integrateAll (h : s.integrateAll us = .ok r) (x : Source) :
    (∃ y ∈ r.sources, y.Same x) ↔ (∃ y ∈ s.sources, y.Same x) ∨ ∃ u ∈ us, u.source.Same x := by
  induction us generalizing s with
  | nil =>
    cases h
    simp
  | cons u _ ih =>
    obtain ⟨⟨visited, s₁⟩, hone, hrest⟩ := bind_eq_ok_iff.mp h
    rw [ih hrest]
    have hstep : (∃ y ∈ s₁.sources, y.Same x) ↔ (∃ y ∈ s.sources, y.Same x) ∨ u.source.Same x := by
      simp only [mem_sources_integrate hone]
      constructor
      · rintro ⟨y, rfl | ⟨hy, -⟩, hsame⟩
        · exact .inr hsame
        · exact .inl ⟨y, hy, hsame⟩
      · rintro (⟨y, hy, hsame⟩ | hsame)
        · by_cases hu : y.Same u.source
          · exact ⟨u.source, .inl rfl, Signature.same_trans hu.symm hsame⟩
          · exact ⟨y, .inr ⟨hy, hu⟩, hsame⟩
        · exact ⟨u.source, .inl rfl, hsame⟩
    rw [hstep, or_assoc]
    simp only [mem_cons, exists_eq_or_imp]

end IndexState

theorem eq_of_apart {α : Type} (f : α → Invocation) {l : List α}
    (h : l.Pairwise (fun a b => (f a).Apart (f b))) {a b : α} (ha : a ∈ l) (hb : b ∈ l)
    (hsame : (f a).signature.same (f b).signature = true) : a = b := by
  have hsymm : Std.Symm (fun a b => (f a).Apart (f b)) := ⟨fun _ _ hapart => hapart.symm⟩
  exact Classical.byContradiction fun hne => h.forall ha hb hne hsame

/-! ## What is planned -/

namespace Plan

variable {times : Path → UInt64} {changed : List Path} {sources : List Source}

/-- Every stored unit stays as it is or is parsed again, and when all have signatures of their own
none does both. -/
theorem retained_or_reparse (times : Path → UInt64) (changed : List Path) (h : Apart sources) :
    Apart (make times sources changed).retained
      ∧ (make times sources changed).reparse.Pairwise Invocation.Apart
      ∧ (∀ s ∈ sources, s ∈ (make times sources changed).retained
        ↔ s.invocation ∉ (make times sources changed).reparse)
      ∧ (∀ s ∈ (make times sources changed).retained, s ∈ sources)
      ∧ ∀ i ∈ (make times sources changed).reparse, ∃ s ∈ sources, s.invocation = i := by
  obtain ⟨split, hsources, hmade⟩ := split_make times sources changed
  have hsplit : split.Pairwise (fun a b => a.1.invocation.Apart b.1.invocation) := by
    rw [← hsources] at h
    exact (pairwise_map (f := Prod.fst)).mp h
  have hmem : ∀ e ∈ split, e.1 ∈ sources := fun e he =>
    hsources ▸ mem_map_of_mem he
  rw [hmade.retained, hmade.reparse]
  refine ⟨pairwise_map.mpr (hsplit.filter _), pairwise_map.mpr (hsplit.filter _),
    fun s hs => ?_, fun s hs => ?_, fun i hi => ?_⟩
  · rw [← hsources] at hs
    obtain ⟨e, he, rfl⟩ := mem_map.mp hs
    -- The verdict on a unit is the one verdict on its signature.
    have hone : ∀ e' ∈ split, e'.1.invocation = e.1.invocation → e' = e := by
      intro e' he' heq
      refine eq_of_apart (fun e : Source × Bool => e.1.invocation) hsplit he' he ?_
      rw [heq]
      exact Signature.same_refl _
    have hkept : e.1 ∈ (split.filter (fun e => !e.2)).map Prod.fst ↔ e.2 = false := by
      constructor
      · intro hin
        obtain ⟨e', he', heq⟩ := mem_map.mp hin
        obtain ⟨he', hverdict⟩ := mem_filter.mp he'
        rw [← hone e' he' (by rw [heq])]
        exact Bool.not_eq_true' _ ▸ hverdict
      · intro hverdict
        exact mem_map.mpr ⟨e, mem_filter.mpr ⟨he, by rw [hverdict]; rfl⟩, rfl⟩
    have hagain : e.1.invocation ∈ (split.filter (fun e => e.2)).map (fun e => e.1.invocation)
        ↔ e.2 = true := by
      constructor
      · intro hin
        obtain ⟨e', he', heq⟩ := mem_map.mp hin
        obtain ⟨he', hverdict⟩ := mem_filter.mp he'
        rw [← hone e' he' heq]
        exact hverdict
      · intro hverdict
        exact mem_map.mpr ⟨e, mem_filter.mpr ⟨he, hverdict⟩, rfl⟩
    rw [hkept, hagain, Bool.not_eq_true]
  · obtain ⟨e, he, rfl⟩ := mem_map.mp hs
    exact hmem e (mem_filter.mp he).1
  · obtain ⟨e, he, rfl⟩ := mem_map.mp hi
    exact ⟨e.1, hmem e (mem_filter.mp he).1, rfl⟩

theorem mem_invalidated_of_reparse {i : Invocation} {key : String}
    (hi : i ∈ (make times sources changed).reparse) (hheader : i.language.isHeader = true)
    (hkey : i.headerKey? = some key) : key ∈ (make times sources changed).invalidatedPchKeys := by
  induction sources using List.reverseRecOn with
  | nil => cases hi
  | append_singleton _ _ ih =>
    rw [make_concat] at hi ⊢
    unfold visit at hi ⊢
    simp only at hi ⊢
    split at hi
    · next hdirty =>
      rw [if_pos hdirty]
      rcases mem_append.mp hi with hi | hi
      · simp only
        split
        · exact mem_append_left _ (ih hi)
        · exact ih hi
      · rw [mem_singleton.mp hi] at hheader hkey
        simp only [hheader, if_true, hkey]
        exact mem_append_right _ (mem_singleton.mpr rfl)
    · next hclean =>
      rw [if_neg hclean]
      exact ih hi

end Plan

/-! ## From run to run -/

namespace Run

variable {prev r : Run} {x : Source}

theorem exists_same_saved (r : Run) (x : Source) : (∃ y ∈ r.saved.sources, y.Same x)
      ↔ (∃ y ∈ r.start.sources, y.Same x) ∨ ∃ l ∈ r.landings, l.unit.source.Same x := by
  obtain ⟨i, hall, -, -, hsources⟩ := r.exists_integrated
  rw [hsources, IndexState.exists_same_integrateAll hall]
  unfold units
  simp only [mem_map, exists_exists_and_eq_and]

theorem apart_saved (h : Apart r.start.sources) : Apart r.saved.sources := by
  obtain ⟨i, hall, -, -, hsources⟩ := r.exists_integrated
  rw [hsources]
  exact IndexState.apart_integrateAll hall h

theorem Continues.sources (h : prev.Continues r) :
    r.start.sources = (prev.planAfter r.seen r.setup.unsaved).retained := by
  rw [h.start]
  rfl

theorem mem_invocations_of_landing (hsize : r.invocations.length + 1 < UInt64.size) {l : Landing}
    (hl : l ∈ r.landings) :
    l.unit.source.invocation = l.job.invocation ∧ l.job.invocation ∈ r.invocations := by
  obtain ⟨hasked, hlanded⟩ := r.trace.filed (Nat.lt_of_succ_lt hsize)
  exact ⟨(r.trace.landed_own (by omega) hl).1, hasked _ _ (hlanded l hl)⟩

section

variable (h : prev.Continues r) (hapart : Apart prev.saved.sources)
  (hsize : r.invocations.length + 1 < UInt64.size)

include h hapart hsize

theorem Continues.exists_of_landing {l : Landing} (hl : l ∈ r.landings)
    (hsame : l.unit.source.Same x) :
    ∃ y ∈ prev.saved.sources, y.invocation = l.job.invocation ∧ y.Same x := by
  obtain ⟨-, -, -, -, hreparse⟩ :=
    Plan.retained_or_reparse r.seen.lastModified r.setup.unsaved.keys hapart
  obtain ⟨hown, hmem⟩ := r.mem_invocations_of_landing hsize hl
  rw [h.invocations] at hmem
  obtain ⟨y, hy, heq⟩ := hreparse _ hmem
  unfold Source.Same at hsame ⊢
  exact ⟨y, hy, heq, by rwa [heq, ← hown]⟩

/-- **An update stores no signature that was not stored.** -/
theorem Continues.exists_same (hx : ∃ y ∈ r.saved.sources, y.Same x) :
    ∃ y ∈ prev.saved.sources, y.Same x := by
  obtain ⟨-, -, -, hretained, -⟩ :=
    Plan.retained_or_reparse r.seen.lastModified r.setup.unsaved.keys hapart
  rcases (r.exists_same_saved x).mp hx with ⟨y, hy, hsame⟩ | ⟨l, hl, hsame⟩
  · rw [h.sources] at hy
    exact ⟨y, hretained y hy, hsame⟩
  · obtain ⟨y, hy, -, hsame⟩ := h.exists_of_landing hapart hsize hl hsame
    exact ⟨y, hy, hsame⟩

/-- **A unit that is parsed again is stored again exactly when its job completes.** -/
theorem Continues.exists_same_iff (hx : x ∈ prev.saved.sources) :
    (∃ y ∈ r.saved.sources, y.Same x) ↔ (x.invocation ∈ r.invocations →
      ∃ id job, r.ended.jobs.get? id = some job ∧ job.invocation = x.invocation
        ∧ job.state = .completeLocal) := by
  obtain ⟨-, -, hverdict, hretained, -⟩ :=
    Plan.retained_or_reparse r.seen.lastModified r.setup.unsaved.keys hapart
  have hkept : (∃ y ∈ r.start.sources, y.Same x) ↔ x.invocation ∉ r.invocations := by
    rw [h.sources, h.invocations]
    refine Iff.trans ⟨?_, fun hin => ⟨x, hin, Signature.same_refl _⟩⟩ (hverdict x hx)
    rintro ⟨y, hy, hsame⟩
    rwa [← eq_of_apart Source.invocation hapart (hretained y hy) hx hsame]
  have hlanded : (∃ l ∈ r.landings, l.unit.source.Same x)
      ↔ ∃ l ∈ r.landings, l.job.invocation = x.invocation := by
    constructor
    · rintro ⟨l, hl, hsame⟩
      obtain ⟨y, hy, heq, hsame⟩ := h.exists_of_landing hapart hsize hl hsame
      exact ⟨l, hl, by rw [← heq, eq_of_apart Source.invocation hapart hy hx hsame]⟩
    · rintro ⟨l, hl, heq⟩
      refine ⟨l, hl, ?_⟩
      unfold Source.Same
      rw [(r.mem_invocations_of_landing hsize hl).1, heq]
      exact Signature.same_refl _
  rw [r.exists_same_saved, hkept, hlanded, r.trace.landed_iff (Nat.lt_of_succ_lt hsize),
    imp_iff_not_or]

end

/-- **No job of an unsteered run ends otherwise**: it completes, or it crashes, or it is still
open. -/
theorem job_cases (hsize : r.invocations.length < UInt64.size) {id : JobId} {job : Job}
    (hjob : r.ended.jobs.get? id = some job) :
    job.state = .completeLocal ∨ job.state = .crashed ∨ job.state.isTerminal = false := by
  rcases ((r.trace.home hsize) id job hjob).2 with hstate | hstate | hstate | hstate
  · exact .inr (.inr (by rw [hstate]; rfl))
  · exact .inr (.inr (by rw [hstate]; rfl))
  · exact .inl hstate
  · exact .inr (.inl hstate)

/-- The job of a unit did not bring it back: it crashed, or the run was over before it ended. -/
def Fails (r : Run) (i : Invocation) : Prop :=
  ∃ id job, r.ended.jobs.get? id = some job ∧ job.invocation = i
    ∧ (job.state = .crashed ∨ job.state.isTerminal = false)

variable (h : prev.Continues r) (hapart : Apart prev.saved.sources)
  (hsize : r.invocations.length + 1 < UInt64.size)

include h hapart hsize

theorem Continues.admits : Admits r.setup r.invocations r.ended := by
  obtain ⟨-, hpairwise, -⟩ :=
    Plan.retained_or_reparse r.seen.lastModified r.setup.unsaved.keys hapart
  refine r.trace.admits (Nat.lt_of_succ_lt hsize) (by rw [h.invocations]; exact hpairwise) ?_
  intro i hi hheader key hkey
  rw [h.invocations] at hi
  have hdropped := Plan.mem_invalidated_of_reparse hi hheader hkey
  rw [h.start]
  exact (PchTable.get?_removeAll _ _ key).trans (if_pos hdropped)

/-- **When an update loses a unit**: it parses the unit again, and the unit is skipped or its job
fails. -/
theorem Continues.lost_iff (hx : x ∈ prev.saved.sources) :
    (∀ y ∈ r.saved.sources, ¬ y.Same x)
      ↔ ∃ front back, r.invocations = front ++ x.invocation :: back
        ∧ ((Skipped r.setup front x.invocation ∧ ∀ id, r.ended.invocation? id ≠ some x.invocation)
          ∨ r.Fails x.invocation) := by
  have hstored := h.exists_same_iff hapart hsize hx
  have hadmits := h.admits hapart hsize
  have hlost : (∀ y ∈ r.saved.sources, ¬ y.Same x) ↔ x.invocation ∈ r.invocations
      ∧ ∀ id job, r.ended.jobs.get? id = some job → job.invocation = x.invocation →
        job.state ≠ .completeLocal := by
    rw [← not_iff_not]
    push Not
    exact hstored
  have hof {id : JobId} {job : Job} (hjob : r.ended.jobs.get? id = some job)
      (heq : job.invocation = x.invocation) : r.ended.invocation? id = some x.invocation :=
    Option.map_eq_some_iff.mpr ⟨job, hjob, heq⟩
  rw [hlost]
  constructor
  · rintro ⟨hmem, hnone⟩
    obtain ⟨front, back, hsplit⟩ := append_of_mem hmem
    refine ⟨front, back, hsplit, ?_⟩
    by_cases hjob : ∃ id, r.ended.invocation? id = some x.invocation
    · obtain ⟨id, hid⟩ := hjob
      obtain ⟨job, hjob, heq⟩ := Option.map_eq_some_iff.mp hid
      exact .inr ⟨id, job, hjob, heq,
        (job_cases (Nat.lt_of_succ_lt hsize) hjob).resolve_left (hnone id job hjob heq)⟩
    · rw [not_exists] at hjob
      exact .inl ⟨hadmits.skipped front _ back hsplit hjob, hjob⟩
  · rintro ⟨front, back, hsplit, hcause⟩
    refine ⟨by rw [hsplit]; simp, fun id job hjob heq hstate => ?_⟩
    rcases hcause with ⟨-, hnone⟩ | ⟨id', job', hjob', heq', hfails⟩
    · exact hnone id (hof hjob heq)
    · obtain rfl := hadmits.single id id' _ (hof hjob heq) (hof hjob' heq')
      cases hjob.symm.trans hjob'
      rw [hstate] at hfails
      rcases hfails with hfails | hfails <;> cases hfails

end Run

variable {r : Run} {earlier : List Run}

theorem Runs.apart (h : Runs (r :: earlier)) : Apart r.saved.sources := by
  generalize hruns : r :: earlier = runs at h
  induction h generalizing r earlier with
  | build hstart =>
    cases hruns
    refine Run.apart_saved ?_
    rw [hstart]
    exact List.Pairwise.nil
  | update _ hcontinues ih =>
    cases hruns
    refine Run.apart_saved ?_
    rw [hcontinues.sources]
    exact (Plan.retained_or_reparse _ _ (ih rfl)).1

/-- **A unit that is lost is gone**: no later update parses or stores it. -/
theorem Runs.gone {x : Source} (hlost : ∀ y ∈ r.saved.sources, ¬ y.Same x) :
    ∀ later : List Run, Runs (later ++ r :: earlier) →
      (∀ r' ∈ later, r'.invocations.length + 1 < UInt64.size) →
      ∀ r' ∈ later, (∀ i ∈ r'.invocations, i.Apart x.invocation)
        ∧ ∀ y ∈ r'.saved.sources, ¬ y.Same x := by
  intro later
  induction later with
  | nil => exact fun _ _ r' hr' => absurd hr' not_mem_nil
  | cons _ later ih =>
    intro hruns hsize
    obtain ⟨prev, rest, htail⟩ : ∃ prev rest, later ++ r :: earlier = prev :: rest := by
      cases later <;> simp
    rw [cons_append, htail] at hruns
    cases hruns with
    | update hbefore hcontinues =>
      have hearlier := ih (htail ▸ hbefore) fun r' hr' => hsize r' (mem_cons_of_mem _ hr')
      have hprev : ∀ y ∈ prev.saved.sources, ¬ y.Same x := by
        cases later with
        | nil =>
          obtain ⟨rfl, -⟩ := List.cons.inj htail
          exact hlost
        | cons p =>
          obtain ⟨rfl, -⟩ := List.cons.inj htail
          exact (hearlier p mem_cons_self).2
      intro r' hr'
      rcases mem_cons.mp hr' with rfl | hr'
      · refine ⟨fun i hi hsame => ?_, fun y hy hsame => ?_⟩
        · rw [hcontinues.invocations] at hi
          obtain ⟨y, hy, rfl⟩ := (Plan.retained_or_reparse _ _ hbefore.apart).2.2.2.2 i hi
          exact hprev y hy hsame
        · obtain ⟨z, hz, hsame'⟩ := hcontinues.exists_same hbefore.apart
            (hsize r' mem_cons_self) ⟨y, hy, hsame⟩
          exact hprev z hz hsame'
      · exact hearlier r' hr'

namespace History

variable {path : Path} {top : Spot} {b : Backend} {st : Store} {s : Storage} {r prev : Run}
  {earlier : List Run}

/-- **Which units an update loses**, in whatever order its tasks move.

A unit that was stored before an update is stored after it, unless the update has parsed it again
and its job has crashed or is still open when the update is over, or it is a header that was
skipped. No job is open then if all units were submitted before the first task moved. A unit that is
lost is gone: no later update of the database parses it or stores it. -/
theorem lost_exactly (h : History path top b st s (r :: prev :: earlier))
    (hsize : r.invocations.length + 1 < UInt64.size) :
    Database.load st s = .ok (Database.loadedOf r.saved)
      ∧ (r.schedule.early = [] → ∀ id job, r.ended.jobs.get? id = some job →
        job.state.isTerminal = true)
      ∧ ∀ x ∈ prev.saved.sources,
        ((∀ y ∈ r.saved.sources, ¬ y.Same x)
          ↔ ∃ front back, r.invocations = front ++ x.invocation :: back
            ∧ ((Skipped r.setup front x.invocation
                ∧ ∀ id, r.ended.invocation? id ≠ some x.invocation)
              ∨ r.Fails x.invocation))
        ∧ ((∀ y ∈ r.saved.sources, ¬ y.Same x) → ∀ later : List Run,
          Runs (later ++ r :: prev :: earlier) →
          (∀ r' ∈ later, r'.invocations.length + 1 < UInt64.size) →
          ∀ r' ∈ later, (∀ i ∈ r'.invocations, i.Apart x.invocation)
            ∧ ∀ y ∈ r'.saved.sources, ¬ y.Same x) := by
  have hholds := h.holds
  refine ⟨(hholds.stores r _ rfl).load, fun hearly id job hjob => ?_, fun x hx => ?_⟩
  · obtain ⟨stats, hwait⟩ := h.completed r List.mem_cons_self
    exact Schedule.ended_of_wait hearly (Nat.lt_of_succ_lt hsize) hwait hjob
  · cases hholds.chain with
    | update hbefore hcontinues =>
      exact ⟨hcontinues.lost_iff hbefore.apart hsize hx,
        fun hlost later hruns hsizes => Runs.gone hlost later hruns hsizes⟩

/-- Two units of which the second cannot be parsed any more when both have changed. -/
def brokenUnit : Episode :=
  { invocations := [fileUnit "/a.c", fileUnit "/b.c"]
    first := []
    before := [(⟨"/a.c"⟩, { micros := 1000 }), (⟨"/b.c"⟩, { micros := 1000 })]
    second := [(⟨"/b.c"⟩, { failure := some "broken" })]
    after := [(⟨"/a.c"⟩, { micros := 2000 }), (⟨"/b.c"⟩, { micros := 2000 })] }

/-- Both units can be parsed. The second is submitted when the job of the first has been counted as
done and the first task has not yet looked whether it was the last, and it never gets to move. -/
def lateUnit : Episode :=
  { brokenUnit with
    second := []
    schedule :=
      { early := .driver :: replicate 4 (.task 0) ++ .parse 0 :: replicate 3 (.task 0)
        late := [.task 0]
        settles := false } }

/-- The second of the two units of an episode is lost. -/
def LosesSecond (p : Episode) : Prop :=
  p.updateRun.invocations = p.invocations
    ∧ ∃ x₁ x₂ y, p.buildRun.saved.sources = [x₁, x₂] ∧ p.updateRun.saved.sources = [y]
      ∧ y.Same x₁ ∧ ¬ y.Same x₂

theorem losesSecond_of_sources {p : Episode} {i j : Invocation} (hij : i.Apart j)
    (hunits : p.invocations = [i, j]) (hinvocations : p.updateRun.invocations = p.invocations)
    (hbuilt : p.buildRun.saved.sources.map Source.invocation = p.invocations)
    (hupdated : p.updateRun.saved.sources.map Source.invocation = p.invocations.take 1) :
    LosesSecond p := by
  rw [hunits] at hbuilt hupdated
  obtain ⟨x₁, rest, hsources, rfl, hrest⟩ := map_eq_cons_iff.mp hbuilt
  obtain ⟨x₂, rest', rfl, rfl, hnil⟩ := map_eq_cons_iff.mp hrest
  obtain ⟨y, rest'', hsources', hy, hnil'⟩ := map_eq_cons_iff.mp hupdated
  rw [map_eq_nil_iff.mp hnil] at hsources
  rw [map_eq_nil_iff.mp hnil'] at hsources'
  refine ⟨hinvocations, x₁, x₂, y, hsources, hsources', ?_, ?_⟩ <;> unfold Source.Same <;> rw [hy]
  · exact Signature.same_refl _
  · exact hij

theorem loses_brokenUnit : brokenUnit.succeeds = true ∧ LosesSecond brokenUnit := by
  have hevaluated : brokenUnit.succeeds = true
      ∧ brokenUnit.updateRun.invocations = brokenUnit.invocations
      ∧ brokenUnit.buildRun.saved.sources.map Source.invocation = brokenUnit.invocations
      ∧ brokenUnit.updateRun.saved.sources.map Source.invocation
        = brokenUnit.invocations.take 1 := by
    decide +kernel
  obtain ⟨hsucceeds, hinvocations, hbuilt, hupdated⟩ := hevaluated
  refine ⟨hsucceeds, losesSecond_of_sources ?_ rfl hinvocations hbuilt hupdated⟩
  unfold Invocation.Apart
  decide

theorem loses_lateUnit : lateUnit.succeeds = true ∧ LosesSecond lateUnit
    ∧ lateUnit.updateRun.ended.jobs.values.map Job.state = [.completeLocal, .queued] := by
  have hevaluated : lateUnit.succeeds = true
      ∧ lateUnit.updateRun.invocations = lateUnit.invocations
      ∧ lateUnit.buildRun.saved.sources.map Source.invocation = lateUnit.invocations
      ∧ lateUnit.updateRun.saved.sources.map Source.invocation = lateUnit.invocations.take 1
      ∧ lateUnit.updateRun.ended.jobs.values.map Job.state = [.completeLocal, .queued] := by
    decide +kernel
  obtain ⟨hsucceeds, hinvocations, hbuilt, hupdated, hstates⟩ := hevaluated
  refine ⟨hsucceeds, losesSecond_of_sources ?_ rfl hinvocations hbuilt hupdated, hstates⟩
  unfold Invocation.Apart
  decide

/-- The first unit stays stored. Nothing crashes, the second unit has a job that is still open, and
no later run stores it. -/
theorem lost_exactly_lateUnit :
    let r := lateUnit.updateRun
    let prev := lateUnit.buildRun
    History ⟨"/db"⟩ [] .memory lateUnit.opened.1 lateUnit.updated.2.storage [r, prev]
      ∧ r.invocations.length + 1 < UInt64.size
      ∧ r.ended.jobs.values.map Job.state = [.completeLocal, .queued]
      ∧ ∃ x₁ x₂, prev.saved.sources = [x₁, x₂] ∧ (∃ y ∈ r.saved.sources, y.Same x₁)
        ∧ r.Fails x₂.invocation
        ∧ ∀ later : List Run, Runs (later ++ [r, prev]) →
          (∀ r' ∈ later, r'.invocations.length + 1 < UInt64.size) →
          ∀ r' ∈ later, ∀ y ∈ r'.saved.sources, ¬ y.Same x₂ := by
  intro r prev
  obtain ⟨hsucceeds, ⟨hinvocations, x₁, x₂, y, hbuilt, hupdated, hkept, hgone⟩, hstates⟩ :=
    loses_lateUnit
  obtain ⟨-, -, h⟩ := Episode.history hsucceeds
  have hsize : r.invocations.length + 1 < UInt64.size := by
    rw [hinvocations]
    decide
  have hunits : ∀ i ∈ r.invocations, i.language.isHeader = false := by
    rw [hinvocations]
    decide
  have hlost : ∀ y ∈ r.saved.sources, ¬ y.Same x₂ := by
    rw [hupdated]
    simpa using hgone
  obtain ⟨hexactly, hlater⟩ := (lost_exactly h hsize).2.2 x₂ (by rw [hbuilt]; simp)
  obtain ⟨front, back, hsplit, ⟨hskipped, -⟩ | hfails⟩ := hexactly.mp hlost
  · have hheader := hunits x₂.invocation (by rw [hsplit]; simp)
    cases hheader.symm.trans hskipped.1
  · refine ⟨h, hsize, hstates, x₁, x₂, hbuilt, ⟨y, by rw [hupdated]; simp, hkept⟩, hfails, ?_⟩
    exact fun later hruns hsizes r' hr' => (hlater hlost later hruns hsizes r' hr').2

/-- The second unit is stored when the update begins and not when it ends, and whatever changes, the
next update does not parse it. -/
theorem update_forgets_unit :
    let r := brokenUnit.updateRun
    let prev := brokenUnit.buildRun
    (∃ summary, brokenUnit.updated.1 = .ok summary)
      ∧ History ⟨"/db"⟩ [] .memory brokenUnit.opened.1 brokenUnit.updated.2.storage [r, prev]
      ∧ ∃ x ∈ prev.saved.sources, (∀ y ∈ r.saved.sources, ¬ y.Same x)
        ∧ ∀ times changed, ∀ i ∈ (Plan.make times r.saved.sources changed).reparse,
          i.Apart x.invocation := by
  intro r prev
  obtain ⟨hsucceeds, -, x₁, x₂, y, hbuilt, hupdated, -, hgone⟩ := loses_brokenUnit
  obtain ⟨-, ⟨summary, hsummary, -⟩, h⟩ := Episode.history hsucceeds
  refine ⟨⟨summary, hsummary⟩, h, x₂, by rw [hbuilt]; simp, ?_, fun times changed i hi => ?_⟩
  · rw [hupdated]
    simpa using hgone
  · obtain ⟨z, hz, rfl⟩ := (Plan.retained_or_reparse times changed h.holds.chain.apart).2.2.2.2 i hi
    rw [hupdated, List.mem_singleton] at hz
    rw [hz]
    exact hgone

end History

end SymbolIndex
