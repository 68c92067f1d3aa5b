import SymbolIndex.Proofs.FileTable
import SymbolIndex.Scheduler.Basic

/-!
# Integrating one unit after the other

The index that is left behind when the units of a run are integrated, in whatever order they come.
Of units with one signature the record of the last is kept.
-/

namespace SymbolIndex

open List

/-- Two records of one unit: the later one takes the place of the earlier one. -/
def Source.Same (a b : Source) : Prop :=
  a.invocation.signature.same b.invocation.signature = true

theorem Source.Same.symm {a b : Source} (h : a.Same b) : b.Same a := by
  unfold Source.Same Signature.same Path.same at h ⊢
  simp only [Bool.and_eq_true, beq_iff_eq] at h ⊢
  exact ⟨⟨h.1.1.symm, h.1.2.symm⟩, h.2.symm⟩

namespace IndexState

variable {visited : SortedSet FileId}

def integrateAll (s : IndexState) : List ParsedUnit → Except Overflow IndexState
  | [] => .ok s
  | u :: rest => do
    let (_, s) ← s.integrate u.contribution u.source
    s.integrateAll rest

/-- All that units are integrated into. -/
def index (s : IndexState) : Graph × FileTable × List Source := (s.graph, s.files, s.sources)

variable {s s' r : IndexState} {c : Contribution} {source : Source} {us : List ParsedUnit}

theorem integrate_eq_ok (h : s.integrate c source = .ok (visited, r)) :
    ∃ graph files files', s.graph.merge s.files c = .ok (graph, files)
      ∧ internAll files ∅ (source.input :: source.dependencies.keys) = .ok (visited, files')
      ∧ r = addSource { s with graph, files := files' } source := by
  obtain ⟨⟨graph, files⟩, hmerge, h⟩ := bind_eq_ok_iff.mp h
  obtain ⟨⟨ids, files'⟩, hintern, h⟩ := bind_eq_ok_iff.mp h
  cases h
  exact ⟨graph, files, files', hmerge, hintern, rfl⟩

theorem integrate_of_ok {graph : Graph} {files files' : FileTable}
    (hmerge : s.graph.merge s.files c = .ok (graph, files))
    (hintern : internAll files ∅ (source.input :: source.dependencies.keys)
      = .ok (visited, files')) :
    s.integrate c source = .ok (visited, addSource { s with graph, files := files' } source) :=
  bind_eq_ok_iff.mpr ⟨_, hmerge, bind_eq_ok_iff.mpr ⟨_, hintern, rfl⟩⟩

theorem integrate_congr (hindex : s'.index = s.index)
    (h : s.integrate c source = .ok (visited, r)) :
    ∃ r', s'.integrate c source = .ok (visited, r') ∧ r'.index = r.index := by
  obtain ⟨hgraph, hrest⟩ := Prod.mk.inj hindex
  obtain ⟨hfiles, hsources⟩ := Prod.mk.inj hrest
  obtain ⟨graph, files, files', hmerge, hintern, rfl⟩ := integrate_eq_ok h
  refine ⟨_, integrate_of_ok (by rwa [hgraph, hfiles]) hintern, ?_⟩
  unfold index addSource
  simp only [hsources]

theorem integrateAll_keeps {P : IndexState → Prop} (h : s.integrateAll us = .ok s') (hstart : P s)
    (hone : ∀ {s s' u visited}, P s → s.integrate (ParsedUnit.contribution u) u.source
      = .ok (visited, s') → P s') : P s' := by
  induction us generalizing s with
  | nil => rwa [← Except.ok.inj h]
  | cons _ _ ih =>
    obtain ⟨⟨visited, s₁⟩, hfirst, h⟩ := bind_eq_ok_iff.mp h
    exact ih h (hone hstart hfirst)

theorem integrateAll_append {vs : List ParsedUnit} (h : s.integrateAll us = .ok s') :
    s.integrateAll (us ++ vs) = s'.integrateAll vs := by
  induction us generalizing s with
  | nil => rw [Except.ok.inj h]; rfl
  | cons u rest ih =>
    obtain ⟨⟨visited, s₁⟩, hone, h⟩ := bind_eq_ok_iff.mp h
    show (s.integrate u.contribution u.source >>= fun a => a.2.integrateAll (rest ++ vs)) = _
    rw [hone]
    exact ih h

/-! ## Which records are kept -/

/-- The record of the last unit of its signature, or an old one that no unit has replaced. -/
def Keeps (s : IndexState) (us : List ParsedUnit) (source : Source) : Prop :=
  (∃ front u back, us = front ++ u :: back ∧ u.source = source ∧ ∀ v ∈ back, ¬ source.Same v.source)
    ∨ (source ∈ s.sources ∧ ∀ v ∈ us, ¬ source.Same v.source)

theorem mem_sources_integrate {new : Source} (h : s.integrate c new = .ok (visited, r)) :
    source ∈ r.sources ↔ source = new ∨ (source ∈ s.sources ∧ ¬ source.Same new) := by
  obtain ⟨graph, files, files', -, -, rfl⟩ := integrate_eq_ok h
  simp only [addSource, mem_append, mem_filter, mem_singleton, Bool.not_eq_true',
    Source.Same, Bool.not_eq_true]
  exact Or.comm

/-- **After all units are integrated, the records are those that are kept.** -/
theorem mem_sources_integrateAll (h : s.integrateAll us = .ok r) (source : Source) :
    source ∈ r.sources ↔ s.Keeps us source := by
  induction us generalizing s with
  | nil =>
    cases h
    unfold Keeps
    constructor
    · exact fun hmem => .inr ⟨hmem, by simp⟩
    · rintro (⟨front, u, back, hnil, -⟩ | ⟨hmem, -⟩)
      · simp at hnil
      · exact hmem
  | cons w rest ih =>
    obtain ⟨⟨visited, s₁⟩, hone, h⟩ := bind_eq_ok_iff.mp h
    rw [ih h]
    unfold Keeps
    rw [mem_sources_integrate hone]
    constructor
    · rintro (⟨front, u, back, rfl, hu, hback⟩ | ⟨rfl | ⟨hmem, hnew⟩, hrest⟩)
      · exact .inl ⟨w :: front, u, back, rfl, hu, hback⟩
      · exact .inl ⟨[], w, rest, rfl, rfl, hrest⟩
      · refine .inr ⟨hmem, fun v hv => ?_⟩
        rcases mem_cons.mp hv with rfl | hv
        · exact hnew
        · exact hrest v hv
    · rintro (⟨front, u, back, hsplit, hu, hback⟩ | ⟨hmem, hall⟩)
      · cases front with
        | nil =>
          cases hsplit
          exact .inr ⟨.inl hu.symm, hback⟩
        | cons x front =>
          cases hsplit
          exact .inl ⟨front, u, back, rfl, hu, hback⟩
      · exact .inr ⟨.inr ⟨hmem, hall w (mem_cons_self ..)⟩,
          fun v hv => hall v (mem_cons_of_mem _ hv)⟩

theorem keeps_of_pairwise (h : us.Pairwise (fun u v => ¬ u.source.Same v.source)) {u : ParsedUnit}
    (hu : u ∈ us) : s.Keeps us u.source := by
  obtain ⟨front, back, rfl⟩ := append_of_mem hu
  refine .inl ⟨front, u, back, rfl, rfl, ?_⟩
  exact (pairwise_cons.mp (pairwise_append.mp h).2.1).1

end IndexState

end SymbolIndex
