import SymbolIndex.Proofs.Convergence
import SymbolIndex.Proofs.Pruning
import SymbolIndex.Proofs.IndexedUnits

/-!
# An edit between a build and an update

Between a build and an update some files are edited. What the front end answers depends on the files
that it reads, and a file that is edited gets another time (`Edited`). A unit that the update leaves
alone is then answered as it was (`Edited.heard_eq`), so the update and a second build are made of
the same: what the units that are left alone have told, and what the others tell now. The update
merges the latter with what it has kept, the second build merges all of it (`Edited.made_update`,
`Edited.made_idle`).
-/

namespace SymbolIndex

open Plan SortedMap

/-! ## What a build has stored -/

namespace Run.Hears

variable {r : Run} {answers : ParseRequest → List Event} {i : Invocation} {x : Source}

theorem exists_landing (hruns : Runs [r]) (hx : x ∈ r.saved.sources) :
    ∃ l ∈ r.landings, l.unit.source = x := by
  cases hruns with
  | build hstart =>
    rcases mem_sources_saved.mp hx with ⟨front, u, back, hunits, rfl, -⟩ | ⟨hold, -⟩
    · have hu : u ∈ r.units := by
        rw [hunits]
        simp
      obtain ⟨l, hl, rfl⟩ := List.mem_map.mp hu
      exact ⟨l, hl, rfl⟩
    · rw [hstart] at hold
      cases hold

theorem heard_source (h : r.Hears answers) (hruns : Runs [r]) (hx : x ∈ r.saved.sources) :
    Leads r.invocations x.invocation ∧ ∀ p, Includes (r.setup.config.heard answers x.invocation) p →
        (r.setup.config.unit x.invocation).isDependency p = true →
        x.dependencies.contains p = true := by
  obtain ⟨l, hl, rfl⟩ := exists_landing hruns hx
  rw [(r.mem_invocations_of_landing h.size hl).1]
  exact ⟨h.landed_iff_leads.mp ⟨l, hl, rfl⟩, (h.heard hl).dependencies⟩

/-- **A build stores the units that lead.** -/
theorem stored_iff_leads (h : r.Hears answers) (hruns : Runs [r]) :
    (∃ x ∈ r.saved.sources, x.invocation = i) ↔ Leads r.invocations i := by
  constructor
  · rintro ⟨x, hx, rfl⟩
    exact (h.heard_source hruns hx).1
  · intro hleads
    obtain ⟨l, hl, rfl⟩ := h.landed_iff_leads.mpr hleads
    obtain ⟨x, hx, hsame⟩ := (r.exists_same_saved l.unit.source).mpr
      (.inr ⟨l, hl, Signature.same_refl _⟩)
    refine ⟨x, hx, (h.heard_source hruns hx).1.eq_of_same hleads ?_⟩
    rwa [Source.Same, (r.mem_invocations_of_landing h.size hl).1] at hsame

end Run.Hears

/-! ## An edit between two runs -/

/-- Two configurations differ at most in where things are put and in the number of workers. -/
def Config.Alike (c c' : Config) : Prop :=
  { c' with dbPath := c.dbPath, concurrency := c.concurrency, stagingDir := c.stagingDir } = c

namespace Config.Alike

variable {c c' : Config}

theorem flags (h : c.Alike c') : c'.flags = c.flags := by
  unfold Alike at h
  rw [← h]

theorem heard (h : c.Alike c') (answers : ParseRequest → List Event) (i : Invocation) :
    c'.heard answers i = c.heard answers i := by
  have hrequest : c'.request i = c.request i := by
    unfold Alike at h
    rw [← h]
    rfl
  unfold Config.heard
  rw [hrequest, h.flags]

theorem precompiles (h : c.Alike c') {i : Invocation} (hi : c'.Precompiles i) :
    c.Precompiles i := by
  unfold Config.Precompiles at hi ⊢
  rwa [h.flags] at hi

end Config.Alike

/-- A build, an edit of some files, and then an update `r` and a build `fresh` of the same units.
Files are what they contain, and what the front end answers depends on them: `old` and `new` are
the contents of all files before and after the edit. -/
structure Edited {α : Type} (answers : (Path → α) → ParseRequest → List Event)
    (old new : Path → α) (times : Path → UInt64) (prev r fresh : Run) : Prop where
  /-- What is answered depends on the input and on the files that the answer reports as included. -/
  reads : ∀ c c' q, c q.invocation.input = c' q.invocation.input →
    (∀ p, Includes (answers c q) p → c p = c' p) → answers c q = answers c' q
  found : prev.Answers (answers old)
  again : r.Answers (answers new)
  anew : fresh.Answers (answers new)
  steady : prev.Steady prev.Looks times
  spelled : ∀ p q, prev.Watches p → p.same q = true →
    times p = times q ∧ r.seen.lastModified p = r.seen.lastModified q
  dated : ∀ p, prev.Watches p → times p = r.seen.lastModified p → old p = new p
  invocations : fresh.invocations = prev.invocations
  update : prev.setup.config.Alike r.setup.config
  rebuild : prev.setup.config.Alike fresh.setup.config
  plain : ∀ i ∈ prev.invocations, ¬prev.setup.config.Precompiles i
  own : ∀ i ∈ prev.invocations, ∀ p, Includes (prev.setup.config.heard (answers old) i) p →
    ∀ dir ∈ prev.setup.config.systemIncludes, p.startsWith dir = false
  size : prev.invocations.length + 1 < UInt64.size
  unfailing : prev.Unfailing ∧ r.Unfailing ∧ fresh.Unfailing
  consistent : Graph.Consistent prev.contributions ∧ Graph.Consistent fresh.contributions

def Run.turnover (prev fresh : Run) (plan : Plan) : Turnover where
  before := prev.placed
  after := fresh.placed
  retained := prev.toldBy (fun i => !plan.reparse.contains i)
  former := prev.toldBy (fun i => plan.reparse.contains i)
  renewed := fresh.toldBy (fun i => plan.reparse.contains i)
  dirty := plan.Touches

namespace Edited

variable {α : Type} {answers : (Path → α) → ParseRequest → List Event} {old new : Path → α}
  {times : Path → UInt64} {prev r fresh : Run} {i : Invocation} {p : Path}

/-! ### The three runs are heard -/

theorem bare_build (hruns : Runs [r]) : r.start.pch.Bare := by
  cases hruns with
  | build hstart =>
    rw [hstart]
    exact fun _ => rfl

theorem hears_build (h : Edited answers old new times prev r fresh) (hruns : Runs [prev])
    (hcompleted : prev.Completed) (hunsaved : prev.setup.unsaved = ∅) :
    prev.Hears (answers old) where
  unsaved := hunsaved
  size := h.size
  plain := h.plain
  bare := bare_build hruns
  completed := hcompleted
  unfailing := h.unfailing.1
  answers := h.found

theorem hears_rebuild (h : Edited answers old new times prev r fresh) (hruns : Runs [fresh])
    (hcompleted : fresh.Completed) (hunsaved : fresh.setup.unsaved = ∅) :
    fresh.Hears (answers new) where
  unsaved := hunsaved
  size := h.invocations ▸ h.size
  plain := fun i hi hpre => h.plain i (h.invocations ▸ hi) (h.rebuild.precompiles hpre)
  bare := bare_build hruns
  completed := hcompleted
  unfailing := h.unfailing.2.2
  answers := h.anew

theorem leads_of_reparse (hold : prev.Hears (answers old)) (hruns : Runs [prev])
    (hcont : prev.Continues r) (hi : i ∈ r.invocations) : Leads prev.invocations i := by
  obtain ⟨-, -, -, -, hreparse⟩ :=
    retained_or_reparse r.seen.lastModified r.setup.unsaved.keys hruns.apart
  rw [hcont.invocations] at hi
  exact (hold.stored_iff_leads hruns).mp (hreparse i hi)

theorem apart_reparse (hruns : Runs [prev]) (hcont : prev.Continues r) :
    r.invocations.Pairwise Invocation.Apart := by
  obtain ⟨-, hpairwise, -⟩ :=
    retained_or_reparse r.seen.lastModified r.setup.unsaved.keys hruns.apart
  rw [hcont.invocations]
  exact hpairwise

theorem leads_update_iff (hold : prev.Hears (answers old)) (hruns : Runs [prev])
    (hcont : prev.Continues r) : Leads r.invocations i ↔ i ∈ r.invocations :=
  leads_iff_of_apart (apart_reparse hruns hcont)
    fun _ hi => (leads_of_reparse hold hruns hcont hi).1

variable (h : Edited answers old new times prev r fresh)

include h

theorem hears_update (hold : prev.Hears (answers old)) (hruns : Runs [prev])
    (hcont : prev.Continues r) (hcompleted : r.Completed) (hunsaved : r.setup.unsaved = ∅) :
    r.Hears (answers new) where
  unsaved := hunsaved
  size := by
    have hnodup : r.invocations.Nodup := (apart_reparse hruns hcont).imp fun hapart => hapart.ne
    have hsubset : r.invocations ⊆ prev.invocations := fun i hi =>
      (leads_of_reparse hold hruns hcont hi).mem
    have hlength := (hnodup.subperm hsubset).length_le
    have hsize := h.size
    omega
  plain := fun i hi hpre =>
    h.plain i (leads_of_reparse hold hruns hcont hi).mem (h.update.precompiles hpre)
  bare := by
    intro key
    rw [hcont.start, Engine.origin?_retainedState]
    split
    · rfl
    · exact hold.bare_saved key
  completed := hcompleted
  unfailing := h.unfailing.2.1
  answers := h.again

/-! ### What stays -/

/-- **A file of a unit that is kept has its content.** -/
theorem unchanged {x : Source}
    (hagrees : Run.Agrees times x) (hupToDate : x.UpToDate r.seen.lastModified)
    (hx : x ∈ prev.saved.sources) (hp : ∃ f ∈ x.files, p.same f = true) : old p = new p := by
  have hwatched : ∀ {q : Path}, (∃ f ∈ x.files, q.same f = true) → prev.Watches q :=
    fun hq => ⟨x, hx, hq⟩
  refine h.dated p (hwatched hp) ?_
  obtain ⟨f, hf, hsame⟩ := hp
  obtain ⟨htimes, hseen⟩ := h.spelled p f (hwatched ⟨f, hf, hsame⟩) hsame
  rw [htimes, hseen]
  rcases Source.mem_files_iff.mp hf with rfl | ⟨d, hd, rfl⟩
  · exact hagrees.input.trans hupToDate.1.symm
  · -- The time is stored under one spelling and was looked up under another.
    obtain ⟨q, hq, htime⟩ := hagrees.dependencies d hd
    rw [← (h.spelled q d.1 (hwatched ⟨d.1, hf, hq⟩) hq).1, ← htime]
    exact (hupToDate.2 d hd).symm

theorem isDependency (hi : i ∈ prev.invocations)
    (hp : Includes (prev.setup.config.heard (answers old) i) p) (hother : p.same i.input = false) :
    (prev.setup.config.unit i).isDependency p = true := by
  have hsystem : (prev.setup.config.unit i).isSystemHeader p = false := by
    refine Bool.eq_false_iff.mpr fun hany => ?_
    obtain ⟨dir, hdir, hstarts⟩ := List.any_eq_true.mp hany
    cases (h.own i hi p hp dir hdir).symm.trans hstarts
  unfold UnitIndexer.isDependency
  rw [hsystem, show (prev.setup.config.unit i).context.input = i.input from rfl, hother]
  simp

variable (hold : prev.Hears (answers old))

include hold

/-- **A unit that is kept is answered as it was.** -/
theorem heard_eq (hruns : Runs [prev]) (hcont : prev.Continues r)
    (hleads : Leads prev.invocations i) (hkept : i ∉ r.invocations) :
    prev.setup.config.heard (answers old) i = prev.setup.config.heard (answers new) i := by
  obtain ⟨x, hx, rfl⟩ := (hold.stored_iff_leads hruns).mpr hleads
  obtain ⟨-, hdependencies⟩ := hold.heard_source hruns hx
  have hagrees := Run.agrees_of_steady hruns hold.unsaved (Nat.lt_of_succ_lt hold.size) h.steady hx
  have hupToDate : x.UpToDate r.seen.lastModified := by
    obtain ⟨-, -, hverdict, -⟩ :=
      retained_or_reparse r.seen.lastModified r.setup.unsaved.keys hruns.apart
    rw [hcont.invocations] at hkept
    exact (upToDate_of_retained ((hverdict x hx).mpr hkept)).2
  have hsame : ∀ p, (∃ f ∈ x.files, p.same f = true) → old p = new p :=
    fun p hp => h.unchanged hagrees hupToDate hx hp
  have hinput : x.input ∈ x.files := Source.mem_files_iff.mpr (.inl rfl)
  unfold Config.heard
  split
  · rfl
  · next hdo =>
    have hheard : prev.setup.config.heard (answers old) x.invocation
        = answers old (prev.setup.config.request x.invocation) := if_neg hdo
    refine h.reads old new _ (hsame _ ⟨x.input, hinput, Path.same_refl _⟩) fun p hp => hsame p ?_
    rw [← hheard] at hp
    cases hother : p.same x.input with
    | true => exact ⟨x.input, hinput, hother⟩
    | false =>
      have hdepends := hdependencies p hp (h.isDependency hleads.mem hp hother)
      obtain ⟨time, htime⟩ := SortedMap.contains_iff.mp hdepends
      obtain ⟨q, hq, hmem⟩ := mem_of_get? htime
      exact ⟨q, Source.mem_files_iff.mpr (.inr ⟨(q, time), hmem, rfl⟩),
        Path.compare_eq_iff_same.mp hq⟩

/-! ### What is told -/

omit h in
theorem told_build (fresh : Run) (plan : Plan) :
    SameTold prev.contributions
      ((prev.turnover fresh plan).retained ++ (prev.turnover fresh plan).former) := by
  unfold Run.turnover
  rw [← prev.toldBy_all]
  refine ⟨fun op => ?_, fun p => ?_⟩
  · rw [mem_opsOf_append, hold.mem_ops_toldBy, hold.mem_ops_toldBy, hold.mem_ops_toldBy]
    grind
  · rw [mem_pendingOf_append, hold.mem_pending_toldBy, hold.mem_pending_toldBy,
      hold.mem_pending_toldBy]
    grind

theorem told_rebuild (hnew : fresh.Hears (answers new)) {plan : Plan}
    (hsame : ∀ i, Leads prev.invocations i → i ∉ plan.reparse →
      prev.setup.config.heard (answers old) i = prev.setup.config.heard (answers new) i) :
    SameTold fresh.contributions
      ((prev.turnover fresh plan).retained ++ (prev.turnover fresh plan).renewed) := by
  have hheard := h.rebuild.heard (answers new)
  unfold Run.turnover
  rw [← fresh.toldBy_all]
  refine ⟨fun op => ?_, fun p => ?_⟩
  · rw [mem_opsOf_append, hnew.mem_ops_toldBy, hold.mem_ops_toldBy, hnew.mem_ops_toldBy,
      h.invocations]
    grind
  · rw [mem_pendingOf_append, hnew.mem_pending_toldBy, hold.mem_pending_toldBy,
      hnew.mem_pending_toldBy, h.invocations]
    grind

theorem told_update (hnew : fresh.Hears (answers new))
    (hagain : r.Hears (answers new)) (hruns : Runs [prev]) (hcont : prev.Continues r) :
    SameTold r.contributions
      (prev.turnover fresh (prev.planAfter r.seen r.setup.unsaved)).renewed := by
  have hheard : ∀ i, r.setup.config.heard (answers new) i
      = fresh.setup.config.heard (answers new) i := fun i =>
    (h.update.heard _ i).trans (h.rebuild.heard _ i).symm
  have hleads : ∀ i, Leads r.invocations i ↔ Leads fresh.invocations i
      ∧ (prev.planAfter r.seen r.setup.unsaved).reparse.contains i = true := by
    intro i
    rw [leads_update_iff hold hruns hcont, h.invocations, List.contains_iff_mem,
      ← hcont.invocations]
    exact ⟨fun hi => ⟨leads_of_reparse hold hruns hcont hi, hi⟩, fun hi => hi.2⟩
  unfold Run.turnover
  rw [← r.toldBy_all]
  refine ⟨fun op => ?_, fun p => ?_⟩
  · rw [hagain.mem_ops_toldBy, hnew.mem_ops_toldBy]
    grind
  · rw [hagain.mem_pending_toldBy, hnew.mem_pending_toldBy]
    grind

end Edited

/-! ## What the records are made of -/

theorem Runs.composed_build {r : Run} (h : Runs [r]) (hcs : Graph.Consistent r.contributions) :
    Composed ∅ r.contributions r.placed := by
  have hkept : r.kept = ∅ := by
    cases h with
    | build hstart =>
      unfold Run.kept
      rw [hstart]
      rfl
  have hcomposed := h.composed hcs.references
  rwa [hkept] at hcomposed

theorem Plan.not_touches_of_isEmpty {times : Path → UInt64} {sources : List Source}
    (h : (Plan.make times sources []).isEmpty = true) (y : Place) :
    ¬(Plan.make times sources []).Touches y := by
  rintro ⟨p, hp, -⟩
  obtain ⟨v, hv⟩ := mem_keys_iff.mp hp
  rcases due_of_contains times [] (contains_of_mem hv) with
    (⟨c, hc, -⟩ | ⟨i, hi, -⟩) | ⟨x, hx, d, hd, hold, -⟩
  · cases hc
  · rw [List.isEmpty_iff.mp h] at hi
    cases hi
  · exact hold ((Plan.isEmpty_iff.mp h x hx).2.2 d hd)

namespace Edited

variable {α : Type} {answers : (Path → α) → ParseRequest → List Event} {old new : Path → α}
  {times : Path → UInt64} {prev r fresh : Run}

variable (h : Edited answers old new times prev r fresh) (hold : prev.Hears (answers old))

include h hold

theorem heard_of_not_reparse (hruns : Runs [prev]) (hcont : prev.Continues r) :
    ∀ i, Leads prev.invocations i → i ∉ (prev.planAfter r.seen r.setup.unsaved).reparse →
      prev.setup.config.heard (answers old) i = prev.setup.config.heard (answers new) i := by
  intro i hleads hi
  rw [← hcont.invocations] at hi
  exact h.heard_eq hold hruns hcont hleads hi

/-- **An update that has parsed something.** -/
theorem made_update (hnew : fresh.Hears (answers new))
    (hagain : r.Hears (answers new)) (hruns : Runs [prev]) (hanew : Runs [fresh])
    (hcont : prev.Continues r) :
    (prev.turnover fresh (prev.planAfter r.seen r.setup.unsaved)).Made r.kept r.placed := by
  obtain ⟨hfirst, hsecond⟩ := h.consistent
  have hbuild := told_build hold fresh (prev.planAfter r.seen r.setup.unsaved)
  have hrebuild := h.told_rebuild hold hnew (h.heard_of_not_reparse hold hruns hcont)
  have hupdate := h.told_update hold hnew hagain hruns hcont
  have hbefore := hruns.composed_build hfirst
  have hthird : Graph.Consistent r.contributions := (hrebuild.consistent hsecond).mono
    (fun op hop => mem_opsOf_append.mpr (.inr ((hupdate.ops op).mp hop)))
    (fun p hp => mem_pendingOf_append.mpr (.inr ((hupdate.pending p).mp hp)))
  exact {
    first := hbuild.consistent hfirst
    second := hrebuild.consistent hsecond
    before := hbefore.congr hfirst hbuild
    after := (hanew.composed_build hsecond).congr hsecond hrebuild
    pruned := hcont.pruned hruns (fun _ _ hget => hbefore.exists_own hfirst hget) rfl rfl
    updated := ((Runs.update hruns hcont).composed hthird.references).congr hthird hupdate }

/-- **An update that has found nothing to do.** -/
theorem made_idle (hnew : fresh.Hears (answers new)) (hruns : Runs [prev])
    (hanew : Runs [fresh]) (hcont : prev.Continues r) (hunsaved : r.setup.unsaved = ∅)
    (hempty : (prev.planAfter r.seen r.setup.unsaved).isEmpty = true) :
    (prev.turnover fresh (prev.planAfter r.seen r.setup.unsaved)).Made prev.placed prev.placed := by
  obtain ⟨hfirst, hsecond⟩ := h.consistent
  have hbuild := told_build hold fresh (prev.planAfter r.seen r.setup.unsaved)
  have hrebuild := h.told_rebuild hold hnew (h.heard_of_not_reparse hold hruns hcont)
  have hbefore := hruns.composed_build hfirst
  have hclean : ∀ y, ¬(prev.planAfter r.seen r.setup.unsaved).Touches y := by
    rw [hunsaved] at hempty ⊢
    exact not_touches_of_isEmpty hempty
  have hnone : (prev.turnover fresh (prev.planAfter r.seen r.setup.unsaved)).renewed = [] := by
    unfold Run.turnover Run.toldBy
    rw [List.isEmpty_iff.mp hempty]
    simp
  refine ⟨hbuild.consistent hfirst, hrebuild.consistent hsecond, hbefore.congr hfirst hbuild,
    (hanew.composed_build hsecond).congr hsecond hrebuild, ⟨fun usr => ?_, ?_, ?_⟩, ?_⟩
  · constructor
    · intro hcontains
      obtain ⟨e, hget⟩ := Option.isSome_iff_exists.mp hcontains
      obtain ⟨f, hf, hholds⟩ := hbefore.exists_own hfirst hget
      exact ⟨e, f, hget, hholds, hf, hclean _⟩
    · rintro ⟨e, f, hget, -⟩
      exact SortedMap.contains_iff.mpr ⟨e, hget⟩
  · intro usr e e₀ hget hget₀
    rw [Option.some.inj (hget₀.symm.trans hget)]
  · intro usr e e₀ hget hget₀ f
    rw [Option.some.inj (hget₀.symm.trans hget)]
    exact ⟨fun hf => ⟨hf, hclean _⟩, fun hf => hf.1⟩
  · rw [hnone]
    exact hbefore.idle

end Edited

end SymbolIndex
