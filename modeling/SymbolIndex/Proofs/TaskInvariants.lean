import SymbolIndex.Proofs.Unsteered

/-!
# What a task carries

A task begins with the invocation of its job, hands a request to the front end, and brings an
outcome back. A fact about what tasks carry has to be looked at where a parse begins, where a front
end comes to its end, and nowhere else: everywhere else a task carries on what it has, or nothing.

The first such fact is that a task carries its own job: what lands is a unit of the invocation it
was submitted for, and a header lands under the key of its own output.
-/

namespace SymbolIndex

open List Option Scheduler

/-! ## What tasks carry -/

/-- A task is for an invocation. -/
def Errand.Fits (i : Invocation) : Errand → Prop
  | .unit _ _ => i.language.isHeader = false
  | .header _ r => i.language.isHeader = true ∧ i.headerKey? = some r.key
  | .remote _ | .request _ => False

/-- What is said of requests and of outcomes holds of what is carried in a phase, for an
invocation. -/
def Phase.Carries (asked : ParseRequest → UnitIndexer → Prop)
    (brought : Except FrontendError ParsedUnit → Prop) (i : Invocation) : Phase → Prop
  | .parsing request indexer => request.invocation = i ∧ asked request indexer
  | .parsed j outcome | .closing j outcome => j = i ∧ brought outcome
  | _ => True

theorem Phase.carries_of_isDone {phase : Phase} (h : phase.isDone = true)
    (asked : ParseRequest → UnitIndexer → Prop) (brought : Except FrontendError ParsedUnit → Prop)
    (i : Invocation) : phase.Carries asked brought i := by
  cases phase <;> trivial

/-- Something said of what tasks ask a front end, and of what they bring. -/
structure TaskInvariant where
  asked : Errand → Invocation → ParseRequest → UnitIndexer → Prop
  brought : Errand → Invocation → Except FrontendError ParsedUnit → Prop

namespace TaskInvariant

variable {n : Nat}

/-- It holds of all that tasks carry. -/
def Holds (c : TaskInvariant) (s : Scheduler) : Prop :=
  ∀ n t i, s.tasks[n]? = some t → s.invocation? (jobOf n) = some i →
    t.errand.Fits i ∧ t.phase.Carries (c.asked t.errand i) (c.brought t.errand i) i

/-- It holds where a parse begins, if it held before where one ends. -/
structure Kept (c : TaskInvariant) (setup : RunSetup) (s : Scheduler) : Prop where
  begun : setup.config.flags.dontIndex = false → ∀ errand i (s₁ : Scheduler),
    s₁.world = s.world → s₁.state = s.state →
    c.asked errand i (Scheduler.beginParse setup s₁ i).1 (Scheduler.beginParse setup s₁ i).2.1
  skipped : setup.config.flags.dontIndex = true → ∀ errand i (s₁ : Scheduler),
    s₁.world = s.world → s₁.state = s.state →
    c.brought errand i ((Scheduler.beginParse setup s₁ i).2.2.unparsed errand i
      (Scheduler.beginParse setup s₁ i).2.1)
  parsed : ∀ errand request indexer, (∃ t ∈ s.tasks, t.phase = .parsing request indexer) →
    c.asked errand request.invocation request indexer →
    c.brought errand request.invocation
      (Scheduler.runFrontend setup s errand request indexer).2

variable {c : TaskInvariant} {setup : RunSetup} {s s' : Scheduler}

theorem Holds.transition (h : c.Holds s) (hkept : c.Kept setup s) (hposted : Posted s)
    (hline : s.Asleep) (htransition : s.Transition setup (some n) s') : c.Holds s' := by
  intro m t' i ht' hi
  rw [htransition.invocation? hposted] at hi
  obtain ⟨t, ht, hpace⟩ := htransition.exists_task hline ht'
  obtain ⟨hfits, hcarries⟩ := h m t i ht hi
  have hown : ∀ {id : JobId} {job : Job}, t.errand.job? = some id → s.jobs.get? id = some job →
      job.invocation = i := by
    intro id job hid hjob
    obtain rfl : jobOf m = id := some.inj ((hposted.job? ht).symm.trans hid)
    unfold Scheduler.invocation? at hi
    rw [hjob] at hi
    exact some.inj hi
  rcases hpace with rfl | hpace
  · exact ⟨hfits, hcarries⟩
  cases hpace with
  | reserved _ herrand =>
    rw [herrand] at hfits
    exact hfits.elim
  | begun _ hid hjob hdo =>
    obtain rfl := hown hid hjob
    exact ⟨hfits, by unfold Scheduler.beginParse; rfl, hkept.begun hdo _ _ s rfl rfl⟩
  | skipped _ hid hjob hdont _ hunparsed =>
    obtain rfl := hown hid hjob
    obtain ⟨s₁, rfl, hworld, hstate⟩ := hunparsed
    exact ⟨hfits, rfl, hkept.skipped hdont _ _ s₁ hworld hstate⟩
  | parsed hphase =>
    rw [hphase] at hcarries
    obtain ⟨rfl, hasked⟩ := hcarries
    exact ⟨hfits, rfl, hkept.parsed _ _ _ ⟨t, mem_of_getElem? ht, hphase⟩ hasked⟩
  | closing hphase =>
    rw [hphase] at hcarries
    exact ⟨hfits, hcarries⟩
  | ended _ hdone | retired _ hdone => exact ⟨hfits, Phase.carries_of_isDone hdone _ _ _⟩
  | _ => exact ⟨hfits, trivial⟩

theorem Holds.congr (h : c.Holds s) (htasks : s'.tasks = s.tasks) (hjobs : s'.jobs = s.jobs) :
    c.Holds s' := by
  intro n t i ht hi
  rw [htasks] at ht
  unfold Scheduler.invocation? at hi
  rw [hjobs] at hi
  exact h n t i ht hi

open Scheduler (floor_tasks floor_jobs) in
/-- A new task carries nothing, and the others keep their jobs. -/
theorem Holds.submit (h : c.Holds s) (hposted : Posted s) (hroom : s.jobs.size < UInt64.size)
    (i : Invocation) :
    c.Holds (s.submit setup i).2 := by
  have hopened : ∀ {s' : Scheduler} (errand : Errand) {kind : JobKind}, errand.Fits i →
      s'.tasks = s.tasks ++ [{ errand := errand }] →
      s'.jobs = s.jobs.insert (jobOf s.jobs.size) (Job.make (jobOf s.jobs.size) kind i false) →
      c.Holds s' := by
    intro s' errand kind hfits htasks hjobs n t j ht hj
    rw [hposted.size] at hjobs
    rw [htasks] at ht
    unfold Scheduler.invocation? at hj
    simp only [hjobs, SortedMap.get?_insert, Std.compare_eq_iff_eq] at hj
    rcases Scheduler.getElem?_concat_cases ht with ht | ⟨rfl, rfl⟩
    · obtain ⟨hlt, -⟩ := List.getElem?_eq_some_iff.mp ht
      rw [hposted.size] at hroom
      have hne : jobOf n ≠ jobOf s.tasks.length := fun heq => by
        have := jobOf_inj (by omega) (by omega) heq
        omega
      rw [if_neg hne] at hj
      exact h n t j ht hj
    · rw [if_pos rfl] at hj
      obtain rfl : i = j := some.inj hj
      exact ⟨hfits, trivial⟩
  have hsubmits := s.submits setup i
  generalize (s.submit setup i).1 = id at hsubmits
  generalize (s.submit setup i).2 = s' at hsubmits ⊢
  cases hsubmits with
  | declined hfloor => exact h.congr (floor_tasks hfloor) (floor_jobs hfloor)
  | unit hunit hfloor =>
    exact hopened (.unit _ 0) hunit (floor_tasks hfloor) (floor_jobs hfloor)
  | header hheader hkey _ hfloor =>
    exact hopened (.header _ _) ⟨hheader, hkey⟩ (floor_tasks hfloor) (floor_jobs hfloor)

/-- It held of what has landed. -/
def Landed (c : TaskInvariant) (l : Landing) : Prop :=
  ∃ errand : Errand, errand.Fits l.job.invocation
    ∧ c.brought errand l.job.invocation (.ok l.unit) ∧ l.reservation = errand.reservation?

theorem Holds.landed (h : c.Holds s) (hposted : Posted s) : ∀ l ∈ s.landingOf n, c.Landed l := by
  intro l hl
  obtain ⟨t, id, i, ht, hid, hjob, hphase, hreservation, -⟩ := mem_landingOf hl
  obtain rfl : jobOf n = id := some.inj ((hposted.job? ht).symm.trans hid)
  obtain ⟨hfits, hcarries⟩ := h n t l.job.invocation ht (by
    unfold Scheduler.invocation?
    rw [hjob]
    rfl)
  rw [hphase] at hcarries
  exact ⟨t.errand, hfits, hcarries.2, hreservation.symm⟩

end TaskInvariant

variable {setup : RunSetup} {world : World} {state : IndexState} {is : List Invocation}
  {ls : List Landing} {s : Scheduler}

/-- **What holds where parses begin and end holds of what tasks carry and of what lands.** It is
asked only of the moments on the way to the end, and there of what has landed so far. -/
theorem Trace.carried {c : TaskInvariant} (h : Trace setup (Scheduler.start setup world state) is ls s)
    (hsize : is.length < UInt64.size)
    (hkept : ∀ is' ls' s', Trace setup (Scheduler.start setup world state) is' ls' s' →
      (∃ is'' ls'', is = is' ++ is'' ∧ ls = ls' ++ ls'' ∧ Trace setup s' is'' ls'' s) →
      (∀ l ∈ ls', c.Landed l) → c.Kept setup s') : c.Holds s ∧ ∀ l ∈ ls, c.Landed l := by
  induction h with
  | start => exact ⟨fun n t i ht => absurd ht (by simp [Scheduler.start]), by simp⟩
  | @submit is ls s₁ i htrace ih =>
    rw [length_append, length_singleton] at hsize
    obtain ⟨hholds, hlanded⟩ := ih (by omega) fun _ _ _ hto hfrom => hkept _ _ _ hto (by
      obtain ⟨is'', ls'', rfl, rfl, hfrom⟩ := hfrom
      exact ⟨_, _, append_assoc .., rfl, hfrom.submit i⟩)
    have hjobs := htrace.size_jobs (by omega)
    exact ⟨hholds.submit (htrace.posted (by omega)) (by omega) i, hlanded⟩
  | @recount is ls s₁ f htrace ih =>
    obtain ⟨hholds, hlanded⟩ := ih hsize fun _ _ _ hto hfrom => hkept _ _ _ hto (by
      obtain ⟨is'', ls'', rfl, rfl, hfrom⟩ := hfrom
      exact ⟨_, _, rfl, rfl, hfrom.recount f⟩)
    obtain ⟨htasks, -, hjobs⟩ := s₁.core_recounted f
    exact ⟨hholds.congr htasks hjobs, hlanded⟩
  | step htrace hstep ih =>
    obtain ⟨hholds, hlanded⟩ := ih hsize fun _ _ _ hto hfrom => hkept _ _ _ hto (by
      obtain ⟨is'', ls'', rfl, rfl, hfrom⟩ := hfrom
      exact ⟨_, _, rfl, append_assoc .., hfrom.step hstep⟩)
    have hposted := htrace.posted hsize
    have hhere := hkept _ _ _ htrace
      ⟨[], _, (append_nil _).symm, rfl, Trace.start.step hstep⟩ hlanded
    refine ⟨hholds.transition hhere hposted (htrace.line hsize) (htrace.transition_step hsize hstep),
      fun l hl => ?_⟩
    rcases mem_append.mp hl with hl | hl
    · exact hlanded l hl
    · exact hholds.landed hposted l hl
  | parse htrace hparse ih =>
    obtain ⟨hholds, hlanded⟩ := ih hsize fun _ _ _ hto hfrom => hkept _ _ _ hto (by
      obtain ⟨is'', ls'', rfl, rfl, hfrom⟩ := hfrom
      exact ⟨_, _, rfl, rfl, hfrom.parse hparse⟩)
    have hhere := hkept _ _ _ htrace
      ⟨[], [], (append_nil _).symm, (append_nil _).symm, Trace.start.parse hparse⟩ hlanded
    exact ⟨hholds.transition hhere (htrace.posted hsize) (htrace.line hsize)
      (transition_endParse hparse), hlanded⟩

/-! ## Units of their own jobs -/

/-- Units are of their own jobs. -/
def TaskInvariant.own : TaskInvariant where
  asked := fun _ _ _ _ => True
  brought := fun _ i outcome => ∀ unit, outcome = .ok unit → unit.source.invocation = i

theorem TaskInvariant.own_kept (setup : RunSetup) (s : Scheduler) :
    TaskInvariant.own.Kept setup s where
  begun := fun _ _ _ _ _ _ => trivial
  skipped := fun _ _ _ _ _ _ _ hunit => invocation_unparsed hunit
  parsed := fun _ _ _ _ _ _ hunit => invocation_runFrontend hunit

/-- **What lands was made from the invocation of its job**, and a header lands under its own key. -/
theorem Trace.landed_own (h : Trace setup (Scheduler.start setup world state) is ls s)
    (hsize : is.length < UInt64.size) {l : Landing} (hl : l ∈ ls) :
    l.unit.source.invocation = l.job.invocation
      ∧ (l.job.invocation.language.isHeader = true ↔ l.key?.isSome = true)
      ∧ ∀ key, l.key? = some key → l.job.invocation.headerKey? = some key := by
  obtain ⟨-, hlanded⟩ := h.carried hsize (fun _ _ s' _ _ _ => TaskInvariant.own_kept setup s')
  obtain ⟨errand, hfits, hbrought, hreservation⟩ := hlanded l hl
  refine ⟨hbrought l.unit rfl, ?_⟩
  unfold Landing.key?
  rw [hreservation]
  cases errand with
  | unit =>
    have hfits : l.job.invocation.language.isHeader = false := hfits
    simp [hfits, Errand.reservation?]
  | header =>
    obtain ⟨hheader, hkey⟩ := hfits
    simp [hheader, hkey, Errand.reservation?]
  | remote | request => exact hfits.elim

end SymbolIndex
