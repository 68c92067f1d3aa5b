import SymbolIndex.Proofs.Counters
import SymbolIndex.Proofs.Unsteered

/-!
# When the latch of a run fires

Units are submitted while the tasks of the run move in any order. A job that takes the last one off
the count has not yet looked at the introspections; if in between another job is counted and the
submission ends, it finds nothing held open and fires the latch over the job that was counted
behind its back. That is the only way: in a run in which no job is counted at such a moment the
latch fires over finished work.

* `settled_of_calm`: the latch of such a run, once fired, has every job behind it and every parsed
  unit in the index.
* `exists_early`: from every moment of the other kind the run can go on to a latch that has fired
  over a job that has not ended.
-/

namespace SymbolIndex

open Completion List Option Scheduler SortedMap

namespace Completion

variable {c : Completion}

theorem toNat_countJob (h : c.pending.toNat + 1 < UInt64.size) :
    c.countJob.pending.toNat = c.pending.toNat + 1 := by
  unfold countJob
  rw [UInt64.toNat_add]
  exact Nat.mod_eq_of_lt h

theorem pending_eq_zero_of_last (h : c.releaseJob.1 = true) : c.releaseJob.2.pending = 0 := by
  have hone : c.pending = 1 := eq_of_beq h
  unfold releaseJob
  rw [hone]
  rfl

theorem isTriggered_checkIntrospections (h : c.checkIntrospections.latch.isTriggered = true) :
    c.latch.isTriggered = true ∨ c.introspections = 0 := by
  unfold checkIntrospections at h
  split at h
  · next hzero => exact .inr hzero
  · exact .inl h

theorem isTriggered_checkPending (h : c.checkPending.latch.isTriggered = true) :
    c.latch.isTriggered = true ∨ c.pending = 0 := by
  unfold checkPending at h
  split at h
  · next hzero => exact .inr hzero
  · exact .inl h

end Completion

namespace Scheduler

/-! ## What a move does to the counts -/

theorem completion_mapCompletion (s : Scheduler) (f : Completion → Completion) :
    (s.mapCompletion f).completion = f s.completion := by
  obtain ⟨log, hcounts⟩ := s.mapCompletion_eq f
  rw [hcounts]

/-- Some task has taken the last job off the count and is about to look at the introspections. -/
def Checks (s : Scheduler) : Prop := ∃ t ∈ s.tasks, t.phase = .checking

/-- What an action of a task, or one that ends no job, does to the counts, and whether someone is to
look at the introspections after it. -/
inductive Beat (s : Scheduler) : Scheduler → Prop where
  | still {s' : Scheduler} : s'.completion = s.completion → (s'.Checks ↔ s.Checks) → Beat s s'
  /-- Someone submits, or the task of a request builds a header. -/
  | counted {s' : Scheduler} : s'.completion = s.completion.countJob →
      (s'.tasks.length = s.tasks.length → ∃ t ∈ s.tasks, t.errand.job? = none) → Beat s s'
  /-- The task that takes the last job off the count is to look next. -/
  | released {s' : Scheduler} : (∃ t ∈ s.tasks, t.retires = true) →
      s'.completion = s.completion.releaseJob.2 →
      (s'.Checks ↔ s.Checks ∨ s.completion.releaseJob.1 = true) → Beat s s'
  | checked {s' : Scheduler} : s.Checks → s'.completion = s.completion.checkIntrospections →
      Beat s s'

section Beating

variable {s s' s₁ : Scheduler} {n : Nat} {t t' : Task} {setup : RunSetup}

theorem checks_congr (htasks : s'.tasks = s.tasks) : s'.Checks ↔ s.Checks := by
  unfold Checks
  rw [htasks]

theorem checks_append {more : List Task} (htasks : s'.tasks = s.tasks ++ more)
    (hfresh : ∀ t ∈ more, t.phase = .fresh) : s'.Checks ↔ s.Checks := by
  unfold Checks
  rw [htasks]
  constructor
  · rintro ⟨t, ht, hphase⟩
    rcases mem_append.mp ht with ht | ht
    · exact ⟨t, ht, hphase⟩
    · cases hphase.symm.trans (hfresh t ht)
  · rintro ⟨t, ht, hphase⟩
    exact ⟨t, mem_append_left _ ht, hphase⟩

section

variable (ht : s.tasks[n]? = some t) (hphase : t.phase ≠ .checking)
  (htasks : s'.tasks = s.tasks.set n t')

include ht hphase htasks

theorem checks_set : s'.Checks ↔ s.Checks ∨ t'.phase = .checking := by
  unfold Checks
  rw [htasks]
  constructor
  · rintro ⟨u, hu, hlooks⟩
    rcases mem_or_eq_of_mem_set hu with hu | rfl
    · exact .inl ⟨u, hu, hlooks⟩
    · exact .inr hlooks
  · rintro (⟨u, hu, hlooks⟩ | hlooks)
    · obtain ⟨m, hm⟩ := mem_iff_getElem?.mp hu
      have hne : n ≠ m := by
        rintro rfl
        rw [some.inj (ht.symm.trans hm)] at hphase
        exact hphase hlooks
      refine ⟨u, mem_of_getElem? (i := m) ?_, hlooks⟩
      rw [getElem?_set_ne hne]
      exact hm
    · exact ⟨t', List.mem_set (List.getElem?_eq_some_iff.mp ht).1 t', hlooks⟩

theorem checks_of_set (hphase' : t'.phase ≠ .checking) :
    s'.Checks ↔ s.Checks :=
  (checks_set ht hphase htasks).trans (or_iff_left hphase')

end

theorem checks_releasePermit (hline : Asleep s) : s.releasePermit.1.Checks ↔ s.Checks := by
  rcases hline.wakes with hsame | ⟨m, t, ht, hphase, hwoken⟩
  · exact checks_congr hsame
  · exact checks_of_set ht (by rw [hphase]; simp) hwoken nofun

theorem completion_releasePermit (s : Scheduler) : s.releasePermit.1.completion = s.completion := by
  obtain ⟨tasks, line, permits, hfreed⟩ := s.releasePermit_eq
  rw [hfreed]

theorem Recounts.beat (h : Recounts s t t' s') (ht : s.tasks[n]? = some t)
    (htasks : s'.tasks = s.tasks.set n t') : s.Beat s' := by
  have hcompletion : s'.completion = t.phase.recount s.completion := congrArg Prod.fst h.tallies
  have hmem := mem_of_getElem? ht
  by_cases hchecking : t.phase = .checking
  · rw [hchecking] at hcompletion
    exact .checked ⟨t, hmem, hchecking⟩ hcompletion
  · have hchecks := checks_set ht hchecking htasks
    rw [h.checks] at hchecks
    by_cases hretiring : t.phase = .retiring
    · rw [hretiring] at hcompletion
      exact .released ⟨t, hmem, by simp [Task.retires, hretiring]⟩ hcompletion
        (by simpa [hretiring] using hchecks)
    · refine .still (hcompletion.trans ?_) (by simpa [hretiring] using hchecks)
      cases hphase : t.phase <;> first | rfl | exact absurd hphase ‹_›

theorem Settles.completion {job job' : Job} {tallies : Completion × Books}
    (h : Settles s n t job job' t' tallies) :
    tallies.1 = s.completion ∧ t'.phase ≠ .checking := by
  cases h with
  | kept hphase | told _ _ _ _ hphase | settled _ _ _ _ hphase => exact ⟨rfl, by rw [hphase]; simp⟩

/-- **Every step of a task, and the end of its front end.** -/
theorem Transition.beat (h : Transition setup s (some n) s') (hline : Asleep s) : s.Beat s' := by
  cases h with
  | shifts ht _ _ _ _ _ hfloor hrecounts | learns ht _ _ hfloor hrecounts
  | starts ht _ _ _ _ _ _ _ _ hfloor hrecounts =>
    exact hrecounts.beat ht (floor_tasks hfloor)
  | builds ht _ herrand _ _ _ htallies =>
    exact .counted (congrArg Prod.fst htallies)
      fun _ => ⟨_, mem_of_getElem? ht, by rw [herrand]; rfl⟩
  | asks ht hphase =>
    obtain ⟨phase, hnext, htasks, -, htallies⟩ := askPermit_cases ht
    refine .still (congrArg Prod.fst htallies) (checks_of_set ht (by simp [hphase]) htasks ?_)
    rcases hnext with rfl | rfl <;> simp
  | @declines s₁ _ t _ ht hphase _ hfloor hrecounts =>
    have htasks := floor_tasks hfloor
    have hcompletion : s₁.completion = t.phase.recount s.completion :=
      congrArg Prod.fst hrecounts.tallies
    rw [hphase] at hcompletion
    exact .still ((completion_releasePermit _).trans hcompletion)
      ((checks_releasePermit (asleep_declines hline ht hphase htasks (floor_line hfloor))).trans
        (checks_of_set ht (by simp [hphase]) htasks nofun))
  | parses ht hphase hfloor htallies | leaves ht hphase _ hfloor htallies =>
    exact .still (congrArg Prod.fst htallies)
      (checks_of_set ht (by simp [hphase]) (floor_tasks hfloor) nofun)
  | frees ht hphase =>
    have ht' := (getElem?_releasePermit (hline.not_mem ht (by simp [hphase]))).trans ht
    exact .still (completion_releasePermit s)
      ((checks_of_set ht' (by simp [hphase]) (tasks_frees hline ht hphase) nofun).trans
        (checks_releasePermit hline))
  | closes ht hphase _ _ _ _ _ _ hfloor hsettles htallies =>
    exact .still ((congrArg Prod.fst htallies).trans hsettles.completion.1)
      (checks_of_set ht (by simp [hphase]) (floor_tasks hfloor) hsettles.completion.2)

end Beating

/-! ## What becomes of parsed units -/

def harvest (s : Scheduler) (n : Nat) : List ParsedUnit :=
  ((s.tasks[n]?).map (fun t => t.phase.harvest)).getD []

def holding (s : Scheduler) (u : ParsedUnit) : Nat :=
  s.tasks.countP (fun t => t.phase.unit? = some u)

def unfinished (s : Scheduler) : Nat := s.tasks.countP (fun t => !t.phase.isDone)

/-- What a move of the `n`-th task does to the units that were parsed: each of them lands, stays in
hand, or is lost with a job that stays open though its task has ended its work. -/
def Yields (s : Scheduler) (n : Nat) (s' : Scheduler) : Prop :=
  ∃ lost : List ParsedUnit,
    (∀ u, s.holding u + (s'.harvest n).count u
      = ((s.landingOf n).map Landing.unit).count u + lost.count u + s'.holding u)
    ∧ s'.unfinished + lost.length + s.jobsThat Job.isOpen
      ≤ s.unfinished + s'.jobsThat Job.isOpen

section Yielding

variable {s s' s₁ : Scheduler} {n : Nat} {t t' : Task} {setup : RunSetup}

theorem Yields.of_set (ht : s.tasks[n]? = some t) (htasks : s'.tasks = s.tasks.set n t')
    (lost : List ParsedUnit) (hunits : t.phase.unit?.toList ++ t'.phase.harvest
      = (s.landingOf n).map Landing.unit ++ lost ++ t'.phase.unit?.toList)
    (hopen : (!t'.phase.isDone).toNat + lost.length + s.jobsThat Job.isOpen
      ≤ (!t.phase.isDone).toNat + s'.jobsThat Job.isOpen) : s.Yields n s' := by
  have hharvest : s'.harvest n = t'.phase.harvest := by
    unfold harvest
    rw [htasks, getElem?_set_of_some ht]
    rfl
  have hshare : ∀ (phase : Phase) (u : ParsedUnit),
      (decide (phase.unit? = some u)).toNat = phase.unit?.toList.count u := by
    intro phase u
    cases phase.unit? with
    | none => rfl
    | some v => by_cases hv : v = u <;> simp [hv]
  refine ⟨lost, fun u => ?_, ?_⟩
  · have hcount := countP_tasks ht htasks (fun t => t.phase.unit? = some u)
    have hunits := congrArg (List.count u) hunits
    simp only [count_append, hshare] at hcount hunits
    unfold holding
    rw [hharvest]
    omega
  · have hcount := countP_tasks ht htasks (fun t => !t.phase.isDone)
    unfold unfinished
    omega

theorem Yields.still (ht : s.tasks[n]? = some t) (htasks : s'.tasks = s.tasks.set n t')
    (hphase : ∀ i outcome, t.phase ≠ .closing i outcome)
    (hunits : t.phase.unit?.toList ++ t'.phase.harvest = t'.phase.unit?.toList)
    (hdone : t.phase.isDone = true → t'.phase.isDone = true)
    (hopen : s'.jobsThat Job.isOpen = s.jobsThat Job.isOpen) : s.Yields n s' := by
  refine .of_set ht htasks [] (by rw [landingOf_eq_nil ht hphase]; exact hunits) ?_
  rw [hopen]
  cases hended : t.phase.isDone with
  | false => cases t'.phase.isDone <;> simp
  | true => simp [hdone hended]

theorem countP_releasePermit (hline : Asleep s) {p : Task → Bool}
    (hp : ∀ t : Task, t.phase = .inLine → p { t with phase := .granted } = p t) :
    s.releasePermit.1.tasks.countP p = s.tasks.countP p := by
  rcases hline.wakes with hsame | ⟨m, t, ht, hphase, hwoken⟩
  · rw [hsame]
  · have hcount := countP_tasks ht hwoken p
    rw [hp t hphase] at hcount
    exact Nat.add_right_cancel hcount

theorem holding_releasePermit (hline : Asleep s) (u : ParsedUnit) :
    s.releasePermit.1.holding u = s.holding u :=
  countP_releasePermit hline fun t hphase => by simp [hphase, Phase.unit?]

theorem unfinished_releasePermit (hline : Asleep s) : s.releasePermit.1.unfinished = s.unfinished :=
  countP_releasePermit hline fun t hphase => by simp [hphase, Phase.isDone]

theorem harvest_of_isAside {phase : Phase} (h : phase.isAside = true) : phase.harvest = [] := by
  cases phase <;> first | rfl | cases h

theorem harvest_of_isDone {phase : Phase} (h : phase.isDone = true) : phase.harvest = [] := by
  cases phase <;> first | rfl | cases h

theorem unit?_toList (i : Invocation) (outcome : Except FrontendError ParsedUnit) :
    (Phase.parsed i outcome).unit?.toList = unitOf outcome
      ∧ (Phase.closing i outcome).unit?.toList = unitOf outcome := by
  cases outcome <;> exact ⟨rfl, rfl⟩

theorem Settles.yields {id : JobId} {job job' : Job} {tallies : Completion × Books} {i : Invocation}
    {outcome : Except FrontendError ParsedUnit} (h : Settles s n t job job' t' tallies)
    (ht : s.tasks[n]? = some t) (hphase : t.phase = .closing i outcome)
    (hown : t.errand.answers = false) (hjob : s.jobs.get? id = some job)
    (htasks : s'.tasks = s.tasks.set n t') (hjobs : s'.jobs = s.jobs.insert id job')
    (hdone : t'.phase.isDone = true) : s.Yields n s' := by
  have hopen := s.jobs.countP_insert Job.isOpen id job'
  rw [← hjobs, hjob, any_some] at hopen
  have hle := Bool.toNat_le (Job.isOpen job)
  have hyields : ∀ lost, (s.landingOf n).map Landing.unit ++ lost = unitOf outcome →
      lost.length + (Job.isOpen job).toNat ≤ 1 + (Job.isOpen job').toNat → s.Yields n s' := by
    intro lost hunits hlost
    refine .of_set ht htasks lost ?_ ?_
    · rw [hunits, hphase, (unit?_toList i outcome).2, harvest_of_isDone hdone,
        unit?_of_isDone hdone]
      rfl
    · rw [hphase, hdone]
      unfold jobsThat
      simp only [Bool.not_true, Bool.toNat_false, Phase.isDone, Bool.not_false, Bool.toNat_true]
      omega
  have hlength : (unitOf outcome).length ≤ 1 := by cases outcome <;> simp [unitOf]
  cases h with
  | kept _ _ hland => exact hyields (unitOf outcome) (by rw [hland]; rfl) (by omega)
  | told _ hanswers => cases hown.symm.trans hanswers
  | settled _ _ _ hnext _ hland hfailed =>
    refine hyields [] ?_ (by simp only [length_nil]; omega)
    rw [append_nil]
    rcases hnext with rfl | rfl
    · obtain ⟨l, hl, -⟩ := map_eq_singleton_iff.mp hland
      obtain ⟨u, _, _, hu, -, -, hclosing, -⟩ := mem_landingOf (hl ▸ mem_singleton.mpr rfl)
      obtain rfl : u = t := some.inj (hu.symm.trans ht)
      obtain ⟨-, rfl⟩ := Phase.closing.inj (hphase.symm.trans hclosing)
      rw [hl]
      rfl
    · obtain ⟨j, e, hclosing⟩ := hfailed rfl
      obtain ⟨-, rfl⟩ := Phase.closing.inj (hphase.symm.trans hclosing)
      rw [map_eq_nil_iff.mp hland]
      rfl

/-- **No parsed unit gets out of sight** where there is a task for each job. -/
theorem Transition.yields (h : Transition setup s (some n) s') (hposted : Posted s)
    (hline : Asleep s) : s.Yields n s' := by
  cases h with
  | shifts ht hpace haside haside' _ _ hfloor =>
    refine .still ht (floor_tasks hfloor) (fun i outcome hclosing => ?_) ?_
      (fun hdone => (hpace.of_isDone hdone).2.1) (jobsThat_congr (floor_jobs hfloor) _)
    · rw [hclosing] at haside
      cases haside
    · rw [unit?_of_isAside haside, unit?_of_isAside haside', harvest_of_isAside haside']
      rfl
  | learns ht hphase _ hfloor =>
    exact .still ht (floor_tasks hfloor) (by simp [hphase]) (by rw [hphase]; rfl) (fun _ => rfl)
      (jobsThat_congr (floor_jobs hfloor) _)
  | builds ht _ herrand =>
    exact absurd (hposted.job? ht) (by rw [herrand]; simp [Errand.job?])
  | leaves ht _ hnone => exact absurd (hposted.job? ht) (by simp [hnone])
  | asks ht hphase =>
    obtain ⟨phase, hnext, htasks, hjobs, -⟩ := askPermit_cases ht
    refine .still ht htasks (by simp [hphase]) ?_ (by simp [hphase, Phase.isDone])
      (jobsThat_congr hjobs _)
    rw [hphase]
    rcases hnext with rfl | rfl <;> rfl
  | starts ht hphase _ hjob _ hwaits _ hnext _ hfloor =>
    refine .still ht (floor_tasks hfloor) (by simp [hphase]) ?_ (by simp [hphase, Phase.isDone]) ?_
    · rw [hphase]
      rcases hnext with ⟨request, indexer, rfl⟩ | ⟨outcome, rfl⟩
      · rfl
      · exact ((unit?_toList _ outcome).1).symm
    · have hfiled : s.Refiles _ _ _ s' :=
        ⟨hjob, floor_jobs hfloor, rfl, fun hnone => ⟨hnone, fun _ => rfl⟩⟩
      refine hfiled.jobsThat_eq ?_
      rcases JobState.waits_iff.mp hwaits with hstate | hstate <;> unfold Job.isOpen <;>
        rw [hstate] <;> rfl
  | @declines s₁ _ t answer ht hphase _ hfloor =>
    have htasks := floor_tasks hfloor
    have hasleep := asleep_declines hline ht hphase htasks (floor_line hfloor)
    obtain ⟨lost, hunits, hopen⟩ := Yields.still ht htasks (by simp [hphase]) (by rw [hphase]; rfl)
      (fun _ => rfl) (jobsThat_congr (floor_jobs hfloor) _)
    have hget : s₁.tasks[n]? = some { t with phase := .finished, answer } := by
      rw [htasks, getElem?_set_of_some ht]
    refine ⟨lost, fun u => ?_, ?_⟩
    · rw [holding_releasePermit hasleep]
      unfold harvest at hunits ⊢
      rw [getElem?_releasePermit (hasleep.not_mem hget (by simp))]
      exact hunits u
    · rw [unfinished_releasePermit hasleep, jobsThat_congr (jobs_releasePermit s₁)]
      exact hopen
  | parses ht hphase hfloor =>
    refine .still ht (floor_tasks hfloor) (by simp [hphase]) ?_ (by simp [hphase, Phase.isDone])
      (jobsThat_congr (floor_jobs hfloor) _)
    rw [hphase]
    exact ((unit?_toList _ _).1).symm
  | @frees _ t i outcome ht hphase =>
    have ht' := (getElem?_releasePermit (hline.not_mem ht (by simp [hphase]))).trans ht
    obtain ⟨lost, hunits, hopen⟩ := Yields.still ht' (tasks_frees hline ht hphase)
      (by simp [hphase])
      (by rw [hphase, (unit?_toList i outcome).1, (unit?_toList i outcome).2]; exact append_nil _)
      (by simp [hphase, Phase.isDone]) rfl
    refine ⟨lost, fun u => ?_, ?_⟩
    · rw [← holding_releasePermit hline, hunits,
        landingOf_eq_nil ht' (by simp [hphase]), landingOf_eq_nil ht (by simp [hphase])]
    · rw [← unfinished_releasePermit hline, ← jobsThat_congr (jobs_releasePermit s)]
      exact hopen
  | closes ht hphase hid hjob _ hdone _ hget hfloor hsettles =>
    exact hsettles.yields ht hphase (hposted.errand ht).answers hjob (floor_tasks hfloor)
      ((floor_jobs hfloor).trans (eq_insert_of_get? hget)) hdone

end Yielding

/-! ## The one who submits -/

def core (s : Scheduler) := (s.tasks, s.jobs, s.line, s.completion, s.state.index)

theorem core_mapCompletion (s : Scheduler) (f : Completion → Completion) :
    (s.mapCompletion f).core = (s.tasks, s.jobs, s.line, f s.completion, s.state.index) := by
  obtain ⟨log, hcounts⟩ := s.mapCompletion_eq f
  rw [hcounts]
  rfl

theorem core_accept (setup : RunSetup) (s : Scheduler) (i : Invocation) :
    (s.accept setup i).2.core = s.core := by
  have haccepts := s.accepts setup i
  generalize s.accept setup i = answer at haccepts ⊢
  cases haccepts <;> rfl

theorem post_opens (setup : RunSetup) (s : Scheduler) (d : Dispatch) :
    (s.post setup d).2.completion = s.completion ∧ (s.post setup d).2.state = s.state
      ∧ ∃ errand i, errand.answers = false ∧ s.Opens i errand (s.post setup d).2 := by
  cases d with
  | unit i => exact ⟨rfl, rfl, .unit (jobOf s.jobs.size) 0, i, rfl, rfl, rfl, rfl, rfl, setup.kind, rfl⟩
  | header i r =>
    exact ⟨rfl, rfl, .header (jobOf s.jobs.size) r, i, rfl, rfl, rfl, rfl, rfl, .pch, rfl⟩

end Scheduler

namespace Stage

/-- The invocations that can still become jobs without being counted so far. -/
def left : Stage → Nat
  | .opening is | .submitting is | .posting _ is => is.length
  | .counting _ is => is.length + 1
  | _ => 0

def counted : Stage → Nat
  | .posting _ _ => 1
  | _ => 0

/-- Whether completion is held open in this stage. -/
def holds : Stage → Bool
  | .submitting _ | .counting _ _ | .posting _ _ => true
  | _ => false

def isOver : Stage → Bool
  | .looking | .waiting | .idling | .done => true
  | _ => false

theorem of_isOver {stage : Stage} (h : stage.isOver = true) :
    stage.counted = 0 ∧ stage.left = 0 ∧ stage.holds = false := by
  cases stage <;> first | exact ⟨rfl, rfl, rfl⟩ | simp [isOver] at h

end Stage

namespace Submission

/-- A job is about to be counted while another one, having taken the last one off the count, has
not yet looked at the introspections. -/
def Overlooked (m : Submission) : Prop :=
  (∃ d is, m.stage = .counting d is) ∧ ∃ task ∈ m.scheduler.tasks, task.phase = .checking

instance (m : Submission) : Decidable (∃ d is, m.stage = .counting d is) :=
  match h : m.stage with
  | .counting d is => isTrue ⟨d, is, rfl⟩
  | .opening _ | .submitting _ | .posting _ _ | .looking | .waiting | .idling | .done =>
    isFalse (fun ⟨_, _, hstage⟩ => by simp at hstage)

instance (phase : Phase) : Decidable (phase = .checking) :=
  match phase with
  | .checking => isTrue rfl
  | .fresh | .seeking _ | .awaiting _ _ | .expecting _ _ | .asking | .inLine | .granted
  | .parsing _ _ | .parsed _ _ | .closing _ _ | .retiring | .finished => isFalse (by simp)

instance (m : Submission) : Decidable m.Overlooked := inferInstanceAs (Decidable (_ ∧ _))

def Calm (m : Submission) (move : Move) : Prop := move = .driver → ¬ m.Overlooked

instance (m : Submission) (move : Move) : Decidable (m.Calm move) :=
  inferInstanceAs (Decidable (_ → _))

/-- The run has ended and misses nothing: all units are submitted, all jobs have ended, and the
index is what integrating the parsed units in some order has made of `state`. The records are those
which that order keeps, so all of them when no two units share a signature. -/
structure Settled (state : IndexState) (us : List ParsedUnit) (m : Submission) : Prop where
  closed : m.stage.isOver = true
  ended : ∀ id job, m.scheduler.jobs.get? id = some job → job.state.isTerminal = true
  indexed : ∃ order r, order.Perm us ∧ state.integrateAll order = .ok r
    ∧ m.scheduler.state.index = r.index
    ∧ ∀ source, source ∈ m.scheduler.state.sources ↔ state.Keeps order source
  recorded : us.Pairwise (fun u v => ¬ u.source.Same v.source) →
    ∀ u ∈ us, u.source ∈ m.scheduler.state.sources

variable {setup : RunSetup} {world : World} {state : IndexState} {is : List Invocation}
  {us vs : List ParsedUnit} {m m' : Submission} {allowed : Submission → Move → Prop}
  {limit n : Nat} {s s' : Scheduler} {stage stage' : Stage} {c : Completion}

/-! ## The counts -/

/-- What holds at all times, after the units `us` were parsed: how many jobs the count counts,
whether completion is held open, and that every parsed unit is integrated, held, or lost with a job
that stays open. `limit` bounds the jobs there can be. -/
structure Sound (state : IndexState) (limit : Nat) (us : List ParsedUnit) (s : Scheduler)
    (stage : Stage) : Prop where
  orderly : ∃ g, Orderly g s
  posted : Posted s
  home : s.Home
  room : s.jobs.size + stage.counted + stage.left ≤ limit
  fits : s.jobsThat Job.isOpen + s.retiring + s.delivered ≤ s.jobs.size
  pending : Balances s.books.pending (s.jobsThat Job.isServed) (s.owed + stage.counted)
  holds : s.completion.introspections = if stage.holds then 1 else 0
  fresh : stage.holds = false → stage.isOver = false → s.tasks = []
  units : ∃ landed lost : List ParsedUnit,
    (∃ r, state.integrateAll landed = .ok r ∧ s.state.index = r.index)
    ∧ (∀ u, us.count u = landed.count u + lost.count u + s.holding u)
    ∧ s.unfinished + lost.length ≤ s.jobsThat Job.isOpen

namespace Sound

theorem start (setup : RunSetup) (world : World) (state : IndexState) (is : List Invocation) :
    Sound state is.length [] (Scheduler.start setup world state) (.opening is) where
  orderly := ⟨{}, .start setup world state⟩
  posted := ⟨rfl, fun ht => absurd ht (by simp [Scheduler.start])⟩
  home := fun id job hjob => absurd hjob (by simp [Scheduler.start])
  room := Nat.le_of_eq (Nat.zero_add _)
  fits := Nat.le_refl 0
  pending := rfl
  holds := rfl
  fresh := fun _ _ => rfl
  units := ⟨[], [], ⟨state, rfl, rfl⟩, fun _ => rfl, Nat.le_refl 0⟩

section

variable (h : Sound state limit us s stage)

include h

/-- The count is that of the jobs that have not ended, of those that are about to be taken off, and
of the one that is about to be made. -/
theorem pending_eq (hlimit : limit < UInt64.size) :
    s.completion.pending.toNat = s.jobsThat Job.isOpen + s.retiring + stage.counted := by
  have hfits := h.fits
  have hroom := h.room
  have hown : s.Own := fun id job hjob => (h.home id job hjob).1
  have hdelivered : s.delivered = 0 := by
    refine countP_eq_zero.mpr fun t ht => ?_
    obtain ⟨n, hn⟩ := mem_iff_getElem?.mp ht
    simp [Task.hasDelivered_eq_false (h.posted.errand hn).answers]
  exact hown.pending_eq _ hdelivered h.pending (by omega)

/-- **A task moves**, or its front end comes to its end. -/
theorem transition (hlimit : limit < UInt64.size)
    (htransition : s.Transition setup (some n) s') (horderly' : ∃ g, Orderly g s')
    (hlands : Scheduler.LandsAll (s.landingOf n) s.state s'.state) :
    Sound state limit (us ++ s'.harvest n) s' stage := by
  obtain ⟨g, horderly⟩ := h.orderly
  have hsize := (htransition.jobMoves h.posted).2
  have hroom := h.room
  have hentry := htransition.entry horderly (by omega)
  obtain ⟨landed, lost, hindexed, hunits, hlost⟩ := h.units
  obtain ⟨more, hyields, hopen⟩ := htransition.yields h.posted horderly.line
  refine ⟨horderly', h.posted.transition horderly.line htransition,
    h.home.transition h.posted htransition, by rwa [hsize], hentry.room h.fits, hentry.balances _ h.pending, ?_,
    fun hholds hover => ?_, landed ++ (s.landingOf n).map Landing.unit, lost ++ more,
    hlands.integrated hindexed, fun u => ?_, ?_⟩
  · refine Eq.trans ?_ h.holds
    cases htransition.beat horderly.line with
    | still hsame => rw [hsame]
    | counted hsame | released _ hsame => rw [hsame]; rfl
    | checked _ hsame => rw [hsame, introspections_checkIntrospections]
  · have hnone := h.fresh hholds hover
    have hlength := htransition.length_eq
    rw [hnone] at hlength
    exact eq_nil_of_length_eq_zero hlength
  · have hbefore := hunits u
    have hafter := hyields u
    simp only [count_append] at hbefore ⊢
    omega
  · rw [length_append]
    omega

theorem stay (hcore : s'.core = (s.tasks, s.jobs, s.line, c, s.state.index))
    (hroom : stage'.counted + stage'.left ≤ stage.counted + stage.left)
    (hpending : Balances c.pending (s.jobsThat Job.isServed) (s.owed + stage'.counted))
    (hholds : c.introspections = if stage'.holds then 1 else 0)
    (hbegun : stage'.holds = true ∨ stage'.isOver = true) :
    Sound state limit us s' stage' := by
  simp only [Scheduler.core, Prod.mk.injEq] at hcore
  obtain ⟨htasks, hjobs, hline, rfl, hindex⟩ := hcore
  obtain ⟨hretiring, hdelivered⟩ := marks_eq (marks_congr htasks)
  obtain ⟨g, horderly⟩ := h.orderly
  have hroom' := h.room
  refine ⟨⟨g, horderly.still (turnsOf_congr (congrArg (List.map _) htasks)) hjobs
      (horderly.line.congr htasks hline) fun _ => rfl⟩, h.posted.congr htasks hjobs,
    h.home.of_jobs hjobs, ?_, ?_, ?_, hholds, fun hnot hover => ?_, ?_⟩
  · rw [hjobs]
    omega
  · rw [jobsThat_congr hjobs, hretiring, hdelivered, hjobs]
    exact h.fits
  · unfold Scheduler.owed
    simp only [jobsThat_congr hjobs, hretiring, hdelivered]
    exact hpending
  · rcases hbegun with hbegun | hbegun
    · cases hnot.symm.trans hbegun
    · cases hover.symm.trans hbegun
  · simp only [Scheduler.holding, Scheduler.unfinished, htasks, jobsThat_congr hjobs, hindex]
    exact h.units

theorem of_over (hzero : stage.counted = 0)
    (hcore : s'.core = (s.tasks, s.jobs, s.line, c, s.state.index))
    (hpending : c.pending = s.completion.pending) (hnone : c.introspections = 0)
    (hover : stage'.isOver = true) : Sound state limit us s' stage' := by
  obtain ⟨hcounted, hleft, hholds⟩ := Stage.of_isOver hover
  exact h.stay hcore (by omega) (h.pending.congr hpending rfl (by rw [hzero, hcounted]))
    (by rw [hnone, hholds]; rfl) (.inr hover)

omit h in
theorem post {d : Dispatch} (h : Sound state limit us s (.posting d is))
    (hlimit : limit < UInt64.size) (setup : RunSetup) :
    Sound state limit us (s.post setup d).2 (.submitting is) := by
  obtain ⟨hcompletion, hstate, errand, i, hown, hopens⟩ := s.post_opens setup d
  generalize (s.post setup d).2 = s' at hcompletion hstate hopens
  obtain ⟨g, horderly⟩ := h.orderly
  have hroom := h.room
  simp only [Stage.counted, Stage.left] at hroom
  obtain ⟨hposted, hsize⟩ := h.posted.opens horderly (by omega) hopens hown
  obtain ⟨kind, hjobs⟩ := hopens.jobs
  rw [hown] at hjobs
  have hnew := horderly.get?_next (by omega)
  have hopen : s'.jobsThat Job.isOpen = s.jobsThat Job.isOpen + 1 := jobsThat_opened hnew hjobs _
  have hownOpen : s'.jobsThat Job.isOwnOpen = s.jobsThat Job.isOwnOpen + 1 :=
    jobsThat_opened hnew hjobs _
  have hserved : s'.jobsThat Job.isServed = s.jobsThat Job.isServed := jobsThat_opened hnew hjobs _
  obtain ⟨hretiring, hdelivered⟩ := marks_eq (marks_append hopens.tasks (by simp))
  have hfits := h.fits
  obtain ⟨landed, lost, hindexed, hunits, hlost⟩ := h.units
  refine ⟨⟨_, horderly.opens (a := .submit i) (by omega) hopens rfl rfl rfl⟩, hposted,
    h.home.created hjobs, ?_, ?_, h.pending.congr ?_ hserved ?_, ?_, nofun, landed, lost, ?_,
    fun u => ?_, ?_⟩
  · simp only [hsize, Stage.counted, Stage.left]
    omega
  · simp only [hopen, hretiring, hdelivered, hsize] at hfits ⊢
    omega
  · exact congrArg Completion.pending hcompletion
  · simp only [Scheduler.owed, hownOpen, hretiring, hdelivered, Stage.counted]
    omega
  · rw [hcompletion]
    exact h.holds
  · rw [hstate]
    exact hindexed
  · rw [hunits u]
    unfold Scheduler.holding
    simp [hopens.tasks, Phase.unit?]
  · have hmore : s'.unfinished = s.unfinished + 1 := by
      unfold Scheduler.unfinished
      simp [hopens.tasks, Phase.isDone]
    simp only [hmore, hopen] at hlost ⊢
    omega

/-- **The one who submits takes a step.** -/
theorem drive (hlimit : limit < UInt64.size)
    (hdrive : drive? setup ⟨s, stage⟩ = some ⟨s', stage'⟩) : Sound state limit us s' stage' := by
  have hholds := h.holds
  have hpending := h.pending
  cases stage with
  | opening =>
    cases hdrive
    refine h.stay (s.core_mapCompletion _) (Nat.le_refl _) hpending ?_ (.inl rfl)
    exact congrArg (· + 1) hholds
  | submitting is =>
    cases is with
    | nil =>
      cases hdrive
      refine h.of_over rfl (s.core_mapCompletion _) rfl (congrArg (· - 1) hholds) ?_
      split <;> rfl
    | cons i =>
      have hcore := s.core_accept setup i
      simp only [drive?] at hdrive
      rcases haccept : s.accept setup i with ⟨_ | d, s₁⟩ <;> rw [haccept] at hcore hdrive <;>
        cases hdrive
      · exact h.stay hcore (Nat.le_succ _) hpending hholds (.inl rfl)
      · exact h.stay hcore (Nat.le_refl _) hpending hholds (.inl rfl)
  | counting =>
    cases hdrive
    refine h.stay (s.core_mapCompletion _) ?_ hpending.count hholds (.inl rfl)
    simp only [Stage.counted, Stage.left]
    omega
  | posting =>
    cases hdrive
    exact h.post hlimit setup
  | looking =>
    cases hdrive
    exact h.of_over rfl (s.core_mapCompletion _) (pending_checkPending _)
      ((introspections_checkPending _).trans hholds) rfl
  | waiting =>
    cases hdrive
    refine h.of_over rfl rfl rfl hholds ?_
    split <;> rfl
  | idling =>
    cases hdrive
    exact h.of_over rfl (s.core_mapCompletion _) (pending_checkIntrospections _)
      ((introspections_checkIntrospections _).trans hholds) rfl
  | done => simp [drive?] at hdrive

end

theorem moves (h : Sound state limit us m.scheduler m.stage) (hlimit : limit < UInt64.size)
    {move : Move} (hmove : m.move? setup move = some m') :
    Sound state limit (us ++ m'.parsed move) m'.scheduler m'.stage
      ∧ (move = .driver ∧ m.drive? setup = some m'
        ∨ m'.stage = m.stage ∧ ∃ n, m.scheduler.Transition setup (some n) m'.scheduler) := by
  obtain ⟨g, horderly⟩ := h.orderly
  have hroom := h.room
  cases move with
  | driver => exact ⟨by rw [parsed, append_nil]; exact h.drive hlimit hmove, .inl ⟨rfl, hmove⟩⟩
  | task n =>
    obtain ⟨⟨s', woken⟩, hstep, rfl⟩ := map_eq_some_iff.mp hmove
    have htransition := transition_step horderly.staffed hstep
    have hsize := (htransition.jobMoves h.posted).2
    have horderly' := horderly.step hstep (by omega)
    exact ⟨h.transition hlimit htransition ⟨_, horderly'⟩ (landsAll_step hstep),
      .inr ⟨rfl, n, htransition⟩⟩
  | parse n =>
    obtain ⟨s', hend, rfl⟩ := map_eq_some_iff.mp hmove
    have htransition := transition_endParse hend
    obtain ⟨t, request, indexer, ht, hphase, -⟩ := endParse?_eq_some hend
    refine ⟨h.transition hlimit htransition ⟨_, horderly.endParse hend⟩ ?_,
      .inr ⟨rfl, n, htransition⟩⟩
    rw [landingOf_eq_nil ht (by simp [hphase])]
    exact .none (.of_eq (state_endParse hend))

end Sound

/-! ## The latch -/

/-- What holds as long as no job is counted behind the back of one that is about to look: whoever
looks next looks at finished work, and so has the latch when it has fired. -/
structure Quiet (s : Scheduler) (stage : Stage) : Prop where
  checking : s.Checks → s.completion.pending = 0
  idling : stage = .idling → s.completion.pending = 0
  fired : s.completion.latch.isTriggered = true →
    stage.isOver = true ∧ s.completion.pending = 0

namespace Quiet

/-- A task moves, or its front end comes to its end. -/
theorem transition (h : Quiet s stage) (hsound : Sound state limit us s stage)
    (hlimit : limit < UInt64.size) (htransition : s.Transition setup (some n) s') :
    Quiet s' stage := by
  obtain ⟨g, horderly⟩ := hsound.orderly
  obtain ⟨hchecking, hidling, hfired⟩ := h
  cases htransition.beat horderly.line with
  | still hsame hchecks =>
    refine ⟨fun hmem => ?_, fun hi => ?_, fun hf => ?_⟩ <;> simp only [hsame] at *
    · exact hchecking (hchecks.mp hmem)
    · exact hidling hi
    · exact hfired hf
  | counted _ hnone =>
    obtain ⟨t, ht, hjob⟩ := hnone htransition.length_eq
    obtain ⟨k, hk⟩ := mem_iff_getElem?.mp ht
    exact absurd (hsound.posted.job? hk) (by simp [hjob])
  | released hretires hsame hchecks =>
    have hpos : 0 < s.retiring := by
      obtain ⟨t, ht, hretires⟩ := hretires
      exact countP_pos_iff.mpr ⟨t, ht, hretires⟩
    have hne : s.completion.pending ≠ 0 := fun hzero => by
      have hcount := hsound.pending_eq hlimit
      simp only [hzero, UInt64.toNat_zero] at hcount
      omega
    refine ⟨fun hmem => ?_, fun hi => absurd (hidling hi) hne, fun hf => ?_⟩ <;>
      simp only [hsame] at *
    · rcases hchecks.mp hmem with hold | hlast
      · exact absurd (hchecking hold) hne
      · exact pending_eq_zero_of_last hlast
    · exact absurd (hfired hf).2 hne
  | checked hchecks hsame =>
    have hzero := hchecking hchecks
    have hzero' : s'.completion.pending = 0 := by
      rw [hsame, pending_checkIntrospections, hzero]
    refine ⟨fun _ => hzero', fun _ => hzero', fun hf => ⟨?_, hzero'⟩⟩
    simp only [hsame] at hf
    rcases isTriggered_checkIntrospections hf with hf | hintro
    · exact (hfired hf).1
    · have hholds := hsound.holds
      obtain ⟨t, ht, -⟩ := hchecks
      cases hstage : stage.holds with
      | true => simp [hholds, hstage] at hintro
      | false =>
        cases hover : stage.isOver with
        | true => rfl
        | false => cases hsound.fresh hstage hover ▸ ht

theorem before (h : Quiet s stage) (hbefore : stage.isOver = false) (hidling : stage' ≠ .idling)
    (hchecking : s'.Checks → s'.completion.pending = 0)
    (hlatch : s'.completion.latch = s.completion.latch) : Quiet s' stage' where
  checking := hchecking
  idling := fun hstage => absurd hstage hidling
  fired := fun hfired => by
    rw [hlatch] at hfired
    cases (h.fired hfired).1.symm.trans hbefore

/-- **The one who submits takes a step**, and does not count a job behind the back of another. -/
theorem drive (h : Quiet s stage) (hdrive : drive? setup ⟨s, stage⟩ = some ⟨s', stage'⟩)
    (hcalm : ¬ Overlooked ⟨s, stage⟩) : Quiet s' stage' := by
  have hchecking := h.checking
  have hrecounted : ∀ f, (s.mapCompletion f).Checks → s.completion.pending = 0 :=
    fun f hmem => hchecking ((checks_congr (s.core_recounted f).1).mp hmem)
  have hcompletion := s.completion_mapCompletion
  cases stage with
  | opening =>
    cases hdrive
    exact h.before rfl (fun h => by cases h)
      (fun hmem => by rw [hcompletion]; exact hrecounted _ hmem)
      (by rw [hcompletion]; rfl)
  | submitting is =>
    cases is with
    | nil =>
      cases hdrive
      refine h.before rfl ?_ (fun hmem => by rw [hcompletion]; exact hrecounted _ hmem)
        (by rw [hcompletion])
      split <;> simp
    | cons i =>
      have hcore := s.core_accept setup i
      simp only [Scheduler.core, Prod.mk.injEq] at hcore
      obtain ⟨htasks, -, -, hsame, -⟩ := hcore
      have hkept : (s.accept setup i).2.Checks → (s.accept setup i).2.completion.pending = 0 := by
        rw [checks_congr htasks, hsame]
        exact hchecking
      simp only [drive?] at hdrive
      rcases haccept : s.accept setup i with ⟨_ | d, s₁⟩ <;> rw [haccept] at hdrive hsame hkept <;>
        obtain ⟨rfl, rfl⟩ := mk.inj (some.inj hdrive) <;>
        exact h.before rfl (fun h => by cases h) hkept (congrArg Completion.latch hsame)
  | counting d is =>
    cases hdrive
    refine h.before rfl (fun h => by cases h) (fun hmem => ?_) (by rw [hcompletion]; rfl)
    exact absurd ⟨⟨d, is, rfl⟩, (checks_congr (s.core_recounted _).1).mp hmem⟩ hcalm
  | posting d =>
    cases hdrive
    obtain ⟨hsame, -, errand, i, -, hopens⟩ := s.post_opens setup d
    refine h.before rfl (fun h => by cases h) (fun hmem => ?_) (congrArg Completion.latch hsame)
    rw [hsame]
    exact hchecking ((checks_append hopens.tasks (by simp)).mp hmem)
  | looking =>
    cases hdrive
    refine ⟨fun hmem => ?_, (fun h => by cases h), fun hf => ⟨rfl, ?_⟩⟩ <;>
      simp only [hcompletion] at * <;>
      rw [pending_checkPending]
    · exact hrecounted _ hmem
    · rcases isTriggered_checkPending hf with hf | hzero
      · exact (h.fired hf).2
      · exact hzero
  | waiting =>
    cases hdrive
    refine ⟨hchecking, fun hi => ?_, fun hf => ⟨?_, (h.fired hf).2⟩⟩
    · by_cases hzero : s.completion.pending = 0
      · exact hzero
      · simp [hzero] at hi
    · simp only
      split <;> rfl
  | idling =>
    cases hdrive
    have hzero : (s.mapCompletion Completion.checkIntrospections).completion.pending = 0 := by
      rw [hcompletion, pending_checkIntrospections]
      exact h.idling rfl
    exact ⟨fun _ => hzero, (fun h => by cases h), fun _ => ⟨rfl, hzero⟩⟩
  | done => simp [drive?] at hdrive

end Quiet

/-! ## Whole runs -/

theorem sound_of_trail (hsize : is.length < UInt64.size)
    (h : Trail setup allowed (start setup world state is) us m) :
    Sound state is.length us m.scheduler m.stage := by
  induction h with
  | start => exact .start setup world state is
  | act _ _ hmove _ ih => exact (ih.moves hsize hmove).1

section

variable (hsize : is.length < UInt64.size) (h : Trail setup Calm (start setup world state is) us m)

include hsize h

theorem quiet_of_calm : Quiet m.scheduler m.stage := by
  induction h with
  | start =>
    exact ⟨fun hmem => absurd hmem (by simp [start, Scheduler.start, Scheduler.Checks]), nofun,
      fun hfired => absurd hfired (by simp [start, Scheduler.start, Latch.isTriggered])⟩
  | act _ htrail hmove hcalm ih =>
    have hsound := sound_of_trail hsize htrail
    rcases (hsound.moves hsize hmove).2 with ⟨hdriver, hdrive⟩ | ⟨hstage, n, htransition⟩
    · exact ih.drive hdrive (hcalm hdriver)
    · rw [hstage]
      exact ih.transition hsound hsize htransition

/-- **A latch that has fired in a calm run has finished work behind it.** -/
theorem settled_of_calm (hfired : m.scheduler.completion.latch.isTriggered = true) :
    m.Settled state us := by
  have hsound := sound_of_trail hsize h
  obtain ⟨hover, hzero⟩ := (quiet_of_calm hsize h).fired hfired
  have hcount := hsound.pending_eq hsize
  rw [hzero, UInt64.toNat_zero] at hcount
  obtain ⟨landed, lost, ⟨r, hall, hindex⟩, hunits, hlost⟩ := hsound.units
  have hended : ∀ id job, m.scheduler.jobs.get? id = some job → job.state.isTerminal = true := by
    intro id job hjob
    have hnone : m.scheduler.jobsThat Job.isOpen = 0 := by omega
    obtain ⟨key, -, hmem⟩ := mem_of_get? hjob
    have hclosed := countP_eq_zero.mp hnone job (mem_map.mpr ⟨_, hmem, rfl⟩)
    simpa [Job.isOpen] using hclosed
  have hperm : us.Perm landed := by
    obtain rfl : lost = [] := eq_nil_of_length_eq_zero (by omega)
    refine perm_iff_count.mpr fun u => ?_
    have hidle : m.scheduler.holding u = 0 := by
      refine countP_eq_zero.mpr fun t ht => ?_
      have hdone := countP_eq_zero.mp (show m.scheduler.unfinished = 0 by omega) t ht
      simp [unit?_of_isDone (by simpa using hdone)]
    rw [hunits u, hidle]
    simp
  have hsources : ∀ source, source ∈ m.scheduler.state.sources ↔ state.Keeps landed source := by
    intro source
    have heq : m.scheduler.state.sources = r.sources := congrArg (fun i => i.2.2) hindex
    rw [heq]
    exact IndexState.mem_sources_integrateAll hall source
  refine ⟨hover, hended, ⟨landed, r, hperm.symm, hall, hindex, hsources⟩, fun hpair u hu => ?_⟩
  have hpair' := (hperm.pairwise_iff (fun hne hsame => hne hsame.symm)).mp hpair
  exact (hsources _).mpr (IndexState.keeps_of_pairwise hpair' (hperm.mem_iff.mp hu))

end

structure Grows (s s' : Scheduler) : Prop where
  tasks : ∃ more, s'.tasks = s.tasks ++ more ∧ ∀ t ∈ more, t.phase = .fresh
  jobs : ∀ id job, s.jobs.get? id = some job → s'.jobs.get? id = some job

theorem Grows.of_core {index : Graph × FileTable × List Source}
    (hcore : s'.core = (s.tasks, s.jobs, s.line, c, index)) : Grows s s' := by
  simp only [Scheduler.core, Prod.mk.injEq] at hcore
  exact ⟨⟨[], by rw [hcore.1, append_nil], by simp⟩, fun id job hjob => hcore.2.1 ▸ hjob⟩

theorem Grows.trans {s'' : Scheduler} (h : Grows s s') (h' : Grows s' s'') : Grows s s'' := by
  obtain ⟨more, htasks, hmore⟩ := h.tasks
  obtain ⟨more', htasks', hmore'⟩ := h'.tasks
  refine ⟨⟨more ++ more', by rw [htasks', htasks, append_assoc], fun t ht => ?_⟩,
    fun id job hjob => h'.jobs id job (h.jobs id job hjob)⟩
  exact (mem_append.mp ht).elim (hmore t) (hmore' t)

theorem grows_drive (h : Sound state limit us s stage) (hlimit : limit < UInt64.size)
    (hdrive : drive? setup ⟨s, stage⟩ = some ⟨s', stage'⟩) : Grows s s' := by
  cases stage with
  | submitting is =>
    cases is with
    | nil =>
      cases hdrive
      exact .of_core (s.core_mapCompletion _)
    | cons i =>
      have hcore := s.core_accept setup i
      simp only [drive?] at hdrive
      rcases haccept : s.accept setup i with ⟨_ | d, s₁⟩ <;> rw [haccept] at hcore hdrive <;>
        obtain ⟨rfl, rfl⟩ := mk.inj (some.inj hdrive) <;> exact .of_core hcore
  | posting d =>
    cases hdrive
    obtain ⟨-, -, errand, i, -, hopens⟩ := s.post_opens setup d
    obtain ⟨g, horderly⟩ := h.orderly
    have hroom := h.room
    refine ⟨⟨_, hopens.tasks, by simp⟩, fun id job hjob => ?_⟩
    obtain ⟨kind, hjobs⟩ := hopens.jobs
    have hne : id ≠ jobOf s.jobs.size := by
      rintro rfl
      cases hjob.symm.trans (horderly.get?_next (by omega))
    rw [hjobs, get?_insert, if_neg (by rwa [Std.compare_eq_iff_eq])]
    exact hjob
  | waiting =>
    cases hdrive
    exact ⟨⟨[], (append_nil _).symm, by simp⟩, fun _ _ hjob => hjob⟩
  | done => simp [drive?] at hdrive
  | _ =>
    cases hdrive
    exact .of_core (s.core_mapCompletion _)

theorem Sound.alone (hsound : Sound state limit us m.scheduler m.stage)
    (hlimit : limit < UInt64.size) (h : Trail setup (fun _ move => move = .driver) m vs m') :
    Sound state limit us m'.scheduler m'.stage ∧ Grows m.scheduler m'.scheduler := by
  induction h with
  | start => exact ⟨hsound, ⟨[], (append_nil _).symm, by simp⟩, fun _ _ hjob => hjob⟩
  | act _ _ hmove hdriver ih =>
    subst hdriver
    exact ⟨ih.1.drive hlimit hmove, ih.2.trans (grows_drive ih.1 hlimit hmove)⟩

theorem exists_alone_over (setup : RunSetup) (s : Scheduler) (is : List Invocation) :
    ∃ s' stage, Alone setup ⟨s, .submitting is⟩ ⟨s', stage⟩ ∧ stage.holds = false :=
  ⟨_, .waiting, (alone_submits setup s is).trans (alone_end setup _), rfl⟩

theorem fires_of_checking {task : Task} (htask : m.scheduler.tasks[n]? = some task)
    (hphase : task.phase = .checking) (hnone : m.scheduler.completion.introspections = 0) :
    ∃ m', m.move? setup (.task n) = some m' ∧ m'.scheduler.completion.latch.isTriggered = true
      ∧ m'.scheduler.jobs = m.scheduler.jobs := by
  have hstep : m.scheduler.step? setup n = some
      ((m.scheduler.mapCompletion Completion.checkIntrospections).setPhase n .finished, []) := by
    unfold Scheduler.step?
    rw [htask]
    simp only [hphase]
  refine ⟨_, by rw [move?, hstep]; rfl, ?_, (m.scheduler.core_recounted _).2.2⟩
  show (m.scheduler.mapCompletion _).completion.latch.isTriggered = true
  rw [completion_mapCompletion]
  simp only [Completion.checkIntrospections, hnone, if_true]
  unfold Latch.triggerSuccess
  split
  · next htriggered => exact htriggered
  · simp [Latch.isTriggered]

/-- **Where a job is about to be counted behind the back of another one, the run can go on to a
latch that fires too early.** The one who submits goes on alone to the end of the submission; then
nothing is held open, the job still waits, and the other one looks. -/
theorem exists_early (hsize : is.length < UInt64.size)
    (h : Trail setup allowed (start setup world state is) us m) (hoverlooked : m.Overlooked) :
    ∃ vs m', Trail setup (fun _ _ => True) m vs m'
      ∧ m'.scheduler.completion.latch.isTriggered = true
      ∧ ∃ id job, m'.scheduler.jobs.get? id = some job ∧ job.state.isTerminal = false := by
  have hsound := sound_of_trail hsize h
  rcases m with ⟨s, stage⟩
  obtain ⟨⟨d, rest, rfl⟩, task, htask, hphase⟩ := hoverlooked
  have hcount : Alone setup ⟨s, .counting d rest⟩
      ⟨s.mapCompletion Completion.countJob, .posting d rest⟩ := alone_of_drive rfl
  obtain ⟨hsound₁, hgrows₁⟩ := hsound.alone hsize hcount
  generalize s.mapCompletion Completion.countJob = s₁ at hcount hsound₁ hgrows₁
  have hpost : Alone setup ⟨s₁, .posting d rest⟩ ⟨(s₁.post setup d).2, .submitting rest⟩ :=
    alone_of_drive rfl
  obtain ⟨s', stage', hend, hholds⟩ := exists_alone_over setup (s₁.post setup d).2 rest
  obtain ⟨hsound₂, hgrows₂⟩ := hsound₁.alone hsize hpost
  obtain ⟨hsound', hgrows'⟩ := hsound₂.alone hsize hend
  have hnone : s'.completion.introspections = 0 := by
    rw [hsound'.holds, hholds]
    rfl
  obtain ⟨more, htasks, -⟩ := (hgrows₁.trans (hgrows₂.trans hgrows')).tasks
  obtain ⟨k, hk⟩ := mem_iff_getElem?.mp (htasks ▸ mem_append_left more htask)
  obtain ⟨m'', hmove, hfired, hjobs⟩ := fires_of_checking (m := ⟨s', stage'⟩) hk hphase hnone
  have hway := hcount.trans (hpost.trans hend)
  refine ⟨_, m'', (Trail.mono (fun _ _ _ => trivial) hway).act _ hmove trivial, hfired, ?_⟩
  obtain ⟨-, -, errand, i, -, hopens⟩ := s₁.post_opens setup d
  obtain ⟨kind, hnew⟩ := hopens.jobs
  refine ⟨jobOf s₁.jobs.size, Job.make (jobOf s₁.jobs.size) kind i errand.answers, ?_, rfl⟩
  rw [hjobs]
  refine hgrows'.jobs _ _ ?_
  simp only [hnew, get?_insert, Std.compare_eq_iff_eq, if_true]

/-- **When the latch of a run fires.** The steps of the one who submits are those of `submitAll`.
If no job is ever counted behind the back of another one, the latch fires over finished work, with
every parsed unit in the index; and at every moment at which a job is about to be so counted the run
can go on to a latch that has fired over a job that has not ended. -/
theorem latch_exact (setup : RunSetup) (world : World) (state : IndexState) (is : List Invocation)
    (hsize : is.length < UInt64.size) :
    Alone setup (start setup world state is)
      ⟨((Scheduler.start setup world state).submitAll setup is).2, .waiting⟩
    ∧ (∀ us m, Trail setup Calm (start setup world state is) us m →
        m.scheduler.completion.latch.isTriggered = true → m.Settled state us)
    ∧ ∀ us m, Trail setup (fun _ _ => True) (start setup world state is) us m → m.Overlooked →
        ∃ vs m', Trail setup (fun _ _ => True) m vs m'
          ∧ m'.scheduler.completion.latch.isTriggered = true
          ∧ ∃ id job, m'.scheduler.jobs.get? id = some job ∧ job.state.isTerminal = false :=
  ⟨alone_submitAll setup _ is, fun _ _ h hfired => settled_of_calm hsize h hfired,
    fun _ _ h hoverlooked => exists_early hsize h hoverlooked⟩

/-! ## Two runs -/

/-- A front end that finds nothing to tell in any unit. -/
def emptySetup : RunSetup :=
  { config := { stagingDir := some ⟨"/staging"⟩ }
    frontend := fun disk _ => { disk, ending := .parsed (.bytes ⟨#[]⟩) } }

def twoUnits : List Invocation :=
  ["/a.c", "/b.c"].map (fun name =>
    { directory := ⟨"/"⟩, compiler := "cc", input := ⟨name⟩, language := .c })

def twoPlaces : List Invocation :=
  ["/b/one.gch", "/b/two.gch"].map (fun name =>
    { directory := ⟨"/"⟩, compiler := "cc", input := ⟨"/h.h"⟩, output := some ⟨name⟩,
      language := .cHeader })

/-- The first unit is submitted and runs until it has found itself the last; then the second unit
is accepted. -/
def overlooking : List Move :=
  List.replicate 4 .driver ++ List.replicate 4 (.task 0) ++ [.parse 0]
    ++ List.replicate 3 (.task 0) ++ [.driver]

/-- Everything is submitted, and then one task after the other runs to its end, which takes `steps`
steps before it has its permit and starts. -/
def orderly (steps : Nat) : List Move :=
  List.replicate 9 .driver
    ++ List.replicate steps (.task 0) ++ [.parse 0] ++ List.replicate 3 (.task 0)
    ++ List.replicate steps (.task 1) ++ [.parse 1] ++ List.replicate 4 (.task 1)

/-- An orderly run has finished work behind its latch, and an overlooking one can go on to a latch
that fires early. -/
theorem latch_exact_twoUnits : twoUnits.length < UInt64.size
    ∧ (∃ us m, Trail emptySetup Calm (start emptySetup {} {} twoUnits) us m ∧ us.length = 2
        ∧ m.scheduler.completion.latch.isTriggered = true ∧ m.Settled {} us)
    ∧ ∃ us m vs m', Trail emptySetup (fun _ _ => True) (start emptySetup {} {} twoUnits) us m
        ∧ m.Overlooked ∧ Trail emptySetup (fun _ _ => True) m vs m'
        ∧ m'.scheduler.completion.latch.isTriggered = true
        ∧ ∃ id job, m'.scheduler.jobs.get? id = some job ∧ job.state.isTerminal = false := by
  have hsize : twoUnits.length < UInt64.size := by decide
  obtain ⟨-, hsettled, hearly⟩ := latch_exact emptySetup {} {} twoUnits hsize
  have hcalm : (((start emptySetup {} {} twoUnits).play? emptySetup
      (fun m move => decide (m.Calm move)) (orderly 4)).map
      (fun r => (r.1.length, r.2.scheduler.completion.latch.isTriggered))) = some (2, true) := by
    decide
  have hrace : (((start emptySetup {} {} twoUnits).play? emptySetup (fun _ _ => true)
      overlooking).map (fun r => decide r.2.Overlooked)) = some true := by
    decide
  obtain ⟨⟨us, m⟩, hplay, hseen⟩ := Option.map_eq_some_iff.mp hcalm
  obtain ⟨hlength, hfired⟩ := Prod.mk.inj hseen
  have htrail := Trail.mono (fun _ _ h => of_decide_eq_true h) (trail_of_play hplay)
  obtain ⟨⟨us', m'⟩, hplay', hoverlooked⟩ := Option.map_eq_some_iff.mp hrace
  have htrail' := Trail.mono (fun _ _ _ => trivial) (trail_of_play hplay')
  have hoverlooked := of_decide_eq_true hoverlooked
  obtain ⟨vs, m'', hrest, hfired'', hjob⟩ := hearly us' m' htrail' hoverlooked
  exact ⟨hsize, ⟨us, m, htrail, hlength, hfired, hsettled us m htrail hfired⟩,
    us', m', vs, m'', htrail', hoverlooked, hrest, hfired'', hjob⟩

/-- A run of two units whose latch has fired while the second job waits for its start, and a run of
one header and two places whose latch has fired in time and whose index has lost a record. -/
theorem latch_fires_early :
    (∃ us m job, Trail emptySetup (fun _ _ => True) (start emptySetup {} {} twoUnits) us m
      ∧ m.scheduler.completion.latch.isTriggered = true
      ∧ m.scheduler.jobs.get? ⟨2⟩ = some job ∧ job.state = .queued)
    ∧ ∃ us m, Trail emptySetup (fun _ _ => True) (start emptySetup {} {} twoPlaces) us m
        ∧ m.scheduler.completion.latch.isTriggered = true
        ∧ ∃ u ∈ us, u.source ∉ m.scheduler.state.sources := by
  have hearly : (((start emptySetup {} {} twoUnits).play? emptySetup (fun _ _ => true)
      (overlooking ++ List.replicate 3 .driver ++ [.task 0])).map
      (fun r => (r.2.scheduler.completion.latch.isTriggered,
        (r.2.scheduler.jobs.get? ⟨2⟩).map Job.state))) = some (true, some .queued) := by
    decide +kernel
  have hlost : (((start emptySetup {} {} twoPlaces).play? emptySetup (fun _ _ => true)
      (orderly 3)).map (fun r => (r.2.scheduler.completion.latch.isTriggered,
        decide (∃ u ∈ r.1, u.source ∉ r.2.scheduler.state.sources)))) = some (true, true) := by
    decide +kernel
  obtain ⟨⟨us, m⟩, hplay, hseen⟩ := Option.map_eq_some_iff.mp hearly
  obtain ⟨hfired, hqueued⟩ := Prod.mk.inj hseen
  obtain ⟨job, hjob, hstate⟩ := Option.map_eq_some_iff.mp hqueued
  obtain ⟨⟨us', m'⟩, hplay', hseen'⟩ := Option.map_eq_some_iff.mp hlost
  obtain ⟨hfired', hmissing⟩ := Prod.mk.inj hseen'
  exact ⟨⟨us, m, job, Trail.mono (fun _ _ _ => trivial) (trail_of_play hplay), hfired, hjob, hstate⟩,
    us', m', Trail.mono (fun _ _ _ => trivial) (trail_of_play hplay'), hfired', of_decide_eq_true hmissing⟩

end Submission

end SymbolIndex
