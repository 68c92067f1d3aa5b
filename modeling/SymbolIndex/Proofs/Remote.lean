import SymbolIndex.Proofs.Times
import SymbolIndex.Proofs.Wire

/-!
# A unit that is parsed elsewhere

A job can be handed to another process, which parses the unit and sends back what it has made of it.
The index is then the one that parsing the unit here would have left. The two ways part only when
the outcome is there: a task that works for this index integrates it, and one that works for another
process answers with it. Up to then both do the same, and what they do depends on the files, on the
precompiled headers and on the setup alone.

`Alone` follows one task of a run while all others stand still. It is deterministic, and a task that
nothing stands in the way of comes to its end, so there is exactly one end to speak of.
-/

namespace SymbolIndex

open List SortedMap

/-- The index once a unit has been integrated. One that the file table has no room for leaves no
trace. -/
def IndexState.indexAfter (s : IndexState) (c : Contribution) (source : Source) :
    Graph × FileTable × List Source :=
  match s.integrate c source with
  | .ok (_, r) => r.index
  | .error _ => s.index

theorem IndexState.indexAfter_congr {s s' : IndexState} (hindex : s'.index = s.index)
    (c : Contribution) (source : Source) : s'.indexAfter c source = s.indexAfter c source := by
  unfold indexAfter
  cases hone : s.integrate c source with
  | ok =>
    obtain ⟨r, hone', hr⟩ := integrate_congr hindex hone
    rw [hone']
    exact hr
  | error =>
    cases hone' : s'.integrate c source with
    | ok =>
      obtain ⟨r, hr, -⟩ := integrate_congr hindex.symm hone'
      cases hone.symm.trans hr
    | error => exact hindex

/-- The index once the outcome of a unit has been taken in: a failure changes nothing. -/
def IndexState.indexWith (s : IndexState) :
    Except FrontendError ParsedUnit → Graph × FileTable × List Source
  | .ok unit => s.indexAfter unit.contribution unit.source
  | .error _ => s.index

namespace Scheduler

/-! ## What a parse depends on -/

/-- What a parse of an invocation brings. -/
def outcomeOf (setup : RunSetup) (s : Scheduler) (i : Invocation) :
    Except FrontendError ParsedUnit :=
  if setup.config.flags.dontIndex then
    (beginParse setup s i).2.2.unparsed (.remote default) i (beginParse setup s i).2.1
  else
    (runFrontend setup (beginParse setup s i).2.2 (.remote default) (beginParse setup s i).1
      (beginParse setup s i).2.1).2

section Parse

variable {s p : Scheduler} {errand : Errand} {i : Invocation}

theorem unparsed_of_plain (h : errand.reservation? = none) (indexer : UnitIndexer) :
    s.unparsed errand i indexer = s.unparsed (.remote default) i indexer := by
  cases errand with
  | header => simp [Errand.reservation?] at h
  | _ => rfl

theorem outcome_runFrontend_of_plain (setup : RunSetup) (h : errand.reservation? = none)
    (request : ParseRequest) (indexer : UnitIndexer) :
    (runFrontend setup s errand request indexer).2
      = (runFrontend setup s (.remote default) request indexer).2 := by
  cases errand with
  | header => simp [Errand.reservation?] at h
  | _ => rfl

theorem outcome_runFrontend_congr (setup : RunSetup) (hworld : p.world = s.world)
    (request : ParseRequest) (indexer : UnitIndexer) :
    (runFrontend setup p (.remote default) request indexer).2
      = (runFrontend setup s (.remote default) request indexer).2 := by
  unfold runFrontend
  simp only [mapDisk, hworld]
  split <;> simp [noteParsed, note, sourceOf]

/-- **The outcome of a unit depends on the files and on the headers alone.** -/
theorem outcomeOf_congr (setup : RunSetup) (i : Invocation) (hworld : p.world = s.world)
    (hpch : p.state.pch = s.state.pch) : p.outcomeOf setup i = s.outcomeOf setup i := by
  obtain ⟨hrequest, hindexer⟩ := beginParse_congr setup i hworld hpch
  have hbegun : (beginParse setup p i).2.2.world = (beginParse setup s i).2.2.world := by
    rw [world_beginParse, world_beginParse, hworld]
  unfold outcomeOf
  rw [hrequest, hindexer, outcome_runFrontend_congr setup hbegun]
  unfold unparsed sourceOf
  rw [hbegun]

end Parse

/-! ## One task by itself -/

/-- A run in which one task moves, with its front end, and all others stand still. -/
def Alone (setup : RunSetup) (n : Nat) (s s' : Scheduler) : Prop :=
  RecordedRun (act? setup) (fun _ a _ => a = .step n ∨ a = .parse n) (fun r _ _ _ => r) () s () s'

def Ended (s : Scheduler) (n : Nat) (answer : Option TaskAnswer) : Prop :=
  ∃ t, s.tasks[n]? = some t ∧ t.phase = .finished ∧ t.answer = answer

section Alone

variable {setup : RunSetup} {s s₁ s₂ : Scheduler} {n : Nat} {answer₁ answer₂ : Option TaskAnswer}

theorem Alone.refl (s : Scheduler) : Alone setup n s s := .start

theorem Alone.step {woken : List Nat} (hstep : s.step? setup n = some (s₁, woken))
    (h : Alone setup n s₁ s₂) : Alone setup n s s₂ :=
  RecordedRun.cons (.step n) (by simp [act?, hstep]) (.inl rfl) h

theorem Alone.endParse (hend : s.endParse? setup n = some s₁) (h : Alone setup n s₁ s₂) :
    Alone setup n s s₂ :=
  RecordedRun.cons (.parse n) hend (.inr rfl) h

theorem Alone.trans (h : Alone setup n s s₁) (h' : Alone setup n s₁ s₂) : Alone setup n s s₂ :=
  RecordedRun.trans h h'

theorem Ended.stays {answer : Option TaskAnswer} (h : s.Ended n answer) (setup : RunSetup) :
    s.step? setup n = none ∧ s.endParse? setup n = none := by
  obtain ⟨t, ht, hphase, -⟩ := h
  unfold step? endParse?
  simp [ht, hphase]

theorem Ended.answer_eq (h₁ : s.Ended n answer₁) (h₂ : s.Ended n answer₂) : answer₁ = answer₂ := by
  obtain ⟨t, ht, -, rfl⟩ := h₁
  obtain ⟨t', ht', -, rfl⟩ := h₂
  cases ht.symm.trans ht'
  rfl

theorem endParse?_eq_none {moved : Moved} (h : s.step? setup n = some moved) :
    s.endParse? setup n = none := by
  cases hparse : s.endParse? setup n with
  | none => rfl
  | some =>
    obtain ⟨t, request, indexer, ht, hphase, -⟩ := endParse?_eq_some hparse
    unfold step? at h
    simp [ht, hphase] at h

/-- A task can move in one way. -/
theorem act?_unique {a a' : Action} (ha : a = .step n ∨ a = .parse n)
    (ha' : a' = .step n ∨ a' = .parse n) (hact : s.act? setup a = some s₁)
    (hact' : s.act? setup a' = some s₂) : s₁ = s₂ := by
  rcases ha with rfl | rfl <;> rcases ha' with rfl | rfl
  · exact Option.some.inj (hact.symm.trans hact')
  · obtain ⟨moved, hstep, -⟩ := Option.map_eq_some_iff.mp hact
    cases (endParse?_eq_none hstep).symm.trans hact'
  · obtain ⟨moved, hstep, -⟩ := Option.map_eq_some_iff.mp hact'
    cases (endParse?_eq_none hstep).symm.trans hact
  · exact Option.some.inj (hact.symm.trans hact')

theorem Ended.act? {answer : Option TaskAnswer} (h : s.Ended n answer) {a : Action}
    (ha : a = .step n ∨ a = .parse n) : s.act? setup a = none := by
  obtain ⟨hstep, hparse⟩ := h.stays setup
  rcases ha with rfl | rfl
  · simp [Scheduler.act?, hstep]
  · exact hparse

/-- A task that comes to an end comes to it from everywhere on its way. -/
theorem Alone.onward (h₁ : Alone setup n s s₁) (h₂ : Alone setup n s s₂)
    (hend₂ : s₂.Ended n answer₂) : Alone setup n s₁ s₂ := by
  refine RecordedRun.keeps (I := fun s => Alone setup n s s₂) h₁ h₂ fun s a s' h hact ha => ?_
  rcases RecordedRun.eq_or_exists_cons h with ⟨-, rfl⟩ | ⟨a', s'', hact', ha', hrest⟩
  · cases (hend₂.act? ha).symm.trans hact
  · rwa [act?_unique ha ha' hact hact']

/-- **There is one end**: what a task comes to is settled where it sets out. -/
theorem Alone.unique (h₁ : Alone setup n s s₁) (h₂ : Alone setup n s s₂)
    (hend₁ : s₁.Ended n answer₁) (hend₂ : s₂.Ended n answer₂) : s₁ = s₂ := by
  rcases RecordedRun.eq_or_exists_cons (h₁.onward h₂ hend₂) with ⟨-, heq⟩ | ⟨a, s', hact, ha, -⟩
  · exact heq.symm
  · cases (hend₁.act? ha).symm.trans hact

end Alone

/-! ## The way to the outcome -/

/-- Nothing stands in the way of a unit: a permit is free, its parse is not held up, and no header
that it includes is being built. -/
structure Unhindered (s : Scheduler) (i : Invocation) : Prop where
  permit : 0 < s.permits
  gate : s.gates.contains i.input = false
  built : ∀ key ∈ i.includedHeaderKeys, s.state.pch.inFlight? key = none

/-- Nothing but the tasks has changed, the log and the permits apart. -/
structure TasksOnly (s s' : Scheduler) : Prop where
  world : s'.world = s.world
  state : s'.state = s.state
  jobs : s'.jobs = s.jobs
  gates : s'.gates = s.gates

section Way

variable {setup : RunSetup} {s : Scheduler} {n : Nat} {t : Task} {i : Invocation}

theorem task_setPhase (ht : s.tasks[n]? = some t) (phase : Phase) :
    (s.setPhase n phase).tasks[n]? = some { t with phase } := by
  show (s.tasks.modify n _)[n]? = _
  rw [getElem?_modify_eq, ht]
  rfl

theorem exists_asking (setup : RunSetup) {keys : List String} (ht : s.tasks[n]? = some t)
    (hphase : t.phase = .seeking keys) (hbuilt : ∀ key ∈ keys, s.state.pch.inFlight? key = none) :
    ∃ s₁, Alone setup n s s₁ ∧ s₁.tasks[n]? = some { t with phase := .asking } ∧ TasksOnly s s₁
      ∧ s₁.permits = s.permits := by
  induction keys generalizing s t with
  | nil =>
    have hstep : s.step? setup n = some (s.setPhase n .asking, []) := by
      unfold step?
      simp only [ht, hphase]
    exact ⟨_, .step hstep (.refl _), task_setPhase ht _, ⟨rfl, rfl, rfl, rfl⟩, rfl⟩
  | cons key rest ih =>
    have hstep : s.step? setup n = some (s.setPhase n (.seeking rest), []) := by
      unfold step?
      simp only [ht, hphase, hbuilt key mem_cons_self]
    obtain ⟨s₁, halone, ht₁, honly, hpermits⟩ := ih (task_setPhase ht (.seeking rest)) rfl
      (fun k hk => hbuilt k (mem_cons_of_mem _ hk))
    exact ⟨s₁, .step hstep halone, ht₁,
      ⟨honly.world, honly.state, honly.jobs, honly.gates⟩, hpermits⟩

def launched (setup : RunSetup) (s : Scheduler) (n : Nat) (errand : Errand) (i : Invocation) :
    Scheduler :=
  if setup.config.flags.dontIndex then
    ((beginParse setup s i).2.2.noteParsed i (beginParse setup s i).2.1).setPhase n
      (.parsed i ((beginParse setup s i).2.2.unparsed errand i (beginParse setup s i).2.1))
  else
    (beginParse setup s i).2.2.setPhase n
      (.parsing (beginParse setup s i).1 (beginParse setup s i).2.1)

theorem launch_of_started {s₁ : Scheduler} {errand : Errand} {id : JobId}
    (hid : errand.job? = some id) (hstart : s.startLocal? id errand.attempt = some (i, s₁)) :
    s.launch setup n errand = (s₁.launched setup n errand i, []) := by
  unfold launch launched
  cases errand with
  | request => simp [Errand.job?] at hid
  | _ =>
    cases hid
    simp only [Errand.attempt] at hstart
    simp only [hstart]
    split <;> rfl

theorem endParse?_of_open (setup : RunSetup) {request : ParseRequest} {indexer : UnitIndexer}
    (ht : s.tasks[n]? = some t) (hphase : t.phase = .parsing request indexer)
    (hopen : s.gates.contains request.invocation.input = false) :
    s.endParse? setup n = some ((s.runFrontend setup t.errand request indexer).1.setPhase n
      (.parsed request.invocation (s.runFrontend setup t.errand request indexer).2)) := by
  unfold endParse?
  simp only [ht, hphase]
  rw [if_neg (by simp [hopen])]

/-- A task that has begun to parse a unit comes to its outcome, unless it is held up. -/
theorem exists_parsed (setup : RunSetup) (ht : s.tasks[n]? = some t)
    (hplain : t.errand.reservation? = none) (hgate : s.gates.contains i.input = false) :
    ∃ s₁, Alone setup n (s.launched setup n t.errand i) s₁
      ∧ s₁.tasks[n]? = some { t with phase := .parsed i (s.outcomeOf setup i) }
      ∧ s₁.jobs = s.jobs ∧ s₁.state.index = s.state.index := by
  obtain ⟨table, requests, log, hbegun⟩ := exists_beginParse setup s i
  have hinput : (beginParse setup s i).1.invocation = i := rfl
  unfold launched outcomeOf
  generalize beginParse setup s i = begun at hbegun hinput ⊢
  obtain ⟨request, indexer, s₁⟩ := begun
  obtain rfl : s₁ = _ := hbegun
  by_cases hdont : setup.config.flags.dontIndex = true
  · rw [if_pos hdont, if_pos hdont, ← unparsed_of_plain hplain]
    exact ⟨_, .refl _, task_setPhase ht _, rfl, rfl⟩
  · rw [if_neg hdont, if_neg hdont]
    obtain rfl : request.invocation = i := hinput
    generalize hs₁ : ({ s with state := { s.state with pch := table }, requests, log } : Scheduler)
      = s₁
    have ht₁ : s₁.tasks[n]? = some t := by rw [← hs₁]; exact ht
    have hparsing := task_setPhase ht₁ (.parsing request indexer)
    have hend := endParse?_of_open setup hparsing rfl (by
      show s₁.gates.contains request.invocation.input = false
      rw [← hs₁]
      exact hgate)
    obtain ⟨disk, calls, errors, log', hran⟩ := runFrontend_eq setup
      (s₁.setPhase n (.parsing request indexer)) t.errand request indexer
    have hworld : (s₁.setPhase n (.parsing request indexer)).world = s₁.world := rfl
    rw [hran, outcome_runFrontend_of_plain setup hplain,
      outcome_runFrontend_congr setup hworld] at hend
    exact ⟨_, .endParse hend (.refl _), task_setPhase (t := { t with phase := _ }) hparsing _,
      by rw [← hs₁]; rfl, by rw [← hs₁]; rfl⟩

theorem exists_task_releasePermit (ht : s.tasks[n]? = some t) :
    ∃ phase, s.releasePermit.1.tasks[n]? = some { t with phase } := by
  unfold releasePermit
  split
  · exact ⟨t.phase, ht⟩
  · next m rest _ =>
    by_cases hm : m = n
    · subst hm
      exact ⟨.granted, task_setPhase ht .granted⟩
    · refine ⟨t.phase, ?_⟩
      show (s.tasks.modify m _)[n]? = _
      rw [getElem?_modify_ne _ _ hm]
      exact ht

theorem exists_closing_of_parsed (setup : RunSetup) {outcome : Except FrontendError ParsedUnit}
    (ht : s.tasks[n]? = some t) (hphase : t.phase = .parsed i outcome) :
    ∃ s₁, Alone setup n s s₁ ∧ s₁.tasks[n]? = some { t with phase := .closing i outcome }
      ∧ s₁.jobs = s.jobs ∧ s₁.state = s.state := by
  have hstep : s.step? setup n
      = some (s.releasePermit.1.setPhase n (.closing i outcome), s.releasePermit.2) := by
    unfold step?
    simp only [ht, hphase]
  obtain ⟨phase, ht₁⟩ := exists_task_releasePermit ht
  obtain ⟨tasks, line, permits, hfreed⟩ := s.releasePermit_eq
  exact ⟨_, .step hstep (.refl _), task_setPhase ht₁ _, jobs_releasePermit s, by rw [hfreed]; rfl⟩

end Way

/-- A task that has yet to start its job, for the first time. -/
structure Due (s : Scheduler) (n : Nat) (errand : Errand) (id : JobId) (job : Job) : Prop where
  task : s.tasks[n]? = some { errand }
  errand : errand = .unit id 0 ∨ errand = .remote id
  filed : s.jobs.get? id = some job
  queued : job.state = .queued
  first : job.attempts = 0

section Due

variable {s : Scheduler} {n : Nat} {errand : Errand} {id : JobId} {job : Job}

variable (h : s.Due n errand id job) (setup : RunSetup) (hfree : s.Unhindered job.invocation)

include h hfree

theorem Due.exists_granted :
    ∃ s', Alone setup n s s' ∧ s'.tasks[n]? = some { errand, phase := .granted } ∧ TasksOnly s s' := by
  obtain ⟨keys, hkeys, hbegin⟩ : ∃ keys, (∀ key ∈ keys, key ∈ job.invocation.includedHeaderKeys)
      ∧ s.step? setup n = some (s.setPhase n (.seeking keys), []) := by
    refine ⟨if setup.config.flags.disablePch then [] else job.invocation.includedHeaderKeys, ?_, ?_⟩
    · split <;> simp
    · unfold step? begin
      rcases h.errand with rfl | rfl <;> simp only [h.task, h.filed]
  obtain ⟨s₁, hasking, ht₁, honly, hpermits⟩ := exists_asking setup
    (task_setPhase h.task (.seeking keys)) rfl (fun key hkey => hfree.built key (hkeys key hkey))
  obtain ⟨free, hpermit⟩ : ∃ free, s₁.permits = free + 1 :=
    Nat.exists_eq_succ_of_ne_zero (by rw [hpermits]; exact Nat.ne_of_gt hfree.permit)
  have hask : s₁.step? setup n = some ({ s₁ with permits := free }.setPhase n .granted, []) := by
    unfold step? askPermit
    simp only [ht₁, hpermit]
  exact ⟨_, .step hbegin (hasking.trans (.step hask (.refl _))), task_setPhase ht₁ .granted,
    ⟨honly.world, honly.state, honly.jobs, honly.gates⟩⟩

/-- **The common way.** Whether a unit is parsed for this index or for another process, its task
comes to the same outcome. -/
theorem Due.exists_closing :
    ∃ s' job', Alone setup n s s' ∧ s'.tasks[n]? = some
        { errand, phase := .closing job.invocation (s.outcomeOf setup job.invocation) }
      ∧ s'.jobs.get? id = some job' ∧ job'.state = .runningLocal
      ∧ s'.state.index = s.state.index := by
  have hid : errand.job? = some id := by rcases h.errand with rfl | rfl <;> rfl
  have hattempt : errand.attempt = 0 := by rcases h.errand with rfl | rfl <;> rfl
  have hplain : errand.reservation? = none := by rcases h.errand with rfl | rfl <;> rfl
  obtain ⟨s₁, hgranted, ht₁, honly⟩ := h.exists_granted setup hfree
  have hfiled : s₁.jobs.get? id = some job := by
    rw [honly.jobs]
    exact h.filed
  obtain ⟨job', hstart, -, -, hrunning⟩ := startLocal?_of_queued hfiled h.first h.queued
  rw [← hattempt] at hstart
  have hlaunch : s₁.step? setup n = some (launched setup
      { s₁ with jobs := s₁.jobs.insert id job' } n errand job.invocation, []) := by
    rw [← launch_of_started hid hstart]
    unfold step?
    simp only [ht₁]
  obtain ⟨s₂, hparse, ht₂, hjobs₂, hindex₂⟩ := exists_parsed setup (i := job.invocation)
    (show ({ s₁ with jobs := s₁.jobs.insert id job' } : Scheduler).tasks[n]? = _ from ht₁) hplain (by
      show s₁.gates.contains _ = false
      rw [honly.gates]
      exact hfree.gate)
  obtain ⟨s₃, hclosing, ht₃, hjobs₃, hstate₃⟩ := exists_closing_of_parsed setup ht₂ rfl
  -- the mark that the job runs is nothing that a parse looks at
  have houtcome : outcomeOf setup { s₁ with jobs := s₁.jobs.insert id job' } job.invocation
      = s.outcomeOf setup job.invocation :=
    outcomeOf_congr setup job.invocation honly.world (congrArg IndexState.pch honly.state)
  rw [houtcome] at ht₃
  refine ⟨s₃, job', hgranted.trans (.step hlaunch (hparse.trans hclosing)), ht₃, ?_, hrunning, ?_⟩
  · rw [hjobs₃, hjobs₂]
    exact get?_insert_self ..
  · rw [hstate₃, hindex₂]
    exact congrArg IndexState.index honly.state

end Due

/-! ## The two ends -/

section Ends

variable {s : Scheduler} {n : Nat} {t : Task} {id : JobId} {job : Job} {i : Invocation}
  {outcome : Except FrontendError ParsedUnit}

/-- The answer to another process. -/
def answerWith (id : JobId) (i : Invocation) : Except FrontendError ParsedUnit → TaskAnswer
  | .ok unit => .unit { invocation := i, contribution := unit.contribution, source := unit.source }
  | .error e => .refused (.failed id e.message)

theorem ended_finish (ht : s.tasks[n]? = some t) (answer : Option TaskAnswer) :
    (s.finish n answer).Ended n answer := by
  refine ⟨{ t with phase := .finished, answer }, ?_, rfl, rfl⟩
  show (s.tasks.modify n _)[n]? = _
  rw [getElem?_modify_eq, ht]
  rfl

variable (setup : RunSetup)

theorem exists_ended_of_retiring (ht : s.tasks[n]? = some t)
    (hphase : t.phase = .retiring) :
    ∃ s', Alone setup n s s' ∧ s'.Ended n t.answer ∧ s'.state = s.state := by
  have hretire : s.step? setup n = some ({ s with completion := s.completion.releaseJob.2 }.setPhase n
      (if s.completion.releaseJob.1 then .checking else .finished), []) := by
    unfold step?
    simp only [ht, hphase]
  have ht₁ : ({ s with completion := s.completion.releaseJob.2 } : Scheduler).tasks[n]? = some t := ht
  cases hlast : s.completion.releaseJob.1 with
  | false =>
    rw [hlast] at hretire
    exact ⟨_, .step hretire (.refl _), ⟨_, task_setPhase ht₁ .finished, rfl, rfl⟩, rfl⟩
  | true =>
    rw [hlast, if_pos rfl] at hretire
    generalize hs₁ : ({ s with completion := s.completion.releaseJob.2 } : Scheduler) = s₁
      at hretire ht₁
    have ht₂ := task_setPhase ht₁ .checking
    have hcheck : (s₁.setPhase n .checking).step? setup n
        = some (((s₁.setPhase n .checking).mapCompletion Completion.checkIntrospections).setPhase n
          .finished, []) := by
      unfold step?
      simp only [ht₂]
    obtain ⟨log, hcounts⟩ :=
      (s₁.setPhase n .checking).mapCompletion_eq Completion.checkIntrospections
    rw [hcounts] at hcheck
    refine ⟨_, .step hretire (.step hcheck (.refl _)), ⟨_, task_setPhase ht₂ .finished, rfl, rfl⟩, ?_⟩
    rw [← hs₁]
    rfl

/-- **The end here**: the outcome is integrated, and a failure leaves the index alone. -/
theorem exists_ended_unit
    (ht : s.tasks[n]? = some { errand := .unit id 0, phase := .closing i outcome })
    (hjob : s.jobs.get? id = some job) (hrunning : job.state = .runningLocal) :
    ∃ s', Alone setup n s s' ∧ s'.Ended n none ∧ s'.state.index = s.state.indexWith outcome := by
  have hstep : s.step? setup n = some (s.closeUnit n job outcome, []) := by
    unfold step? close
    simp only [ht, hjob]
  have hkept : job.state ≠ .aborted := by simp [hrunning]
  unfold closeUnit at hstep
  rw [if_neg hkept] at hstep
  cases outcome with
  | error e =>
    obtain ⟨s', hend, hended, hstate⟩ := exists_ended_of_retiring setup
      (task_setPhase (s := ((s.note .error .scheduler
        ("Failed to index " ++ job.sourceFile.text ++ ": " ++ e.message)).updateJob job.id
          (·.advance .crashed)).countFailed) ht .retiring) rfl
    exact ⟨s', .step hstep hend, hended, congrArg IndexState.index hstate⟩
  | ok unit =>
    cases hunit : s.integrateUnit job.id unit with
    | some s₁ =>
      simp only [hunit] at hstep
      obtain ⟨visited, state, log, hintegrate, hs₁⟩ := integrateUnit_eq_some hunit
      have ht₁ : s₁.tasks[n]? = some { errand := .unit id 0, phase := .closing i (.ok unit) } := by
        rw [hs₁]
        exact ht
      obtain ⟨s', hend, hended, hstate⟩ := exists_ended_of_retiring setup
        (task_setPhase ht₁ .retiring) rfl
      refine ⟨s', .step hstep hend, hended, ?_⟩
      simp only [IndexState.indexWith, IndexState.indexAfter, hintegrate, hstate, hs₁]
      rfl
    | none =>
      simp only [hunit] at hstep
      obtain ⟨e, hintegrate⟩ := integrateUnit_eq_none hunit
      refine ⟨_, .step hstep (.refl _), ended_finish ht none, ?_⟩
      simp only [IndexState.indexWith, IndexState.indexAfter, hintegrate]
      rfl

/-- **The end elsewhere**: the outcome is the answer. -/
theorem exists_ended_remote
    (ht : s.tasks[n]? = some { errand := .remote id, phase := .closing i outcome })
    (hjob : s.jobs.get? id = some job) (hrunning : job.state = .runningLocal) :
    ∃ s', Alone setup n s s' ∧ s'.Ended n (some (answerWith job.id i outcome)) := by
  have hstep : s.step? setup n = some (s.closeRemote n job i outcome, []) := by
    unfold step? close
    simp only [ht, hjob]
  have hkept : job.state ≠ .aborted := by simp [hrunning]
  unfold closeRemote at hstep
  rw [if_neg hkept] at hstep
  cases outcome with
  | ok | error => exact ⟨_, .step hstep (.refl _), ended_finish ht _⟩

/-- **What comes back**: a queued job can be handed off, and what is sent back for it is integrated
as if it had been made here. -/
theorem exists_completeRemote (hjob : s.jobs.get? id = some job) (hqueued : job.state = .queued)
    (destination : String) (port : UInt16) (c : Contribution) (source : Source) :
    ∃ s₁ s₂, s.handOff id destination port = .ok s₁ ∧ s₁.completeRemote id c source = .ok s₂
      ∧ s₂.state.index = s.state.indexAfter c source := by
  obtain ⟨away, s₁, hoff, hfiled, haway, hstate⟩ : ∃ away s₁, s.handOff id destination port = .ok s₁
      ∧ s₁.jobs.get? id = some away ∧ away.state = .remote ∧ s₁.state = s.state := by
    have hmove : job.state.canMoveTo .remote = true := by rw [hqueued]; rfl
    unfold handOff moveJob Job.transition
    simp only [hjob, if_pos hmove]
    exact ⟨_, _, rfl, get?_insert_self .., rfl, rfl⟩
  refine ⟨s₁, ?_⟩
  have hmove : away.state.canMoveTo .completeRemote = true := by rw [haway]; rfl
  have hkept : ¬ (s₁.jobs.get? id).any (fun j => j.state = .aborted) = true := by
    simp [hfiled, haway]
  unfold completeRemote moveJob Job.transition
  rw [if_neg hkept]
  simp only [hfiled, if_pos hmove]
  unfold IndexState.indexAfter
  rw [← hstate]
  cases hone : s₁.state.integrate c source with
  | error => exact ⟨s₁, hoff, rfl, rfl⟩
  | ok =>
    refine ⟨_, hoff, rfl, ?_⟩
    rw [state_mapCompletion]
    rfl

theorem exists_due_submitFromRemote (p : Scheduler) (i : Invocation) :
    ∃ id, (p.submitFromRemote setup i).Due p.tasks.length (.remote id) id
      (Job.make id setup.kind i true) := by
  refine ⟨(p.createJob setup.kind i true).1, ?_, .inr rfl, get?_insert_self .., rfl, rfl⟩
  show (p.tasks ++ [_])[p.tasks.length]? = _
  rw [getElem?_concat_length]
  rfl

end Ends

/-- **Where a unit is parsed makes no difference.** A task for a queued unit comes to its end here,
and so does the task of a process that has the same files and headers and is asked for the unit. If
that one answers with a unit, the answer survives being sent, the job can be handed off, and
completing it with what has been sent leaves the index that parsing the unit here leaves. If it
refuses, parsing the unit here leaves the index alone. -/
theorem remote_eq_local (setup : RunSetup) {s p : Scheduler} {n : Nat} {id : JobId} {job : Job}
    (hdue : s.Due n (.unit id 0) id job) (hworld : p.world = s.world)
    (hpch : p.state.pch = s.state.pch) (hs : s.Unhindered job.invocation)
    (hp : p.Unhindered job.invocation) (destination : String) (port : UInt16) :
    (∀ r : UnitResult, (Json.readBytes? r.encode.render.toUTF8).bind UnitResult.decode? = some r)
      ∧ (∃ s', Alone setup n s s' ∧ s'.Ended n none)
      ∧ (∃ p' answer, Alone setup p.tasks.length (p.submitFromRemote setup job.invocation) p'
        ∧ p'.Ended p.tasks.length (some answer))
      ∧ ∀ s' p' last answer, Alone setup n s s' → s'.Ended n last →
        Alone setup p.tasks.length (p.submitFromRemote setup job.invocation) p' →
        p'.Ended p.tasks.length (some answer) →
        (∃ r, answer = .unit r ∧ r.invocation = job.invocation ∧ ∃ sent s₁ s₂,
          (Json.readBytes? r.encode.render.toUTF8).bind UnitResult.decode? = some sent
            ∧ s.handOff id destination port = .ok s₁
            ∧ s₁.completeRemote id sent.contribution sent.source = .ok s₂
            ∧ s₂.state.index = s'.state.index)
          ∨ ∃ e, answer = .refused e ∧ s'.state.index = s.state.index := by
  have hread (r : UnitResult) :
      (Json.readBytes? r.encode.render.toUTF8).bind UnitResult.decode? = some r :=
    UnitResult.faithful.readBytes? (by decide) r
  -- the way of the task here
  obtain ⟨s₁, job₁, hway, ht, hjob, hrunning, hindex⟩ := hdue.exists_closing setup hs
  obtain ⟨s₂, hclose, hended, hindex₂⟩ := exists_ended_unit setup ht hjob hrunning
  -- the way of the task elsewhere
  obtain ⟨away, hdue'⟩ := exists_due_submitFromRemote setup p job.invocation
  obtain ⟨p₁, job₂, hway', ht', hjob', hrunning', -⟩ := hdue'.exists_closing setup
    ⟨hp.permit, hp.gate, hp.built⟩
  obtain ⟨p₂, hclose', hended'⟩ := exists_ended_remote setup ht' hjob' hrunning'
  have houtcome : (p.submitFromRemote setup job.invocation).outcomeOf setup job.invocation
      = s.outcomeOf setup job.invocation := outcomeOf_congr setup job.invocation hworld hpch
  refine ⟨hread, ⟨s₂, hway.trans hclose, hended⟩, ⟨p₂, _, hway'.trans hclose', hended'⟩, ?_⟩
  intro s' p' last answer hrun hlast hrun' hanswer
  obtain rfl := hrun.unique (hway.trans hclose) hlast hended
  obtain rfl := hrun'.unique (hway'.trans hclose') hanswer hended'
  have hgiven : answer = answerWith job₂.id job.invocation (s.outcomeOf setup job.invocation) := by
    rw [← houtcome]
    exact Option.some.inj (hanswer.answer_eq hended')
  cases hunit : s.outcomeOf setup job.invocation with
  | ok unit =>
    rw [hunit] at hgiven hindex₂
    obtain ⟨s₃, s₄, hoff, hcomplete, hindex₄⟩ := exists_completeRemote hdue.filed hdue.queued
      destination port unit.contribution unit.source
    refine .inl ⟨_, hgiven, rfl, _, s₃, s₄, hread _, hoff, hcomplete, ?_⟩
    rw [hindex₄, hindex₂]
    exact (IndexState.indexAfter_congr hindex _ _).symm
  | error =>
    rw [hunit] at hgiven hindex₂
    exact .inr ⟨_, hgiven, hindex₂.trans hindex⟩

def callingSetup : RunSetup :=
  let f : Cursor :=
    { usr := "f", kind := .function, displayName := "f", location := ⟨⟨"/a.h"⟩, 1, 6⟩ }
  { config := { dbPath := ⟨"/db"⟩ }
    frontend := .replay (SortedMap.ofList [(⟨"/a.c"⟩, { events :=
      [.inclusion { includedFile := ⟨"/a.h"⟩, inclusionStack := [⟨⟨"/a.c"⟩, 1, 1⟩] },
       .declaration { cursor := f, location := f.location },
       .declaration { cursor := f, location := ⟨⟨"/a.c"⟩, 2, 6⟩, isDefinition := true },
       .reference { referenced := f, location := ⟨⟨"/a.c"⟩, 3, 3⟩ }] })]) }

def callingUnit : Invocation :=
  { directory := ⟨"/"⟩, compiler := "gcc", input := ⟨"/a.c"⟩, language := .c }

def calling : Scheduler := ((start callingSetup {} {}).submit callingSetup callingUnit).2

def peer : Scheduler := (start callingSetup {} {}).submitFromRemote callingSetup callingUnit

/-- The unit is parsed by that process, and what comes back leaves the index that parsing the unit
here leaves. -/
theorem remote_eq_local_calling :
    calling.Due 0 (.unit (jobOf 0) 0) (jobOf 0) (Job.make (jobOf 0) .compile callingUnit false)
      ∧ ∃ s' p' r, Alone callingSetup 0 calling s' ∧ s'.Ended 0 none
        ∧ Alone callingSetup 0 peer p' ∧ p'.Ended 0 (some (.unit r)) ∧ ∃ sent s₁ s₂,
          (Json.readBytes? r.encode.render.toUTF8).bind UnitResult.decode? = some sent
            ∧ calling.handOff (jobOf 0) "peer" 7 = .ok s₁
            ∧ s₁.completeRemote (jobOf 0) sent.contribution sent.source = .ok s₂
            ∧ s₂.state.index = s'.state.index := by
  have hdue : calling.Due 0 (.unit (jobOf 0) 0) (jobOf 0)
      (Job.make (jobOf 0) .compile callingUnit false) :=
    ⟨rfl, .inl rfl, by decide, rfl, rfl⟩
  have hfree : (start callingSetup {} {}).Unhindered callingUnit :=
    ⟨by decide, by decide, fun _ _ => rfl⟩
  obtain ⟨-, ⟨s', hs', hlast⟩, -, hagree⟩ := remote_eq_local callingSetup hdue
    (p := start callingSetup {} {}) rfl rfl ⟨by decide, by decide, fun _ _ => rfl⟩ hfree "peer" 7
  -- the process answers with what its front end has found
  obtain ⟨away, hdue'⟩ := exists_due_submitFromRemote callingSetup (start callingSetup {} {})
    callingUnit
  obtain ⟨p₁, job, hway, ht, hjob, hrunning, -⟩ := hdue'.exists_closing callingSetup
    ⟨hfree.permit, hfree.gate, hfree.built⟩
  obtain ⟨p', hclose, hanswer⟩ := exists_ended_remote callingSetup ht hjob hrunning
  have hparsed : (peer.outcomeOf callingSetup callingUnit).toOption.isSome = true := by
    decide
  rcases hagree s' p' none _ hs' hlast (hway.trans hclose) hanswer with
    ⟨r, hr, -, hback⟩ | ⟨e, he, -⟩
  · exact ⟨hdue, s', p', r, hs', hlast, hway.trans hclose, hr ▸ hanswer, hback⟩
  · change answerWith _ _ (peer.outcomeOf callingSetup callingUnit) = _ at he
    cases hunit : peer.outcomeOf callingSetup callingUnit with
    | ok => exact absurd (hunit ▸ he) (by simp [answerWith])
    | error => exact absurd (hunit ▸ hparsed) (by simp [Except.toOption])

end Scheduler

end SymbolIndex
