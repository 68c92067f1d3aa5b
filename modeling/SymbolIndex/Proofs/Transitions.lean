import SymbolIndex.Proofs.Reservations
import SymbolIndex.Proofs.Steering
import SymbolIndex.Proofs.Submission

/-!
# What happens in a run

`Transition` says what one action can do to tasks, jobs, permits and headers, in a run that is
steered in any way: a task moves, takes a permit or gives one back, starts a job or ends it, builds
a header or is done with it, a job is made or moved from outside. `transition_act` is the one place
where the definition of a step is taken apart for that; what is said about permits, reservations and
jobs in other modules follows from it.

`Pace` lists what can become of one task, each with what it takes: what the table of headers says
about a key or a ticket, the job that is started, what the front end brings.

A `GuardedRun` is a run of which something is known at every moment.
-/

namespace SymbolIndex

open List Option Phase SortedMap SymbolIndex.Task

/-! ## Tasks as the counts see them -/

/-- Whether a task is done with its job. -/
def Phase.isDone : Phase → Bool
  | .retiring | .checking | .finished => true
  | _ => false

/-- Whether a task is about to take its job off the count. -/
def Task.retires (t : Task) : Bool :=
  match t.phase with
  | .retiring => true
  | _ => false

/-- Whether a task has answered another process. -/
def Task.hasDelivered (t : Task) : Bool :=
  t.phase.isDone &&
    match t.errand, t.answer with
    | .remote _, some (.unit _) => true
    | .remote _, some (.refused (.failed _ _)) => true
    | _, _ => false

variable {t t' : Task} {phase : Phase} {setup : RunSetup} {s : Scheduler}

theorem Task.plain (h : t.phase.isDone = false) : t.retires = false ∧ t.hasDelivered = false := by
  refine ⟨?_, by simp [hasDelivered, h]⟩
  unfold retires
  split
  · next hphase =>
    rw [hphase] at h
    cases h
  · rfl

theorem Task.hasDelivered_eq_false (h : t.errand.answers = false) : t.hasDelivered = false := by
  unfold hasDelivered
  cases herrand : t.errand with
  | remote =>
    rw [herrand] at h
    simp [Errand.answers] at h
  | _ => simp

theorem Task.hasDelivered_of_done (h : t.phase.isDone = true) (h' : phase.isDone = true) :
    Task.hasDelivered { t with phase := phase } = t.hasDelivered := by
  unfold hasDelivered
  rw [h, h']

def Phase.recount : Phase → Completion → Completion
  | .retiring, c => c.releaseJob.2
  | .checking, c => c.checkIntrospections
  | _, c => c

theorem Phase.recount_of_not_done (h : phase.isDone = false) (c : Completion) :
    phase.recount c = c := by
  cases phase <;> first | rfl | cases h

theorem Phase.isDone_of_waiting (h : phase.progress = .waiting) : phase.isDone = false := by
  cases phase <;> first | rfl | cases h

/-! ## Paces -/

def Phase.mayEnd : Phase → Bool
  | .fresh | .expecting _ _ | .granted | .closing _ _ => true
  | _ => false

/-- What one task can do next. -/
inductive Pace (setup : RunSetup) (s : Scheduler) (t : Task) : Task → Prop where
  | sought {id : JobId} {job : Job} : t.phase = .fresh → t.errand.job? = some id →
      t.errand.reservation? = none → s.jobs.get? id = some job →
      Pace setup s t { t with phase := (.seeking
        (if setup.config.flags.disablePch then [] else job.invocation.includedHeaderKeys)) }
  | passed {key : String} {keys : List String} : t.phase = .seeking (key :: keys) →
      s.state.pch.inFlight? key = none → Pace setup s t { t with phase := .seeking keys }
  | waited {key : String} {keys : List String} {ticket : Nat} :
      t.phase = .seeking (key :: keys) → s.state.pch.inFlight? key = some ticket →
      Pace setup s t { t with phase := .awaiting ticket keys }
  | resumed {ticket : Nat} {keys : List String} : t.phase = .awaiting ticket keys →
      s.state.pch.settled ticket = true → Pace setup s t { t with phase := .seeking keys }
  | asked : (t.phase = .fresh ∧ t.errand.reservation? ≠ none) ∨ t.phase = .seeking [] →
      Pace setup s t { t with phase := .asking }
  | expected {i : Invocation} {ticket : Nat} {key : String} : t.phase = .fresh →
      t.errand = .request i → Pace setup s t { t with phase := .expecting ticket key }
  | reserved {i : Invocation} {r : Pch.Reservation} : t.phase = .fresh → t.errand = .request i →
      Pace setup s t { errand := .header (jobOf s.jobs.size) r, phase := .asking }
  | queued : t.phase = .asking → Pace setup s t { t with phase := .inLine }
  | granted : t.phase = .asking ∨ t.phase = .inLine → Pace setup s t { t with phase := .granted }
  | begun {id : JobId} {job : Job} : t.phase = .granted → t.errand.job? = some id →
      s.jobs.get? id = some job → setup.config.flags.dontIndex = false →
      Pace setup s t { t with phase := (.parsing (Scheduler.beginParse setup s job.invocation).1
        (Scheduler.beginParse setup s job.invocation).2.1) }
  | skipped {id : JobId} {job : Job} {outcome : Except FrontendError ParsedUnit} :
      t.phase = .granted → t.errand.job? = some id → s.jobs.get? id = some job →
      setup.config.flags.dontIndex = true →
      (∀ unit, outcome = .ok unit → unit.source.invocation = job.invocation) →
      (∃ s₁ : Scheduler, outcome = (Scheduler.beginParse setup s₁ job.invocation).2.2.unparsed
          t.errand job.invocation (Scheduler.beginParse setup s₁ job.invocation).2.1
        ∧ s₁.world = s.world ∧ s₁.state = s.state) →
      Pace setup s t { t with phase := .parsed job.invocation outcome }
  | parsed {request : ParseRequest} {indexer : UnitIndexer} : t.phase = .parsing request indexer →
      Pace setup s t { t with phase := (.parsed request.invocation
        (Scheduler.runFrontend setup s t.errand request indexer).2) }
  | closing {i : Invocation} {outcome : Except FrontendError ParsedUnit} :
      t.phase = .parsed i outcome → Pace setup s t { t with phase := .closing i outcome }
  | ended {phase : Phase} {answer : Option TaskAnswer} : t.phase.mayEnd = true →
      phase.isDone = true → Pace setup s t { t with phase := phase, answer := answer }
  /-- A task that has ended its work takes its job off the count. -/
  | retired {phase : Phase} : t.phase.isDone = true → phase.isDone = true →
      Pace setup s t { t with phase := phase }

theorem Pace.grant (h : Pace setup s t t') (hphase : t'.phase = .inLine) :
    Pace setup s t { t' with phase := .granted } := by
  cases h with
  | queued hasking => exact .granted (.inl hasking)
  | ended _ hdone | retired _ hdone =>
    simp only at hphase
    rw [hphase] at hdone
    cases hdone
  | _ => cases hphase

theorem Pace.errand (h : Pace setup s t t') : t'.errand = t.errand
      ∨ (t.errand.job? = none ∧ ∃ r, t'.errand = .header (jobOf s.jobs.size) r) := by
  cases h with
  | reserved _ herrand => exact .inr ⟨by rw [herrand]; rfl, _, rfl⟩
  | _ => exact .inl rfl

theorem Pace.of_isDone (h : Pace setup s t t') (hdone : t.phase.isDone = true) :
    t'.errand = t.errand ∧ t'.phase.isDone = true ∧ t'.answer = t.answer := by
  cases h with
  | retired _ hdone' => exact ⟨rfl, hdone', rfl⟩
  | ended => cases hphase : t.phase <;> simp_all [Phase.isDone, Phase.mayEnd]
  | asked hphase | granted hphase => rcases hphase with hphase | hphase <;> simp_all [Phase.isDone]
  | _ => simp_all [Phase.isDone]

namespace Scheduler

/-- Every task of `s'` is as it was in `s`, or has kept the pace, or is new; a new one is for a new
job or for one that was taken back. -/
def Paced (setup : RunSetup) (s s' : Scheduler) : Prop :=
  s.tasks.length ≤ s'.tasks.length ∧ ∀ (m : Nat) (t' : Task), s'.tasks[m]? = some t' →
    (∃ t, s.tasks[m]? = some t ∧ (t' = t ∨ Pace setup s t t'))
      ∨ (s.tasks[m]? = none ∧ t'.phase = .fresh ∧ t'.answer = none
        ∧ ∀ id, t'.errand.job? = some id → id = jobOf s.jobs.size
          ∨ (t'.errand.reservation? = none ∧ ∃ job, s.jobs.get? id = some job ∧ job.state = .remote))

section Pacing

variable {setup : RunSetup} {s s₁ s' : Scheduler} {n : Nat} {t : Task}

theorem Paced.of_eq (h : s'.tasks = s.tasks) : Paced setup s s' :=
  ⟨Nat.le_of_eq (congrArg List.length h.symm), fun _ t' ht' => .inl ⟨t', h ▸ ht', .inl rfl⟩⟩

theorem Paced.set (h : Paced setup s s₁) (ht : s.tasks[n]? = some t) (hpace : Pace setup s t t')
    (htasks : s'.tasks = s₁.tasks.set n t') : Paced setup s s' := by
  refine ⟨by rw [htasks, List.length_set]; exact h.1, fun m u hu => ?_⟩
  rw [htasks] at hu
  rcases getElem?_set_cases hu with ⟨rfl, rfl⟩ | ⟨-, hu⟩
  · exact .inl ⟨t, ht, .inr hpace⟩
  · exact h.2 m u hu

theorem Paced.releasePermit (h : Paced setup s s₁) (hline : Asleep s₁) :
    Paced setup s s₁.releasePermit.1 := by
  rcases hline.wakes with hsame | ⟨k, u, hu, hphase, hwoken⟩
  · exact ⟨hsame ▸ h.1, hsame ▸ h.2⟩
  · rcases h.2 k u hu with ⟨t, ht, rfl | hpace⟩ | ⟨-, hfresh, -⟩
    · exact h.set ht (.granted (.inr hphase)) hwoken
    · exact h.set ht (hpace.grant hphase) hwoken
    · cases hphase.symm.trans hfresh

theorem Paced.of_append {more : List Task} (htasks : s'.tasks = s.tasks ++ more)
    (hmore : ∀ t ∈ more, t.phase = .fresh ∧ t.answer = none
      ∧ ∀ id, t.errand.job? = some id → id = jobOf s.jobs.size
        ∨ (t.errand.reservation? = none ∧ ∃ job, s.jobs.get? id = some job ∧ job.state = .remote)) :
    Paced setup s s' := by
  refine ⟨by rw [htasks, List.length_append]; exact Nat.le_add_right .., fun m u hu => ?_⟩
  rw [htasks] at hu
  by_cases hm : m < s.tasks.length
  · rw [getElem?_append_left hm] at hu
    exact .inl ⟨u, hu, .inl rfl⟩
  · rw [getElem?_append_right (Nat.le_of_not_lt hm)] at hu
    exact .inr ⟨getElem?_eq_none (Nat.le_of_not_lt hm), hmore u (mem_of_getElem? hu)⟩

theorem beginParse_congr (setup : RunSetup) (i : Invocation) (hworld : s₁.world = s.world)
    (hpch : s₁.state.pch = s.state.pch) :
    (beginParse setup s₁ i).1 = (beginParse setup s i).1
      ∧ (beginParse setup s₁ i).2.1 = (beginParse setup s i).2.1 := by
  by_cases hdisabled : setup.config.flags.disablePch = true <;>
    simp [beginParse, preparePchUse, hdisabled, hworld, hpch, mapPch]

end Pacing

end Scheduler

/-! ## All that can happen -/

/-- Has no permit, waits for none in the line, and is not busy with its job. -/
def Phase.isAside : Phase → Bool
  | .inLine | .granted | .parsing _ _ | .parsed _ _ | .closing _ _ => false
  | _ => true

/-- The reservation that a task has yet to settle. -/
def Task.inHand? (t : Task) : Option Pch.Reservation :=
  if t.phase.isDone then none else t.errand.reservation?

namespace PchTable

/-- A table loses headers whose artifact is gone, and nothing else. -/
structure Thins (disk : Disk) (t t' : PchTable) : Prop where
  tickets : t'.tickets = t.tickets
  slots : ∀ key, t'.slots.get? key = t.slots.get? key
    ∨ (t'.slots.get? key = none
      ∧ ∃ entry, t.slots.get? key = some (.ready entry) ∧ disk.isFile entry.artifactPath = false)

theorem Thins.refl (disk : Disk) (t : PchTable) : Thins disk t t := ⟨rfl, fun _ => .inl rfl⟩

theorem Thins.trans {disk : Disk} {t t' t'' : PchTable} (h : Thins disk t t')
    (h' : Thins disk t' t'') : Thins disk t t'' where
  tickets := h'.tickets.trans h.tickets
  slots := by
    intro key
    rcases h'.slots key with hsame | ⟨hnone, entry, hready, hgone⟩
    · rw [hsame]
      exact h.slots key
    · rcases h.slots key with hsame | ⟨hnone', -⟩
      · exact .inr ⟨hnone, entry, hsame ▸ hready, hgone⟩
      · cases hnone'.symm.trans hready

theorem thins_lookupForInclude (t : PchTable) (disk : Disk) (key : String) :
    Thins disk t (t.lookupForInclude disk key).2 := by
  unfold lookupForInclude
  split
  · next entry hready =>
    split
    · exact .refl disk t
    · next hgone =>
      refine ⟨rfl, fun k => ?_⟩
      by_cases hk : k = key
      · subst hk
        exact .inr ⟨by simp [remove, get?_erase], entry, hready, by simpa using hgone⟩
      · exact .inl (by simp [remove, get?_erase, hk])
  · exact .refl disk t

end PchTable

/-- What is made of a job from outside, with the tasks that come with it. -/
inductive Steers (id : JobId) (job : Job) : Job → List Task → Prop where
  | sent (destination : String) (port : UInt16) : job.state.waits = true →
      Steers id job { job with
        state := .remote, destination := some destination, port := some port } []
  | returned (visited : SortedSet FileId) : job.state = .remote →
      Steers id job { job with state := .completeRemote, visited } []
  | rescheduled : job.state = .remote →
      Steers id job { job with state := .rescheduled, attempts := job.attempts + 1 }
        [{ errand := .unit id (job.attempts + 1) }]
  | aborted : job.state.isTerminal = false → Steers id job { job with state := .aborted } []
  | blocked (blockedFiles : SortedMap Path UInt32) : Steers id job { job with blockedFiles } []

/-- What comes of a job, and of the reservation that its task may have, when its task ends its
work. -/
inductive Fate (s : Scheduler) (job : Job) :
    Except FrontendError ParsedUnit → Pch.Ending → Job → Prop where
  | dropped {outcome : Except FrontendError ParsedUnit} : job.state = .aborted →
      Fate s job outcome .released job
  | lost {unit : ParsedUnit} {e : Overflow} : job.state ≠ .aborted →
      s.state.integrate unit.contribution unit.source = .error e →
      Fate s job (.ok unit) .abandoned job
  | landed {unit : ParsedUnit} (visited : SortedSet FileId) : job.state ≠ .aborted →
      Fate s job (.ok unit)
        (.completed { artifactPath := unit.artifact.getD ⟨""⟩, originHeader := job.invocation.input }
          unit.contribution.fromUnsaved)
        (Job.advance { job with visited } .completeLocal)
  | failed {e : FrontendError} : job.state ≠ .aborted →
      Fate s job (.error e) .released (job.advance .crashed)

def Action.mover : Action → Option Nat
  | .step n | .parse n => some n
  | _ => none

namespace Scheduler

/-- What is said of a run here is about its tasks, jobs, line, permits and headers. -/
def floor (s : Scheduler) : List Task × SortedMap JobId Job × List Nat × Nat × PchTable :=
  (s.tasks, s.jobs, s.line, s.permits, s.state.pch)

section Floor

variable {s : Scheduler} {tasks : List Task} {jobs : SortedMap JobId Job} {line : List Nat}
  {permits : Nat} {table : PchTable} (h : s.floor = (tasks, jobs, line, permits, table))

include h

theorem floor_tasks : s.tasks = tasks := congrArg Prod.fst h

theorem floor_jobs : s.jobs = jobs := congrArg (fun f => f.2.1) h

theorem floor_line : s.line = line := congrArg (fun f => f.2.2.1) h

theorem floor_permits : s.permits = permits := congrArg (fun f => f.2.2.2.1) h

theorem floor_table : s.state.pch = table := congrArg (fun f => f.2.2.2.2) h

end Floor

/-- What a task does to the counts. -/
structure Recounts (s : Scheduler) (t t' : Task) (s' : Scheduler) : Prop where
  tallies : s'.tallies = (t.phase.recount s.completion,
    { s.books with pending := (t.phase.recount s.completion).pending })
  retires : t'.retires = false
  told : t'.hasDelivered = t.hasDelivered
  /-- Who takes the last job off the count, and nobody else, is to look at the introspections. -/
  checks : t'.phase = .checking ↔ t.phase = .retiring ∧ s.completion.releaseJob.1 = true

/-- What the end of a parse does to its job, its task and the counts. -/
inductive Settles (s : Scheduler) (n : Nat) (t : Task) (job : Job) :
    Job → Task → Completion × Books → Prop where
  | kept {t' : Task} : t'.phase = .finished → t'.hasDelivered = false → s.landingOf n = [] →
      Settles s n t job job t' s.tallies
  | told {t' : Task} {next : JobState} (visited : SortedSet FileId) : t.errand.answers = true →
      job.state = .runningLocal → next = .completeLocal ∨ next = .crashed → t'.phase = .finished →
      t'.hasDelivered = true → s.landingOf n = [] →
      Settles s n t job { job with visited, state := next } t' s.tallies
  | settled {t' : Task} {next : JobState} (visited : SortedSet FileId) :
      t.errand.answers = false → job.state = .runningLocal →
      next = .completeLocal ∨ next = .crashed → t'.phase = .retiring →
      (s.landingOf n).map Landing.job = (if next = .completeLocal then [job] else []) →
      (next = .crashed → ∃ i e, t.phase = .closing i (.error e)) →
      Settles s n t job { job with visited, state := next } t' (s.completion, s.books.ended next)

/-- What one action does, with the number of the task that acts. -/
inductive Transition (setup : RunSetup) (s : Scheduler) : Option Nat → Scheduler → Prop where
  | idle {s' : Scheduler} : s'.floor = s.floor → Transition setup s none s'
  | shifts {s' : Scheduler} {n : Nat} {t t' : Task} : s.tasks[n]? = some t → Pace setup s t t' →
      t.phase.isAside = true → t'.phase.isAside = true → t'.errand = t.errand →
      t'.inHand? = t.inHand? →
      s'.floor = (s.tasks.set n t', s.jobs, s.line, s.permits, s.state.pch) →
      Recounts s t t' s' →
      (t'.phase.progress = t.phase.progress ∨ (t'.phase.progress.isPast = true
        ∧ (t.phase.progress.isPast = true
          ∨ ∀ id, t.errand.job? = some id → s.jobs.get? id = none))) →
      Transition setup s (some n) s'
  | learns {s' : Scheduler} {n : Nat} {t : Task} {ticket : Nat} {key : String}
      {answer : Option TaskAnswer} : s.tasks[n]? = some t → t.phase = .expecting ticket key →
      s.state.pch.settled ticket = true →
      s'.floor = (s.tasks.set n { t with phase := .finished, answer := answer }, s.jobs, s.line,
        s.permits, s.state.pch) →
      Recounts s t { t with phase := .finished, answer := answer } s' → Transition setup s (some n) s'
  | builds {s' : Scheduler} {n : Nat} {t : Task} {i : Invocation} {key : String} :
      s.tasks[n]? = some t → t.phase = .fresh → t.errand = .request i →
      i.headerKey? = some key → s.state.pch.reserve key = s.state.pch.book key →
      s'.floor = (s.tasks.set n
          { errand := .header (jobOf s.jobs.size) ⟨key, s.state.pch.tickets.length⟩
            phase := .asking },
        s.jobs.insert (jobOf s.jobs.size) (Job.make (jobOf s.jobs.size) .pch i false),
        s.line, s.permits, (s.state.pch.book key).2) →
      s'.tallies = (s.completion.countJob, s.books.counted) → Transition setup s (some n) s'
  | asks {n : Nat} {t : Task} : s.tasks[n]? = some t → t.phase = .asking →
      Transition setup s (some n) (s.askPermit n)
  | starts {s' : Scheduler} {n : Nat} {t : Task} {id : JobId} {job : Job} {phase : Phase}
      {table : PchTable} : s.tasks[n]? = some t → t.phase = .granted →
      t.errand.job? = some id → s.jobs.get? id = some job → t.errand.attempt = job.attempts →
      job.state.waits = true → Pace setup s t { t with phase := phase } →
      ((∃ request indexer, phase = .parsing request indexer)
        ∨ ∃ outcome, phase = .parsed job.invocation outcome) →
      s.state.pch.Thins s.world.disk table →
      s'.floor = (s.tasks.set n { t with phase := phase },
        s.jobs.insert id { job with state := .runningLocal, started := true },
        s.line, s.permits, table) → Recounts s t { t with phase := phase } s' →
      Transition setup s (some n) s'
  | declines {s₁ : Scheduler} {n : Nat} {t : Task} {answer : Option TaskAnswer} :
      s.tasks[n]? = some t → t.phase = .granted →
      (∀ id, t.errand.job? = some id → s.startLocal? id t.errand.attempt = none) →
      s₁.floor = (s.tasks.set n { t with phase := .finished, answer := answer }, s.jobs, s.line,
        s.permits, s.state.pch.concluded t.errand.reservation? .released) →
      Recounts s t { t with phase := .finished, answer := answer } s₁ →
      Transition setup s (some n) s₁.releasePermit.1
  | parses {s' : Scheduler} {n : Nat} {t : Task} {request : ParseRequest} {indexer : UnitIndexer} :
      s.tasks[n]? = some t → t.phase = .parsing request indexer →
      s'.floor = (s.tasks.set n { t with phase := (.parsed request.invocation
          (s.runFrontend setup t.errand request indexer).2) },
        s.jobs, s.line, s.permits, s.state.pch) → s'.tallies = s.tallies →
      Transition setup s (some n) s'
  | frees {n : Nat} {t : Task} {i : Invocation} {outcome : Except FrontendError ParsedUnit} :
      s.tasks[n]? = some t → t.phase = .parsed i outcome →
      Transition setup s (some n) (s.releasePermit.1.setPhase n (.closing i outcome))
  | closes {s' : Scheduler} {n : Nat} {t : Task} {i : Invocation}
      {outcome : Except FrontendError ParsedUnit} {id : JobId} {job job' : Job} {how : Pch.Ending}
      {phase : Phase} {answer : Option TaskAnswer} {jobs : SortedMap JobId Job}
      {tallies : Completion × Books} : s.tasks[n]? = some t → t.phase = .closing i outcome →
      t.errand.job? = some id → s.jobs.get? id = some job → Fate s job outcome how job' →
      phase.isDone = true →
      (∀ entry, t.errand.reservation? ≠ none → how.entry? = some entry →
        answer = some (.entry entry)) →
      (∀ id', jobs.get? id' = if id' = id then some job' else s.jobs.get? id') →
      s'.floor = (s.tasks.set n { t with phase := phase, answer := answer }, jobs, s.line,
        s.permits, s.state.pch.concluded t.errand.reservation? how) →
      Settles s n t job job' { t with phase := phase, answer := answer } tallies →
      s'.tallies = tallies → Transition setup s (some n) s'
  | leaves {s' : Scheduler} {n : Nat} {t : Task} {i : Invocation}
      {outcome : Except FrontendError ParsedUnit} {answer : Option TaskAnswer} :
      s.tasks[n]? = some t → t.phase = .closing i outcome → t.errand.job? = none →
      s'.floor = (s.tasks.set n { t with phase := .finished, answer := answer }, s.jobs, s.line,
        s.permits, s.state.pch) → s'.tallies = s.tallies → Transition setup s (some n) s'
  | opens {s' : Scheduler} {i : Invocation} {errand : Errand} {kind : JobKind} {table : PchTable} :
      errand.job? = some (jobOf s.jobs.size) → errand.attempt = 0 →
      ((errand.reservation? = none ∧ table = s.state.pch)
        ∨ ∃ key, errand = .header (jobOf s.jobs.size) ⟨key, s.state.pch.tickets.length⟩
          ∧ i.headerKey? = some key
          ∧ s.state.pch.reserve key = s.state.pch.book key ∧ table = (s.state.pch.book key).2) →
      s'.floor = (s.tasks ++ [{ errand := errand }],
        s.jobs.insert (jobOf s.jobs.size) (Job.make (jobOf s.jobs.size) kind i errand.answers),
        s.line, s.permits, table) → Transition setup s none s'
  | requests {s' : Scheduler} {i : Invocation} :
      s'.floor = (s.tasks ++ [{ errand := .request i }], s.jobs, s.line, s.permits, s.state.pch) →
      Transition setup s none s'
  | steers {s' : Scheduler} {id : JobId} {job job' : Job} {more : List Task} :
      s.Moves id job more job' s' → Steers id job job' more → s'.state.pch = s.state.pch →
      Transition setup s none s'

section Inversion

variable {setup : RunSetup} {s s₁ s' : Scheduler} {n : Nat} {t : Task} {tasks : List Task}
  {jobs : SortedMap JobId Job} {line : List Nat} {permits : Nat} {table : PchTable}

theorem floor_mapCompletion (s : Scheduler) (f : Completion → Completion) :
    (s.mapCompletion f).floor = s.floor := by
  obtain ⟨log, hcounts⟩ := s.mapCompletion_eq f
  rw [hcounts]
  rfl

theorem floor_modify (h : s₁.floor = (tasks, jobs, line, permits, table))
    (ht : tasks[n]? = some t) (f : Task → Task) :
    ({ s₁ with tasks := s₁.tasks.modify n f } : Scheduler).floor
      = (tasks.set n (f t), jobs, line, permits, table) := by
  obtain ⟨rfl, rfl, rfl, rfl, rfl⟩ := by simpa only [floor, Prod.mk.injEq] using h
  unfold floor
  simp only [modify_of_getElem? f ht]

theorem Recounts.of_plain (hphase : t.phase.isDone = false) (htallies : s'.tallies = s.tallies)
    (hplain : t'.retires = false ∧ t'.hasDelivered = false) (hchecks : t'.phase ≠ .checking) :
    Recounts s t t' s' where
  tallies := by rw [recount_of_not_done hphase]; exact htallies
  retires := hplain.1
  told := hplain.2.trans (Task.plain hphase).2.symm
  checks := by
    refine iff_of_false hchecks fun hretiring => ?_
    rw [hretiring.1] at hphase
    cases hphase

theorem Recounts.of_open (hphase : t.phase.isDone = false) (htallies : s'.tallies = s.tallies)
    (hphase' : t'.phase.isDone = false) : Recounts s t t' s' := by
  refine .of_plain hphase htallies (Task.plain hphase') fun hchecks => ?_
  rw [hchecks] at hphase'
  cases hphase'

theorem thins_useHeaders (disk : Disk) (keys : List String) (acc : PchUse × PchTable) :
    acc.2.Thins disk (keys.foldl (useHeader disk) acc).2 :=
  useHeaders_keep (.refl disk) .trans disk (fun t => t.thins_lookupForInclude disk) keys acc

section

variable (h : s₁.floor = (tasks, jobs, line, permits, table))

include h

theorem floor_createJob (kind : JobKind) (i : Invocation) (guest : Bool) :
    (s₁.createJob kind i guest).1 = jobOf jobs.size ∧ (s₁.createJob kind i guest).2.floor = (tasks,
        jobs.insert (jobOf jobs.size) (Job.make (jobOf jobs.size) kind i guest), line, permits,
        table) := by
  obtain ⟨rfl, rfl, rfl, rfl, rfl⟩ := by simpa only [floor, Prod.mk.injEq] using h
  exact ⟨rfl, rfl⟩

theorem floor_setTask (n : Nat) (t : Task) :
    (s₁.setTask n t).floor = (tasks.set n t, jobs, line, permits, table) := by
  obtain ⟨rfl, rfl, rfl, rfl, rfl⟩ := by simpa only [floor, Prod.mk.injEq] using h
  rfl

theorem floor_spawn (errand : Errand) :
    (s₁.spawn errand).floor = (tasks ++ [{ errand := errand }], jobs, line, permits, table) := by
  obtain ⟨rfl, rfl, rfl, rfl, rfl⟩ := by simpa only [floor, Prod.mk.injEq] using h
  rfl

end

theorem transition_begin (ht : s.tasks[n]? = some t) (hphase : t.phase = .fresh) (setup : RunSetup) :
    Transition setup s (some n) (s.begin setup n t.errand) := by
  have hends : t.phase.mayEnd = true := by rw [hphase]; rfl
  have hwaits : t.phase.progress = .waiting := by rw [hphase]; rfl
  have hopen := isDone_of_waiting hwaits
  have hshifts : ∀ {f : Task → Task}, Pace setup s t (f t) → (f t).phase.isAside = true →
      (f t).errand = t.errand → (f t).inHand? = t.inHand? → Recounts s t (f t) s →
      ((f t).phase.progress = .waiting ∨ ((f t).phase.progress.isPast = true
          ∧ ∀ id, t.errand.job? = some id → s.jobs.get? id = none)) →
      Transition setup s (some n) { s with tasks := s.tasks.modify n f } := by
    intro f hpace haside herrand hhand hrecounts hpass
    refine .shifts ht hpace (by rw [hphase]; rfl) haside herrand hhand (floor_modify rfl ht f)
      { hrecounts with } ?_
    rw [hwaits]
    exact hpass.imp_right fun hpast => ⟨hpast.1, .inr hpast.2⟩
  have hnohand : ∀ {phase : Phase} {answer : Option TaskAnswer}, t.errand.reservation? = none →
      Task.inHand? { t with phase := phase, answer := answer } = t.inHand? := by
    intro phase answer hnone
    unfold Task.inHand?
    rw [hnone]
    simp
  unfold begin
  cases herrand : t.errand with
  | unit id _ | remote id =>
    have hnone : t.errand.reservation? = none := by rw [herrand]; rfl
    simp only
    split
    · next hmissing =>
      refine hshifts (.ended hends rfl) rfl rfl (hnohand hnone)
        (.of_plain hopen rfl ⟨rfl, by simp [Task.hasDelivered, herrand]⟩ (fun h => by cases h))
        (.inr ⟨rfl, fun id' hid' => ?_⟩)
      rw [herrand] at hid'
      exact some.inj hid' ▸ hmissing
    · next job hjob =>
      exact hshifts (.sought hphase (by rw [herrand]; rfl) hnone hjob) rfl rfl (hnohand hnone)
        (.of_open hopen rfl rfl) (.inl rfl)
  | header =>
    refine hshifts (.asked (.inl ⟨hphase, by rw [herrand]; simp [Errand.reservation?]⟩)) rfl rfl ?_
      (.of_open hopen rfl rfl) (.inl rfl)
    unfold Task.inHand?
    rw [hphase]
    rfl
  | request i =>
    have hnone : t.errand.reservation? = none := by rw [herrand]; rfl
    have hjobless : ∀ id, t.errand.job? = some id → s.jobs.get? id = none := by
      simp [herrand, Errand.job?]
    have hrefused : ∀ answer, Transition setup s (some n) (s.finish n answer) := fun answer =>
      hshifts (.ended hends rfl) rfl rfl (hnohand hnone)
        (.of_plain hopen rfl ⟨rfl, by simp [Task.hasDelivered, herrand]⟩ (fun h => by cases h))
        (.inr ⟨rfl, hjobless⟩)
    simp only
    split
    · exact hrefused _
    · next key hkey =>
      split
      · exact hrefused _
      · exact hshifts (.expected hphase herrand) rfl rfl (hnohand hnone) (.of_open hopen rfl rfl)
          (.inr ⟨rfl, hjobless⟩)
      · next r table hreserve =>
        obtain ⟨hbooks, rfl, rfl⟩ := PchTable.reserve_eq_book hreserve
        have hfloor : (((s.noteReserved key).mapPch (fun _ => (s.state.pch.book key).2)
            ).mapCompletion Completion.countJob).floor
            = (s.tasks, s.jobs, s.line, s.permits, (s.state.pch.book key).2) :=
          floor_mapCompletion _ _
        obtain ⟨hid, hcreated⟩ := floor_createJob hfloor .pch i false
        refine .builds ht hphase herrand hkey hbooks ?_ (tallies_mapCompletion _ _)
        rw [hid]
        exact floor_setTask hcreated n _

theorem transition_launch (ht : s.tasks[n]? = some t) (hphase : t.phase = .granted)
    (setup : RunSetup) : Transition setup s (some n) (s.launch setup n t.errand).1 := by
  have hopen : t.phase.isDone = false := by rw [hphase]; rfl
  unfold launch
  simp only
  split
  · next i s₁ hstarted =>
    obtain ⟨id, hid, hstart⟩ : ∃ id, t.errand.job? = some id
        ∧ s.startLocal? id t.errand.attempt = some (i, s₁) := by
      cases herrand : t.errand <;> rw [herrand] at hstarted <;>
        first | exact ⟨_, rfl, hstarted⟩ | cases hstarted
    obtain ⟨job, hjob, rfl, hattempt, hwaits, hs₁⟩ := startLocal?_eq_some hstart
    have hworld : s₁.world = s.world := by rw [hs₁]
    have hpch : s₁.state.pch = s.state.pch := by rw [hs₁]
    obtain ⟨hrequest, hindexer⟩ := beginParse_congr setup job.invocation hworld hpch
    subst hs₁
    -- A parse that begins drops headers whose artifacts are gone.
    obtain ⟨table, requests, log, hthins, hbegun⟩ := beginParse_eq (.refl s.world.disk) .trans setup
      { s with jobs := s.jobs.insert id { job with state := .runningLocal, started := true } }
      (fun t => t.thins_lookupForInclude s.world.disk) job.invocation
    have hfloor := congrArg floor hbegun
    have htallies := congrArg tallies hbegun
    split
    · next hdont =>
      exact .starts ht hphase hid hjob hattempt hwaits
        (.skipped hphase hid hjob hdont (fun _ hunit => invocation_unparsed hunit)
          (by exact ⟨_, rfl, rfl, rfl⟩))
        (.inr ⟨_, rfl⟩) hthins (floor_modify hfloor ht _) (.of_open hopen htallies rfl)
    · next hdo =>
      rw [hrequest, hindexer]
      exact .starts ht hphase hid hjob hattempt hwaits
        (.begun hphase hid hjob (Bool.not_eq_true _ ▸ hdo)) (.inl ⟨_, _, rfl⟩) hthins
        (floor_modify hfloor ht _) (.of_open hopen htallies rfl)
  · next hnone =>
    have hdeclined : ∀ id, t.errand.job? = some id → s.startLocal? id t.errand.attempt = none := by
      intro id hid
      cases herrand : t.errand <;> rw [herrand] at hnone hid <;> first
        | (obtain rfl := some.inj hid; exact hnone)
        | simp [Errand.job?] at hid
    cases herrand : t.errand <;>
      refine .declines ht hphase hdeclined (floor_modify ?_ ht _)
        (.of_plain hopen rfl ⟨rfl, by simp [Task.hasDelivered, herrand]⟩ (fun h => by cases h)) <;>
      rw [herrand] <;> rfl

theorem transition_close (h : s.Staffed) (ht : s.tasks[n]? = some t) {i : Invocation}
    {outcome : Except FrontendError ParsedUnit} (hphase : t.phase = .closing i outcome)
    (setup : RunSetup) : Transition setup s (some n) (s.close n t.errand i outcome).1 := by
  cases hid : t.errand.job? with
  | none =>
    cases herrand : t.errand with
    | request => exact .leaves ht hphase hid (floor_modify rfl ht _) rfl
    | _ => rw [herrand] at hid; simp [Errand.job?] at hid
  | some id =>
    obtain ⟨job, hjob, rfl, hheld⟩ := h ht hid
    have hstays : ∀ id', s.jobs.get? id' = if id' = job.id then some job else s.jobs.get? id' := by
      intro id'
      split
      · next heq => rw [heq, hjob]
      · rfl
    have hmoves : ∀ (move : Job → Job) id', (s.jobs.modify job.id move).get? id'
        = if id' = job.id then some (move job) else s.jobs.get? id' := by
      intro move id'
      simp only [get?_modify, Std.compare_eq_iff_eq]
      split
      · next heq => rw [heq, hjob]; rfl
      · rfl
    -- A job that its task is busy with runs, unless it was aborted.
    have hruns : job.state ≠ .aborted → job.state = .runningLocal :=
      (hheld (by rw [hphase]; rfl)).resolve_right
    have hadvance : ∀ (visited : SortedSet FileId) {next : JobState}, job.state ≠ .aborted →
        next = .completeLocal ∨ next = .crashed →
        Job.advance { job with visited } next = { job with visited, state := next } := by
      intro visited next hkept hnext
      have hmove : ({ job with visited } : Job).state.canMoveTo next = true := by
        rcases hnext with rfl | rfl <;> simp only [hruns hkept] <;> rfl
      rw [Job.advance_of_canMoveTo hmove]
      rcases hnext with rfl | rfl <;> simp
    have hremote : t.errand.answers = true → ∃ id, t.errand = .remote id := by
      cases t.errand <;> simp [Errand.answers]
    obtain ⟨t', s₁, hcloses, hclosed⟩ := closes ht hphase hid hjob
    rw [hclosed]
    generalize hland : s.landingOf n = landed at hcloses
    cases hcloses with
    | dropped haborted hanswer =>
      refine .closes ht hphase hid hjob (.dropped haborted) rfl (fun _ _ h => by cases h) hstays rfl
        (.kept rfl ?_ hland) rfl
      cases hanswers : t.errand.answers with
      | false => exact hasDelivered_eq_false hanswers
      | true =>
        obtain ⟨id, herrand⟩ := hremote hanswers
        simp [Task.hasDelivered, herrand, hanswer hanswers]
    | lost hkept hanswers hlost =>
      exact .closes ht hphase hid hjob (.lost hkept hlost) rfl (fun _ _ h => by cases h) hstays rfl
        (.kept rfl (hasDelivered_eq_false hanswers) hland) rfl
    | @landed unit answer visited state log hkept hanswers hintegrate hentry =>
      refine .closes ht hphase hid hjob (.landed visited hkept) rfl (fun entry hsome hentry' => ?_)
        (hmoves (fun j => Job.advance { j with visited } .completeLocal))
        (by rw [← IndexState.pch_integrate hintegrate]; rfl) ?_ rfl
      · rw [hentry hsome, ← some.inj hentry']
      · rw [hadvance visited hkept (.inl rfl)]
        exact .settled visited hanswers (hruns hkept) (.inl rfl) rfl (by rw [hland]; rfl)
          (fun h => by cases h)
    | failed hkept hanswers =>
      refine .closes ht hphase hid hjob (.failed hkept) rfl (fun _ _ h => by cases h)
        (hmoves (fun j => j.advance .crashed)) rfl ?_ rfl
      rw [show job.advance .crashed = _ from hadvance job.visited hkept (.inr rfl)]
      exact .settled job.visited hanswers (hruns hkept) (.inr rfl) rfl (by rw [hland]; rfl)
        fun _ => ⟨i, _, hphase⟩
    | told hkept hanswers hnone =>
      obtain ⟨id, herrand⟩ := hremote hanswers
      cases outcome with
      | ok =>
        refine .closes ht hphase hid hjob (.landed job.visited hkept) rfl
          (fun _ hsome => absurd hnone hsome) (hmoves (fun j => j.advance .completeLocal))
          (by rw [hnone]; rfl) ?_ rfl
        rw [hadvance job.visited hkept (.inl rfl)]
        exact .told job.visited hanswers (hruns hkept) (.inl rfl) rfl
          (by simp [Task.hasDelivered, herrand, Phase.isDone]) hland
      | error =>
        refine .closes ht hphase hid hjob (.failed hkept) rfl (fun _ _ h => by cases h)
          (hmoves (fun j => j.advance .crashed)) (by rw [hnone]; rfl) ?_ rfl
        rw [show job.advance .crashed = _ from hadvance job.visited hkept (.inr rfl)]
        exact .told job.visited hanswers (hruns hkept) (.inr rfl) rfl
          (by simp [Task.hasDelivered, herrand, Phase.isDone]) hland

/-- A task goes on, and apart from the counts nothing else has changed. -/
theorem transition_shifts {f : Task → Task} (ht : s.tasks[n]? = some t) (hfloor : s₁.floor = s.floor)
    (hpace : Pace setup s t (f t)) (haside : t.phase.isAside = true)
    (haside' : (f t).phase.isAside = true) (herrand : (f t).errand = t.errand)
    (hdone : t.phase.isDone = (f t).phase.isDone) (hrecounts : Recounts s t (f t) s₁)
    (hpass : (f t).phase.progress = t.phase.progress
      ∨ ((f t).phase.progress.isPast = true ∧ t.phase.progress.isPast = true)) :
    Transition setup s (some n) { s₁ with tasks := s₁.tasks.modify n f } := by
  refine .shifts ht hpace haside haside' herrand ?_ (floor_modify hfloor ht f) { hrecounts with }
    (hpass.imp_right fun hpast => ⟨hpast.1, .inl hpast.2⟩)
  unfold Task.inHand?
  rw [hdone, herrand]

theorem transition_waits {before phase : Phase} (ht : s.tasks[n]? = some t) (hphase : t.phase = before)
    (hfloor : s₁.floor = s.floor) (htallies : s₁.tallies = s.tallies)
    (hpace : Pace setup s t { t with phase := phase })
    (hbefore : before.isAside = true ∧ before.progress = .waiting)
    (hafter : phase.isAside = true ∧ phase.progress = .waiting) :
    Transition setup s (some n) (s₁.setPhase n phase) := by
  subst hphase
  have hdone := isDone_of_waiting hbefore.2
  have hdone' := isDone_of_waiting hafter.2
  exact transition_shifts ht hfloor hpace hbefore.1 hafter.1 rfl (hdone.trans hdone'.symm)
    (.of_open hdone htallies hdone') (.inl (hafter.2.trans hbefore.2.symm))

theorem transition_retires (ht : s.tasks[n]? = some t) (hphase : t.phase = .retiring) :
    Transition setup s (some n) ({ s with completion := s.completion.releaseJob.2 }.setPhase n
      (if s.completion.releaseJob.1 then .checking else .finished)) := by
  have hdone : t.phase.isDone = true := by rw [hphase]; rfl
  have hnext : ∀ last : Bool, (if last then Phase.checking else .finished).isDone = true
      ∧ (if last then Phase.checking else .finished).isAside = true
      ∧ (if last then Phase.checking else .finished).progress.isPast = true
      ∧ Task.retires { t with phase := if last then .checking else .finished } = false
      ∧ ((if last then Phase.checking else .finished) = .checking ↔ last = true) := by
    intro last
    cases last <;> exact ⟨rfl, rfl, rfl, rfl, by simp⟩
  obtain ⟨hdone', haside, hpast, hretires, hchecks⟩ := hnext s.completion.releaseJob.1
  refine transition_shifts ht rfl (.retired hdone hdone') (by rw [hphase]; rfl) haside rfl
    (hdone.trans hdone'.symm) ⟨by rw [hphase]; rfl, hretires, hasDelivered_of_done hdone hdone',
      hchecks.trans (iff_and_self.mpr fun _ => hphase)⟩ (.inr ⟨hpast, by rw [hphase]; rfl⟩)

theorem transition_checks (ht : s.tasks[n]? = some t) (hphase : t.phase = .checking) :
    Transition setup s (some n)
      ((s.mapCompletion Completion.checkIntrospections).setPhase n .finished) := by
  have hdone : t.phase.isDone = true := by rw [hphase]; rfl
  refine transition_shifts ht (floor_mapCompletion _ _) (.retired hdone rfl) (by rw [hphase]; rfl)
    rfl rfl hdone ⟨?_, rfl, hasDelivered_of_done hdone rfl, by simp [hphase]⟩
    (.inr ⟨rfl, by rw [hphase]; rfl⟩)
  rw [hphase]
  exact tallies_mapCompletion s Completion.checkIntrospections

/-- **Every step of a task.** -/
theorem transition_step {woken : List Nat} (h : s.Staffed)
    (hstep : s.step? setup n = some (s', woken)) : Transition setup s (some n) s' := by
  unfold step? at hstep
  split at hstep
  · cases hstep
  · next t ht =>
    split at hstep
    · next hphase =>
      cases hstep
      exact transition_begin ht hphase setup
    · next hphase =>
      cases hstep
      exact transition_waits ht hphase rfl rfl (.asked (.inr hphase)) ⟨rfl, rfl⟩ ⟨rfl, rfl⟩
    · next key keys hphase =>
      split at hstep
      · next hnone =>
        cases hstep
        exact transition_waits ht hphase rfl rfl (.passed hphase hnone) ⟨rfl, rfl⟩ ⟨rfl, rfl⟩
      · next ticket hticket =>
        cases hstep
        exact transition_waits ht hphase rfl rfl (.waited hphase hticket) ⟨rfl, rfl⟩ ⟨rfl, rfl⟩
    · next ticket keys hphase =>
      split at hstep
      · next hsettled =>
        cases hstep
        exact transition_waits ht hphase rfl rfl (.resumed hphase hsettled) ⟨rfl, rfl⟩ ⟨rfl, rfl⟩
      · cases hstep
    · next ticket key hphase =>
      split at hstep
      · next hsettled =>
        cases hstep
        refine .learns ht hphase hsettled (floor_modify rfl ht _)
          (.of_plain (by rw [hphase]; rfl) rfl ⟨rfl, ?_⟩ nofun)
        -- It answers with a header, which is not what another process waits for.
        unfold Task.hasDelivered
        cases s.state.pch.outcome? ticket <;> cases t.errand <;> rfl
      · cases hstep
    · next hphase =>
      cases hstep
      exact .asks ht hphase
    · cases hstep
    · next hphase =>
      obtain rfl : (s.launch setup n t.errand).1 = s' := congrArg Prod.fst (some.inj hstep)
      exact transition_launch ht hphase setup
    · cases hstep
    · next i outcome hphase =>
      cases hstep
      exact .frees ht hphase
    · next i outcome hphase =>
      obtain rfl : (s.close n t.errand i outcome).1 = s' :=
        congrArg Prod.fst (some.inj hstep)
      exact transition_close h ht hphase setup
    · next hphase =>
      cases hstep
      exact transition_retires ht hphase
    · next hphase =>
      cases hstep
      exact transition_checks ht hphase
    · cases hstep

theorem transition_endParse (h : s.endParse? setup n = some s') : Transition setup s (some n) s' := by
  obtain ⟨t, request, indexer, ht, hphase, disk, calls, errors, log, rfl⟩ := endParse?_eq_some h
  exact .parses ht hphase rfl rfl

/-- What a submission leads to: nothing, or a job with a first task. -/
inductive Submits (setup : RunSetup) (s : Scheduler) (i : Invocation) :
    Option JobId → Scheduler → Prop where
  | declined {s' : Scheduler} : s'.floor = s.floor → (s.accept setup i).1 = none →
      s'.tallies = s.tallies → Submits setup s i none s'
  | unit {s' : Scheduler} {kind : JobKind} : i.language.isHeader = false →
      s'.floor = (s.tasks ++ [{ errand := .unit (jobOf s.jobs.size) 0 }],
        s.jobs.insert (jobOf s.jobs.size) (Job.make (jobOf s.jobs.size) kind i false),
        s.line, s.permits, s.state.pch) → (s.accept setup i).1 ≠ none →
      s'.tallies = (s.completion.countJob, s.books.counted) →
      Submits setup s i (some (jobOf s.jobs.size)) s'
  | header {s' : Scheduler} {key : String} : i.language.isHeader = true →
      i.headerKey? = some key → s.state.pch.reserve key = s.state.pch.book key →
      s'.floor = (s.tasks
          ++ [{ errand := .header (jobOf s.jobs.size) ⟨key, s.state.pch.tickets.length⟩ }],
        s.jobs.insert (jobOf s.jobs.size) (Job.make (jobOf s.jobs.size) .pch i false),
        s.line, s.permits, (s.state.pch.book key).2) → (s.accept setup i).1 ≠ none →
      s'.tallies = (s.completion.countJob, s.books.counted) →
      Submits setup s i (some (jobOf s.jobs.size)) s'

theorem floor_post (s₁ : Scheduler) (h : s₁.floor = (s.tasks, s.jobs, s.line, s.permits, table))
    (htallies : s₁.tallies = s.tallies) (kind : JobKind) (i : Invocation) (e : JobId → Errand) :
    let created := (s₁.mapCompletion Completion.countJob).createJob kind i false
    created.1 = jobOf s.jobs.size ∧ (created.2.spawn (e created.1)).floor
        = (s.tasks ++ [{ errand := e (jobOf s.jobs.size) }],
          s.jobs.insert (jobOf s.jobs.size) (Job.make (jobOf s.jobs.size) kind i false),
          s.line, s.permits, table)
      ∧ (created.2.spawn (e created.1)).tallies = (s.completion.countJob, s.books.counted) := by
  obtain ⟨hid, hcreated⟩ :=
    floor_createJob ((s₁.floor_mapCompletion Completion.countJob).trans h) kind i false
  obtain ⟨hcompletion, hbooks⟩ := Prod.mk.inj htallies
  refine ⟨hid, ?_, ?_⟩
  · rw [hid]
    exact floor_spawn hcreated _
  · rw [← hcompletion, ← hbooks]
    exact tallies_mapCompletion s₁ Completion.countJob

theorem submits (setup : RunSetup) (s : Scheduler) (i : Invocation) :
    Submits setup s i (s.submit setup i).1 (s.submit setup i).2 := by
  have haccepts := s.accepts setup i
  rw [submit_eq]
  generalize haccept : s.accept setup i = answer at haccepts ⊢
  cases haccepts with
  | unwanted | requested | repeated => exact .declined rfl (by rw [haccept]) rfl
  | unit hunit =>
    obtain ⟨hid, hposted, hcounted⟩ := floor_post (s := s)
      { s with queued := s.queued ++ [i.signature] } rfl rfl setup.kind i (.unit · 0)
    simp only [post, hid] at hposted hcounted ⊢
    exact .unit hunit hposted (by rw [haccept]; simp) hcounted
  | @header key log hwanted hkey hbooks =>
    obtain ⟨hid, hposted, hcounted⟩ := floor_post (s := s)
      ({ s with log := log }.mapPch (fun t => (t.book key).2)) rfl rfl .pch i
      (.header · ⟨key, s.state.pch.tickets.length⟩)
    simp only [post, hid] at hposted hcounted ⊢
    exact .header hwanted.1 hkey hbooks hposted (by rw [haccept]; simp) hcounted

/-- A job is made, with a task. -/
structure Opens (s : Scheduler) (i : Invocation) (errand : Errand) (s' : Scheduler) : Prop where
  job : errand.job? = some (jobOf s.jobs.size)
  attempt : errand.attempt = 0
  tasks : s'.tasks = s.tasks ++ [{ errand := errand }]
  line : s'.line = s.line
  jobs : ∃ kind, s'.jobs
    = s.jobs.insert (jobOf s.jobs.size) (Job.make (jobOf s.jobs.size) kind i errand.answers)

theorem submit_opens (setup : RunSetup) (s : Scheduler) (i : Invocation) :
    ((s.accept setup i).1 = none ∧ (s.submit setup i).2.floor = s.floor
        ∧ (s.submit setup i).2.tallies = s.tallies)
      ∨ ((s.accept setup i).1 ≠ none
        ∧ (s.submit setup i).2.tallies = (s.completion.countJob, s.books.counted)
        ∧ ∃ errand, errand.answers = false ∧ Opens s i errand (s.submit setup i).2) := by
  have hsubmits := s.submits setup i
  generalize (s.submit setup i).1 = id at hsubmits
  generalize (s.submit setup i).2 = s' at hsubmits ⊢
  cases hsubmits with
  | declined hfloor hnone htallies => exact .inl ⟨hnone, hfloor, htallies⟩
  | unit _ hfloor hsome htallies | header _ _ _ hfloor hsome htallies =>
    simp only [floor, Prod.mk.injEq] at hfloor
    exact .inr ⟨hsome, htallies, _, rfl, rfl, rfl, hfloor.1, hfloor.2.2.1, _, hfloor.2.1⟩

theorem submitFromRemote_opens (setup : RunSetup) (s : Scheduler) (i : Invocation) :
    Opens s i (.remote (jobOf s.jobs.size)) (s.submitFromRemote setup i) :=
  ⟨rfl, rfl, rfl, rfl, setup.kind, rfl⟩

/-- **Every action.** -/
theorem transition_act {a : Action} (h : s.Staffed)
    (hact : s.act? setup a = some s') : Transition setup s a.mover s' := by
  cases a with
  | submit i =>
    cases hact
    have hsubmits := s.submits setup i
    generalize (s.submit setup i).1 = id at hsubmits
    cases hsubmits with
    | declined hfloor => exact .idle hfloor
    | unit _ hfloor => exact .opens rfl rfl (.inl ⟨rfl, rfl⟩) hfloor
    | header _ hkey hbooks hfloor => exact .opens rfl rfl (.inr ⟨_, rfl, hkey, hbooks, rfl⟩) hfloor
  | request =>
    cases hact
    exact .requests rfl
  | serve i =>
    cases hact
    exact @Transition.opens setup s _ i (.remote (jobOf s.jobs.size)) setup.kind _ rfl rfl
      (.inl ⟨rfl, rfl⟩) rfl
  | step =>
    obtain ⟨⟨s₁, woken⟩, hstep, rfl⟩ := map_eq_some_iff.mp hact
    exact transition_step h hstep
  | parse => exact transition_endParse hact
  | handOff _ destination port =>
    obtain ⟨job, hwaits, hstate, -, hmoves⟩ := handOff_eq_some hact
    exact .steers hmoves (.sent destination port hwaits) (congrArg IndexState.pch hstate)
  | completeRemote =>
    obtain ⟨job, hjob, hremote, ⟨e, -, rfl⟩ | ⟨visited, hintegrate, -, hmoves⟩⟩ :=
      completeRemote_eq_some hact
    · exact .idle rfl
    · exact .steers hmoves (.returned visited hremote) (IndexState.pch_integrate hintegrate)
  | reschedule =>
    obtain ⟨job, hremote, hstate, -, hmoves⟩ := reschedule_eq_some hact
    exact .steers hmoves (.rescheduled hremote) (congrArg IndexState.pch hstate)
  | abort =>
    obtain ⟨job, hopen, hstate, -, hmoves⟩ := abort_eq_some hact
    exact .steers hmoves (.aborted hopen) (congrArg IndexState.pch hstate)
  | block =>
    obtain ⟨job, blockedFiles, hstate, -, hmoves⟩ := recordBlockedFile_eq_some hact
    exact .steers hmoves (.blocked blockedFiles) (congrArg IndexState.pch hstate)
  | recount f =>
    cases hact
    exact .idle (floor_mapCompletion s f)
  | meanwhile =>
    cases hact
    exact .idle rfl

end Inversion

/-! ## What becomes of the tasks -/

section Tasks

variable {setup : RunSetup} {s s' : Scheduler} {n m : Nat} {t : Task} {who : Option Nat}

theorem askPermit_cases (ht : s.tasks[n]? = some t) :
    ∃ phase : Phase, (phase = .inLine ∨ phase = .granted)
      ∧ (s.askPermit n).tasks = s.tasks.set n { t with phase := phase }
      ∧ (s.askPermit n).jobs = s.jobs ∧ (s.askPermit n).tallies = s.tallies := by
  unfold askPermit
  split
  · exact ⟨.inLine, .inl rfl, modify_of_getElem? _ ht, rfl, rfl⟩
  · exact ⟨.granted, .inr rfl, modify_of_getElem? _ ht, rfl, rfl⟩

theorem tasks_frees (hline : Asleep s) (ht : s.tasks[n]? = some t) {i : Invocation}
    {outcome : Except FrontendError ParsedUnit} (hphase : t.phase = .parsed i outcome) :
    (s.releasePermit.1.setPhase n (.closing i outcome)).tasks
      = s.releasePermit.1.tasks.set n { t with phase := .closing i outcome } :=
  modify_of_getElem? _ ((getElem?_releasePermit (hline.not_mem ht (by simp [hphase]))).trans ht)

theorem asleep_declines {s₁ : Scheduler} (hline : Asleep s) (ht : s.tasks[n]? = some t)
    (hphase : t.phase = .granted) (htasks : s₁.tasks = s.tasks.set n t') (hline₁ : s₁.line = s.line)
    :
    Asleep s₁ :=
  hline.set (hline.not_mem ht (by simp [hphase])) htasks hline₁

/-- **Every task keeps the pace.** -/
theorem Transition.paced (h : Transition setup s who s') (hline : Asleep s) : Paced setup s s' := by
  cases h with
  | idle hfloor => exact .of_eq (floor_tasks hfloor)
  | shifts ht hpace _ _ _ _ hfloor =>
    exact (Paced.of_eq rfl).set ht hpace (floor_tasks hfloor)
  | learns ht hphase _ hfloor =>
    exact (Paced.of_eq rfl).set ht (.ended (by rw [hphase]; rfl) rfl) (floor_tasks hfloor)
  | builds ht hphase herrand _ _ hfloor =>
    exact (Paced.of_eq rfl).set ht (.reserved hphase herrand) (floor_tasks hfloor)
  | asks ht hphase =>
    obtain ⟨phase, rfl | rfl, htasks, -, -⟩ := askPermit_cases ht
    · exact (Paced.of_eq rfl).set ht (.queued hphase) htasks
    · exact (Paced.of_eq rfl).set ht (.granted (.inl hphase)) htasks
  | starts ht _ _ _ _ _ hpace _ _ hfloor =>
    exact (Paced.of_eq rfl).set ht hpace (floor_tasks hfloor)
  | declines ht hphase _ hfloor =>
    have htasks := floor_tasks hfloor
    refine ((Paced.of_eq rfl).set ht (.ended (by rw [hphase]; rfl) rfl) htasks).releasePermit ?_
    exact asleep_declines hline ht hphase htasks (floor_line hfloor)
  | parses ht hphase hfloor =>
    exact (Paced.of_eq rfl).set ht (.parsed hphase) (floor_tasks hfloor)
  | frees ht hphase =>
    exact ((Paced.of_eq rfl).releasePermit hline).set ht (.closing hphase)
      (tasks_frees hline ht hphase)
  | closes ht hphase _ _ _ hdone _ _ hfloor =>
    exact (Paced.of_eq rfl).set ht (.ended (by rw [hphase]; rfl) hdone) (floor_tasks hfloor)
  | leaves ht hphase _ hfloor =>
    exact (Paced.of_eq rfl).set ht (.ended (by rw [hphase]; rfl) rfl) (floor_tasks hfloor)
  | opens hid _ _ hfloor =>
    refine .of_append (floor_tasks hfloor) fun t ht => ?_
    obtain rfl := mem_singleton.mp ht
    exact ⟨rfl, rfl, fun id hid' => .inl (some.inj (hid'.symm.trans hid))⟩
  | requests hfloor =>
    refine .of_append (floor_tasks hfloor) fun t ht => ?_
    obtain rfl := mem_singleton.mp ht
    exact ⟨rfl, rfl, fun id hid => absurd hid (by simp [Errand.job?])⟩
  | @steers _ id job job' more hmoves hsteers _ =>
    refine .of_append hmoves.tasks fun t ht => ?_
    cases hsteers with
    | rescheduled hremote =>
      obtain rfl := mem_singleton.mp ht
      refine ⟨rfl, rfl, fun id' hid' => .inr ⟨rfl, job, ?_, hremote⟩⟩
      obtain rfl : id = id' := some.inj hid'
      exact hmoves.filed
    | _ => cases ht

theorem Transition.appends (h : Transition setup s none s') :
    ∃ more : List Task, s'.tasks = s.tasks ++ more ∧ ∀ t ∈ more, t.phase = .fresh := by
  cases h with
  | idle hfloor =>
    exact ⟨[], (floor_tasks hfloor).trans (append_nil _).symm, by simp⟩
  | opens _ _ _ hfloor | requests hfloor => exact ⟨_, floor_tasks hfloor, by simp⟩
  | steers hmoves hsteers => exact ⟨_, hmoves.tasks, by cases hsteers <;> simp⟩

theorem length_releasePermit (s : Scheduler) : s.releasePermit.1.tasks.length = s.tasks.length := by
  unfold releasePermit
  split
  · rfl
  · exact length_modify ..

/-- **A task that moves makes no other one.** -/
theorem Transition.length_eq (h : Transition setup s (some n) s') :
    s'.tasks.length = s.tasks.length := by
  have hset : ∀ {s₁ : Scheduler} {t : Task} {jobs line permits table},
      s₁.floor = (s.tasks.set n t, jobs, line, permits, table) →
      s₁.tasks.length = s.tasks.length := by
    intro s₁ t _ _ _ _ hfloor
    rw [floor_tasks hfloor, List.length_set]
  cases h with
  | shifts _ _ _ _ _ _ hfloor | learns _ _ _ hfloor | builds _ _ _ _ _ hfloor
  | starts _ _ _ _ _ _ _ _ _ hfloor | parses _ _ hfloor | closes _ _ _ _ _ _ _ _ hfloor
  | leaves _ _ _ hfloor => exact hset hfloor
  | asks =>
    unfold askPermit
    split <;> exact length_modify ..
  | declines _ _ _ hfloor => exact (length_releasePermit _).trans (hset hfloor)
  | frees => exact (length_modify ..).trans (length_releasePermit s)

theorem getElem?_concat_cases {u : Task} (h : (s.tasks ++ [u])[m]? = some t) :
    s.tasks[m]? = some t ∨ (m = s.tasks.length ∧ t = u) := by
  rcases Nat.lt_or_ge m s.tasks.length with hlt | hge
  · rw [getElem?_append_left hlt] at h
    exact .inl h
  · obtain ⟨hlt, -⟩ := List.getElem?_eq_some_iff.mp h
    rw [List.length_append, List.length_singleton] at hlt
    obtain rfl : m = s.tasks.length := by omega
    rw [getElem?_concat_length] at h
    exact .inr ⟨rfl, (some.inj h).symm⟩

theorem Transition.exists_task (h : Transition setup s (some n) s') (hline : Asleep s)
    (ht' : s'.tasks[m]? = some t') : ∃ t, s.tasks[m]? = some t ∧ (t' = t ∨ Pace setup s t t') := by
  rcases (h.paced hline).2 m t' ht' with hold | ⟨hnone, -⟩
  · exact hold
  · obtain ⟨hlt, -⟩ := List.getElem?_eq_some_iff.mp ht'
    rw [h.length_eq] at hlt
    simp [hlt] at hnone

end Tasks

end Scheduler

/-! ## Guarded runs -/

/-- A run in which everything may happen in any order, and of which something is known at every
moment. -/
def GuardedRun (setup : RunSetup) (P : Scheduler → Prop) (s s' : Scheduler) : Prop :=
  P s ∧ RecordedRun (Scheduler.act? setup) (fun _ _ s' => P s') (fun r _ _ _ => r) () s () s'

namespace GuardedRun

variable {setup : RunSetup} {P : Scheduler → Prop} {s s' : Scheduler}

theorem start (h : P s) : GuardedRun setup P s s := ⟨h, .start⟩

theorem begins (h : GuardedRun setup P s s') : P s := h.1

theorem holds (h : GuardedRun setup P s s') : P s' := h.2.keeps h.1 fun _ _ _ _ _ hend => hend

theorem induct {I : Scheduler → Prop} (h : GuardedRun setup P s s') (hstart : I s)
    (hact : ∀ s₁ s₂ a, P s₁ → P s₂ → I s₁ → s₁.act? setup a = some s₂ → I s₂) : I s' :=
  (h.2.keeps (I := fun s => P s ∧ I s) ⟨h.1, hstart⟩ fun s₁ a s₂ hbefore hmoves hend =>
    ⟨hend, hact s₁ s₂ a hbefore.1 hend hbefore.2 hmoves⟩).2

theorem of_play {p : Scheduler → Bool} {as : List Action} {r : Unit} (hstart : p s = true)
    (hplay : play? (Scheduler.act? setup) (fun _ _ s' => p s') (fun r _ _ _ => r) () s as
      = some (r, s')) : GuardedRun setup (fun s => p s = true) s s' :=
  ⟨hstart, RecordedRun.start.of_play (fun _ _ _ => id) hplay⟩

end GuardedRun

end SymbolIndex
