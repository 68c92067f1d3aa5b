import SymbolIndex.Proofs.Dispatch

/-!
# Runs that are steered

While tasks move and front ends come to an end, units are submitted, headers are asked for, and jobs
are handed to remote workers, taken back, completed or aborted. A `SteeredRun` is a run in which any
of this happens in any order. Its ledger keeps what nothing in the scheduler itself remembers: which
jobs began to run, which were parsed, what came of them, what was integrated, and which jobs were
taken back.

`SteeredRun.integrated` and `SteeredRun.ready` say that the landings in the ledger account for the
index and for the headers that are ready.
-/

namespace SymbolIndex

open Completion List Option Scheduler SortedMap

theorem SortedMap.nodup_keys {κ υ : Type} [Ord κ] [Std.TransOrd κ] (m : SortedMap κ υ) :
    m.keys.Nodup := by
  refine pairwise_map.mpr (m.sorted.imp fun {e e'} hlt heq => ?_)
  rw [heq] at hlt
  cases Std.ReflCmp.compare_self.symm.trans hlt

/-! ## The counts -/

@[simp] theorem pending_jobDone (c : Completion) :
    c.jobDone.pending = c.pending - 1 := by
  unfold Completion.jobDone Completion.releaseJob
  simp only
  split
  · exact pending_checkIntrospections _
  · rfl

/-- The counts of jobs, by how they ended. -/
structure Books where
  pending : UInt64
  completed : Nat
  failed : Nat
  aborted : Nat

namespace Books

def counted (b : Books) : Books := { b with pending := b.pending + 1 }

def released (b : Books) : Books := { b with pending := b.pending - 1 }

def ended (b : Books) : JobState → Books
  | .completeLocal | .completeRemote => { b with completed := b.completed + 1 }
  | .crashed => { b with failed := b.failed + 1 }
  | .aborted => { b with aborted := b.aborted + 1 }
  | _ => b

end Books

theorem eq_ok_of_toOption {ε α : Type} {x : Except ε α} {a : α} (h : x.toOption = some a) :
    x = .ok a := by
  cases x with
  | error => simp [Except.toOption] at h
  | ok => exact congrArg Except.ok (some.inj h)

namespace Scheduler

def books (s : Scheduler) : Books :=
  ⟨s.completion.pending, s.counters.completed, s.counters.failed, s.counters.aborted⟩

def tallies (s : Scheduler) : Completion × Books := (s.completion, s.books)

theorem tallies_mapCompletion (s : Scheduler) (f : Completion → Completion) :
    (s.mapCompletion f).tallies
      = (f s.completion, { s.books with pending := (f s.completion).pending }) := by
  unfold mapCompletion
  simp only
  split <;> rfl

/-! ## What is asked of a run from outside -/

section Asking

variable {s s' : Scheduler} {id : JobId} {job' job : Job} {more : List Task}

theorem core_recounted (s : Scheduler) (f : Completion → Completion) :
    (s.mapCompletion f).tasks = s.tasks ∧ (s.mapCompletion f).line = s.line
      ∧ (s.mapCompletion f).jobs = s.jobs := by
  obtain ⟨log, hcounts⟩ := s.mapCompletion_eq f
  rw [hcounts]
  exact ⟨rfl, rfl, rfl⟩

theorem moveJob_eq_ok {α : Type} {next : JobState} {f : Job → Job} {a : α}
    {k : Job × Scheduler → Except JobError α} (h : (s.moveJob id next f >>= k) = .ok a)
    (hnext : next ≠ .runningLocal) :
    ∃ job, s.jobs.get? id = some job ∧ job.state.canMoveTo next = true
      ∧ k (f { job with state := next },
        { s with jobs := s.jobs.insert id (f { job with state := next }) }) = .ok a := by
  obtain ⟨moved, h, hk⟩ := bind_eq_ok_iff.mp h
  unfold moveJob at h
  split at h
  · cases h
  · next job hjob =>
    obtain ⟨job₁, htransition, h⟩ := bind_eq_ok_iff.mp h
    cases h
    unfold Job.transition at htransition
    split at htransition
    · next hmove =>
      have hstarted : (job.started || next == .runningLocal) = job.started := by
        rw [beq_false_of_ne hnext, Bool.or_false]
      rw [hstarted] at htransition
      cases htransition
      exact ⟨job, hjob, hmove, hk⟩
    · cases htransition

/-- A job that is moved from outside: the tasks, with one more or not, the line, the permits, the
job, the state. -/
structure Moves (s : Scheduler) (id : JobId) (job : Job) (more : List Task) (job' : Job)
    (s' : Scheduler) : Prop where
  filed : s.jobs.get? id = some job
  tasks : s'.tasks = s.tasks ++ more
  line : s'.line = s.line
  permits : s'.permits = s.permits
  jobs : ∀ id', s'.jobs.get? id' = if id' = id then some job' else s.jobs.get? id'
  size : s'.jobs.size = s.jobs.size

theorem moves_of_insert (hjob : s.jobs.get? id = some job) (htasks : s'.tasks = s.tasks ++ more)
    (hline : s'.line = s.line) (hpermits : s'.permits = s.permits)
    (hjobs : s'.jobs = s.jobs.insert id job') : Moves s id job more job' s' where
  filed := hjob
  tasks := htasks
  line := hline
  permits := hpermits
  jobs := (jobs_insert hjob hjobs).1
  size := (jobs_insert hjob hjobs).2

theorem Moves.mapCompletion (h : Moves s id job more job' s') (f : Completion → Completion) :
    Moves s id job more job' (s'.mapCompletion f) := by
  obtain ⟨log, hcounts⟩ := s'.mapCompletion_eq f
  rw [hcounts]
  exact ⟨h.filed, h.tasks, h.line, h.permits, h.jobs, h.size⟩

theorem books_jobDone (s : Scheduler) :
    (s.mapCompletion Completion.jobDone).books = s.books.released := by
  refine (congrArg Prod.snd (tallies_mapCompletion _ _)).trans ?_
  rw [pending_jobDone]
  rfl

theorem handOff_eq_some {destination : String} {port : UInt16}
    (h : (s.handOff id destination port).toOption = some s') :
    ∃ job, job.state.waits = true ∧ s'.state = s.state ∧ s'.tallies = s.tallies
      ∧ Moves s id job [] { job with
          state := .remote, destination := some destination, port := some port } s' := by
  unfold handOff at h
  obtain ⟨job, hjob, hmove, hok⟩ := moveJob_eq_ok (eq_ok_of_toOption h) (by decide)
  have hwaits : job.state.waits = true := by
    revert hmove
    cases job.state <;> decide
  cases hok
  exact ⟨job, hwaits, rfl, rfl, moves_of_insert hjob (append_nil _).symm rfl rfl rfl⟩

theorem abort_eq_some (h : (s.abort id).toOption = some s') :
    ∃ job, job.state.isTerminal = false ∧ s'.state = s.state
      ∧ s'.books = (if job.fromRemote then s.books.ended .aborted
        else (s.books.ended .aborted).released)
      ∧ Moves s id job [] { job with state := .aborted } s' := by
  unfold abort at h
  obtain ⟨job, hjob, hmove, hok⟩ := moveJob_eq_ok (eq_ok_of_toOption h) (by decide)
  have hterminal : job.state.isTerminal = false := by
    revert hmove
    cases job.state <;> decide
  cases hok
  refine ⟨job, hterminal, ?_⟩
  simp only
  split
  · exact ⟨rfl, rfl, moves_of_insert hjob (append_nil _).symm rfl rfl rfl⟩
  · refine ⟨state_mapCompletion _ _, books_jobDone _, Moves.mapCompletion ?_ _⟩
    exact moves_of_insert hjob (append_nil _).symm rfl rfl rfl

theorem reschedule_eq_some (h : (s.reschedule id).toOption = some s') :
    ∃ job, job.state = .remote ∧ s'.state = s.state ∧ s'.tallies = s.tallies
      ∧ Moves s id job [{ errand := .unit id (job.attempts + 1) }]
        { job with state := .rescheduled, attempts := job.attempts + 1 } s' := by
  unfold reschedule at h
  obtain ⟨job, hjob, hmove, hok⟩ := moveJob_eq_ok (eq_ok_of_toOption h) (by decide)
  have hremote : job.state = .remote := by
    revert hmove
    cases job.state <;> decide
  cases hok
  exact ⟨job, hremote, rfl, rfl, moves_of_insert hjob rfl rfl rfl rfl⟩

/-- A remote worker's result is integrated, unless the file table has no room for it. -/
theorem completeRemote_eq_some {c : Contribution} {source : Source}
    (h : (s.completeRemote id c source).toOption = some s') :
    ∃ job, s.jobs.get? id = some job ∧ job.state = .remote
      ∧ ((∃ e, s.state.integrate c source = .error e ∧ s' = s)
        ∨ ∃ visited, s.state.integrate c source = .ok (visited, s'.state)
          ∧ s'.books = (s.books.ended .completeRemote).released
          ∧ Moves s id job [] { job with state := .completeRemote, visited } s') := by
  unfold completeRemote at h
  split at h
  · cases h
  · obtain ⟨job, hjob, hmove, hok⟩ := moveJob_eq_ok (eq_ok_of_toOption h) (by decide)
    have hremote : job.state = .remote := by
      revert hmove
      cases job.state <;> decide
    refine ⟨job, hjob, hremote, ?_⟩
    cases hintegrate : s.state.integrate c source with
    | error e =>
      rw [hintegrate] at hok
      exact .inl ⟨e, rfl, (Except.ok.inj hok).symm⟩
    | ok integrated =>
      obtain ⟨visited, state⟩ := integrated
      rw [hintegrate] at hok
      obtain ⟨log, hnoted⟩ := noteReplaced_eq
        { s with jobs := s.jobs.insert id { job with state := .completeRemote } } source
      simp only [hnoted] at hok
      cases hok
      refine .inr ⟨visited, by rw [state_mapCompletion]; rfl, books_jobDone _,
        Moves.mapCompletion ?_ _⟩
      refine ⟨hjob, (append_nil _).symm, rfl, rfl, fun id' => ?_, ?_⟩
      · simp only [countCompleted, updateJob, get?_modify, get?_insert, Std.compare_eq_iff_eq]
        split <;> rfl
      · simp only [countCompleted, updateJob, size_modify, size_insert,
          SortedMap.contains_iff.mpr ⟨_, hjob⟩, if_true]

theorem recordBlockedFile_eq_some {path : Path}
    (h : (s.recordBlockedFile id path).toOption = some s') :
    ∃ job blockedFiles, s'.state = s.state ∧ s'.tallies = s.tallies
      ∧ Moves s id job [] { job with blockedFiles } s' := by
  unfold recordBlockedFile at h
  split at h
  · cases h
  · next job hjob =>
    refine ⟨job, job.blockedFiles.insert path ((job.blockedFiles.get? path).getD 0 + 1), ?_, ?_,
      ?_⟩ <;> rw [← some.inj h]
    · rfl
    · rfl
    · refine ⟨hjob, (append_nil _).symm, rfl, rfl, fun id' => ?_, size_modify ..⟩
      show (s.jobs.modify id _).get? id' = _
      simp only [get?_modify, Std.compare_eq_iff_eq]
      split
      · next heq => rw [heq, hjob]; rfl
      · rfl

end Asking

end Scheduler

/-! ## The ledger -/

namespace Scheduler

def runs (s : Scheduler) (id : JobId) : Bool :=
  (s.jobs.get? id).any (fun j => j.state = .runningLocal)

/-- The jobs that are started by an action. -/
def begins (s s' : Scheduler) : List JobId :=
  s'.jobs.keys.filter (fun id => s'.runs id && !s.runs id)

def parsedBy (s : Scheduler) : Action → List JobId
  | .parse n => ((s.tasks[n]?).bind (fun t => t.errand.job?)).toList
  | _ => []

/-- What comes of a job in an action that has led to `s`: its front end came to an end, or was not
asked, or a remote worker has parsed it. -/
def yieldedBy (s : Scheduler) : Action → List (JobId × ParsedUnit)
  | .step n | .parse n =>
    match s.tasks[n]? with
    | some t =>
      match t.errand.job?, t.phase with
      | some id, .parsed _ (.ok unit) => [(id, unit)]
      | _, _ => []
    | none => []
  | .completeRemote id c source => [(id, { contribution := c, source })]
  | _ => []

def returnedBy : Action → List JobId
  | .reschedule id => [id]
  | _ => []

end Scheduler

/-- Which jobs were started, parsed, landed and taken back, and the most there were. -/
structure Ledger where
  started : List JobId := []
  parsed : List JobId := []
  yielded : List (JobId × ParsedUnit) := []
  landed : List Landing := []
  returned : List JobId := []
  peak : Nat := 0

namespace Ledger

/-- Write down what an action does. -/
def add (g : Ledger) (s : Scheduler) (a : Action) (s' : Scheduler) : Ledger where
  started := g.started ++ s.begins s'
  parsed := g.parsed ++ s.parsedBy a
  yielded := g.yielded ++ s'.yieldedBy a
  landed := g.landed ++ s.landedBy a
  returned := g.returned ++ Scheduler.returnedBy a
  peak := max g.peak s'.jobs.size

/-- How often a job has landed. -/
def landings (g : Ledger) (id : JobId) : Nat := g.landed.countP (fun l => l.job.id = id)

def tally (g : Ledger) (id : JobId) : Nat × Nat × Nat × Nat :=
  (g.started.count id, g.parsed.count id, g.landings id, g.returned.count id)

/-- What is known of a job. -/
def account (g : Ledger) (id : JobId) (job : Job) (turns : List Turn) : Account where
  state := job.state
  attempts := job.attempts
  begun := job.started
  guest := job.fromRemote
  turns := turns
  starts := g.started.count id
  parses := g.parsed.count id
  landings := g.landings id
  returns := g.returned.count id

end Ledger

/-- A run in which everything may happen in any order, with its ledger. -/
abbrev SteeredRun (setup : RunSetup) (s : Scheduler) : Ledger → Scheduler → Prop :=
  RecordedRun (Scheduler.act? setup) (fun _ _ _ => True) Ledger.add {} s

theorem SteeredRun.act {setup : RunSetup} {s s₁ s₂ : Scheduler} {g : Ledger}
    (h : SteeredRun setup s g s₁) (a : Action) (hact : s₁.act? setup a = some s₂) :
    SteeredRun setup s (g.add s₁ a s₂) s₂ :=
  RecordedRun.act a h hact trivial

/-! ## What an action adds to the ledger -/

namespace Scheduler

variable {s s' : Scheduler}

theorem count_begins (s s' : Scheduler) (id : JobId) :
    (s.begins s').count id = (s'.runs id && !s.runs id).toNat := by
  have hnodup : (s.begins s').Nodup := (nodup_keys s'.jobs).filter _
  rw [hnodup.count]
  cases hbegins : s'.runs id && !s.runs id with
  | false =>
    refine if_neg fun hmem => ?_
    have hfilter := (mem_filter.mp hmem).2
    cases hbegins.symm.trans hfilter
  | true =>
    have hruns : s'.runs id = true := (Bool.and_eq_true_iff.mp hbegins).1
    obtain ⟨job, hjob, -⟩ := (any_eq_true _ _).mp hruns
    have hmem := mem_keys_iff.mpr ⟨job, mem_toList_iff.mpr hjob⟩
    exact if_pos (mem_filter.mpr ⟨hmem, hbegins⟩)

theorem begins_eq_nil (h : ∀ id, s'.runs id = true → s.runs id = true) : s.begins s' = [] := by
  refine filter_eq_nil_iff.mpr fun id _ hbegins => ?_
  rw [Bool.and_eq_true, Bool.not_eq_true'] at hbegins
  rw [h id hbegins.1] at hbegins
  cases hbegins.2

theorem runs_of_jobs (h : s'.jobs = s.jobs) (id : JobId) : s'.runs id = s.runs id := by
  unfold runs
  rw [h]

end Scheduler

namespace Ledger

theorem tally_add_of_nil {g : Ledger} {s s' : Scheduler} {a : Action}
    (hruns : ∀ id, s'.runs id = true → s.runs id = true) (hparsed : s.parsedBy a = [])
    (hlanded : s.landedBy a = []) (hreturned : Scheduler.returnedBy a = []) (id : JobId) :
    (g.add s a s').tally id = g.tally id := by
  unfold add tally landings
  simp only [begins_eq_nil hruns, hparsed, hlanded, hreturned, append_nil]

end Ledger

/-! ## What actions land -/

namespace Scheduler

/-- **What an action does to the index and to the headers that are ready.** -/
theorem landsAll_act {setup : RunSetup} {s s' : Scheduler} {a : Action}
    (h : s.act? setup a = some s') : LandsAll (s.landedBy a) s.state s'.state := by
  cases a with
  | submit i =>
    cases h
    exact .none (s.kept_submit setup i)
  | request =>
    cases h
    exact .none (.refl _)
  | serve =>
    cases h
    exact .none (.refl _)
  | step =>
    obtain ⟨⟨s₁, woken⟩, hstep, rfl⟩ := map_eq_some_iff.mp h
    exact landsAll_step hstep
  | parse => exact .none (.of_eq (state_endParse h))
  | handOff =>
    obtain ⟨job, -, hstate, -, -⟩ := handOff_eq_some h
    exact .none (.of_eq hstate)
  | completeRemote =>
    obtain ⟨job, hjob, -, ⟨e, hintegrate, rfl⟩ | ⟨visited, hintegrate, -⟩⟩ :=
      completeRemote_eq_some h
    · unfold landedBy
      simp only [hjob, hintegrate]
      exact .none (.refl _)
    · unfold landedBy
      simp only [hjob, hintegrate]
      refine .one ⟨⟨visited, s'.state, hintegrate, rfl⟩, fun key o ho => ?_, fun _ key hk => ?_⟩
      · rw [if_neg (by simp [Landing.key?])]
        rwa [IndexState.pch_integrate hintegrate] at ho
      · rwa [IndexState.pch_integrate hintegrate] at hk
  | reschedule =>
    obtain ⟨job, -, hstate, -⟩ := reschedule_eq_some h
    exact .none (.of_eq hstate)
  | abort =>
    obtain ⟨job, -, hstate, -⟩ := abort_eq_some h
    exact .none (.of_eq hstate)
  | block =>
    obtain ⟨job, blockedFiles, hstate, -⟩ := recordBlockedFile_eq_some h
    exact .none (.of_eq hstate)
  | recount f =>
    cases h
    exact .none (.of_eq (s.state_mapCompletion f))
  | meanwhile =>
    cases h
    exact .none (.refl _)

end Scheduler

namespace SteeredRun

variable {setup : RunSetup} {s s' : Scheduler} {g : Ledger}

/-- **The landings of a run are integrated one after the other, and nothing else is.** -/
theorem integrated (h : SteeredRun setup s g s') :
    ∃ r, s.state.integrateAll (g.landed.map Landing.unit) = .ok r ∧ s'.state.index = r.index := by
  induction h with
  | start => exact ⟨s.state, rfl, rfl⟩
  | @act g s₁ s₂ a _ hact _ ih =>
    have hlands := (landsAll_act hact).integrated ih
    rwa [← map_append] at hlands

/-- **A key that is ready was landed last by a header of its own, or was ready before.** -/
theorem ready (h : SteeredRun setup s g s') (key : String) (o : Path)
    (ho : s'.state.pch.origin? key = some o) :
    match Trace.lastLanding? g.landed key with
    | some l => o = l.job.invocation.input
    | none => s.state.pch.origin? key = some o := by
  induction h with
  | start => exact ho
  | act a _ hact _ ih => exact Trace.ready_append (landsAll_act hact) ih ho

end SteeredRun

/-! ## Sound accounts -/

/-- Nothing was ever done about a job. -/
structure Ledger.Blank (g : Ledger) (s : Scheduler) (id : JobId) : Prop where
  turns : s.turnsOf id = []
  tally : g.tally id = (0, 0, 0, 0)

/-- Every job has a sound account, and no task is for an unknown one. -/
structure Orderly (g : Ledger) (s : Scheduler) : Prop where
  known : ∀ id job, s.jobs.get? id = some job →
    job.id = id ∧ ∃ n, n < s.jobs.size ∧ id = jobOf n
  sound : ∀ id job, s.jobs.get? id = some job → (g.account id job (s.turnsOf id)).Sound
  blank : ∀ id, s.jobs.get? id = none → g.Blank s id
  line : s.Asleep

namespace Scheduler

/-- Every task for a job has one, which runs while the task is busy with it, unless it was
aborted. -/
def Staffed (s : Scheduler) : Prop :=
  ∀ {n : Nat} {t : Task} {id : JobId}, s.tasks[n]? = some t → t.errand.job? = some id →
    ∃ job, s.jobs.get? id = some job ∧ job.id = id
      ∧ (t.phase.progress.isBusy = true → job.state = .runningLocal ∨ job.state = .aborted)

end Scheduler

theorem Orderly.staffed {g : Ledger} {s : Scheduler} (h : Orderly g s) : s.Staffed := by
  intro n t id ht hid
  have hmem := mem_turnsOf ht hid
  cases hjob : s.jobs.get? id with
  | some job =>
    exact ⟨job, rfl, (h.known id job hjob).1, (h.sound id job hjob).held t.turn hmem⟩
  | none =>
    rw [(h.blank id hjob).turns] at hmem
    cases hmem

end SymbolIndex
