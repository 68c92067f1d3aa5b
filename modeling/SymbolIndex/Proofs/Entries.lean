import SymbolIndex.Proofs.OnceOnly

/-!
# What an action does to the counts of a run

A run keeps four counts: the jobs that have not ended, and those that were completed, failed and
aborted. They are changed by the task that ends a job, by the one who completes or aborts it from
outside, and, for the first count, once more when a task retires.

An `Entry` is what one action does to the jobs and to the counts. `Scheduler.entry_act` says that
every action makes one.
-/

namespace SymbolIndex

open JobState List Option SortedMap

variable {κ υ : Type}

/-! ## Numbers of jobs and of tasks -/

theorem SortedMap.countP_insert [Ord κ] [Std.TransOrd κ] (m : SortedMap κ υ) (p : υ → Bool) (k : κ)
    (v : υ) :
    (m.insert k v).values.countP p + ((m.get? k).any p).toNat = m.values.countP p + (p v).toNat :=
  countP_insertEntry p k v m.sorted

/-- Whether a job is not, and was not, with another process. -/
def JobState.isHome : JobState → Bool
  | .remote | .rescheduled | .completeRemote => false
  | _ => true

theorem JobState.isHome_of_ended {state : JobState}
    (h : state = .completeLocal ∨ state = .crashed) : state.isHome = true := by
  rcases h with rfl | rfl <;> rfl

def Task.Alike (t t' : Task) : Prop :=
  t'.retires = t.retires ∧ t'.hasDelivered = t.hasDelivered

theorem Task.alike {t t' : Task} (h : t.phase.isDone = false) (h' : t'.phase.isDone = false) :
    t.Alike t' :=
  ⟨(plain h').1.trans (plain h).1.symm, (plain h').2.trans (plain h).2.symm⟩

/-- The count of the jobs that have not ended is left to those who make and end jobs. -/
def Action.KeepsCount : Action → Prop
  | .recount f => ∀ c, (f c).pending = c.pending
  | _ => True

def Action.serves : Action → Bool
  | .serve _ => true
  | _ => false

namespace Scheduler

/-- How many jobs are so. -/
def jobsThat (s : Scheduler) (p : Job → Bool) : Nat := s.jobs.values.countP p

/-- How many tasks are about to take their jobs off the count. -/
def retiring (s : Scheduler) : Nat := s.tasks.countP Task.retires

/-- How many tasks have told another process what came of their units. -/
def delivered (s : Scheduler) : Nat := s.tasks.countP Task.hasDelivered

/-- How many tasks are to take a job off the count, and how many have answered. -/
def marks (s : Scheduler) : Nat × Nat := (s.retiring, s.delivered)

/-- One job is replaced; where it was from and sent to stays known. -/
structure Refiles (s : Scheduler) (id : JobId) (job job' : Job) (s' : Scheduler) : Prop where
  filed : s.jobs.get? id = some job
  jobs : s'.jobs = s.jobs.insert id job'
  guest : job'.fromRemote = job.fromRemote
  sent : job'.destination = none →
    job.destination = none ∧ (job.state.isHome = true → job'.state.isHome = true)

/-- What an action does to the jobs and to the counts, with the jobs it lands. `guest` says whether
the job that it makes is for another process. -/
inductive Entry (s : Scheduler) (guest : Bool) : List Job → Scheduler → Prop where
  | quiet {s' : Scheduler} : s'.jobs = s.jobs → s'.books = s.books → s'.marks = s.marks →
      Entry s guest [] s'
  | opened {s' : Scheduler} {id : JobId} {job : Job} : s.jobs.get? id = none →
      s'.jobs = s.jobs.insert id job → job.state = .queued → job.fromRemote = guest →
      s'.books = (if guest then s.books else s.books.counted) → s'.marks = s.marks →
      Entry s guest [] s'
  | moved {s' : Scheduler} {id : JobId} {job job' : Job} : s.Refiles id job job' s' →
      job'.state.isTerminal = job.state.isTerminal →
      (job.state.isTerminal = true → job'.state = job.state) →
      s'.books = s.books → s'.marks = s.marks → Entry s guest [] s'
  | settled {s' : Scheduler} {id : JobId} {job job' : Job} {t : Task} : t ∈ s.tasks →
      t.errand.job? = some id → t.errand.answers = false → s.Refiles id job job' s' →
      job.state = .runningLocal → (job'.state = .completeLocal ∨ job'.state = .crashed) →
      s'.books = s.books.ended job'.state → s'.marks = (s.retiring + 1, s.delivered) →
      Entry s guest (if job'.state = .completeLocal then [job] else []) s'
  | delivered {s' : Scheduler} {id : JobId} {job job' : Job} : s.Refiles id job job' s' →
      job.fromRemote = true → job.state = .runningLocal →
      (job'.state = .completeLocal ∨ job'.state = .crashed) →
      s'.books = s.books → s'.marks = (s.retiring, s.delivered + 1) → Entry s guest [] s'
  | retired {s' : Scheduler} : s'.jobs = s.jobs → s'.books = s.books.released →
      s.marks = (s'.retiring + 1, s'.delivered) → Entry s guest [] s'
  | returned {s' : Scheduler} {id : JobId} {job job' : Job} : s.Refiles id job job' s' →
      job.state = .remote → job'.state = .completeRemote →
      s'.books = (s.books.ended .completeRemote).released → s'.marks = s.marks →
      Entry s guest [job] s'
  | aborted {s' : Scheduler} {id : JobId} {job job' : Job} : s.Refiles id job job' s' →
      job.state.isTerminal = false → job'.state = .aborted →
      s'.books = (if job.fromRemote then s.books.ended .aborted
        else (s.books.ended .aborted).released) →
      s'.marks = s.marks → Entry s guest [] s'

section Counting

variable {s s' : Scheduler} {n k l : Nat} {t t' : Task} {id : JobId} {job job' : Job} {guest : Bool}
  {landed : List Job}

theorem Refiles.jobsThat (h : s.Refiles id job job' s') (p : Job → Bool) :
    s'.jobsThat p + (p job).toNat = s.jobsThat p + (p job').toNat := by
  have hcount := s.jobs.countP_insert p id job'
  rw [h.filed, any_some] at hcount
  unfold Scheduler.jobsThat
  rw [h.jobs]
  exact hcount

theorem Refiles.jobsThat_eq (h : s.Refiles id job job' s') {p : Job → Bool}
    (hsame : p job' = p job) : s'.jobsThat p = s.jobsThat p := by
  have hcount := h.jobsThat p
  rw [hsame] at hcount
  exact Nat.add_right_cancel hcount

theorem Refiles.size (h : s.Refiles id job job' s') : s'.jobs.size = s.jobs.size := by
  rw [h.jobs, size_insert, if_pos (by simp [SortedMap.contains, h.filed])]

theorem jobsThat_opened (hnew : s.jobs.get? id = none) (hjobs : s'.jobs = s.jobs.insert id job)
    (p : Job → Bool) : s'.jobsThat p = s.jobsThat p + (p job).toNat := by
  have hcount := s.jobs.countP_insert p id job
  rw [hnew, any_none] at hcount
  unfold jobsThat
  rw [hjobs]
  exact hcount

theorem jobsThat_congr (hjobs : s'.jobs = s.jobs) (p : Job → Bool) :
    s'.jobsThat p = s.jobsThat p := by
  unfold jobsThat
  rw [hjobs]

theorem marks_set (ht : s.tasks[n]? = some t) (htasks : s'.tasks = s.tasks.set n t') :
    s'.retiring + t.retires.toNat = s.retiring + t'.retires.toNat
      ∧ s'.delivered + t.hasDelivered.toNat = s.delivered + t'.hasDelivered.toNat :=
  ⟨countP_tasks ht htasks Task.retires, countP_tasks ht htasks Task.hasDelivered⟩

theorem marks_eq_of (hretiring : s'.retiring = k) (hdelivered : s'.delivered = l) :
    s'.marks = (k, l) := by
  unfold marks
  rw [hretiring, hdelivered]

theorem marks_of_alike (ht : s.tasks[n]? = some t) (htasks : s'.tasks = s.tasks.set n t')
    (halike : t.Alike t') : s'.marks = s.marks := by
  obtain ⟨hretiring, hdelivered⟩ := marks_set ht htasks
  rw [halike.1] at hretiring
  rw [halike.2] at hdelivered
  exact marks_eq_of (Nat.add_right_cancel hretiring) (Nat.add_right_cancel hdelivered)

theorem marks_append {more : List Task} (htasks : s'.tasks = s.tasks ++ more)
    (hfresh : ∀ t ∈ more, t.phase = .fresh) : s'.marks = s.marks := by
  have hplain : ∀ t ∈ more, t.retires = false ∧ t.hasDelivered = false :=
    fun t ht => Task.plain (by rw [hfresh t ht]; rfl)
  have hretires : more.countP Task.retires = 0 :=
    countP_eq_zero.mpr fun t ht => by simp [(hplain t ht).1]
  have hdelivered : more.countP Task.hasDelivered = 0 :=
    countP_eq_zero.mpr fun t ht => by simp [(hplain t ht).2]
  unfold marks retiring delivered
  rw [htasks, countP_append, countP_append, hretires, hdelivered]
  rfl

theorem marks_congr (htasks : s'.tasks = s.tasks) : s'.marks = s.marks := by
  unfold marks retiring delivered
  rw [htasks]

variable (h : s.Entry guest landed s')

include h

/-- The jobs stay, or one is made, or one is filed anew. -/
theorem Entry.jobs_cases : s'.jobs = s.jobs
    ∨ (∃ k j, s.jobs.get? k = none ∧ s'.jobs = s.jobs.insert k j ∧ j.state = .queued
      ∧ j.fromRemote = guest ∧ s'.books = if guest then s.books else s.books.counted)
    ∨ ∃ k j j', s.Refiles k j j' s' := by
  cases h with
  | quiet hjobs | retired hjobs => exact .inl hjobs
  | opened hnew hjobs hstate hguest hbooks =>
    exact .inr (.inl ⟨_, _, hnew, hjobs, hstate, hguest, hbooks⟩)
  | moved hfiled | settled _ _ _ hfiled | delivered hfiled | returned hfiled | aborted hfiled =>
    exact .inr (.inr ⟨_, _, _, hfiled⟩)

theorem Entry.origin (hget : s'.jobs.get? id = some job') :
    s.jobs.get? id = some job'
      ∨ (s.jobs.get? id = none ∧ job'.state = .queued ∧ job'.fromRemote = guest)
      ∨ ∃ job, s.Refiles id job job' s' := by
  rcases h.jobs_cases with hjobs | ⟨k, j, hnew, hjobs, hstate, hguest, -⟩ | ⟨k, j, j', hfiled⟩
  · exact .inl (hjobs ▸ hget)
  · rw [hjobs, get?_insert] at hget
    split at hget
    · next hk =>
      cases hget
      exact .inr (.inl ⟨Std.LawfulEqOrd.eq_of_compare hk ▸ hnew, hstate, hguest⟩)
    · exact .inl hget
  · have hget' := hget
    rw [hfiled.jobs, get?_insert] at hget'
    split at hget'
    · next hk =>
      cases hget'
      exact .inr (.inr ⟨j, Std.LawfulEqOrd.eq_of_compare hk ▸ hfiled⟩)
    · exact .inl hget'

theorem Entry.remains (hget : s.jobs.get? id = some job) :
    s'.jobs.get? id = some job ∨ ∃ job', s.Refiles id job job' s' := by
  rcases h.jobs_cases with hjobs | ⟨k, j, hnew, hjobs, -⟩ | ⟨k, j, j', hfiled⟩
  · exact .inl (hjobs ▸ hget)
  · rw [hjobs, get?_insert]
    split
    · next hk => cases hget.symm.trans (Std.LawfulEqOrd.eq_of_compare hk ▸ hnew)
    · exact .inl hget
  · by_cases hk : id = k
    · subst hk
      obtain rfl : job = j := some.inj (hget.symm.trans hfiled.filed)
      exact .inr ⟨j', hfiled⟩
    · left
      rw [hfiled.jobs, get?_insert,
        if_neg (fun heq => hk (Std.LawfulEqOrd.eq_of_compare heq)), hget]

end Counting

/-! ## Moves of tasks -/

section Moving

variable {s s' : Scheduler} {n : Nat} {t t' : Task} {setup : RunSetup} {g : Ledger} {i : Invocation}

theorem pending_recount (h : t.retires = false) (c : Completion) :
    (t.phase.recount c).pending = c.pending := by
  cases hphase : t.phase with
  | retiring => simp [Task.retires, hphase] at h
  | checking => exact Completion.pending_checkIntrospections c
  | _ => rfl

section

variable (h : Recounts s t t' s') (ht : s.tasks[n]? = some t) (htasks : s'.tasks = s.tasks.set n t')

include h ht htasks

theorem Recounts.still (hretires : t.retires = false) :
    s'.books = s.books ∧ s'.marks = s.marks := by
  refine ⟨?_, marks_of_alike ht htasks ⟨h.retires.trans hretires.symm, h.told⟩⟩
  refine (congrArg Prod.snd h.tallies).trans ?_
  rw [pending_recount hretires]
  rfl

theorem Recounts.entry (hjobs : s'.jobs = s.jobs) : s.Entry false [] s' := by
  cases hretires : t.retires with
  | false =>
    obtain ⟨hbooks, hmarks⟩ := h.still ht htasks hretires
    exact .quiet hjobs hbooks hmarks
  | true =>
    have hphase : t.phase = .retiring := by
      unfold Task.retires at hretires
      split at hretires
      · assumption
      · cases hretires
    obtain ⟨hretiring, hdelivered⟩ := marks_set ht htasks
    rw [hretires, h.retires] at hretiring
    rw [h.told] at hdelivered
    refine .retired hjobs ?_ (marks_eq_of hretiring.symm (Nat.add_right_cancel hdelivered).symm)
    refine (congrArg Prod.snd h.tallies).trans ?_
    rw [hphase]
    rfl

end

theorem Settles.entry {id : JobId} {job job' : Job} {outcome : Except FrontendError ParsedUnit}
    {tallies : Completion × Books} (h : Settles s n t job job' t' tallies) (horderly : Orderly g s)
    (ht : s.tasks[n]? = some t) (hphase : t.phase = .closing i outcome)
    (hid : t.errand.job? = some id) (hjob : s.jobs.get? id = some job)
    (htasks : s'.tasks = s.tasks.set n t') (herrand : t'.errand = t.errand)
    (hjobs : s'.jobs = s.jobs.insert id job') (htallies : s'.tallies = tallies) :
    s.Entry false ((s.landingOf n).map Landing.job) s' := by
  have hplain : t.retires = false ∧ t.hasDelivered = false := Task.plain (by rw [hphase]; rfl)
  obtain ⟨hretiring, hdelivered⟩ := marks_set ht htasks
  rw [hplain.1] at hretiring
  rw [hplain.2] at hdelivered
  have hbooks := congrArg Prod.snd htallies
  cases h with
  | kept hfinished htold hopen =>
    have hretires : t'.retires = false := by simp [Task.retires, hfinished]
    rw [hopen]
    refine .quiet (hjobs.trans ?_) hbooks
      (marks_of_alike ht htasks ⟨hretires.trans hplain.1.symm, htold.trans hplain.2.symm⟩)
    exact insert_of_get? hjob
  | told _ hanswers hrunning hnext hfinished htold hopen =>
    rw [show t'.retires = false by simp [Task.retires, hfinished]] at hretiring
    rw [htold] at hdelivered
    rw [hopen]
    exact .delivered
      ⟨hjob, hjobs, rfl, fun hnone => ⟨hnone, fun _ => isHome_of_ended hnext⟩⟩
      ((horderly.sound id job hjob).answers t.turn (mem_turnsOf ht hid) hanswers) hrunning hnext
      hbooks (marks_eq_of hretiring hdelivered)
  | settled _ hanswers hrunning hnext hretires hlanded _ =>
    rw [show t'.retires = true by simp [Task.retires, hretires]] at hretiring
    rw [Task.hasDelivered_eq_false (herrand ▸ hanswers)] at hdelivered
    rw [hlanded]
    exact .settled (mem_of_getElem? ht) hid hanswers
      ⟨hjob, hjobs, rfl, fun hnone => ⟨hnone, fun _ => isHome_of_ended hnext⟩⟩ hrunning
      hnext hbooks (marks_eq_of hretiring hdelivered)

theorem books_releasePermit (s : Scheduler) : s.releasePermit.1.books = s.books := by
  obtain ⟨tasks, line, permits, hfreed⟩ := s.releasePermit_eq
  rw [hfreed]
  rfl

theorem marks_releasePermit (h : Asleep s) : s.releasePermit.1.marks = s.marks := by
  rcases h.wakes with hsame | ⟨m, t, ht, hphase, hwoken⟩
  · exact marks_congr hsame
  · exact marks_of_alike ht hwoken (Task.alike (by rw [hphase]; rfl) rfl)

theorem entry_opened (guest : Bool) (h : Orderly g s) (hroom : s'.jobs.size < UInt64.size)
    {kind : JobKind} (hjobs : s'.jobs
      = s.jobs.insert (jobOf s.jobs.size) (Job.make (jobOf s.jobs.size) kind i guest))
    (hbooks : s'.books = if guest then s.books else s.books.counted) (hmarks : s'.marks = s.marks) :
    s.Entry guest [] s' := by
  have hsize : s.jobs.size ≤ s'.jobs.size := by
    rw [hjobs, size_insert]
    split <;> omega
  exact .opened (h.get?_next (by omega)) hjobs rfl rfl hbooks hmarks

/-- **Every step of a task, and the end of its front end.** -/
theorem Transition.entry (h : Transition setup s (some n) s') (horderly : Orderly g s)
    (hroom : s'.jobs.size < UInt64.size) :
    s.Entry false ((s.landingOf n).map Landing.job) s' := by
  cases h with
  | shifts ht _ haside _ _ _ hfloor hrecounts =>
    rw [landingOf_eq_nil ht fun i outcome hphase => by
      rw [hphase] at haside; exact absurd haside Bool.false_ne_true]
    exact hrecounts.entry ht (floor_tasks hfloor) (floor_jobs hfloor)
  | learns ht hphase _ hfloor hrecounts =>
    rw [landingOf_eq_nil ht (by simp [hphase])]
    exact hrecounts.entry ht (floor_tasks hfloor) (floor_jobs hfloor)
  | builds ht hphase _ _ _ hfloor htallies =>
    rw [landingOf_eq_nil ht (by simp [hphase])]
    exact entry_opened false horderly hroom (floor_jobs hfloor) (congrArg Prod.snd htallies)
      (marks_of_alike ht (floor_tasks hfloor) (Task.alike (by rw [hphase]; rfl) rfl))
  | asks ht hphase =>
    rw [landingOf_eq_nil ht (by simp [hphase])]
    obtain ⟨phase, hnext, htasks, hjobs, htallies⟩ := askPermit_cases ht
    refine .quiet hjobs (congrArg Prod.snd htallies)
      (marks_of_alike ht htasks (Task.alike (by rw [hphase]; rfl) ?_))
    rcases hnext with rfl | rfl <;> rfl
  | @starts _ _ t id job phase table ht hphase hid hjob _ hwaits _ _ _ hfloor hrecounts =>
    rw [landingOf_eq_nil ht (by simp [hphase])]
    have hopen := isTerminal_of_waits hwaits
    obtain ⟨hbooks, hmarks⟩ :=
      hrecounts.still ht (floor_tasks hfloor) (Task.plain (by rw [hphase]; rfl)).1
    exact .moved ⟨hjob, floor_jobs hfloor, rfl, fun hnone => ⟨hnone, fun _ => rfl⟩⟩ (hopen ▸ rfl)
      (fun hended => absurd (hopen.symm.trans hended) (by decide)) hbooks hmarks
  | declines ht hphase _ hfloor hrecounts =>
    have htasks := floor_tasks hfloor
    rw [landingOf_eq_nil ht (by simp [hphase])]
    obtain ⟨hbooks, hmarks⟩ := hrecounts.still ht htasks (Task.plain (by rw [hphase]; rfl)).1
    refine .quiet ((jobs_releasePermit _).trans (floor_jobs hfloor))
      ((books_releasePermit _).trans hbooks) (Eq.trans (marks_releasePermit ?_) hmarks)
    exact asleep_declines horderly.line ht hphase htasks (floor_line hfloor)
  | parses ht hphase hfloor htallies =>
    rw [landingOf_eq_nil ht (by simp [hphase])]
    exact .quiet (floor_jobs hfloor) (congrArg Prod.snd htallies)
      (marks_of_alike ht (floor_tasks hfloor) (Task.alike (by rw [hphase]; rfl) rfl))
  | frees ht hphase =>
    rw [landingOf_eq_nil ht (by simp [hphase])]
    have ht' := (getElem?_releasePermit (horderly.line.not_mem ht (by simp [hphase]))).trans ht
    refine .quiet (jobs_releasePermit s) (books_releasePermit s) ?_
    rw [← marks_releasePermit horderly.line]
    exact marks_of_alike ht' (tasks_frees horderly.line ht hphase)
      (Task.alike (by rw [hphase]; rfl) rfl)
  | closes ht hphase hid hjob _ _ _ hget hfloor hsettles htallies =>
    exact hsettles.entry horderly ht hphase hid hjob (floor_tasks hfloor) rfl
      ((floor_jobs hfloor).trans (eq_insert_of_get? hget)) htallies
  | @leaves _ _ t i outcome answer ht hphase hid hfloor htallies =>
    have hopen : s.landingOf n = [] ∧ t.errand.answers = false := by
      rw [landingOf_closing ht hphase]
      cases herrand : t.errand <;> simp_all [Errand.job?, Errand.answers]
    have hplain : t.retires = false ∧ t.hasDelivered = false := Task.plain (by rw [hphase]; rfl)
    rw [hopen.1]
    refine .quiet (floor_jobs hfloor) (congrArg Prod.snd htallies) (marks_of_alike ht
      (floor_tasks hfloor) ⟨hplain.1.symm, (Task.hasDelivered_eq_false ?_).trans hplain.2.symm⟩)
    exact hopen.2

end Moving

/-! ## What is asked of a run from outside -/

section Asking

variable {s s' : Scheduler} {setup : RunSetup} {id : JobId} {job job' : Job} {more : List Task}

theorem Moves.refiles (h : s.Moves id job more job' s') (hguest : job'.fromRemote = job.fromRemote)
    (hsent : job'.destination = none →
      job.destination = none ∧ (job.state.isHome = true → job'.state.isHome = true)) :
    s.Refiles id job job' s' where
  filed := h.filed
  jobs := eq_insert_of_get? h.jobs
  guest := hguest
  sent := hsent

theorem Moves.marks (h : s.Moves id job more job' s') (hfresh : ∀ t ∈ more, t.phase = .fresh) :
    s'.marks = s.marks :=
  marks_append h.tasks hfresh

end Asking

/-- **Every action makes one entry**, as long as nobody changes the count from outside. -/
theorem entry_act {g : Ledger} {s s' : Scheduler} {setup : RunSetup} {a : Action}
    (h : Orderly g s) (hact : s.act? setup a = some s') (hkeeps : a.KeepsCount)
    (hroom : s'.jobs.size < UInt64.size) :
    s.Entry a.serves ((s.landedBy a).map Landing.job) s' := by
  cases a with
  | submit i =>
    cases hact
    rcases s.submit_opens setup i with ⟨-, hfloor, htallies⟩ | ⟨-, htallies, errand, hown, hopens⟩
    · exact .quiet (floor_jobs hfloor) (congrArg Prod.snd htallies)
        (marks_congr (floor_tasks hfloor))
    · obtain ⟨kind, hjobs⟩ := hopens.jobs
      rw [hown] at hjobs
      exact entry_opened false h hroom hjobs (congrArg Prod.snd htallies)
        (marks_append hopens.tasks (by simp))
  | request i =>
    cases hact
    have htasks : (s.requestHeader i).tasks = s.tasks ++ [{ errand := .request i }] := rfl
    exact .quiet rfl rfl (marks_append htasks (by simp))
  | serve i =>
    cases hact
    have hopens := s.submitFromRemote_opens setup i
    obtain ⟨kind, hjobs⟩ := hopens.jobs
    exact entry_opened true h hroom hjobs rfl (marks_append hopens.tasks (by simp))
  | step =>
    obtain ⟨⟨s₁, woken⟩, hstep, rfl⟩ := map_eq_some_iff.mp hact
    exact (transition_step h.staffed hstep).entry h hroom
  | parse =>
    obtain ⟨t, request, indexer, ht, hphase, -⟩ := endParse?_eq_some hact
    have hentry := (transition_endParse hact).entry h hroom
    rwa [landingOf_eq_nil ht (by simp [hphase])] at hentry
  | handOff =>
    obtain ⟨job, hwaits, -, htallies, hmoves⟩ := handOff_eq_some hact
    have hopen := isTerminal_of_waits hwaits
    exact .moved (hmoves.refiles rfl (fun hnone => absurd hnone (by simp))) (hopen ▸ rfl)
      (fun hended => absurd (hopen.symm.trans hended) (by decide)) (congrArg Prod.snd htallies)
      (hmoves.marks (by simp))
  | completeRemote =>
    obtain ⟨job, hjob, hremote, ⟨e, hintegrate, rfl⟩ | ⟨visited, hintegrate, hbooks, hmoves⟩⟩ :=
      completeRemote_eq_some hact
    · unfold landedBy
      simp only [hjob, hintegrate]
      exact .quiet rfl rfl rfl
    · unfold landedBy
      simp only [hjob, hintegrate]
      have hleft : job.state.isHome = false := by rw [hremote]; rfl
      exact .returned (hmoves.refiles rfl (fun hnone => ⟨hnone, by simp [hleft]⟩)) hremote rfl
        hbooks (hmoves.marks (by simp))
  | reschedule =>
    obtain ⟨job, hremote, -, htallies, hmoves⟩ := reschedule_eq_some hact
    have hopen : job.state.isTerminal = false := by rw [hremote]; rfl
    have hleft : job.state.isHome = false := by rw [hremote]; rfl
    exact .moved (hmoves.refiles rfl (fun hnone => ⟨hnone, by simp [hleft]⟩)) (hopen ▸ rfl)
      (fun hended => absurd (hopen.symm.trans hended) (by decide)) (congrArg Prod.snd htallies)
      (hmoves.marks (by simp))
  | abort =>
    obtain ⟨job, hopen, -, hbooks, hmoves⟩ := abort_eq_some hact
    exact .aborted (hmoves.refiles rfl (fun hnone => ⟨hnone, fun _ => rfl⟩)) hopen rfl
      hbooks (hmoves.marks (by simp))
  | block =>
    obtain ⟨job, blockedFiles, -, htallies, hmoves⟩ := recordBlockedFile_eq_some hact
    exact .moved (hmoves.refiles rfl (fun hnone => ⟨hnone, fun hhome => hhome⟩)) rfl (fun _ => rfl)
      (congrArg Prod.snd htallies) (hmoves.marks (by simp))
  | recount f =>
    cases hact
    obtain ⟨htasks, -, hjobs⟩ := core_recounted s f
    refine .quiet hjobs ((congrArg Prod.snd (tallies_mapCompletion s f)).trans ?_)
      (marks_congr htasks)
    rw [hkeeps s.completion]
    rfl
  | meanwhile =>
    cases hact
    exact .quiet rfl rfl rfl

end Scheduler

end SymbolIndex
