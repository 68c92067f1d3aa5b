import SymbolIndex.Proofs.Consumption
import SymbolIndex.Proofs.ReservationOwners

/-!
# A unit sees the headers that were submitted before it

A unit looks at the keys it includes one after the other. Where a key is being built it takes the
ticket and sleeps until that reservation is settled; only then it asks for a permit, and it reads
the table again when its parse begins. `Commission` follows the job of one header from its
submission on: its key stays ready once the job has completed here. `Heeds` follows a task of a unit
that was submitted later: past the key of the header, the reservation is settled. What is settled
has completed by then or never will (`Commission.completed_before`), so the parse finds the header
ready.
-/

namespace SymbolIndex

open List Option PchTable Scheduler
open SortedMap hiding keys

/-- The header that a job makes of a unit. -/
def Job.header (job : Job) (unit : ParsedUnit) : PchEntry :=
  { artifactPath := unit.artifact.getD ⟨""⟩, originHeader := job.invocation.input }

namespace Scheduler

/-! ## One job -/

/-- A task ends a job with a unit and settles its reservation. -/
structure Completes (s s' : Scheduler) (id : JobId) (job : Job) (n : Nat) (t : Task)
    (unit : ParsedUnit) : Prop where
  task : s.tasks[n]? = some t
  errand : t.errand.job? = some id
  phase : ∃ i, t.phase = .closing i (.ok unit)
  table : s'.state.pch = s.state.pch.concluded t.errand.reservation?
    (.completed (job.header unit) unit.contribution.fromUnsaved)
  answer : t.errand.reservation? ≠ none → ∃ t', s'.tasks[n]? = some t' ∧ t'.errand = t.errand
    ∧ t'.phase.isDone = true ∧ t'.answer = some (.entry (job.header unit))

/-- What an action makes of one job. -/
inductive JobTurns (s s' : Scheduler) (id : JobId) (job : Job) : Job → Prop where
  | kept : JobTurns s s' id job job
  | started : JobTurns s s' id job { job with state := .runningLocal, started := true }
  | completed {n : Nat} {t : Task} {unit : ParsedUnit} (visited : SortedSet FileId) :
      Completes s s' id job n t unit →
      JobTurns s s' id job (Job.advance { job with visited := visited } .completeLocal)
  | failed : JobTurns s s' id job (job.advance .crashed)
  | steered {job' : Job} {more : List Task} : Steers id job job' more → JobTurns s s' id job job'

/-- What an action makes of the jobs: at most one changes. -/
inductive JobsTurn (s s' : Scheduler) : Prop where
  | kept : s'.jobs = s.jobs → JobsTurn s s'
  | opened {kind : JobKind} {i : Invocation} {guest : Bool} : s'.jobs
      = s.jobs.insert (jobOf s.jobs.size) (Job.make (jobOf s.jobs.size) kind i guest) →
      JobsTurn s s'
  | one {id : JobId} {job job' : Job} : s.jobs.get? id = some job →
      (∀ id', s'.jobs.get? id' = if id' = id then some job' else s.jobs.get? id') →
      JobTurns s s' id job job' → JobsTurn s s'

section Jobs

variable {setup : RunSetup} {s s' : Scheduler} {id : JobId} {job job' : Job} {who : Option Nat}

theorem Transition.jobs (h : Transition setup s who s') : JobsTurn s s' := by
  cases h with
  | idle hfloor | shifts _ _ _ _ _ _ hfloor | learns _ _ _ hfloor | parses _ _ hfloor
  | leaves _ _ _ hfloor | requests hfloor => exact .kept (floor_jobs hfloor)
  | builds _ _ _ _ _ hfloor | opens _ _ _ hfloor =>
    exact .opened (floor_jobs hfloor)
  | asks =>
    refine .kept ?_
    unfold askPermit
    split <;> rfl
  | starts _ _ _ hjob _ _ _ _ _ hfloor =>
    exact .one hjob (jobs_insert hjob (floor_jobs hfloor)).1 .started
  | declines _ _ _ hfloor =>
    exact .kept ((jobs_releasePermit _).trans (floor_jobs hfloor))
  | frees => exact .kept (jobs_releasePermit s)
  | @closes _ n t i _ _ job _ _ phase answer jobs _ ht hphase hid hjob hfate hdone hanswer hget
      hfloor =>
    have hjobs : s'.jobs = jobs := floor_jobs hfloor
    refine .one hjob (by rw [hjobs]; exact hget) ?_
    cases hfate with
    | dropped _ | lost _ _ => exact .kept
    | landed visited =>
      refine .completed visited ⟨ht, hid, ⟨i, hphase⟩, floor_table hfloor, ?_⟩
      intro hres
      refine ⟨{ t with phase := phase, answer := answer }, ?_, rfl, hdone, hanswer _ hres rfl⟩
      rw [floor_tasks hfloor, getElem?_set_of_some ht]
    | failed => exact .failed
  | steers hmoves hsteers => exact .one hmoves.filed hmoves.jobs (.steered hsteers)

/-- **What becomes of a job**; the number of a new one is not in use. -/
theorem JobsTurn.exists_job {g : Ledger} (h : JobsTurn s s') (horderly : Orderly g s)
    (hroom : s.jobs.size < UInt64.size) (hjob : s.jobs.get? id = some job) :
    ∃ job', s'.jobs.get? id = some job' ∧ JobTurns s s' id job job' := by
  cases h with
  | kept hjobs => exact ⟨job, hjobs ▸ hjob, .kept⟩
  | opened hjobs =>
    refine ⟨job, ?_, .kept⟩
    rw [hjobs, get?_insert, if_neg]
    · exact hjob
    · rw [Std.compare_eq_iff_eq]
      rintro rfl
      cases hjob.symm.trans (horderly.get?_next hroom)
  | @one id₁ _ job₁' hjob₁ hjobs hturns =>
    by_cases heq : id = id₁
    · subst heq
      cases hjob.symm.trans hjob₁
      exact ⟨job₁', by rw [hjobs, if_pos rfl], hturns⟩
    · exact ⟨job, by rw [hjobs, if_neg heq]; exact hjob, .kept⟩

theorem JobsTurn.queued_of_new (h : JobsTurn s s') (hnew : s.jobs.get? id = none)
    (hjob : s'.jobs.get? id = some job) : job.state = .queued := by
  cases h with
  | kept hjobs =>
    rw [hjobs] at hjob
    cases hnew.symm.trans hjob
  | opened hjobs =>
    rw [hjobs, get?_insert] at hjob
    split at hjob
    · rw [← some.inj hjob]
      rfl
    · cases hnew.symm.trans hjob
  | one hjob₁ hjobs =>
    rw [hjobs] at hjob
    split at hjob
    · next heq => cases hnew.symm.trans (heq ▸ hjob₁)
    · cases hnew.symm.trans hjob

theorem advance_eq (job : Job) (next : JobState) : (job.advance next).invocation = job.invocation
      ∧ (job.advance next).destination = job.destination
      ∧ ((job.advance next).state = job.state ∨ (job.advance next).state = next) := by
  unfold Job.advance Job.transition
  split
  · exact ⟨rfl, rfl, .inr rfl⟩
  · exact ⟨rfl, rfl, .inl rfl⟩

variable (h : JobTurns s s' id job job')

include h

theorem JobTurns.invocation : job'.invocation = job.invocation := by
  cases h with
  | kept | started => rfl
  | completed | failed => exact (advance_eq _ _).1
  | steered hsteers => cases hsteers <;> rfl

theorem JobTurns.destination (haway : job.destination ≠ none) :
    job'.destination ≠ none := by
  cases h with
  | kept | started => exact haway
  | completed | failed => rw [(advance_eq _ _).2.1]; exact haway
  | steered hsteers =>
    cases hsteers with
    | sent => simp
    | _ => exact haway

theorem JobTurns.completes (hstate : job'.state = .completeLocal) :
    job.state = .completeLocal ∨ ∃ n t unit, Completes s s' id job n t unit := by
  cases h with
  | kept => exact .inl hstate
  | started => cases hstate
  | completed _ hcompletes => exact .inr ⟨_, _, _, hcompletes⟩
  | failed =>
    rcases (advance_eq job .crashed).2.2 with hsame | hcrashed
    · exact .inl (hsame.symm.trans hstate)
    · cases hstate.symm.trans hcrashed
  | steered hsteers =>
    cases hsteers with
    | blocked => exact .inl hstate
    | _ => cases hstate

end Jobs

/-- Who is with another process is known to be. -/
def Abroad (s : Scheduler) : Prop :=
  ∀ id job, s.jobs.get? id = some job → job.state = .remote → job.destination ≠ none

theorem Abroad.jobs {s s' : Scheduler} {g : Ledger} (h : Abroad s) (hjobs : JobsTurn s s')
    (horderly : Orderly g s) (hroom : s.jobs.size < UInt64.size) : Abroad s' := by
  intro id job' hjob' hremote
  cases hjob : s.jobs.get? id with
  | none =>
    cases hremote.symm.trans (hjobs.queued_of_new hjob hjob')
  | some job =>
    obtain ⟨job₁, hjob₁, hturns⟩ := hjobs.exists_job horderly hroom hjob
    cases hjob'.symm.trans hjob₁
    have hstill : job.state = .remote → job'.destination ≠ none :=
      fun hstate => hturns.destination (h id job hjob hstate)
    cases hturns with
    | kept => exact hstill hremote
    | started => cases hremote
    | completed visited =>
      rcases (advance_eq { job with visited := visited } .completeLocal).2.2 with hsame | hnext
      · exact hstill (hsame.symm.trans hremote)
      · cases hremote.symm.trans hnext
    | failed =>
      rcases (advance_eq job .crashed).2.2 with hsame | hnext
      · exact hstill (hsame.symm.trans hremote)
      · cases hremote.symm.trans hnext
    | steered hsteers =>
      cases hsteers with
      | sent => simp
      | blocked => exact hstill hremote
      | _ => cases hremote

/-! ## The job of a header -/

/-- A job is complete and was never handed off. -/
def CompletedHere (s : Scheduler) (id : JobId) : Prop :=
  ∃ job, s.jobs.get? id = some job ∧ job.state = .completeLocal ∧ job.destination = none

/-- The task of a job has made a header. -/
def HasMade (s : Scheduler) (id : JobId) (entry : PchEntry) : Prop :=
  ∃ (n : Nat) (t : Task) (r : Pch.Reservation), s.tasks[n]? = some t ∧ t.errand = .header id r
    ∧ t.phase.isDone = true ∧ t.answer = some (.entry entry)

/-- There is room, and what a job has made is on disk. -/
def keepsMade (s : Scheduler) (id : JobId) : Bool :=
  s.jobs.size + 1 < UInt64.size && s.tasks.all (fun t =>
    match t.errand, t.answer with
    | .header id' _, some (.entry entry) => id' ≠ id || s.world.disk.isFile entry.artifactPath
    | _, _ => true)

section Following

variable {setup : RunSetup} {s s' : Scheduler} {n : Nat} {t : Task} {id : JobId}
  {entry : PchEntry} {who : Option Nat}

theorem keepsMade_jobs (h : s.keepsMade id = true) : s.jobs.size < UInt64.size :=
  Nat.lt_of_succ_lt (of_decide_eq_true (Bool.and_eq_true_iff.mp h).1)

theorem isFile_of_keepsMade (h : s.keepsMade id = true) (hmade : s.HasMade id entry) :
    s.world.disk.isFile entry.artifactPath = true := by
  obtain ⟨n, t, r, ht, herrand, -, hanswer⟩ := hmade
  have hall := all_eq_true.mp (Bool.and_eq_true_iff.mp h).2 t (mem_of_getElem? ht)
  simpa [herrand, hanswer] using hall

theorem Paced.exists_task (h : Paced setup s s') (ht : s.tasks[n]? = some t) :
    ∃ t', s'.tasks[n]? = some t' ∧ (t' = t ∨ Pace setup s t t') := by
  obtain ⟨hlt, -⟩ := List.getElem?_eq_some_iff.mp ht
  have hlt' : n < s'.tasks.length := Nat.lt_of_lt_of_le hlt h.1
  refine ⟨s'.tasks[n], getElem?_eq_getElem hlt', ?_⟩
  rcases h.2 n _ (getElem?_eq_getElem hlt') with ⟨t₀, ht₀, hpace⟩ | ⟨hnone, -⟩
  · cases ht.symm.trans ht₀
    exact hpace
  · cases ht.symm.trans hnone

theorem Paced.of_isDone (h : Paced setup s s') (ht : s.tasks[n]? = some t)
    (hdone : t.phase.isDone = true) :
    ∃ t', s'.tasks[n]? = some t' ∧ t'.errand = t.errand ∧ t'.phase.isDone = true
      ∧ t'.answer = t.answer := by
  obtain ⟨t', ht', rfl | hpace⟩ := h.exists_task ht
  · exact ⟨t', ht', rfl, hdone, rfl⟩
  · exact ⟨t', ht', hpace.of_isDone hdone⟩

theorem HasMade.paced (h : s.HasMade id entry) (hpaced : Paced setup s s') :
    s'.HasMade id entry := by
  obtain ⟨n, t, r, ht, herrand, hdone, hanswer⟩ := h
  obtain ⟨t', ht', herrand', hdone', hanswer'⟩ := hpaced.of_isDone ht hdone
  exact ⟨n, t', r, ht', herrand'.trans herrand, hdone', hanswer'.trans hanswer⟩

theorem Keeping.ready (h : Keeping s s') (howned : ReservationsOwned s) {key : String}
    (hready : s.state.pch.slots.get? key = some (.ready entry))
    (hfile : s.world.disk.isFile entry.artifactPath = true) :
    s'.state.pch.slots.get? key = some (.ready entry) := by
  cases h with
  | keeps _ hthins =>
    rcases hthins.slots key with hsame | ⟨-, old, hold, hgone⟩
    · exact hsame.trans hready
    · obtain rfl : entry = old := by simpa using hready.symm.trans hold
      cases hfile.symm.trans hgone
  | books _ key' _ _ hbook htable =>
    have hne : key ≠ key' := by
      rintro rfl
      unfold PchTable.reserve at hbook
      rw [hready] at hbook
      simp [PchTable.book] at hbook
    rw [htable]
    simpa [PchTable.book, hne] using hready
  | ends m how _ htable =>
    rw [htable]
    cases hhand : s.hand m with
    | none => exact hready
    | some r =>
      have hne : key ≠ r.key := by
        rintro rfl
        cases hready.symm.trans (howned.slot m r hhand)
      exact (building_conclude how _ r hne).trans hready

theorem Keeping.settled (h : Keeping s s') (howned : ReservationsOwned s) {ticket : Nat}
    (hgiven : ticket < s.state.pch.tickets.length) :
    ticket < s'.state.pch.tickets.length
      ∧ (s.state.pch.settled ticket = true → s'.state.pch.settled ticket = true) := by
  unfold PchTable.settled
  cases h with
  | keeps _ hthins =>
    rw [hthins.tickets, hthins.status]
    exact ⟨hgiven, id⟩
  | books _ _ _ _ _ htable =>
    rw [htable, status_book, if_neg (Nat.ne_of_lt hgiven)]
    refine ⟨?_, id⟩
    show ticket < (s.state.pch.tickets ++ [_]).length
    rw [length_append]
    omega
  | ends m how _ htable =>
    rw [htable]
    cases hhand : s.hand m with
    | none => exact ⟨hgiven, id⟩
    | some r =>
      have hlength : ((s.state.pch.concluded (some r) how).tickets).length = _ :=
        length_conclude how _ r
      have hstatus : (s.state.pch.concluded (some r) how).status ticket = _ :=
        status_conclude how (howned.lt_length hhand) ticket
      rw [hlength, hstatus]
      refine ⟨hgiven, fun hsettled => ?_⟩
      split
      · cases how <;> rfl
      · exact hsettled

/-- What holds of every run that is steered. -/
structure Sane (s : Scheduler) : Prop where
  orderly : ∃ g, Orderly g s
  owned : ReservationsOwned s
  abroad : Abroad s

theorem Sane.act (h : Sane s) {a : Action} (hact : s.act? setup a = some s')
    (hroom : s.jobs.size < UInt64.size) (hroom' : s'.jobs.size < UInt64.size) :
    Sane s' := by
  obtain ⟨g, horderly⟩ := h.orderly
  have htransition := transition_act horderly.staffed hact
  exact ⟨⟨_, horderly.act hact hroom'⟩, h.owned.transition htransition horderly.line,
    h.abroad.jobs htransition.jobs horderly hroom⟩

/-- A header was submitted: its task, its job, and what comes of it. -/
structure Commission (s : Scheduler) (id : JobId) (n : Nat) (r : Pch.Reservation)
    (header : Invocation) : Prop where
  task : ∃ t, s.tasks[n]? = some t ∧ t.errand = .header id r
  job : ∃ job, s.jobs.get? id = some job ∧ job.invocation = header
  given : r.ticket < s.state.pch.tickets.length
  own : ∀ m r', s.hand m = some r' → r'.ticket = r.ticket → m = n
  alone : (∃ job, s.jobs.get? id = some job ∧ job.destination ≠ none)
    ∨ ∀ (m : Nat) (t : Task), s.tasks[m]? = some t → t.errand.job? = some id → m = n
  ready : s.CompletedHere id → ∃ (t : Task) (entry : PchEntry), s.tasks[n]? = some t
    ∧ t.phase.isDone = true ∧ t.answer = some (.entry entry)
    ∧ entry.originHeader = header.input ∧ s.state.pch.slots.get? r.key = some (.ready entry)

namespace Commission

variable {r : Pch.Reservation} {header : Invocation} {g : Ledger}

variable (h : Commission s id n r header)

include h

theorem settled_or_hand (howned : ReservationsOwned s) :
    s.state.pch.settled r.ticket = true ∨ s.hand n = some r := by
  cases hopen : s.state.pch.settled r.ticket with
  | true => exact .inl rfl
  | false =>
    have hbuilding : s.state.pch.status r.ticket = .building := by
      unfold PchTable.settled at hopen
      simpa using hopen
    obtain ⟨m, r', hhand, hticket⟩ := howned.owner _ hbuilding
    obtain rfl := h.own m r' hhand hticket
    obtain ⟨t, ht, herrand⟩ := h.task
    obtain ⟨t', ht', hres, -⟩ := exists_task_of_hand hhand
    cases ht.symm.trans ht'
    rw [herrand] at hres
    exact .inr (hhand.trans hres.symm)

theorem done_of_settled (howned : ReservationsOwned s)
    (hsettled : s.state.pch.settled r.ticket = true) (ht : s.tasks[n]? = some t) :
    t.phase.isDone = true := by
  cases hdone : t.phase.isDone with
  | true => rfl
  | false =>
    obtain ⟨t', ht', herrand⟩ := h.task
    cases ht.symm.trans ht'
    have hhand : s.hand n = some r := by
      rw [hand_eq ht]
      unfold Task.inHand?
      rw [hdone, herrand]
      rfl
    have hpending := howned.pending n r hhand
    unfold PchTable.settled at hsettled
    exact absurd hpending (of_decide_eq_true hsettled)

theorem completed_or (horderly : Orderly g s)
    (hroom : s.jobs.size < UInt64.size) (hjobs : JobsTurn s s') (hcompleted : s'.CompletedHere id) :
    s.CompletedHere id ∨ ∃ t unit job, job.invocation = header
      ∧ Completes s s' id job n t unit := by
  obtain ⟨job, hjob, hheader⟩ := h.job
  obtain ⟨job', hjob', hstate, hhome⟩ := hcompleted
  obtain ⟨job₁, hjob₁, hturns⟩ := hjobs.exists_job horderly hroom hjob
  cases hjob'.symm.trans hjob₁
  have hhere : job.destination = none := by
    cases hdestination : job.destination with
    | none => rfl
    | some => exact absurd hhome (hturns.destination (by simp [hdestination]))
  rcases hturns.completes hstate with hbefore | ⟨m, t, unit, hcompletes⟩
  · exact .inl ⟨job, hjob, hbefore, hhere⟩
  · rcases h.alone with ⟨other, hother, haway⟩ | halone
    · cases hjob.symm.trans hother
      exact absurd hhere haway
    · obtain rfl := halone m t hcompletes.task hcompletes.errand
      exact .inr ⟨t, unit, job, hheader, hcompletes⟩

/-- **A job whose reservation is settled has completed here or never will.** -/
theorem completed_before (howned : ReservationsOwned s)
    (horderly : Orderly g s) (hroom : s.jobs.size < UInt64.size) (hjobs : JobsTurn s s')
    (hsettled : s.state.pch.settled r.ticket = true) (hcompleted : s'.CompletedHere id) :
    s.CompletedHere id := by
  rcases h.completed_or horderly hroom hjobs hcompleted with hbefore | ⟨t, unit, job, -, hcompletes⟩
  · exact hbefore
  · obtain ⟨i, hphase⟩ := hcompletes.phase
    have hdone := h.done_of_settled howned hsettled hcompletes.task
    rw [hphase] at hdone
    simp [Phase.isDone] at hdone

theorem transition (hsane : Sane s) (horderly : Orderly g s)
    (htransition : Transition setup s who s') (hkeeps : s.keepsMade id = true) :
    Commission s' id n r header := by
  have hroom := keepsMade_jobs hkeeps
  have hpaced := htransition.paced horderly.line
  have hkeeping := htransition.keeping horderly.line hsane.owned.plain
  obtain ⟨job, hjob, hheader⟩ := h.job
  obtain ⟨job', hjob', hturns⟩ := htransition.jobs.exists_job horderly hroom hjob
  obtain ⟨t, ht, herrand⟩ := h.task
  obtain ⟨t', ht', hpace⟩ := hpaced.exists_task ht
  have herrand' : t'.errand = .header id r := by
    rcases hpace with rfl | hpace
    · exact herrand
    · rcases hpace.errand with hsame | ⟨hnone, -⟩
      · exact hsame.trans herrand
      · rw [herrand] at hnone
        simp [Errand.job?] at hnone
  refine ⟨⟨t', ht', herrand'⟩, ⟨job', hjob', hturns.invocation.trans hheader⟩,
    (hkeeping.settled hsane.owned h.given).1, fun m r' hhand hticket => ?_, ?_,
    fun hcompleted => ?_⟩
  · -- A new reservation has a ticket of its own.
    cases hkeeping with
    | keeps hsame => exact h.own m r' (hsame m ▸ hhand) hticket
    | books _ _ _ hhands =>
      rw [hhands] at hhand
      split at hhand
      · cases hhand
        exact absurd hticket (Nat.ne_of_gt h.given)
      · exact h.own m r' hhand hticket
    | ends _ _ hhands =>
      rw [hhands] at hhand
      split at hhand
      · cases hhand
      · exact h.own m r' hhand hticket
  · rcases h.alone with ⟨other, hother, haway⟩ | halone
    · cases hjob.symm.trans hother
      exact .inl ⟨job', hjob', hturns.destination haway⟩
    · by_cases haway : job'.destination = none
      · refine .inr fun m u' hu' hid => ?_
        have hnew : id ≠ jobOf s.jobs.size := by
          rintro rfl
          cases hjob.symm.trans (horderly.get?_next hroom)
        rcases hpaced.2 m u' hu' with ⟨u, hu, rfl | hpace⟩ | ⟨-, -, -, hmade⟩
        · exact halone m u' hu hid
        · rcases hpace.errand with hsame | ⟨-, r', hheader'⟩
          · exact halone m u hu (hsame ▸ hid)
          · rw [hheader'] at hid
            exact absurd (some.inj hid).symm hnew
        · rcases hmade id hid with heq | ⟨-, other, hother, hremote⟩
          · exact absurd heq hnew
          · cases hjob.symm.trans hother
            exact absurd haway (hturns.destination (hsane.abroad id job hjob hremote))
      · exact .inl ⟨job', hjob', haway⟩
  · rcases h.completed_or horderly hroom htransition.jobs hcompleted with
      hbefore | ⟨u, unit, job₁, hheader₁, hcompletes⟩
    · obtain ⟨u, entry, hu, hdone, hanswer, horigin, hready⟩ := h.ready hbefore
      obtain ⟨u', hu', -, hdone', hanswer'⟩ := hpaced.of_isDone hu hdone
      cases ht.symm.trans hu
      exact ⟨u', entry, hu', hdone', hanswer'.trans hanswer, horigin,
        hkeeping.ready hsane.owned hready
          (isFile_of_keepsMade hkeeps ⟨n, t, r, ht, herrand, hdone, hanswer⟩)⟩
    · cases ht.symm.trans hcompletes.task
      have hres : t.errand.reservation? = some r := by
        rw [herrand]
        rfl
      obtain ⟨u', hu', -, hdone', hanswer'⟩ := hcompletes.answer (by simp [hres])
      refine ⟨u', job₁.header unit, hu', hdone', hanswer', ?_, ?_⟩
      · rw [← hheader₁]
        rfl
      · rw [hcompletes.table, hres]
        simp [PchTable.concluded, Pch.Ending.conclude, PchTable.complete, PchTable.setStatus]

end Commission

variable {phase : Phase}

/-! ## A unit that includes the header -/

/-- How far a task is with the header of reservation `r`, which job `id` makes: past its key the
reservation is settled, and what is parsed is parsed with it if it was made. -/
def Heeds (s : Scheduler) (id : JobId) (r : Pch.Reservation) (header : Invocation) : Phase → Prop
  | .seeking keys => r.key ∈ keys ∨ s.state.pch.settled r.ticket = true
  | .awaiting ticket keys =>
    ticket = r.ticket ∨ r.key ∈ keys ∨ s.state.pch.settled r.ticket = true
  | .asking | .inLine | .granted => s.state.pch.settled r.ticket = true
  | .parsing request indexer => s.state.pch.settled r.ticket = true ∧ (s.CompletedHere id →
      (∃ entry, s.HasMade id entry ∧ entry.originHeader = header.input
        ∧ pchArguments entry <:+: request.arguments) ∧ indexer.Watches header.input)
  | .parsed _ outcome | .closing _ outcome =>
    s.state.pch.settled r.ticket = true ∧ (s.CompletedHere id →
      ∀ unit, outcome = .ok unit → unit.source.Watches header.input)
  | _ => True

/-- A unit that includes a header waits for it. -/
structure Attends (s : Scheduler) (id : JobId) (r : Pch.Reservation) (header : Invocation)
    (id' : JobId) (unit : Invocation) : Prop where
  job : ∃ job, s.jobs.get? id' = some job ∧ job.invocation = unit
  tasks : ∀ (m : Nat) (t : Task), s.tasks[m]? = some t → t.errand.job? = some id' →
    t.errand.reservation? = none ∧ s.Heeds id r header t.phase

variable {r : Pch.Reservation} {header unit : Invocation} {g : Ledger} {id' : JobId}

theorem Heeds.mono (h : s.Heeds id r header phase)
    (hsettled : s.state.pch.settled r.ticket = true → s'.state.pch.settled r.ticket = true)
    (hback : s.state.pch.settled r.ticket = true → s'.CompletedHere id → s.CompletedHere id)
    (hmade : ∀ entry, s.HasMade id entry → s'.HasMade id entry) : s'.Heeds id r header phase := by
  cases phase with
  | seeking => exact Or.imp_right hsettled h
  | awaiting => exact Or.imp_right (Or.imp_right hsettled) h
  | asking | inLine | granted => exact hsettled h
  | parsing =>
    refine ⟨hsettled h.1, fun hcompleted => ?_⟩
    obtain ⟨⟨entry, hentry, hrest⟩, hwatches⟩ := h.2 (hback h.1 hcompleted)
    exact ⟨⟨entry, hmade entry hentry, hrest⟩, hwatches⟩
  | parsed i outcome | closing i outcome =>
    exact ⟨hsettled h.1, fun hcompleted => h.2 (hback h.1 hcompleted)⟩
  | _ => trivial

theorem heeds_of_isDone (h : phase.isDone = true) : s.Heeds id r header phase := by
  cases phase <;> trivial

section

variable (hcommission : Commission s id n r header) (hkeeps : s.keepsMade id = true)
  (henabled : setup.config.flags.disablePch = false)
  (hindexes : setup.config.flags.dontIndex = false)

include hcommission hkeeps henabled

theorem heeds_begun (hkey : r.key ∈ unit.includedHeaderKeys)
    (hsettled : s.state.pch.settled r.ticket = true) :
    s.Heeds id r header (.parsing (beginParse setup s unit).1 (beginParse setup s unit).2.1) := by
  refine ⟨hsettled, fun hcompleted => ?_⟩
  obtain ⟨t, entry, ht, hdone, hanswer, horigin, hready⟩ := hcommission.ready hcompleted
  obtain ⟨t', ht', herrand⟩ := hcommission.task
  cases ht.symm.trans ht'
  have hmade : s.HasMade id entry := ⟨n, t, r, ht, herrand, hdone, hanswer⟩
  have huses : (r.key, entry) ∈ uses setup s unit :=
    mem_uses.mpr ⟨henabled, hkey, hready, isFile_of_keepsMade hkeeps hmade⟩
  exact ⟨⟨entry, hmade, horigin, infix_arguments huses⟩, horigin ▸ watches_beginParse huses⟩

include hindexes

/-- **A task that moves goes on heeding the header.** It does not pass the key of the header before
the reservation is settled. -/
theorem Heeds.pace {t' : Task} (h : s.Heeds id r header t.phase) (hpace : Pace setup s t t')
    (howned : ReservationsOwned s) {job : Job} (hid : t.errand.job? = some id')
    (hplain : t.errand.reservation? = none) (hjob : s.jobs.get? id' = some job)
    (hkey : r.key ∈ job.invocation.includedHeaderKeys) : s.Heeds id r header t'.phase := by
  have hbuilding := hcommission.settled_or_hand howned
  have hrequest : ∀ i, t.errand ≠ .request i := by
    intro i herrand
    rw [herrand] at hid
    simp [Errand.job?] at hid
  cases hpace with
  | @sought id₁ job₁ _ hid₁ _ hjob₁ =>
    cases hid.symm.trans hid₁
    cases hjob.symm.trans hjob₁
    refine .inl ?_
    rw [henabled]
    exact hkey
  | @passed key keys hphase hnone =>
    rw [hphase] at h
    rcases h with hmem | hsettled
    · rcases mem_cons.mp hmem with rfl | hmem
      · refine .inr (hbuilding.resolve_right fun hhand => ?_)
        unfold PchTable.inFlight? at hnone
        rw [howned.slot n r hhand] at hnone
        cases hnone
      · exact .inl hmem
    · exact .inr hsettled
  | @waited key keys ticket hphase hticket =>
    rw [hphase] at h
    rcases h with hmem | hsettled
    · rcases mem_cons.mp hmem with rfl | hmem
      · rcases hbuilding with hsettled | hhand
        · exact .inr (.inr hsettled)
        · unfold PchTable.inFlight? at hticket
          rw [howned.slot n r hhand] at hticket
          exact .inl (some.inj hticket).symm
      · exact .inr (.inl hmem)
    · exact .inr (.inr hsettled)
  | resumed hphase hsettled =>
    rw [hphase] at h
    rcases h with rfl | hrest
    · exact .inr hsettled
    · exact hrest
  | asked hphase =>
    rcases hphase with ⟨-, hres⟩ | hphase
    · exact absurd hplain hres
    · rw [hphase] at h
      exact h.resolve_left not_mem_nil
  | expected _ herrand | reserved _ herrand => exact absurd herrand (hrequest _)
  | queued hphase =>
    rw [hphase] at h
    exact h
  | granted hphase =>
    rcases hphase with hphase | hphase <;> rw [hphase] at h <;> exact h
  | begun hphase hid₁ hjob₁ =>
    cases hid.symm.trans hid₁
    cases hjob.symm.trans hjob₁
    rw [hphase] at h
    exact heeds_begun hcommission hkeeps henabled hkey h
  | skipped _ _ _ hdont => cases hindexes.symm.trans hdont
  | parsed hphase =>
    rw [hphase] at h
    exact ⟨h.1, fun hcompleted _ hok => watches_runFrontend (h.2 hcompleted).2 hok⟩
  | closing hphase =>
    rw [hphase] at h
    exact h
  | ended _ hdone | retired _ hdone => exact heeds_of_isDone hdone

theorem Attends.transition (h : Attends s id r header id' unit) (hsane : Sane s)
    (horderly : Orderly g s) (htransition : Transition setup s who s')
    (hkey : r.key ∈ unit.includedHeaderKeys) : Attends s' id r header id' unit := by
  have hroom := keepsMade_jobs hkeeps
  have hpaced := htransition.paced horderly.line
  have hkeeping := htransition.keeping horderly.line hsane.owned.plain
  have hmono : ∀ {phase : Phase}, s.Heeds id r header phase → s'.Heeds id r header phase := by
    intro phase hheeds
    exact hheeds.mono (hkeeping.settled hsane.owned hcommission.given).2
      (hcommission.completed_before hsane.owned horderly hroom htransition.jobs)
      (fun entry hmade => hmade.paced hpaced)
  obtain ⟨job, hjob, hunit⟩ := h.job
  obtain ⟨job', hjob', hturns⟩ := htransition.jobs.exists_job horderly hroom hjob
  refine ⟨⟨job', hjob', hturns.invocation.trans hunit⟩, fun m t' ht' hid => ?_⟩
  have hnew : id' ≠ jobOf s.jobs.size := by
    rintro rfl
    cases hjob.symm.trans (horderly.get?_next hroom)
  rcases hpaced.2 m t' ht' with ⟨t, ht, rfl | hpace⟩ | ⟨-, hfresh, -, hmade⟩
  · obtain ⟨hplain, hheeds⟩ := h.tasks m t' ht hid
    exact ⟨hplain, hmono hheeds⟩
  · rcases hpace.errand with hsame | ⟨-, r', hheader⟩
    · rw [hsame] at hid
      obtain ⟨hplain, hheeds⟩ := h.tasks m t ht hid
      exact ⟨hsame ▸ hplain, hmono (hheeds.pace hcommission hkeeps henabled hindexes hpace
        hsane.owned hid hplain hjob (hunit ▸ hkey))⟩
    · rw [hheader] at hid
      exact absurd (some.inj hid).symm hnew
  · rcases hmade id' hid with heq | ⟨hplain, -⟩
    · exact absurd heq hnew
    · refine ⟨hplain, ?_⟩
      rw [hfresh]
      trivial

end

/-! ## Submissions -/

theorem job?_ne_next (horderly : Orderly g s) (hroom : s.jobs.size < UInt64.size)
    (ht : s.tasks[n]? = some t) : t.errand.job? ≠ some (jobOf s.jobs.size) := by
  intro hid
  obtain ⟨job, hjob, -⟩ := horderly.staffed ht hid
  cases hjob.symm.trans (horderly.get?_next hroom)

theorem commission_submit {key : String} (hsane : Sane s) (hroom : s.jobs.size < UInt64.size)
    (hheader : header.language.isHeader = true) (hkey : header.headerKey? = some key)
    (hid : (s.submit setup header).1 = some id) :
    Commission (s.submit setup header).2 id s.tasks.length ⟨key, s.state.pch.tickets.length⟩
      header := by
  obtain ⟨g, horderly⟩ := hsane.orderly
  have hsubmits := s.submits setup header
  rw [hid] at hsubmits
  generalize (s.submit setup header).2 = s' at hsubmits ⊢
  cases hsubmits with
  | unit hunit => cases hheader.symm.trans hunit
  | @header _ key' _ hkey' _ hfloor =>
    cases hkey.symm.trans hkey'
    have htasks := floor_tasks hfloor
    have htable : s'.state.pch = _ := floor_table hfloor
    have hjob : s'.jobs.get? (jobOf s.jobs.size)
        = some (Job.make (jobOf s.jobs.size) .pch header false) := by
      rw [floor_jobs hfloor, get?_insert, if_pos (by rw [Std.compare_eq_iff_eq])]
    have htask : s'.tasks[s.tasks.length]? = some
        { errand := .header (jobOf s.jobs.size) ⟨key, s.state.pch.tickets.length⟩ } := by
      rw [show s'.tasks = _ from htasks, getElem?_concat_length]
    refine ⟨⟨_, htask, rfl⟩, ⟨_, hjob, rfl⟩, ?_, fun m r' hhand hticket => ?_,
      .inr fun m t ht hfor => ?_, fun hcompleted => ?_⟩
    · rw [htable]
      show _ < (s.state.pch.tickets ++ [_]).length
      simp
    · rw [hand_append htasks] at hhand
      split at hhand
      · next hm => exact hm
      · exact absurd hticket (Nat.ne_of_lt (hsane.owned.lt_length hhand))
    · rw [show s'.tasks = _ from htasks] at ht
      rcases getElem?_concat_cases ht with ht | ⟨hm, -⟩
      · exact absurd hfor (job?_ne_next horderly hroom ht)
      · exact hm
    · obtain ⟨job, hget, hstate, -⟩ := hcompleted
      cases hjob.symm.trans hget
      simp [Job.make] at hstate

theorem attends_submit (hsane : Sane s) (hroom : s.jobs.size < UInt64.size)
    (hunit : unit.language.isHeader = false) (hid : (s.submit setup unit).1 = some id') :
    Attends (s.submit setup unit).2 id r header id' unit := by
  obtain ⟨g, horderly⟩ := hsane.orderly
  have hsubmits := s.submits setup unit
  rw [hid] at hsubmits
  generalize (s.submit setup unit).2 = s' at hsubmits ⊢
  cases hsubmits with
  | header hheader => cases hheader.symm.trans hunit
  | @unit _ kind _ hfloor =>
    have hjob : s'.jobs.get? (jobOf s.jobs.size)
        = some (Job.make (jobOf s.jobs.size) kind unit false) := by
      rw [floor_jobs hfloor, get?_insert, if_pos (by rw [Std.compare_eq_iff_eq])]
    refine ⟨⟨_, hjob, rfl⟩, fun m t ht hfor => ?_⟩
    · rw [floor_tasks hfloor] at ht
      rcases getElem?_concat_cases ht with ht | ⟨-, rfl⟩
      · exact absurd hfor (job?_ne_next horderly hroom ht)
      · exact ⟨rfl, trivial⟩

end Following

end Scheduler

/-! ## Runs -/

section Runs

variable {setup : RunSetup} {P : Scheduler → Prop} {s s' : Scheduler} {id id' : JobId} {n : Nat}
  {r : Pch.Reservation} {header unit : Invocation}

theorem GuardedRun.sane (h : GuardedRun setup P s s') (hroom : ∀ s, P s → s.jobs.size < UInt64.size)
    (hstart : s.Sane) : s'.Sane :=
  h.induct hstart fun s₁ s₂ _ hbefore hafter hsane hact =>
    hsane.act hact (hroom s₁ hbefore) (hroom s₂ hafter)

theorem Scheduler.Commission.act (h : s.Commission id n r header) (hsane : s.Sane) {a : Action}
    (hact : s.act? setup a = some s') (hbefore : s.keepsMade id = true)
    (hafter : s'.keepsMade id = true) : s'.Sane ∧ s'.Commission id n r header := by
  obtain ⟨g, horderly⟩ := hsane.orderly
  exact ⟨hsane.act hact (keepsMade_jobs hbefore) (keepsMade_jobs hafter),
    h.transition hsane horderly (transition_act horderly.staffed hact) hbefore⟩

section

variable (h : GuardedRun setup (fun s => s.keepsMade id = true) s s')

include h

theorem GuardedRun.commission (hstart : s.Sane ∧ s.Commission id n r header) :
    s'.Sane ∧ s'.Commission id n r header :=
  h.induct (I := fun s => s.Sane ∧ s.Commission id n r header) hstart
    fun _ _ _ hbefore hafter ⟨hsane, hcommission⟩ hact =>
      hcommission.act hsane hact hbefore hafter

theorem GuardedRun.attends (henabled : setup.config.flags.disablePch = false)
    (hindexes : setup.config.flags.dontIndex = false) (hkey : r.key ∈ unit.includedHeaderKeys)
    (hstart : s.Sane ∧ s.Commission id n r header) (hattends : s.Attends id r header id' unit) :
    s'.Attends id r header id' unit := by
  refine (h.induct (I := fun s => (s.Sane ∧ s.Commission id n r header)
    ∧ s.Attends id r header id' unit) ⟨hstart, hattends⟩
    fun s₁ s₂ a hbefore hafter ⟨⟨hsane, hcommission⟩, hattends⟩ hact => ?_).2
  obtain ⟨g, horderly⟩ := hsane.orderly
  exact ⟨hcommission.act hsane hact hbefore hafter, hattends.transition hcommission hbefore henabled
    hindexes hsane horderly (transition_act horderly.staffed hact) hkey⟩

theorem GuardedRun.completed_before (hstart : s.Sane ∧ s.Commission id n r header)
    (hsettled : s.state.pch.settled r.ticket = true) :
    s'.CompletedHere id → s.CompletedHere id := by
  refine (h.induct (I := fun s' => (s'.Sane ∧ s'.Commission id n r header)
    ∧ s'.state.pch.settled r.ticket = true ∧ (s'.CompletedHere id → s.CompletedHere id))
    ⟨hstart, hsettled, fun hcompleted => hcompleted⟩
    fun s₁ s₂ a hbefore hafter ⟨⟨hsane, hcommission⟩, hsettled, hback⟩ hact => ?_).2.2
  obtain ⟨g, horderly⟩ := hsane.orderly
  have htransition := transition_act horderly.staffed hact
  have hkeeping := htransition.keeping horderly.line hsane.owned.plain
  exact ⟨hcommission.act hsane hact hbefore hafter,
    (hkeeping.settled hsane.owned hcommission.given).2 hsettled,
    fun hcompleted => hback (hcommission.completed_before hsane.owned horderly
      (keepsMade_jobs hbefore) htransition.jobs hsettled hcompleted)⟩

end

/-- **A unit sees the header that was submitted before it.** A header is submitted at `s₁` and a unit
that includes its key at `s₂`; whatever else happens, if the job of the header completes here, by
`s'` at the latest, and its artifact is not taken away, then a task that parses the unit at `s` hands
the artifact to the front end, and what it makes of the unit watches the header. -/
theorem unit_sees_header {world : World} {state : IndexState} {s₁ s₂ : Scheduler} {key : String}
    (hsettled : ∀ ticket, state.pch.settled ticket = true)
    (henabled : setup.config.flags.disablePch = false)
    (hindexes : setup.config.flags.dontIndex = false)
    (hheader : header.language.isHeader = true) (hkey : header.headerKey? = some key)
    (hunit : unit.language.isHeader = false) (hincludes : key ∈ unit.includedHeaderKeys)
    (hbefore : GuardedRun setup (fun s => s.jobs.size + 1 < UInt64.size)
      (Scheduler.start setup world state) s₁)
    (hid : (s₁.submit setup header).1 = some id)
    (hbetween : GuardedRun setup (fun s => s.keepsMade id = true) (s₁.submit setup header).2 s₂)
    (hid' : (s₂.submit setup unit).1 = some id')
    (hafter : GuardedRun setup (fun s => s.keepsMade id = true) (s₂.submit setup unit).2 s)
    (hrest : GuardedRun setup (fun s => s.keepsMade id = true) s s')
    (hcompleted : s'.CompletedHere id) {t : Task} (ht : s.tasks[n]? = some t)
    (hfor : t.errand.job? = some id') :
    (∀ request indexer, t.phase = .parsing request indexer →
      ∃ entry, s.HasMade id entry ∧ entry.originHeader = header.input
        ∧ ["-include-pch", entry.artifactPath.text] <:+: request.arguments)
      ∧ ∀ parsed, t.phase.unit? = some parsed → parsed.source.fromUnsavedFile = true
          ∨ parsed.source.dependencies.contains header.input = true := by
  have hsane₁ : s₁.Sane := hbefore.sane (fun _ => Nat.lt_of_succ_lt)
    ⟨⟨{}, .start setup world state⟩, .start setup world hsettled,
      fun _ _ hjob => absurd hjob (by simp [Scheduler.start])⟩
  have hroom : s₁.jobs.size < UInt64.size := Nat.lt_of_succ_lt hbefore.holds
  have hsubmitted : (s₁.submit setup header).2.Sane :=
    hsane₁.act (a := .submit header) rfl hroom (Scheduler.keepsMade_jobs hbetween.begins)
  obtain ⟨hsane₂, hcommission₂⟩ := hbetween.commission
    ⟨hsubmitted, Scheduler.commission_submit hsane₁ hroom hheader hkey hid⟩
  have hstart := hcommission₂.act (a := .submit unit) hsane₂ rfl hbetween.holds hafter.begins
  have hattends := hafter.attends henabled hindexes hincludes hstart
    (Scheduler.attends_submit hsane₂ (Scheduler.keepsMade_jobs hbetween.holds) hunit hid')
  obtain ⟨-, hheeds⟩ := hattends.tasks n t ht hfor
  have hback := hrest.completed_before (hafter.commission hstart)
  refine ⟨fun request indexer hphase => ?_, fun parsed hparsed => ?_⟩
  · rw [hphase] at hheeds
    exact (hheeds.2 (hback hheeds.1 hcompleted)).1
  · unfold Phase.unit? at hparsed
    split at hparsed
    · next i unit hphase =>
      rw [hphase] at hheeds
      cases hparsed
      exact hheeds.2 (hback hheeds.1 hcompleted) _ rfl
    · next i unit hphase =>
      rw [hphase] at hheeds
      cases hparsed
      exact hheeds.2 (hback hheeds.1 hcompleted) _ rfl
    · cases hparsed

end Runs

def awaitedSetup : RunSetup where
  config := { dbPath := ⟨"/db"⟩ }
  frontend := .replay (SortedMap.ofList [(⟨"/h.h"⟩, {}), (⟨"/b.c"⟩, {})])

def awaitedHeader : Invocation :=
  { directory := ⟨"/"⟩, compiler := "gcc", input := ⟨"/h.h"⟩, language := .cHeader
    output := some ⟨"/h.h.gch"⟩ }

def awaitingUnit : Invocation :=
  { directory := ⟨"/"⟩, compiler := "gcc", input := ⟨"/b.c"⟩, language := .c
    arguments := ["-include", "h.h"] }

/-- The header and the unit are submitted, and then tasks move: the unit meets the key while it is
being built, sleeps until the header is there, and is parsed with it. -/
theorem unit_sees_header_awaited :
    ∃ (s : Scheduler) (t : Task) (request : ParseRequest) (indexer : UnitIndexer)
      (entry : PchEntry), s.tasks[1]? = some t ∧ t.phase = .parsing request indexer
      ∧ s.HasMade (jobOf 0) entry ∧ entry.originHeader = ⟨"/h.h"⟩
      ∧ ["-include-pch", entry.artifactPath.text] <:+: request.arguments := by
  let s₁ := Scheduler.start awaitedSetup {} {}
  let s₂ := (s₁.submit awaitedSetup awaitedHeader).2
  let keeps (s : Scheduler) : Bool := s.keepsMade (jobOf 0)
  let moves : List Action := [.step 1, .step 1, .step 0, .step 0, .step 0, .parse 0, .step 0,
    .step 0, .step 1, .step 1, .step 1, .step 1]
  have hplayed : (play? (Scheduler.act? awaitedSetup) (fun _ _ s => keeps s) (fun r _ _ _ => r) ()
      (s₂.submit awaitedSetup awaitingUnit).2 moves).any
      (fun (_, s) => (s.jobs.get? (jobOf 0)).any
          (fun job => job.state = .completeLocal ∧ job.destination = none)
        && (s.tasks[1]?).any (fun t => t.errand.job? = some (jobOf 1)
          && t.phase.progress = .parsing)) = true := by
    decide +kernel
  obtain ⟨⟨_, s⟩, hplay, hends⟩ := (Option.any_eq_true _ _).mp hplayed
  obtain ⟨hjob, htask⟩ := Bool.and_eq_true_iff.mp hends
  obtain ⟨job, hjob, hstate⟩ := (Option.any_eq_true _ _).mp hjob
  obtain ⟨t, ht, htask⟩ := (Option.any_eq_true _ _).mp htask
  obtain ⟨hfor, hparsing⟩ := Bool.and_eq_true_iff.mp htask
  have hafter : GuardedRun awaitedSetup (fun s => s.keepsMade (jobOf 0) = true)
      (s₂.submit awaitedSetup awaitingUnit).2 s :=
    GuardedRun.of_play (by decide +kernel) hplay
  obtain ⟨hparsed, -⟩ := unit_sees_header
    (fun ticket => by simp [PchTable.settled, PchTable.status]) rfl rfl
    (show awaitedHeader.language.isHeader = true from rfl)
    (show awaitedHeader.headerKey? = some "/h.h" by decide +kernel)
    (show awaitingUnit.language.isHeader = false from rfl) (by decide +kernel)
    (GuardedRun.start (show s₁.jobs.size + 1 < UInt64.size by decide +kernel))
    (show (s₁.submit awaitedSetup awaitedHeader).1 = some (jobOf 0) by decide +kernel)
    (.start (by decide +kernel))
    (show (s₂.submit awaitedSetup awaitingUnit).1 = some (jobOf 1) by decide +kernel)
    hafter (.start hafter.holds) ⟨job, hjob, of_decide_eq_true hstate⟩ ht (of_decide_eq_true hfor)
  cases hphase : t.phase with
  | parsing request indexer =>
    obtain ⟨entry, hmade, horigin, harguments⟩ := hparsed request indexer hphase
    exact ⟨s, t, request, indexer, entry, ht, hphase, hmade, horigin, harguments⟩
  | _ => exact absurd (of_decide_eq_true hparsing) (by simp [hphase, Phase.progress])

end SymbolIndex
