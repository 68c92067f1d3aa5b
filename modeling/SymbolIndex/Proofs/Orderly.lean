import SymbolIndex.Proofs.Transitions

/-!
# Every job's account is sound

In a run that is steered in any way the accounts of all jobs are sound at every moment. `Orderly`
says so of one moment, `Orderly.act` that every action keeps it so, and `SteeredRun.orderly` that it
holds of every run.

An action has to do with one job at most. The lemmas about `Orderly` therefore say what becomes of
one account: nothing (`still`), another turn of a job that stays as it is (`pass`), a job that moves
with one of its turns (`turn`) or from outside (`steer`), or a new one (`opened`).
-/

namespace SymbolIndex

open List Option Scheduler SortedMap

namespace Ledger

variable {g g' : Ledger} {id : JobId}

theorem account_congr (h : g'.tally id = g.tally id) (job : Job) (turns : List Turn) :
    g'.account id job turns = g.account id job turns := by
  simp only [tally, Prod.mk.injEq] at h
  unfold account
  rw [h.1, h.2.1, h.2.2.1, h.2.2.2]

theorem account_eq {starts parses landings returns : Nat}
    (h : g.tally id = (starts, parses, landings, returns)) (job : Job) (turns : List Turn) :
    g.account id job turns =
      { state := job.state, attempts := job.attempts, begun := job.started, guest := job.fromRemote
        turns, starts, parses, landings, returns } := by
  simp only [tally, Prod.mk.injEq] at h
  unfold account
  rw [h.1, h.2.1, h.2.2.1, h.2.2.2]

theorem Blank.congr {s s' : Scheduler} (h : g.Blank s id) (hturns : s'.turnsOf id = s.turnsOf id)
    (htally : g'.tally id = g.tally id) : g'.Blank s' id :=
  ⟨hturns.trans h.turns, htally.trans h.tally⟩

end Ledger

namespace Orderly

variable {g g' : Ledger} {s s' : Scheduler} {n : Nat} {t t' : Task} {id : JobId} {job job' : Job}

theorem still (h : Orderly g s) (hturns : ∀ id, s'.turnsOf id = s.turnsOf id)
    (hjobs : s'.jobs = s.jobs) (hline : s'.Asleep) (htally : ∀ id, g'.tally id = g.tally id) :
    Orderly g' s' where
  known := by rw [hjobs]; exact h.known
  sound := fun id job hjob => by
    rw [hjobs] at hjob
    rw [Ledger.account_congr (htally id), hturns]
    exact h.sound id job hjob
  blank := fun id hjob => by
    rw [hjobs] at hjob
    exact (h.blank id hjob).congr (hturns id) (htally id)
  line := hline

theorem change (h : Orderly g s) (hjob : s.jobs.get? id = some job)
    (hjobs : ∀ id', s'.jobs.get? id' = if id' = id then some job' else s.jobs.get? id')
    (hsize : s'.jobs.size = s.jobs.size) (hid : job'.id = id)
    (hturns : ∀ id', id' ≠ id → s'.turnsOf id' = s.turnsOf id')
    (htally : ∀ id', id' ≠ id → g'.tally id' = g.tally id')
    (hsound : (g'.account id job' (s'.turnsOf id)).Sound) (hline : s'.Asleep) :
    Orderly g' s' where
  known := fun id' j hj => by
    rw [hjobs] at hj
    rw [hsize]
    split at hj
    · next heq =>
      cases hj
      rw [heq]
      exact ⟨hid, (h.known id job hjob).2⟩
    · exact h.known id' j hj
  sound := fun id' j hj => by
    rw [hjobs] at hj
    split at hj
    · next heq =>
      cases hj
      rw [heq]
      exact hsound
    · next hne =>
      rw [Ledger.account_congr (htally id' hne), hturns id' hne]
      exact h.sound id' j hj
  blank := fun id' hj => by
    rw [hjobs] at hj
    split at hj
    · cases hj
    · next hne => exact (h.blank id' hj).congr (hturns id' hne) (htally id' hne)
  line := hline

/-- The number of the next job is new: those in use are smaller, and numbers have not begun to
repeat. -/
theorem get?_next (h : Orderly g s) (hroom : s.jobs.size < UInt64.size) :
    s.jobs.get? (jobOf s.jobs.size) = none := by
  cases hold : s.jobs.get? (jobOf s.jobs.size) with
  | none => rfl
  | some =>
    obtain ⟨-, m, hm, heq⟩ := h.known _ _ hold
    have := jobOf_inj hroom (by omega) heq
    omega

variable {kind : JobKind} {i : Invocation} {guest : Bool} {p : Progress} {setup : RunSetup}
  {a : Action}

section

variable (h : Orderly g s)

include h

theorem opened (hroom : s'.jobs.size < UInt64.size) {answers : Bool}
    (hanswers : answers = true → guest = true) (hjobs : s'.jobs
      = s.jobs.insert (jobOf s.jobs.size) (Job.make (jobOf s.jobs.size) kind i guest))
    (hturns : s.turnsOf (jobOf s.jobs.size) = [] →
      s'.turnsOf (jobOf s.jobs.size) = [⟨0, answers, .waiting⟩])
    (hothers : ∀ id, id ≠ jobOf s.jobs.size → s'.turnsOf id = s.turnsOf id)
    (htally : ∀ id, g'.tally id = g.tally id) (hline : s'.Asleep) : Orderly g' s' := by
  replace hroom : s.jobs.size < UInt64.size := by
    rw [hjobs, size_insert] at hroom
    split at hroom <;> omega
  have hnew := h.get?_next hroom
  have hget : ∀ id, s'.jobs.get? id = if id = jobOf s.jobs.size
      then some (Job.make (jobOf s.jobs.size) kind i guest) else s.jobs.get? id := by
    intro id
    rw [hjobs]
    simp only [get?_insert, Std.compare_eq_iff_eq]
  have hsize : s'.jobs.size = s.jobs.size + 1 := by
    rw [hjobs, size_insert, if_neg]
    unfold SortedMap.contains
    rw [hnew]
    decide
  refine ⟨fun id job hjob => ?_, fun id job hjob => ?_, fun id hjob => ?_, hline⟩
  · rw [hget] at hjob
    rw [hsize]
    split at hjob
    · next heq =>
      cases hjob
      exact ⟨heq.symm, s.jobs.size, by omega, heq⟩
    · obtain ⟨hid, m, hm, heq⟩ := h.known id job hjob
      exact ⟨hid, m, by omega, heq⟩
  · rw [hget] at hjob
    split at hjob
    · next heq =>
      cases hjob
      have hblank := h.blank _ hnew
      rw [heq, hturns hblank.turns, Ledger.account_eq ((htally _).trans hblank.tally)]
      exact Account.Sound.opened guest answers hanswers
    · next hne =>
      rw [Ledger.account_congr (htally id), hothers id hne]
      exact h.sound id job hjob
  · rw [hget] at hjob
    split at hjob
    · cases hjob
    · next hne => exact (h.blank id hjob).congr (hothers id hne) (htally id)

theorem turn (ht : s.tasks[n]? = some t) (hid : t.errand.job? = some id)
    (hjob : s.jobs.get? id = some job)
    (hcards : s'.cards = s.cards.set n (t.errand.job?, t.turn.moved p))
    (hjobs : ∀ id', s'.jobs.get? id' = if id' = id then some job' else s.jobs.get? id')
    (hsize : s'.jobs.size = s.jobs.size) (hname : job'.id = id) (hline : s'.Asleep)
    (htally : ∀ id', id' ≠ id → g'.tally id' = g.tally id')
    (hsound : ∀ l l', (g.account id job (l ++ t.turn :: l')).Sound →
      (g'.account id job' (l ++ t.turn.moved p :: l')).Sound) : Orderly g' s' := by
  have hcard := getElem?_cards ht
  refine h.change hjob hjobs hsize hname (fun id' hne => ?_) htally ?_ hline
  · refine turnsOf_set_ne hcard hcards fun heq => ?_
    rw [hid] at heq
    exact hne (some.inj heq).symm
  · obtain ⟨l, l', hbefore, hafter⟩ := turnsOf_split hcard hcards id
    rw [if_pos hid, append_assoc, singleton_append] at hbefore hafter
    have hold := h.sound id job hjob
    rw [hbefore] at hold
    rw [hafter]
    exact hsound l l' hold

section

variable (ht : s.tasks[n]? = some t)
  (hcards : s'.cards = s.cards.set n (t.errand.job?, t.turn.moved p)) (hjobs : s'.jobs = s.jobs)
  (hline : s'.Asleep)

include ht hcards hjobs hline

theorem proceed (htally : ∀ id, t.errand.job? ≠ some id → g'.tally id = g.tally id)
    (hsound : ∀ id job, t.errand.job? = some id → s.jobs.get? id = some job →
      ∀ l l', (g.account id job (l ++ t.turn :: l')).Sound →
        (g'.account id job (l ++ t.turn.moved p :: l')).Sound) : Orderly g' s' := by
  cases hid : t.errand.job? with
  | none =>
    have hnone : ∀ id, t.errand.job? ≠ some id := by simp [hid]
    exact h.still (fun id => turnsOf_set_ne (getElem?_cards ht) hcards (hnone id)) hjobs
      hline (fun id => htally id (hnone id))
  | some id =>
    obtain ⟨job, hjob, -⟩ := h.staffed ht hid
    obtain ⟨hget, hsize⟩ := jobs_insert hjob (hjobs.trans (insert_of_get? hjob).symm)
    refine h.turn ht hid hjob hcards hget hsize (h.known id job hjob).1 hline
      (fun id' hne => htally id' fun heq => hne ?_) (hsound id job hid hjob)
    exact (some.inj (hid.symm.trans heq)).symm

theorem pass (htally : ∀ id, g'.tally id = g.tally id)
    (hpass : p = t.phase.progress ∨ (p.isPast = true ∧ ∀ id job, t.errand.job? = some id →
      s.jobs.get? id = some job → ¬ (job.state.waits = true ∧ t.errand.attempt = job.attempts
        ∧ t.phase.progress = .waiting))) : Orderly g' s' := by
  refine h.proceed ht hcards hjobs hline (fun id _ => htally id) fun id job hid hjob l l' hold => ?_
  rw [Ledger.account_congr (htally id)]
  rcases hpass with rfl | ⟨hpast, hdue⟩
  · exact hold
  · exact hold.release rfl hpast (hdue id job hid hjob)

end

/-! ## Steps of tasks -/

theorem releasePermit : Orderly g s.releasePermit.1 := by
  obtain ⟨hline, hcards, -⟩ := h.line.releasePermit
  exact h.still (turnsOf_congr hcards) (jobs_releasePermit s) hline (fun _ => rfl)

theorem recount (htally : ∀ id, g'.tally id = g.tally id) : Orderly g' s :=
  h.still (fun _ => rfl) rfl h.line htally

omit h in
theorem tally_step (g : Ledger) (s' : Scheduler) (hopen : s.landingOf n = []) (id : JobId) :
    (g.add s (.step n) s').tally id
      = ((g.tally id).1 + (s'.runs id && !s.runs id).toNat, (g.tally id).2) := by
  unfold Ledger.tally Ledger.landings Ledger.add
  simp only [count_append, count_begins, Scheduler.parsedBy, returnedBy,
    Scheduler.landedBy, hopen, append_nil]

omit h in
theorem tally_still (g : Ledger) (hjobs : s'.jobs = s.jobs) (hopen : s.landingOf n = [])
    (id : JobId) : (g.add s (.step n) s').tally id = g.tally id := by
  rw [tally_step g s' hopen, runs_of_jobs hjobs]
  simp

omit h in
theorem runs_of_created (hjobs : s'.jobs = s.jobs.insert id (Job.make id kind i guest))
    (id' : JobId) (hruns : s'.runs id' = true) : s.runs id' = true := by
  unfold Scheduler.runs at hruns ⊢
  rw [hjobs, get?_insert] at hruns
  split at hruns
  · simp [Job.make] at hruns
  · exact hruns

section

variable (ht : s.tasks[n]? = some t)

include ht

/-- **A task ends its job.** -/
theorem ended {outcome : Except FrontendError ParsedUnit} (hphase : t.phase = .closing i outcome)
    (hid : t.errand.job? = some id) (hjob : s.jobs.get? id = some job)
    (htasks : s'.tasks = s.tasks.set n t') (herrand : t'.errand = t.errand)
    (hpast : t'.phase.progress.isPast = true) (hline : s'.line = s.line)
    (visited : SortedSet FileId) {next : JobState} (hrunning : job.state = .runningLocal)
    (hnext : next = .completeLocal ∨ next = .crashed)
    (hjobs : s'.jobs = s.jobs.insert id { job with visited, state := next })
    (hlanded : (s.landingOf n).map Landing.job
      = if next = .completeLocal ∧ t.errand.answers = false then [job] else []) :
    Orderly (g.add s (.step n) s') s' := by
  obtain ⟨hget, hsize⟩ := jobs_insert hjob hjobs
  have hname := (h.known id job hjob).1
  have hbusy : t.turn.progress.isBusy = true := by
    show t.phase.progress.isBusy = true
    rw [hphase]
    rfl
  have hends : ∀ id', s'.runs id' = true → s.runs id' = true := by
    intro id' hruns
    unfold Scheduler.runs at hruns ⊢
    rw [hget] at hruns
    split at hruns
    · rcases hnext with rfl | rfl <;> cases hruns
    · exact hruns
  have htally : ∀ id', (g.add s (.step n) s').tally id' = ((g.tally id').1, (g.tally id').2.1,
      (g.tally id').2.2.1 + ((s.landingOf n).map Landing.job).countP (fun j => j.id = id'),
      (g.tally id').2.2.2) := by
    intro id'
    unfold Ledger.tally Ledger.landings Ledger.add
    simp only [begins_eq_nil hends, Scheduler.parsedBy, returnedBy,
      Scheduler.landedBy, append_nil, countP_append, countP_map]
    rfl
  refine h.turn ht hid hjob (cards_set htasks herrand) hget hsize hname
    (h.line.set (h.line.not_mem ht (by simp [hphase])) htasks hline) (fun id' hne => ?_)
    (fun l l' hold => ?_)
  · rw [htally, hlanded]
    split
    · rw [countP_singleton, hname, if_neg (by simpa using fun heq => hne heq.symm)]
      rfl
    · rfl
  · have hcounts := htally id
    simp only [Ledger.tally, Prod.mk.injEq] at hcounts
    have hlandings : job.fromRemote = false → (g.add s (.step n) s').landings id
        = g.landings id + next.isComplete.toNat := by
      intro hguest
      have hanswers : t.errand.answers = false := by
        cases hanswers : t.errand.answers with
        | false => rfl
        | true =>
          have hguest' := (h.sound id job hjob).answers t.turn (mem_turnsOf ht hid) hanswers
          cases hguest.symm.trans hguest'
      rw [hcounts.2.2.1, hlanded]
      rcases hnext with rfl | rfl
      · rw [if_pos ⟨rfl, hanswers⟩, countP_singleton, hname]
        simp [JobState.isComplete]
      · simp [JobState.isComplete]
    have hended := hold.close rfl hbusy hrunning hpast hnext hlandings
    unfold Ledger.account
    simp only [hcounts.1, hcounts.2.1, hcounts.2.2.2]
    exact hended

/-- **A task starts its job.** -/
theorem started (hphase : t.phase = .granted)
    (hid : t.errand.job? = some id) (hjob : s.jobs.get? id = some job)
    (hwaits : job.state.waits = true) (htasks : s'.tasks = s.tasks.set n t')
    (herrand : t'.errand = t.errand) (hbusy : t'.phase.progress.isBusy = true)
    (hline : s'.line = s.line)
    (hjobs : s'.jobs = s.jobs.insert id { job with state := .runningLocal, started := true }) :
    Orderly (g.add s (.step n) s') s' := by
  have hopen : s.landingOf n = [] := landingOf_eq_nil ht (by simp [hphase])
  obtain ⟨hget, hsize⟩ := jobs_insert hjob hjobs
  have hruns : s'.runs id = true ∧ s.runs id = false := by
    unfold Scheduler.runs
    rw [hget, if_pos rfl, hjob]
    refine ⟨rfl, ?_⟩
    rcases JobState.waits_iff.mp hwaits with hstate | hstate <;> simp [hstate]
  refine h.turn ht hid hjob (cards_set htasks herrand) hget hsize
    (h.known id job hjob).1 (h.line.set (h.line.not_mem ht (by simp [hphase])) htasks hline)
    (fun id' hne => ?_) (fun l l' hold => ?_)
  · have hsame : s'.runs id' = s.runs id' := by
      unfold Scheduler.runs
      rw [hget, if_neg hne]
    rw [tally_step g s' hopen, hsame]
    simp
  · have htally := tally_step g s' hopen id
    rw [hruns.1, hruns.2] at htally
    rw [Ledger.account_eq htally]
    exact hold.start rfl hwaits hbusy

theorem builds (hphase : t.phase = .fresh)
    (herrand : t.errand = .request i) {r : Pch.Reservation}
    (htasks : s'.tasks = s.tasks.set n { errand := .header (jobOf s.jobs.size) r, phase := .asking })
    (hline : s'.line = s.line) (hjobs : s'.jobs
      = s.jobs.insert (jobOf s.jobs.size) (Job.make (jobOf s.jobs.size) .pch i false))
    (hroom : s'.jobs.size < UInt64.size) : Orderly (g.add s (.step n) s') s' := by
  have hcard := getElem?_cards ht
  rw [herrand] at hcard
  have hcards : s'.cards = s.cards.set n (some (jobOf s.jobs.size), ⟨0, false, .waiting⟩) := by
    unfold Scheduler.cards
    rw [htasks, map_set]
    rfl
  have hguest : false = true → false = true := id
  refine h.opened hroom hguest hjobs (fun hnone => ?_) (fun id hne => ?_)
    (Ledger.tally_add_of_nil (runs_of_created hjobs) rfl
      (landingOf_eq_nil ht (by simp [hphase])) rfl)
    (h.line.set (h.line.not_mem ht (by simp [hphase])) htasks hline)
  · obtain ⟨l, l', hbefore, hafter⟩ := turnsOf_split hcard hcards (jobOf s.jobs.size)
    rw [hnone, if_neg (by simp [Errand.job?]), append_nil] at hbefore
    obtain ⟨rfl, rfl⟩ := append_eq_nil_iff.mp hbefore.symm
    simpa using hafter
  · obtain ⟨l, l', hbefore, hafter⟩ := turnsOf_split hcard hcards id
    rw [hbefore, hafter, if_neg (fun heq => hne (some.inj heq).symm),
      if_neg (by simp [Errand.job?])]

theorem passes (hawake : t.phase ≠ .inLine)
    {jobs : SortedMap JobId Job} {permits : Nat} {table : PchTable}
    (hfloor : s'.floor = (s.tasks.set n t', jobs, s.line, permits, table)) (hjobs : jobs = s.jobs)
    (herrand : t'.errand = t.errand)
    (hpass : t'.phase.progress = t.phase.progress ∨ (t'.phase.progress.isPast = true
      ∧ ∀ id job, t.errand.job? = some id → s.jobs.get? id = some job → ¬ (job.state.waits = true
        ∧ t.errand.attempt = job.attempts ∧ t.phase.progress = .waiting))) : Orderly g s' := by
  have htasks := floor_tasks hfloor
  exact h.pass ht (cards_set htasks herrand) ((floor_jobs hfloor).trans hjobs)
    (h.line.set (h.line.not_mem ht hawake) htasks (floor_line hfloor)) (fun _ => rfl) hpass

end

/-- **Every step of a task.** -/
theorem step {woken : List Nat} (hstep : s.step? setup n = some (s', woken))
    (hroom : s'.jobs.size < UInt64.size) : Orderly (g.add s (.step n) s') s' := by
  cases transition_step h.staffed hstep with
  | @shifts _ _ t t' ht _ haside _ herrand _ hfloor _ hmoves =>
    have hopen : s.landingOf n = [] := landingOf_eq_nil ht fun i outcome hphase => by
      rw [hphase] at haside
      cases haside
    refine (h.passes ht (fun hphase => ?_) hfloor rfl herrand
      (hmoves.imp_right fun hpast => ⟨hpast.1, fun id job hid hjob hdue => ?_⟩)).recount
      (tally_still g (floor_jobs hfloor) hopen)
    · rw [hphase] at haside
      cases haside
    · rcases hpast.2 with hpast | hnone
      · rw [hdue.2.2] at hpast
        cases hpast
      · cases (hnone id hid).symm.trans hjob
  | learns ht hphase _ hfloor =>
    refine (h.passes ht (by simp [hphase]) hfloor rfl rfl
      (.inr ⟨rfl, fun id job _ _ hdue => ?_⟩)).recount
      (tally_still g (floor_jobs hfloor) (landingOf_eq_nil ht (by simp [hphase])))
    exact absurd hdue.2.2 (by simp [hphase, Phase.progress])
  | builds ht hphase herrand _ _ hfloor =>
    exact h.builds ht hphase herrand (floor_tasks hfloor) (floor_line hfloor) (floor_jobs hfloor)
      hroom
  | @asks _ t ht hphase =>
    obtain ⟨phase, hnext, htasks, hjobs, -⟩ := askPermit_cases ht
    refine h.pass ht (cards_set htasks rfl) hjobs (h.line.askPermit ht (by simp [hphase]))
      (tally_still g hjobs (landingOf_eq_nil ht (by simp [hphase]))) (.inl ?_)
    rcases hnext with rfl | rfl <;> rw [hphase] <;> rfl
  | starts ht hphase hid hjob _ hwaits _ hnext _ hfloor =>
    refine h.started ht hphase hid hjob hwaits (floor_tasks hfloor) rfl ?_ (floor_line hfloor)
      (floor_jobs hfloor)
    rcases hnext with ⟨request, indexer, rfl⟩ | ⟨outcome, rfl⟩ <;> rfl
  | @declines s₁ _ t answer ht hphase hnone hfloor =>
    refine (h.passes ht (by simp [hphase]) hfloor rfl rfl
      (.inr ⟨rfl, fun id job hid hjob hdue => ?_⟩)).releasePermit.recount
      (tally_still g ((jobs_releasePermit s₁).trans (floor_jobs hfloor))
        (landingOf_eq_nil ht (by simp [hphase])))
    exact startLocal?_eq_none (hnone id hid) hjob ⟨hdue.1, hdue.2.1⟩
  | parses ht hphase =>
    -- The end of a front end is not a step of its task.
    unfold Scheduler.step? at hstep
    simp only [ht, hphase] at hstep
    cases hstep
  | @frees _ t i outcome ht hphase =>
    have hout := h.line.not_mem ht (by simp [hphase])
    obtain ⟨hline, -, hout'⟩ := h.line.releasePermit
    have ht' := (getElem?_releasePermit hout).trans ht
    have htasks := tasks_frees h.line ht hphase
    exact h.releasePermit.pass ht' (cards_set htasks rfl) rfl (hline.set (hout' n hout) htasks rfl)
      (tally_still g (jobs_releasePermit s) (landingOf_eq_nil ht (by simp [hphase])))
      (.inl (by rw [hphase]; rfl))
  | @closes _ _ t i outcome id job job' how phase answer jobs tallies ht hphase hid hjob _ hdone _ hget
      hfloor hsettles =>
    have htasks := floor_tasks hfloor
    have hline := floor_line hfloor
    have hpast : phase.progress.isPast = true := by
      cases phase <;> first | rfl | cases hdone
    have hinsert := (floor_jobs hfloor).trans (eq_insert_of_get? hget)
    cases hsettles with
    | kept _ _ hopen =>
      have hsame := (eq_insert_of_get? hget).trans (insert_of_get? hjob)
      refine (h.passes ht (by simp [hphase]) hfloor hsame rfl
        (.inr ⟨hpast, fun id job _ _ hdue => ?_⟩)).recount
        (tally_still g ((floor_jobs hfloor).trans hsame) hopen)
      exact absurd hdue.2.2 (by simp [hphase, Phase.progress])
    | told visited hanswers hrunning hnext _ _ hopen =>
      refine h.ended ht hphase hid hjob htasks rfl hpast hline visited hrunning hnext hinsert ?_
      rw [hopen, if_neg (by simp [hanswers])]
      rfl
    | settled visited hanswers hrunning hnext _ hlanded =>
      refine h.ended ht hphase hid hjob htasks rfl hpast hline visited hrunning hnext hinsert ?_
      rw [hlanded]
      simp [hanswers]
  | leaves ht hphase hid hfloor =>
    have hopen : s.landingOf n = [] := by
      rw [landingOf_closing ht hphase]
      split <;> simp_all [Errand.job?]
    refine (h.passes ht (by simp [hphase]) hfloor rfl rfl
      (.inr ⟨rfl, fun id job hid' => ?_⟩)).recount (tally_still g (floor_jobs hfloor) hopen)
    cases hid.symm.trans hid'

/-- **The end of a front end.** -/
theorem endParse (hend : s.endParse? setup n = some s') : Orderly (g.add s (.parse n) s') s' := by
  obtain ⟨t, request, indexer, ht, hphase, disk, calls, errors, log, hended⟩ :=
    endParse?_eq_some hend
  have hjobs : s'.jobs = s.jobs := by rw [hended]
  have htasks := congrArg Scheduler.tasks hended
  have hcards := cards_set htasks rfl
  have hline' := h.line.set (h.line.not_mem ht (by simp [hphase])) htasks (by rw [hended])
  have htally : ∀ id, (g.add s (.parse n) s').tally id = ((g.tally id).1,
      (g.tally id).2.1 + (t.errand.job?.toList).count id, (g.tally id).2.2) := by
    intro id
    unfold Ledger.tally Ledger.landings Ledger.add
    simp only [begins_eq_nil
      (fun id hid => (runs_of_jobs hjobs id).symm.trans hid), Scheduler.parsedBy,
      Scheduler.landedBy, returnedBy, append_nil, count_append, ht,
      bind_some]
  refine h.proceed ht hcards hjobs hline' (fun id hid => ?_) fun id job hid _ l l' hold => ?_
  · rw [htally, count_eq_zero.mpr (by simpa using hid)]
    rfl
  · rw [Ledger.account_eq (htally id), hid, toList_some, count_singleton_self]
    exact hold.parse rfl (show t.phase.progress = .parsing by rw [hphase]; rfl)

/-! ## What is asked of a run from outside -/

theorem steer {more : List Task} (hmoves : s.Moves id job more job' s')
    (hname : job'.id = job.id) (hmore : ∀ t ∈ more, t.errand.job? = some id)
    (hruns : job'.state = .runningLocal → job.state = .runningLocal) (hparsed : s.parsedBy a = [])
    (hlanded : ∀ l ∈ s.landedBy a, l.job.id = id)
    (hreturned : ∀ id' ∈ returnedBy a, id' = id)
    (hsound : (g.account id job (s.turnsOf id)).Sound →
      Account.Sound { state := job'.state, attempts := job'.attempts, begun := job'.started
                      guest := job'.fromRemote, turns := s.turnsOf id ++ more.map Task.turn
                      starts := g.started.count id, parses := g.parsed.count id
                      landings := g.landings id + (s.landedBy a).length
                      returns := g.returned.count id + (returnedBy a).length }) :
    Orderly (g.add s a s') s' := by
  have hrun : ∀ id', s'.runs id' = true → s.runs id' = true := by
    intro id' hrun
    unfold Scheduler.runs at hrun ⊢
    rw [hmoves.jobs] at hrun
    split at hrun
    · next heq =>
      rw [heq, hmoves.filed]
      exact decide_eq_true (hruns (of_decide_eq_true hrun))
    · exact hrun
  have htally : ∀ id', (g.add s a s').tally id' = ((g.tally id').1, (g.tally id').2.1,
      (g.tally id').2.2.1 + (s.landedBy a).countP (fun l => l.job.id = id'),
      (g.tally id').2.2.2 + (returnedBy a).count id') := by
    intro id'
    unfold Ledger.tally Ledger.landings Ledger.add
    simp only [begins_eq_nil hrun, hparsed, append_nil, countP_append, count_append]
  refine h.change hmoves.filed hmoves.jobs hmoves.size (hname.trans (h.known id job hmoves.filed).1)
    (fun id' hne => ?_) (fun id' hne => ?_) ?_ (h.line.append hmoves.tasks hmoves.line)
  · have hnone : more.filter (fun t => t.errand.job? = some id') = [] := by
      refine filter_eq_nil_iff.mpr fun t ht heq => hne ?_
      exact some.inj ((of_decide_eq_true heq).symm.trans (hmore t ht))
    rw [turnsOf_append hmoves.tasks, hnone, map_nil, append_nil]
  · have hnone : (s.landedBy a).countP (fun l => l.job.id = id') = 0 :=
      countP_eq_zero.mpr fun l hl heq =>
        hne ((of_decide_eq_true heq).symm.trans (hlanded l hl))
    have hnone' : (returnedBy a).count id' = 0 :=
      count_eq_zero.mpr fun hmem => hne (hreturned id' hmem)
    rw [htally, hnone, hnone']
    rfl
  · have hall : more.filter (fun t => t.errand.job? = some id) = more :=
      filter_eq_self.mpr fun t ht => decide_eq_true (hmore t ht)
    have hlandings : (s.landedBy a).countP (fun l => l.job.id = id) = (s.landedBy a).length :=
      countP_eq_length.mpr fun l hl => decide_eq_true (hlanded l hl)
    have hreturns : (returnedBy a).count id = (returnedBy a).length :=
      count_eq_length.mpr fun id' hmem => (hreturned id' hmem).symm
    have hcounts := htally id
    rw [hlandings, hreturns] at hcounts
    rw [turnsOf_append hmoves.tasks, hall, Ledger.account_eq hcounts]
    exact hsound (h.sound id job hmoves.filed)

theorem steerOnly (hmoves : s.Moves id job [] job' s') (hname : job'.id = job.id)
    (hruns : job'.state = .runningLocal → job.state = .runningLocal) (hparsed : s.parsedBy a = [])
    (hlanded : s.landedBy a = []) (hreturned : returnedBy a = [])
    (hsound : (g.account id job (s.turnsOf id)).Sound →
      (g.account id job' (s.turnsOf id)).Sound) : Orderly (g.add s a s') s' := by
  refine h.steer hmoves hname (fun t ht => absurd ht not_mem_nil) hruns hparsed
    (fun l hl => ?_) (fun id' hid => ?_) (fun hold => ?_)
  · rw [hlanded] at hl
    cases hl
  · rw [hreturned] at hid
    cases hid
  · rw [map_nil, append_nil, hlanded, hreturned]
    exact hsound hold

theorem opens (hroom : s'.jobs.size < UInt64.size) {errand : Errand}
    (hopens : s.Opens i errand s') (hparsed : s.parsedBy a = []) (hlanded : s.landedBy a = [])
    (hreturned : returnedBy a = []) : Orderly (g.add s a s') s' := by
  obtain ⟨kind, hjobs⟩ := hopens.jobs
  refine h.opened hroom (fun hanswers => hanswers) hjobs (fun hnone => ?_) (fun id' hne => ?_)
    (Ledger.tally_add_of_nil (runs_of_created hjobs) hparsed hlanded hreturned)
    (h.line.append hopens.tasks hopens.line)
  · rw [turnsOf_append hopens.tasks, hnone]
    simp only [filter_cons, hopens.job, decide_true, if_true, filter_nil, map_cons,
      map_nil, nil_append]
    unfold Task.turn
    rw [hopens.attempt]
    rfl
  · have hother : ¬ errand.job? = some id' := fun heq =>
      hne (some.inj (heq.symm.trans hopens.job))
    rw [turnsOf_append hopens.tasks]
    simp [hother]

/-- **Every action keeps the accounts sound.** -/
theorem act (hact : s.act? setup a = some s')
    (hroom : s'.jobs.size < UInt64.size) : Orderly (g.add s a s') s' := by
  cases a with
  | submit i =>
    cases hact
    rcases s.submit_opens setup i with ⟨-, hfloor, -⟩ | ⟨-, -, errand, -, hopens⟩
    · have htasks := floor_tasks hfloor
      have hjobs := floor_jobs hfloor
      exact h.still (turnsOf_of_tasks htasks) hjobs (h.line.congr htasks (floor_line hfloor))
        (Ledger.tally_add_of_nil (fun id hid => (runs_of_jobs hjobs id).symm.trans hid) rfl rfl rfl)
    · exact h.opens hroom hopens rfl rfl rfl
  | request =>
    cases hact
    refine h.still (fun id => ?_) rfl (h.line.append rfl rfl)
      (Ledger.tally_add_of_nil (fun _ hid => hid) rfl rfl rfl)
    rw [turnsOf_append (s := s) rfl]
    simp [Errand.job?]
  | serve i =>
    cases hact
    exact h.opens hroom (s.submitFromRemote_opens setup i) rfl rfl rfl
  | step =>
    obtain ⟨⟨s₁, woken⟩, hstep, rfl⟩ := map_eq_some_iff.mp hact
    exact h.step hstep hroom
  | parse => exact h.endParse hact
  | handOff =>
    obtain ⟨job, hwaits, -, -, hmoves⟩ := handOff_eq_some hact
    exact h.steerOnly hmoves rfl (fun heq => by cases heq) rfl rfl rfl
      fun hsound => hsound.handOff hwaits
  | completeRemote id c source =>
    obtain ⟨job, hjob, hremote, ⟨e, hintegrate, rfl⟩ | ⟨visited, hintegrate, -, hmoves⟩⟩ :=
      completeRemote_eq_some hact
    · have hlanded : s'.landedBy (.completeRemote id c source) = [] := by
        unfold Scheduler.landedBy
        simp only [hjob, hintegrate]
      exact h.recount (Ledger.tally_add_of_nil (fun _ hid => hid) rfl hlanded rfl)
    · have hlanded : s.landedBy (.completeRemote id c source)
          = [{ job, unit := { contribution := c, source }, reservation := none }] := by
        unfold Scheduler.landedBy
        simp only [hjob, hintegrate]
      refine h.steer hmoves rfl (fun t ht => absurd ht not_mem_nil) (fun heq => by cases heq)
        rfl (fun l hl => ?_) (fun id' hid => absurd hid not_mem_nil) fun hsound => ?_
      · rw [hlanded] at hl
        rw [mem_singleton.mp hl]
        exact (h.known id job hjob).1
      · rw [hlanded, map_nil, append_nil]
        exact hsound.completeRemote hremote
  | reschedule =>
    obtain ⟨job, hremote, -, -, hmoves⟩ := reschedule_eq_some hact
    exact h.steer hmoves rfl (fun t ht => by rw [mem_singleton.mp ht]; rfl)
      (fun heq => by cases heq) rfl (fun l hl => absurd hl not_mem_nil)
      (fun id' hid => mem_singleton.mp hid) fun hsound => hsound.reschedule hremote
  | abort =>
    obtain ⟨job, hterminal, -, -, hmoves⟩ := abort_eq_some hact
    exact h.steerOnly hmoves rfl (fun heq => by cases heq) rfl rfl rfl
      fun hsound => hsound.abort hterminal
  | block =>
    obtain ⟨job, blockedFiles, -, -, hmoves⟩ := recordBlockedFile_eq_some hact
    exact h.steerOnly hmoves rfl (fun heq => heq) rfl rfl rfl fun hsound => hsound
  | recount f =>
    cases hact
    obtain ⟨htasks, hline, hjobs⟩ := core_recounted s f
    exact h.still (turnsOf_of_tasks htasks) hjobs (h.line.congr htasks hline)
      (Ledger.tally_add_of_nil (fun id hid => (runs_of_jobs hjobs id).symm.trans hid) rfl rfl rfl)
  | meanwhile =>
    cases hact
    exact h.still (fun _ => rfl) rfl (h.line.congr rfl rfl)
      (Ledger.tally_add_of_nil (fun _ hid => hid) rfl rfl rfl)

end

theorem start (setup : RunSetup) (world : World) (state : IndexState) :
    Orderly {} (Scheduler.start setup world state) where
  known := fun id job hjob => absurd hjob (by simp [Scheduler.start])
  sound := fun id job hjob => absurd hjob (by simp [Scheduler.start])
  blank := fun id _ => ⟨rfl, rfl⟩
  line := ⟨nodup_nil, fun n hn => absurd hn not_mem_nil⟩

end Orderly

namespace SteeredRun

variable {setup : RunSetup} {s s' : Scheduler} {g : Ledger}

/-- **At every moment of every run every job's account is sound.** -/
theorem orderly {world : World} {state : IndexState}
    (h : SteeredRun setup (Scheduler.start setup world state) g s)
    (hroom : g.peak < UInt64.size) : Orderly g s := by
  induction h with
  | start => exact .start setup world state
  | @act g s₁ s₂ a _ hact _ ih =>
    have hpeak : max g.peak s₂.jobs.size < UInt64.size := hroom
    exact (ih (by omega)).act hact (by omega)

end SteeredRun

end SymbolIndex
