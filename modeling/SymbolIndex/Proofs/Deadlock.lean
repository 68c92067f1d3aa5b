import SymbolIndex.Proofs.OnceOnly
import SymbolIndex.Proofs.ReservationOwners

/-!
# Nothing comes to a standstill

A task sleeps in the line for permits or until a reservation is settled. Who has a permit does not
sleep (`stirs_of_holdsPermit`), and there are as many permits as there were at the start, free or
held (`Licensed`); so as long as someone is in the line, someone else can move. A reservation that
is not settled is in the hands of a task that waits for no other reservation (`ReservationsOwned`),
so that task can move or is in the line. A job that waits has a task that is to start it, and one
that runs has a task that is busy with it (`Manned`): together there is always something that can
move.
-/

namespace SymbolIndex

open Bool List Option Phase

variable {p : Phase}

/-- Whether a task has a permit in this phase. -/
def Phase.holdsPermit : Phase → Bool
  | .granted | .parsing _ _ | .parsed _ _ => true
  | _ => false

def Phase.ticket? : Phase → Option Nat
  | .awaiting ticket _ | .expecting ticket _ => some ticket
  | _ => none

theorem Phase.holdsPermit_of_isAside (h : p.isAside = true) :
    p.holdsPermit = false ∧ p ≠ .inLine := by
  cases p <;> simp_all [isAside, holdsPermit]

theorem Phase.holdsPermit_of_isDone (h : p.isDone = true) :
    p.holdsPermit = false ∧ p ≠ .inLine := by
  cases p <;> simp_all [isDone, holdsPermit]

theorem Phase.ticket?_of_holdsPermit (h : p.holdsPermit = true) : p.ticket? = none := by
  cases p <;> simp_all [holdsPermit, ticket?]

theorem Phase.not_busy_of_isAside (h : p.isAside = true) : p.progress.isBusy = false := by
  cases p <;> simp_all [isAside, progress, Progress.isBusy]

theorem Phase.ticket?_of_seeks (h : p.seeks = false) : p.ticket? = none := by
  cases p <;> simp_all [seeks, ticket?]

theorem Fate.not_running {s : Scheduler} {job job' : Job} {outcome : Except FrontendError ParsedUnit}
    {how : Pch.Ending} (h : Fate s job outcome how job')
    (hstate : job.state = .runningLocal ∨ job.state = .aborted)
    (hroom : ∀ unit e, outcome = .ok unit →
      s.state.integrate unit.contribution unit.source ≠ .error e) :
    job'.state ≠ .runningLocal := by
  cases h with
  | dropped habort => simp [habort]
  | lost _ herror => exact absurd herror (hroom _ _ rfl)
  | landed visited habort =>
    have hmove : ({ job with visited } : Job).state.canMoveTo .completeLocal = true := by
      simp only [hstate.resolve_right habort]
      rfl
    simp [Job.advance_of_canMoveTo hmove]
  | failed habort =>
    have hmove : job.state.canMoveTo .crashed = true := by
      rw [hstate.resolve_right habort]
      rfl
    simp [Job.advance_of_canMoveTo hmove]

namespace Scheduler

variable {setup : RunSetup} {s s' : Scheduler} {n : Nat} {t t' : Task} {who : Option Nat}

/-! ## Permits -/

def holders (s : Scheduler) : Nat := s.tasks.countP (fun t => t.phase.holdsPermit)

theorem holders_set (ht : s.tasks[n]? = some t) (htasks : s'.tasks = s.tasks.set n t') :
    s'.holders + t.phase.holdsPermit.toNat = s.holders + t'.phase.holdsPermit.toNat :=
  countP_tasks ht htasks (fun t => t.phase.holdsPermit)

theorem holders_pos (ht : s.tasks[n]? = some t) (hholds : t.phase.holdsPermit = true) :
    0 < s.holders :=
  countP_pos_iff.mpr ⟨t, mem_of_getElem? ht, hholds⟩

/-- There are `k` permits, free or held; while someone is in the line none is free. -/
structure Licensed (k : Nat) (s : Scheduler) : Prop where
  count : s.permits + s.holders = k
  full : s.line ≠ [] → s.permits = 0
  queue : ∀ (n : Nat) (t : Task), s.tasks[n]? = some t → t.phase = .inLine → n ∈ s.line

namespace Licensed

variable {k k' : Nat} {jobs : SortedMap JobId Job} {table : PchTable}

section

variable (h : Licensed k s)

include h

theorem set (ht : s.tasks[n]? = some t) (htasks : s'.tasks = s.tasks.set n t')
    (hline : s'.line = s.line) (hpermits : s'.permits = s.permits)
    (hbalance : k' + t.phase.holdsPermit.toNat = k + t'.phase.holdsPermit.toNat)
    (hout : t'.phase ≠ .inLine) : Licensed k' s' := by
  refine ⟨?_, by rw [hline, hpermits]; exact h.full, fun m u hu hphase => ?_⟩
  · have hcount := h.count
    have hholders := holders_set ht htasks
    omega
  · rw [hline]
    rw [htasks] at hu
    rcases getElem?_set_cases hu with ⟨-, rfl⟩ | ⟨-, hu⟩
    · exact absurd hphase hout
    · exact h.queue m u hu hphase

theorem stay {holds : Bool} (ht : s.tasks[n]? = some t) (hbefore : t.phase.holdsPermit = holds)
    (hafter : t'.phase.holdsPermit = holds ∧ t'.phase ≠ .inLine)
    (hfloor : s'.floor = (s.tasks.set n t', jobs, s.line, s.permits, table)) : Licensed k s' :=
  h.set ht (floor_tasks hfloor) (floor_line hfloor)
    (floor_permits hfloor) (by rw [hbefore, hafter.1]) hafter.2

theorem append {more : List Task} (htasks : s'.tasks = s.tasks ++ more)
    (hline : s'.line = s.line) (hpermits : s'.permits = s.permits)
    (hfresh : ∀ t ∈ more, t.phase = .fresh) : Licensed k s' := by
  refine ⟨?_, by rw [hline, hpermits]; exact h.full, fun m u hu hphase => ?_⟩
  · have hnone : more.countP (fun t => t.phase.holdsPermit) = 0 :=
      countP_eq_zero.mpr fun t ht => by simp [hfresh t ht, Phase.holdsPermit]
    unfold holders
    rw [hpermits, htasks, countP_append, hnone]
    exact h.count
  · rw [hline]
    rw [htasks] at hu
    by_cases hm : m < s.tasks.length
    · rw [List.getElem?_append_left hm] at hu
      exact h.queue m u hu hphase
    · rw [getElem?_append_right (Nat.le_of_not_lt hm)] at hu
      cases hphase.symm.trans (hfresh u (mem_of_getElem? hu))

/-- A permit that is given back is free, or held by who was first in the line. -/
theorem releasePermit (hline : Asleep s) : Licensed (k + 1) s.releasePermit.1 := by
  unfold Scheduler.releasePermit
  split
  · next hnil =>
    refine ⟨?_, fun hne => absurd hnil hne, h.queue⟩
    rw [← h.count]
    exact Nat.add_right_comm ..
  · next m rest hcons =>
    obtain ⟨t, ht, hphase⟩ := map_eq_some_iff.mp
      (hline.asleep m (by rw [hcons]; exact mem_cons_self ..))
    have hzero : s.permits = 0 := h.full (by rw [hcons]; simp)
    have htasks : ({ s with line := rest }.setPhase m .granted).tasks
        = s.tasks.set m { t with phase := .granted } := modify_of_getElem? _ ht
    have hcount := h.count
    have hholders := holders_set ht htasks
    simp only [hphase, Phase.holdsPermit, toNat_false, toNat_true] at hholders
    refine ⟨?_, fun _ => hzero, fun i u hu hinline => ?_⟩
    · show s.permits + ({ s with line := rest }.setPhase m .granted).holders = k + 1
      omega
    · rw [htasks] at hu
      rcases getElem?_set_cases hu with ⟨-, rfl⟩ | ⟨hm, hu⟩
      · cases hinline
      · have hmem := h.queue i u hu hinline
        rw [hcons] at hmem
        exact (mem_cons.mp hmem).resolve_left hm

theorem askPermit (ht : s.tasks[n]? = some t) (hphase : t.phase = .asking) :
    Licensed k (s.askPermit n) := by
  have hcount := h.count
  unfold Scheduler.askPermit
  split
  · next hzero =>
    have htasks : ({ s with line := s.line ++ [n] }.setPhase n .inLine).tasks
        = s.tasks.set n { t with phase := .inLine } := modify_of_getElem? _ ht
    have hsame := holders_set ht htasks
    simp only [hphase, Phase.holdsPermit] at hsame
    refine ⟨?_, fun _ => hzero, fun m u hu hinline => mem_append.mpr ?_⟩
    · show s.permits + _ = k
      omega
    · rw [htasks] at hu
      rcases getElem?_set_cases hu with ⟨rfl, -⟩ | ⟨-, hu⟩
      · exact .inr (mem_singleton_self _)
      · exact .inl (h.queue m u hu hinline)
  · next free hfree =>
    have hnil : s.line = [] := by
      cases hline : s.line with
      | nil => rfl
      | cons => exact absurd (h.full (by simp [hline])) (by omega)
    have hless : Licensed (k - 1) { s with permits := free } := by
      refine ⟨?_, fun hne => absurd hnil hne, h.queue⟩
      show free + s.holders = k - 1
      omega
    refine hless.set ht (modify_of_getElem? _ ht) rfl rfl ?_ (by simp)
    simp only [hphase, Phase.holdsPermit, toNat_false, toNat_true]
    omega

/-- **No permit is lost and none is made.** -/
theorem transition (htransition : Transition setup s who s') (hline : Asleep s) : Licensed k s' := by
  cases htransition with
  | idle hfloor =>
    have htasks : s'.tasks = s.tasks ++ [] := by
      rw [append_nil]
      exact floor_tasks hfloor
    exact h.append htasks (floor_line hfloor) (floor_permits hfloor) (by simp)
  | shifts ht _ hbefore hafter _ _ hfloor =>
    exact h.stay ht (holdsPermit_of_isAside hbefore).1
      (holdsPermit_of_isAside hafter) hfloor
  | learns ht hphase _ hfloor | builds ht hphase _ _ _ hfloor =>
    exact h.stay ht (by rw [hphase]; rfl) ⟨rfl, by simp⟩ hfloor
  | asks ht hphase => exact h.askPermit ht hphase
  | starts ht hphase _ _ _ _ _ hnext _ hfloor =>
    rcases hnext with ⟨_, _, rfl⟩ | ⟨_, rfl⟩ <;>
      exact h.stay ht (by rw [hphase]; rfl) ⟨rfl, by simp⟩ hfloor
  | @declines s₁ n t answer ht hphase _ hfloor =>
    have htasks := floor_tasks hfloor
    have hline₁ : s₁.line = s.line := floor_line hfloor
    have hasleep := asleep_declines hline ht hphase htasks hline₁
    -- One permit less, until it is given back.
    have hone : 1 ≤ k := by
      have hpos := holders_pos ht (by rw [hphase]; rfl)
      have hcount := h.count
      omega
    have hless : Licensed (k - 1) s₁ := by
      refine h.set ht htasks hline₁ (floor_permits hfloor) ?_ (by simp)
      simp only [hphase, Phase.holdsPermit, toNat_false, toNat_true]
      omega
    have hback := hless.releasePermit hasleep
    rwa [Nat.sub_add_cancel hone] at hback
  | parses ht hphase hfloor => exact h.stay ht (by rw [hphase]; rfl) ⟨rfl, by simp⟩ hfloor
  | frees ht hphase =>
    have hkept := getElem?_releasePermit (hline.not_mem ht (by simp [hphase]))
    refine (h.releasePermit hline).set (hkept.trans ht) (tasks_frees hline ht hphase) rfl rfl ?_
      (by simp)
    rw [hphase]
    rfl
  | closes ht hphase _ _ _ hdone _ _ hfloor =>
    exact h.stay ht (by rw [hphase]; rfl) (holdsPermit_of_isDone hdone) hfloor
  | leaves ht hphase _ hfloor => exact h.stay ht (by rw [hphase]; rfl) ⟨rfl, by simp⟩ hfloor
  | opens _ _ _ hfloor | requests hfloor =>
    refine h.append (floor_tasks hfloor) (floor_line hfloor) (floor_permits hfloor) fun t ht => ?_
    rw [mem_singleton.mp ht]
  | steers hmoves hsteers =>
    refine h.append hmoves.tasks hmoves.line hmoves.permits fun t ht => ?_
    cases hsteers with
    | rescheduled => rw [mem_singleton.mp ht]
    | _ => cases ht

end

theorem start (setup : RunSetup) (world : World) (state : IndexState) :
    Licensed setup.permits (Scheduler.start setup world state) :=
  ⟨rfl, fun hne => absurd rfl hne, fun _ _ ht => absurd ht (by simp [Scheduler.start])⟩

end Licensed

variable {id : JobId} {g : Ledger}

/-! ## Who works on a job -/

/-- There is room for another job, and in the file table for every unit that is to be integrated
next. -/
def roomy (s : Scheduler) : Bool :=
  s.jobs.size + 1 < UInt64.size && s.tasks.all (fun t =>
    match t.phase with
    | .closing _ (.ok unit) => (s.state.integrate unit.contribution unit.source).toOption.isSome
    | _ => true)

theorem roomy_jobs (h : s.roomy = true) : s.jobs.size < UInt64.size :=
  Nat.lt_of_succ_lt (of_decide_eq_true (and_eq_true_iff.mp h).1)

theorem roomy_files (h : s.roomy = true) (ht : s.tasks[n]? = some t) {i : Invocation}
    {unit : ParsedUnit} (hphase : t.phase = .closing i (.ok unit)) (e : Overflow) :
    s.state.integrate unit.contribution unit.source ≠ .error e := by
  intro herror
  have hall := all_eq_true.mp (and_eq_true_iff.mp h).2 t (mem_of_getElem? ht)
  rw [hphase] at hall
  simp [herror, Except.toOption] at hall

/-- A task is busy with the job. -/
def MannedBy (s : Scheduler) (id : JobId) : Prop :=
  ∃ (n : Nat) (t : Task), s.tasks[n]? = some t ∧ t.errand.job? = some id
    ∧ t.phase.progress.isBusy = true

/-- Every job that runs has a task that is busy with it. -/
def Manned (s : Scheduler) : Prop :=
  ∀ id job, s.jobs.get? id = some job → job.state = .runningLocal → s.MannedBy id

theorem MannedBy.append (h : s.MannedBy id) {more : List Task} (htasks : s'.tasks = s.tasks ++ more)
    :
    s'.MannedBy id := by
  obtain ⟨m, u, hu, hid, hbusy⟩ := h
  obtain ⟨hlt, -⟩ := List.getElem?_eq_some_iff.mp hu
  exact ⟨m, u, by rw [htasks, List.getElem?_append_left hlt]; exact hu, hid, hbusy⟩

theorem MannedBy.set (h : s.MannedBy id) (ht : s.tasks[n]? = some t)
    (htasks : s'.tasks = s.tasks.set n t')
    (hkeeps : t.errand.job? = some id → t.phase.progress.isBusy = true →
      t'.errand.job? = some id ∧ t'.phase.progress.isBusy = true) : s'.MannedBy id := by
  obtain ⟨m, u, hu, hid, hbusy⟩ := h
  by_cases hm : n = m
  · subst hm
    cases ht.symm.trans hu
    exact ⟨n, t', htasks ▸ getElem?_set_of_some ht, hkeeps hid hbusy⟩
  · exact ⟨m, u, by rw [htasks, getElem?_set_ne hm]; exact hu, hid, hbusy⟩

theorem MannedBy.releasePermit (h : s.MannedBy id) (hline : Asleep s) :
    s.releasePermit.1.MannedBy id := by
  obtain ⟨m, u, hu, hid, hbusy⟩ := h
  have hout : m ∉ s.line := by
    refine hline.not_mem hu fun hphase => ?_
    rw [hphase] at hbusy
    cases hbusy
  exact ⟨m, u, (getElem?_releasePermit hout).trans hu, hid, hbusy⟩

/-- **A job that runs is never left alone.** -/
theorem Manned.transition (h : Manned s) (htransition : Transition setup s who s')
    (horderly : Orderly g s) (hroom : s.roomy = true) : Manned s' := by
  -- A task that was not busy moves, and the jobs stay.
  have hidle : ∀ {n : Nat} {t t' : Task} {line permits table}, s.tasks[n]? = some t →
      t.phase.progress.isBusy = false →
      s'.floor = (s.tasks.set n t', s.jobs, line, permits, table) → Manned s' := by
    intro n t t' _ _ _ ht hidle hfloor id job hjob hruns
    rw [floor_jobs hfloor] at hjob
    refine (h id job hjob hruns).set ht (floor_tasks hfloor) fun _ hbusy => ?_
    simp [hidle] at hbusy
  -- A job that has just been made does not run.
  have hopened : ∀ {id₀ kind i guest}, s'.jobs = s.jobs.insert id₀ (Job.make id₀ kind i guest) →
      ∀ {id job}, s'.jobs.get? id = some job → job.state = .runningLocal →
        s.jobs.get? id = some job := by
    intro id₀ kind i guest hjobs id job hjob hruns
    rw [hjobs, SortedMap.get?_insert] at hjob
    split at hjob
    · rw [← some.inj hjob] at hruns
      simp [Job.make] at hruns
    · exact hjob
  cases htransition with
  | idle hfloor =>
    intro id job hjob hruns
    rw [floor_jobs hfloor] at hjob
    obtain ⟨m, u, hu, hbusy⟩ := h id job hjob hruns
    exact ⟨m, u, by rwa [floor_tasks hfloor], hbusy⟩
  | shifts ht _ haside _ _ _ hfloor => exact hidle ht (not_busy_of_isAside haside) hfloor
  | learns ht hphase _ hfloor => exact hidle ht (by rw [hphase]; rfl) hfloor
  | builds ht hphase _ _ _ hfloor =>
    intro id job hjob hruns
    have hjob := hopened (floor_jobs hfloor) hjob hruns
    refine (h id job hjob hruns).set ht (floor_tasks hfloor) fun _ hbusy => ?_
    rw [hphase] at hbusy
    cases hbusy
  | @asks n t ht hphase =>
    have hasks : (s.askPermit n).jobs = s.jobs ∧ ∃ t', (s.askPermit n).tasks = s.tasks.set n t' := by
      unfold askPermit
      split
      · exact ⟨rfl, _, modify_of_getElem? _ ht⟩
      · exact ⟨rfl, _, modify_of_getElem? _ ht⟩
    obtain ⟨hjobs, t', htasks⟩ := hasks
    intro id job hjob hruns
    refine (h id job (hjobs ▸ hjob) hruns).set ht htasks fun _ hbusy => ?_
    rw [hphase] at hbusy
    cases hbusy
  | @starts _ n t id _ phase _ ht hphase hid hjob₀ _ _ _ hnext _ hfloor =>
    have hbusy : phase.progress.isBusy = true := by
      rcases hnext with ⟨_, _, rfl⟩ | ⟨_, rfl⟩ <;> rfl
    have htasks : s'.tasks = _ := floor_tasks hfloor
    intro id' job hjob hruns
    by_cases heq : id' = id
    · exact ⟨n, _, htasks ▸ getElem?_set_of_some ht, heq ▸ hid, hbusy⟩
    · rw [(jobs_insert hjob₀ (floor_jobs hfloor)).1, if_neg heq] at hjob
      exact (h id' job hjob hruns).set ht htasks fun hid' _ => ⟨hid', hbusy⟩
  | @declines s₁ n t answer ht hphase _ hfloor =>
    have htasks := floor_tasks hfloor
    have hasleep := asleep_declines horderly.line ht hphase htasks (floor_line hfloor)
    intro id job hjob hruns
    rw [jobs_releasePermit, floor_jobs hfloor] at hjob
    refine ((h id job hjob hruns).set ht htasks fun _ hbusy => ?_).releasePermit hasleep
    rw [hphase] at hbusy
    cases hbusy
  | parses ht _ hfloor =>
    intro id job hjob hruns
    rw [floor_jobs hfloor] at hjob
    exact (h id job hjob hruns).set ht (floor_tasks hfloor) fun hid _ => ⟨hid, rfl⟩
  | @frees n t i outcome ht hphase =>
    intro id job hjob hruns
    have hkept := getElem?_releasePermit (horderly.line.not_mem ht (by simp [hphase]))
    have hjobs : (s.releasePermit.1.setPhase n (.closing i outcome)).jobs = s.jobs :=
      jobs_releasePermit s
    exact ((h id job (hjobs ▸ hjob) hruns).releasePermit horderly.line).set (hkept.trans ht)
      (tasks_frees horderly.line ht hphase) fun hid _ => ⟨hid, rfl⟩
  | @closes _ n t i outcome id job₀ job' _ _ _ jobs _ ht hphase hid hjob₀ hfate _ _ hget hfloor =>
    have hstate : job₀.state = .runningLocal ∨ job₀.state = .aborted := by
      refine (horderly.sound id job₀ hjob₀).held t.turn (mem_turnsOf ht hid) ?_
      rw [show t.turn.progress = t.phase.progress from rfl, hphase]
      rfl
    intro id' job hjob hruns
    rw [floor_jobs hfloor, hget] at hjob
    split at hjob
    · cases hjob
      refine absurd hruns (hfate.not_running hstate fun unit e hok => ?_)
      exact roomy_files hroom ht (hok ▸ hphase) e
    · next hne =>
      refine (h id' job hjob hruns).set ht (floor_tasks hfloor) fun hid' _ => ?_
      exact absurd (some.inj (hid'.symm.trans hid)) hne
  | leaves ht _ hnone hfloor =>
    intro id job hjob hruns
    rw [floor_jobs hfloor] at hjob
    refine (h id job hjob hruns).set ht (floor_tasks hfloor) fun hid _ => ?_
    cases hnone.symm.trans hid
  | opens _ _ _ hfloor =>
    intro id job hjob hruns
    have hjob := hopened (floor_jobs hfloor) hjob hruns
    exact (h id job hjob hruns).append (floor_tasks hfloor)
  | requests hfloor =>
    intro id job hjob hruns
    rw [floor_jobs hfloor] at hjob
    exact (h id job hjob hruns).append (floor_tasks hfloor)
  | @steers _ id job₀ job' more hmoves hsteers _ =>
    intro id' job hjob hruns
    suffices hold : ∃ job, s.jobs.get? id' = some job ∧ job.state = .runningLocal by
      obtain ⟨job, hjob, hruns⟩ := hold
      exact (h id' job hjob hruns).append hmoves.tasks
    rw [hmoves.jobs] at hjob
    split at hjob
    · next heq =>
      cases hjob
      refine ⟨job₀, heq ▸ hmoves.filed, ?_⟩
      cases hsteers with
      | blocked => exact hruns
      | _ => cases hruns
    · exact ⟨job, hjob, hruns⟩

/-! ## What can move -/

/-- Whether a task can move, or its front end can come to an end. -/
def stirs (setup : RunSetup) (s : Scheduler) (n : Nat) : Bool :=
  (s.step? setup n).isSome || (s.openGates.endParse? setup n).isSome

theorem stirs_or (setup : RunSetup) (ht : s.tasks[n]? = some t) :
    s.stirs setup n = true ∨ t.phase = .finished ∨ t.phase = .inLine
      ∨ ∃ ticket, t.phase.ticket? = some ticket ∧ s.state.pch.settled ticket = false := by
  unfold stirs step? endParse? openGates
  simp only [ht]
  cases hphase : t.phase with
  | seeking keys =>
    refine .inl ?_
    cases keys with
    | nil => rfl
    | cons key => cases hflight : s.state.pch.inFlight? key <;> simp [hflight]
  | awaiting ticket keys | expecting ticket key =>
    cases hsettled : s.state.pch.settled ticket with
    | true => exact .inl (by simp [hsettled])
    | false => exact .inr (.inr (.inr ⟨ticket, rfl, hsettled⟩))
  | parsing => exact .inl rfl
  | finished => exact .inr (.inl rfl)
  | inLine => exact .inr (.inr (.inl rfl))
  | _ => exact .inl rfl

theorem stirs_of_holdsPermit (setup : RunSetup) (ht : s.tasks[n]? = some t)
    (hholds : t.phase.holdsPermit = true) : s.stirs setup n = true := by
  rcases stirs_or setup ht with hstirs | hphase | hphase | ⟨ticket, hticket, -⟩
  · exact hstirs
  · rw [hphase] at hholds
    cases hholds
  · rw [hphase] at hholds
    cases hholds
  · simp [ticket?_of_holdsPermit hholds] at hticket

theorem Licensed.exists_stirs (h : Licensed setup.permits s) (hline : s.line ≠ []) :
    ∃ m, s.stirs setup m = true := by
  have hzero := h.full hline
  have hcount := h.count
  have hone : 1 ≤ setup.permits := Nat.le_max_left ..
  obtain ⟨t, hmem, hholds⟩ := countP_pos_iff.mp (show 0 < s.holders by omega)
  obtain ⟨m, ht⟩ := getElem?_of_mem hmem
  exact ⟨m, stirs_of_holdsPermit setup ht hholds⟩

/-- A reservation that is not settled is in the hands of a task that waits for no other one, and
that can move or is in the line. -/
theorem ReservationsOwned.exists_owner (h : ReservationsOwned s)
    (hlicensed : Licensed setup.permits s) {ticket : Nat}
    (hopen : s.state.pch.settled ticket = false) :
    ∃ (m : Nat) (u : Task) (r : Pch.Reservation), s.tasks[m]? = some u ∧ u.inHand? = some r
      ∧ r.ticket = ticket ∧ u.phase.ticket? = none ∧ (s.stirs setup m = true ∨ m ∈ s.line) := by
  have hbuilding : s.state.pch.status ticket = .building := by
    unfold PchTable.settled at hopen
    simpa using hopen
  obtain ⟨m, r, hhand, hticket⟩ := h.owner ticket hbuilding
  obtain ⟨u, hu, hres, hdone⟩ := exists_task_of_hand hhand
  have hnone := ticket?_of_seeks (h.plain m u hu (by simp [hres]))
  refine ⟨m, u, r, hu, (hand_eq hu).symm.trans hhand, hticket, hnone, ?_⟩
  rcases stirs_or setup hu with hstirs | hphase | hphase | ⟨other, hother, -⟩
  · exact .inl hstirs
  · rw [hphase] at hdone
    cases hdone
  · exact .inr (hlicensed.queue m u hu hphase)
  · cases hnone.symm.trans hother

/-- **As long as a task has not ended there is one that can move.** -/
theorem exists_stirs (howned : ReservationsOwned s) (hlicensed : Licensed setup.permits s)
    (ht : s.tasks[n]? = some t) (hopen : t.phase ≠ .finished) : ∃ m, s.stirs setup m = true := by
  rcases stirs_or setup ht with hstirs | hphase | hphase | ⟨ticket, -, hsettled⟩
  · exact ⟨n, hstirs⟩
  · exact absurd hphase hopen
  · exact hlicensed.exists_stirs (ne_nil_of_mem (hlicensed.queue n t ht hphase))
  · obtain ⟨m, u, r, -, -, -, -, hstirs | hmem⟩ := howned.exists_owner hlicensed hsettled
    · exact ⟨m, hstirs⟩
    · exact hlicensed.exists_stirs (ne_nil_of_mem hmem)

theorem exists_task_of_mem_turnsOf {turn : Turn} (h : turn ∈ s.turnsOf id) :
    ∃ (n : Nat) (t : Task), s.tasks[n]? = some t ∧ t.errand.job? = some id ∧ t.turn = turn := by
  obtain ⟨card, hcard, rfl⟩ := mem_map.mp h
  obtain ⟨hmem, hid⟩ := mem_filter.mp hcard
  obtain ⟨t, ht, rfl⟩ := mem_map.mp hmem
  obtain ⟨n, hn⟩ := getElem?_of_mem ht
  exact ⟨n, t, hn, of_decide_eq_true hid, rfl⟩

theorem exists_task_of_open (horderly : Orderly g s) (hmanned : Manned s) {job : Job}
    (hjob : s.jobs.get? id = some job) (hopen : job.state.waits = true ∨ job.state = .runningLocal)
    :
    ∃ (n : Nat) (t : Task), s.tasks[n]? = some t ∧ t.errand.job? = some id
      ∧ t.phase ≠ .finished := by
  rcases hopen with hwaits | hruns
  · obtain ⟨turn, hmem, -, hprogress⟩ := (horderly.sound id job hjob).due hwaits
    obtain ⟨n, t, ht, hid, rfl⟩ := exists_task_of_mem_turnsOf hmem
    refine ⟨n, t, ht, hid, fun hphase => ?_⟩
    rw [show t.turn.progress = t.phase.progress from rfl, hphase] at hprogress
    cases hprogress
  · obtain ⟨n, t, ht, hid, hbusy⟩ := hmanned id job hjob hruns
    refine ⟨n, t, ht, hid, fun hphase => ?_⟩
    rw [hphase] at hbusy
    cases hbusy

/-- All that keeps a run from a standstill. -/
structure Going (setup : RunSetup) (s : Scheduler) : Prop where
  orderly : ∃ g, Orderly g s
  owned : ReservationsOwned s
  licensed : Licensed setup.permits s
  manned : Manned s

theorem going_start (setup : RunSetup) (world : World) {state : IndexState}
    (hsettled : ∀ ticket, state.pch.settled ticket = true) :
    Going setup (Scheduler.start setup world state) where
  orderly := ⟨{}, .start setup world state⟩
  owned := .start setup world hsettled
  licensed := .start setup world state
  manned := fun _ _ hjob => absurd hjob (by simp [Scheduler.start])

theorem Going.act (h : Going setup s) {a : Action} (hact : s.act? setup a = some s')
    (hroom : s.roomy = true) (hroom' : s'.roomy = true) : Going setup s' := by
  obtain ⟨g, horderly⟩ := h.orderly
  have htransition := transition_act horderly.staffed hact
  exact ⟨⟨_, horderly.act hact (roomy_jobs hroom')⟩, h.owned.transition htransition horderly.line,
    h.licensed.transition htransition horderly.line, h.manned.transition htransition horderly hroom⟩

end Scheduler

/-- **A run never comes to a standstill.** Units and headers may be submitted with any includes, and
jobs aborted, handed off, taken back or lost to a failing front end at any moment. No permit is ever
lost, and who has one waits for no header. A header that somebody waits for is settled, or a task
builds it that waits for no other header and can move but for a permit. So some task can move as
long as a job waits or runs. -/
theorem never_at_standstill {setup : RunSetup} {world : World} {state : IndexState} {s : Scheduler}
    (hsettled : ∀ ticket, state.pch.settled ticket = true)
    (h : GuardedRun setup (fun s => s.roomy = true) (Scheduler.start setup world state) s) :
    s.permits + s.holders = setup.permits
      ∧ (∀ (n : Nat) (t : Task), s.tasks[n]? = some t → t.phase.holdsPermit = true →
        t.phase.ticket? = none ∧ s.stirs setup n = true)
      ∧ (∀ (n : Nat) (t : Task) (ticket : Nat), s.tasks[n]? = some t →
        t.phase.ticket? = some ticket → s.state.pch.settled ticket = true
          ∨ ∃ (m : Nat) (u : Task) (r : Pch.Reservation), s.tasks[m]? = some u
            ∧ u.inHand? = some r ∧ r.ticket = ticket ∧ u.phase.ticket? = none
            ∧ (s.stirs setup m = true ∨ m ∈ s.line))
      ∧ ∀ (id : JobId) (job : Job), s.jobs.get? id = some job →
        job.state = .queued ∨ job.state = .rescheduled ∨ job.state = .runningLocal →
        ∃ n, s.stirs setup n = true := by
  have hgoing : s.Going setup := h.induct (Scheduler.going_start setup world hsettled)
      fun _ _ _ hroom hroom' hgoing hact => hgoing.act hact hroom hroom'
  obtain ⟨g, horderly⟩ := hgoing.orderly
  refine ⟨hgoing.licensed.count, fun n t ht hholds => ?_, fun n t ticket _ _ => ?_,
    fun id job hjob hopen => ?_⟩
  · exact ⟨Phase.ticket?_of_holdsPermit hholds, Scheduler.stirs_of_holdsPermit setup ht hholds⟩
  · cases hopen : s.state.pch.settled ticket with
    | true => exact .inl rfl
    | false => exact .inr (hgoing.owned.exists_owner hgoing.licensed hopen)
  · have hopen : job.state.waits = true ∨ job.state = .runningLocal := by
      rcases hopen with hstate | hstate | hstate <;> simp [hstate, JobState.waits]
    obtain ⟨n, t, ht, -, hlive⟩ := Scheduler.exists_task_of_open horderly hgoing.manned hjob hopen
    exact Scheduler.exists_stirs hgoing.owned hgoing.licensed ht hlive

/-- A header that includes itself waits for the only permit, a unit waits for the header, and the
unit that has the permit was aborted while it is parsed. -/
def jammed : List Action :=
  let header : Invocation :=
    { directory := ⟨"/"⟩, compiler := "gcc", input := ⟨"/h.h"⟩, language := .cHeader
      output := some ⟨"/h.h.gch"⟩, arguments := ["-include", "h.h"] }
  [.submit header, .submit { fileUnit "/b.c" with arguments := ["-include", "h.h"] },
      .submit (fileUnit "/a.c")]
    ++ [.step 2, .step 2, .step 2, .step 2, .abort (jobOf 2)]
    ++ [.step 0, .step 0, .step 1, .step 1]

theorem never_at_standstill_jammed :
    ∃ s, GuardedRun steeredSetup (fun s => s.roomy = true) (Scheduler.start steeredSetup {} {}) s
      ∧ (s.permits, s.line) = (0, [0]) ∧ s.state.pch.settled 0 = false
      ∧ (∃ (m : Nat) (u : Task) (r : Pch.Reservation), s.tasks[m]? = some u ∧ u.inHand? = some r
        ∧ r.ticket = 0 ∧ (s.stirs steeredSetup m = true ∨ m ∈ s.line))
      ∧ ∃ n, s.stirs steeredSetup n = true := by
  have hplayed : (play? (Scheduler.act? steeredSetup) (fun _ _ s => s.roomy) (fun r _ _ _ => r) ()
      (Scheduler.start steeredSetup {} {}) jammed).any (fun (_, s) =>
        (s.permits, s.line) = (0, [0]) ∧ s.state.pch.settled 0 = false
        ∧ ((s.tasks[1]?).bind (fun t => t.phase.ticket?)) = some 0
        ∧ ((s.jobs.get? (jobOf 1)).map (fun j => j.state)) = some .queued) = true := by
    decide
  obtain ⟨⟨_, s⟩, hplay, hends⟩ := (Option.any_eq_true _ _).mp hplayed
  obtain ⟨hpermits, hsettled, hticket, hstate⟩ := of_decide_eq_true hends
  have h := GuardedRun.of_play (by decide) hplay
  obtain ⟨-, -, howner, hstirs⟩ := never_at_standstill (fun ticket => by
    simp [PchTable.settled, PchTable.status]) h
  obtain ⟨t, ht, hticket⟩ := Option.bind_eq_some_iff.mp hticket
  obtain ⟨job, hjob, hqueued⟩ := Option.map_eq_some_iff.mp hstate
  refine ⟨s, h, hpermits, hsettled, ?_, hstirs (jobOf 1) job hjob (.inl hqueued)⟩
  rcases howner 1 t 0 ht hticket with hsettled' | ⟨m, u, r, hu, hhand, hr, -, hmoves⟩
  · cases hsettled.symm.trans hsettled'
  · exact ⟨m, u, r, hu, hhand, hr, hmoves⟩

end SymbolIndex
