import SymbolIndex.Proofs.Counters

/-!
# Jobs for other processes

A job that runs for another process is not counted, and its own task sends back what comes of it
instead of integrating it. Nothing else about it is different. When it is handed off, the one who
completes it integrates what comes of it and takes it off the count, and so does the task that is
made when it is taken back.

`guests_apart` says that a run keeps clear of the jobs for other processes as long as none of them
is handed off, and in any run exactly when the count is right. `guest_handed_off` is a run in which
it is not.
-/

namespace SymbolIndex

open JobState List Option

namespace Scheduler

/-! ## New errands -/

def errands (s : Scheduler) : List Errand := s.tasks.map Task.errand

section Errands

variable {s s' : Scheduler} {n : Nat} {t : Task}

theorem errands_congr (htasks : s'.tasks = s.tasks) : s'.errands = s.errands := by
  unfold errands
  rw [htasks]

theorem errands_set (ht : s.tasks[n]? = some t) {t' : Task} (htasks : s'.tasks = s.tasks.set n t')
    (herrand : t'.errand = t.errand) : s'.errands = s.errands := by
  obtain ⟨hn, hget⟩ := List.getElem?_eq_some_iff.mp ht
  unfold errands
  have hsame : (s.tasks.map Task.errand)[n]? = some t'.errand := by
    rw [getElem?_map, ht, herrand]
    rfl
  rw [htasks, map_set]
  exact ext_getElem? fun m => by
    by_cases hm : n = m
    · subst hm
      rw [getElem?_set_self (by simpa using hn), hsame]
    · rw [getElem?_set_ne hm]

theorem errands_releasePermit (h : Asleep s) : s.releasePermit.1.errands = s.errands := by
  rcases h.wakes with hsame | ⟨m, t, ht, -, hwoken⟩
  · exact congrArg (List.map Task.errand) hsame
  · exact errands_set ht hwoken rfl

/-- What a task is newly to do for a job: it answers, or the job is one of this run, or the job was
with a remote worker. -/
def Engages (s s' : Scheduler) : Prop :=
  ∀ e ∈ s'.errands, e ∈ s.errands ∨ ∀ id, e.job? = some id →
    e.answers = true
      ∨ (∃ job', s'.jobs.get? id = some job' ∧ job'.fromRemote = false)
      ∨ ∃ job, s.jobs.get? id = some job ∧ job.state = .remote

theorem Engages.of_eq (h : s'.errands = s.errands) : s.Engages s' := fun _ he => .inl (h ▸ he)

theorem Engages.of_append {e : Errand} (htasks : s'.tasks = s.tasks ++ [{ errand := e }])
    (he : ∀ id, e.job? = some id → e.answers = true
      ∨ (∃ job', s'.jobs.get? id = some job' ∧ job'.fromRemote = false)
      ∨ ∃ job, s.jobs.get? id = some job ∧ job.state = .remote) : s.Engages s' := by
  intro e' he'
  unfold errands at he'
  rw [htasks, map_append, mem_append] at he'
  rcases he' with hold | hnew
  · exact .inl hold
  · rw [mem_singleton.mp hnew]
    exact .inr he

/-- **Every action.** -/
theorem Transition.engages {setup : RunSetup} {who : Option Nat} (h : Transition setup s who s')
    (hline : Asleep s) : s.Engages s' := by
  cases h with
  | idle hfloor => exact .of_eq (errands_congr (floor_tasks hfloor))
  | shifts ht _ _ _ herrand _ hfloor =>
    exact .of_eq (errands_set ht (floor_tasks hfloor) herrand)
  | learns ht _ _ hfloor | starts ht _ _ _ _ _ _ _ _ hfloor | parses ht _ hfloor
  | closes ht _ _ _ _ _ _ _ hfloor | leaves ht _ _ hfloor =>
    exact .of_eq (errands_set ht (floor_tasks hfloor) rfl)
  | @builds _ _ _ i _ _ _ _ _ _ hfloor =>
    simp only [floor, Prod.mk.injEq] at hfloor
    intro e he
    unfold errands at he
    rw [hfloor.1, map_set] at he
    rcases mem_or_eq_of_mem_set he with hold | rfl
    · exact .inl hold
    · refine .inr fun id hid => .inr (.inl ⟨Job.make (jobOf s.jobs.size) .pch i false, ?_, rfl⟩)
      rw [hfloor.2.1, ← some.inj hid]
      exact SortedMap.get?_insert_self ..
  | asks ht =>
    obtain ⟨phase, -, htasks, -⟩ := askPermit_cases ht
    exact .of_eq (errands_set ht htasks rfl)
  | declines ht hphase _ hfloor =>
    simp only [floor, Prod.mk.injEq] at hfloor
    have hasleep := asleep_declines hline ht hphase hfloor.1 hfloor.2.2.1
    exact .of_eq ((errands_releasePermit hasleep).trans (errands_set ht hfloor.1 rfl))
  | frees ht hphase =>
    have ht' := (getElem?_releasePermit (hline.not_mem ht (by simp [hphase]))).trans ht
    exact .of_eq ((errands_set ht' (tasks_frees hline ht hphase) rfl).trans
      (errands_releasePermit hline))
  | @opens _ i errand kind table hid _ _ hfloor =>
    simp only [floor, Prod.mk.injEq] at hfloor
    refine .of_append hfloor.1 fun id hid' => ?_
    cases hanswers : errand.answers with
    | true => exact .inl rfl
    | false =>
      refine .inr (.inl ⟨Job.make (jobOf s.jobs.size) kind i false, ?_, rfl⟩)
      rw [hfloor.2.1, hanswers, ← some.inj (hid.symm.trans hid')]
      exact SortedMap.get?_insert_self ..
  | requests hfloor => exact .of_append (floor_tasks hfloor) (by simp [Errand.job?])
  | @steers _ id job _ _ hmoves hsteers =>
    cases hsteers with
    | rescheduled hremote =>
      refine .of_append hmoves.tasks fun id' hid' => .inr (.inr ⟨job, ?_, hremote⟩)
      obtain rfl : id = id' := some.inj hid'
      exact hmoves.filed
    | _ => exact .of_eq (errands_congr (hmoves.tasks.trans (append_nil _)))

end Errands

/-! ## Guests that stay -/

/-- Was made for another process and never handed off. -/
def Stays (s : Scheduler) (id : JobId) (job : Job) : Prop :=
  s.jobs.get? id = some job ∧ job.fromRemote = true ∧ job.destination = none

/-- A job for another process that is not handed off is run here, and answered. -/
structure Sheltered (s : Scheduler) : Prop where
  home : ∀ id job, s.Stays id job → job.state.isHome = true
  answers : ∀ e ∈ s.errands, ∀ id job, e.job? = some id → s.Stays id job → e.answers = true

section Staying

variable {s s' : Scheduler} {guest : Bool} {landed : List Job} {id : JobId} {job job' : Job}

theorem Refiles.stays (h : s.Refiles id job job' s') (hstays : s'.Stays id job') : s.Stays id job :=
  ⟨h.filed, h.guest.symm.trans hstays.2.1, (h.sent hstays.2.2).1⟩

/-- **Every action leaves the jobs that stay sheltered.** -/
theorem Sheltered.entry {g : Ledger} (h : s.Sheltered) (horderly : Orderly g s)
    (hentry : s.Entry guest landed s') (hengages : s.Engages s') : s'.Sheltered where
  home := by
    intro id job' hstays
    rcases hentry.origin hstays.1 with hsame | ⟨-, hqueued, -⟩ | ⟨job, hfiled⟩
    · exact h.home id job' ⟨hsame, hstays.2⟩
    · rw [hqueued]
      rfl
    · exact (hfiled.sent hstays.2.2).2 (h.home id job (hfiled.stays hstays))
  answers := by
    intro e he id job' hid hstays
    -- The job, as it was before, if it was there.
    have hbefore : (∃ job, s.Stays id job) ∨ s.jobs.get? id = none := by
      rcases hentry.origin hstays.1 with hsame | ⟨hnew, -, -⟩ | ⟨job, hfiled⟩
      · exact .inl ⟨job', hsame, hstays.2⟩
      · exact .inr hnew
      · exact .inl ⟨job, hfiled.stays hstays⟩
    rcases hengages e he with hold | hnew
    · rcases hbefore with ⟨job, hstays⟩ | hnone
      · exact h.answers e hold id job hid hstays
      · obtain ⟨t, ht, rfl⟩ := mem_map.mp hold
        obtain ⟨n, ht⟩ := mem_iff_getElem?.mp ht
        obtain ⟨job, hjob, -⟩ := horderly.staffed ht hid
        cases hnone.symm.trans hjob
    · rcases hnew id hid with hanswers | ⟨job₁, hget, hown⟩ | ⟨job, hjob, hremote⟩
      · exact hanswers
      · obtain rfl : job₁ = job' := some.inj (hget.symm.trans hstays.1)
        cases hown.symm.trans hstays.2.1
      · -- A job that is with a remote worker has been handed off.
        rcases hbefore with ⟨job₁, hstays⟩ | hnone
        · obtain rfl : job = job₁ := some.inj (hjob.symm.trans hstays.1)
          have hhome := h.home id job hstays
          rw [hremote] at hhome
          cases hhome
        · cases hnone.symm.trans hjob

/-- No job for another process was handed off. -/
def AllStay (s : Scheduler) : Prop :=
  ∀ id job, s.jobs.get? id = some job → job.fromRemote = true → job.destination = none

theorem Entry.allStay (h : s.Entry guest landed s') (hstay : s'.AllStay) : s.AllStay := by
  intro id job hget hguest
  rcases h.remains hget with hsame | ⟨job', hfiled⟩
  · exact hstay id job hsame hguest
  · have hget' : s'.jobs.get? id = some job' := by simp [hfiled.jobs]
    exact (hfiled.sent (hstay id job' hget' (hfiled.guest.trans hguest))).1

/-- **As long as every guest stays, those that have ended are those that were answered.** -/
theorem Entry.even (h : s.Entry guest landed s') (hsheltered : s.Sheltered) (hstay : s.AllStay)
    (heven : s.jobsThat Job.isServed = s.delivered) : s'.jobsThat Job.isServed = s'.delivered := by
  cases h with
  | quiet hjobs _ hmarks => rw [jobsThat_congr hjobs, (marks_eq hmarks).2, heven]
  | @opened _ id job hnew hjobs hstate _ _ hmarks =>
    have hserved := jobsThat_opened hnew hjobs Job.isServed
    rw [show job.isServed = false by simp [Job.isServed, hstate, JobState.isServed]] at hserved
    rw [hserved, (marks_eq hmarks).2, heven]
    rfl
  | moved hfiled hsame hkept _ hmarks =>
    have hsame := eq_of_kept hsame hkept isServed_eq_false
    rw [hfiled.served_eq (.inr hsame), (marks_eq hmarks).2, heven]
  | @settled _ id job job' t ht hid hanswers hfiled _ _ _ hmarks =>
    -- The task does not answer, so the job is one of this run.
    have hown : job.fromRemote = false := by
      refine Bool.eq_false_iff.mpr fun hguest => ?_
      have hmust := hsheltered.answers t.errand (mem_map_of_mem ht) id job hid
        ⟨hfiled.filed, hguest, hstay id job hfiled.filed hguest⟩
      cases hanswers.symm.trans hmust
    obtain ⟨-, hdelivered⟩ := Prod.mk.inj hmarks
    rw [hfiled.served_eq (.inl hown), heven, ← hdelivered]
  | delivered hfiled hguest hrunning hnext _ hmarks =>
    obtain ⟨-, hdelivered⟩ := Prod.mk.inj hmarks
    obtain ⟨-, -, hserved⟩ :=
      hfiled.ends (by rw [hrunning]; rfl) (isTerminal_of_ended hnext)
    rw [hserved, hguest, isServed_of_ended hnext, heven, hdelivered]
    rfl
  | retired hjobs _ hmarks =>
    obtain ⟨-, hdelivered⟩ := Prod.mk.inj hmarks
    rw [jobsThat_congr hjobs, heven, hdelivered]
  | @returned _ id job job' hfiled hremote _ _ hmarks =>
    -- A job that is with a remote worker was handed off.
    have hown : job.fromRemote = false := by
      refine Bool.eq_false_iff.mpr fun hguest => ?_
      have hhome := hsheltered.home id job ⟨hfiled.filed, hguest, hstay id job hfiled.filed hguest⟩
      rw [hremote] at hhome
      cases hhome
    rw [hfiled.served_eq (.inl hown), (marks_eq hmarks).2, heven]
  | aborted hfiled hopen hnext _ hmarks =>
    have hsame := hfiled.served_eq (.inr (by
      rw [hnext, isServed_eq_false hopen]
      rfl))
    rw [hsame, (marks_eq hmarks).2, heven]

end Staying

end Scheduler

/-! ## Runs -/

/-- Counts in a run that also has jobs for other processes. -/
structure Hosted (g : Ledger) (s : Scheduler) : Prop extends Tallied g s where
  sheltered : s.Sheltered
  even : s.AllStay → s.jobsThat Job.isServed = s.delivered

namespace Hosted

variable {g : Ledger} {s s' : Scheduler} {setup : RunSetup} {a : Action}

theorem start (setup : RunSetup) (world : World) (state : IndexState) :
    Hosted {} (Scheduler.start setup world state) where
  toTallied := .start setup world state
  sheltered :=
    { home := fun _ _ hstays => absurd hstays.1 (by simp [Scheduler.start])
      answers := fun _ he => absurd he (by simp [Scheduler.start, Scheduler.errands]) }
  even := fun _ => rfl

theorem act (h : Hosted g s) (hact : s.act? setup a = some s') (hkeeps : a.KeepsCount)
    (hroom : (g.add s a s').peak + 1 < UInt64.size) : Hosted (g.add s a s') s' := by
  have htallied := h.toTallied.act hact hkeeps hroom
  have hpeak := htallied.peak
  have hentry := Scheduler.entry_act h.orderly hact hkeeps (by omega)
  have hengages := (Scheduler.transition_act h.orderly.staffed hact).engages h.orderly.line
  refine ⟨htallied, h.sheltered.entry h.orderly hentry hengages, ?_⟩
  intro hstay
  have hbefore := hentry.allStay hstay
  exact hentry.even h.sheltered hbefore (h.even hbefore)

theorem pending_iff (h : Hosted g s) (hroom : g.peak + 1 < UInt64.size) :
    s.completion.pending.toNat = s.jobsThat Job.isOwnOpen + s.retiring
      ↔ s.jobsThat Job.isServed = s.delivered := by
  have hpeak := h.peak
  have hfits := h.room
  have hserved : s.jobsThat Job.isServed ≤ s.jobs.size :=
    Nat.le_trans countP_le_length (Nat.le_of_eq (length_map ..))
  have hown : s.jobsThat Job.isOwnOpen ≤ s.jobsThat Job.isOpen :=
    countP_mono_left fun job _ hjob => (Bool.and_eq_true_iff.mp hjob).2
  exact Balances.toNat_eq_iff h.pending (by omega) (by omega) (by omega)

theorem landed_own (h : Hosted g s) (heven : s.jobsThat Job.isServed = s.delivered) :
    ∀ l ∈ g.landed, l.job.fromRemote = false := by
  have hnone : (g.landed.map Landing.job).countP Job.fromRemote = 0 := by
    have hserved := h.served
    omega
  intro l hl
  exact Bool.eq_false_iff.mpr (countP_eq_zero.mp hnone l.job (mem_map_of_mem hl))

end Hosted

/-- **A run and its jobs for other processes.** The index is what the landings make of the one that
the run began with. What is pending is the jobs of this run that have not ended and those that a
task is just taking off the count, exactly when every job for another process that has ended without
being aborted was ended by the task that answers; and then none of them is among the landings. That
is so as long as none of them is handed off. -/
theorem guests_apart {setup : RunSetup} {world : World} {state : IndexState} (as : List Action)
    (hkeeps : ∀ a ∈ as, a.KeepsCount)
    (hroom : (SteeredRun.sequel setup (Scheduler.start setup world state) as).1.peak + 1
      < UInt64.size) :
    let run := SteeredRun.sequel setup (Scheduler.start setup world state) as
    let s := run.2
    (∃ r, state.integrateAll (run.1.landed.map Landing.unit) = .ok r ∧ s.state.index = r.index)
      ∧ (s.completion.pending.toNat
            = s.jobsThat (fun j => !j.fromRemote && !j.state.isTerminal) + s.retiring
          ↔ s.jobsThat Job.isServed = s.delivered)
      ∧ (s.jobsThat Job.isServed = s.delivered → ∀ l ∈ run.1.landed, l.job.fromRemote = false)
      ∧ ((∀ id job, s.jobs.get? id = some job → job.fromRemote = true → job.destination = none) →
        s.jobsThat Job.isServed = s.delivered) := by
  intro run s
  have hrun : SteeredRun setup (Scheduler.start setup world state) run.1 s :=
    SteeredRun.sequel_induct as .start (fun _ _ a _ _ h hact _ => h.act a hact) hroom
  have h : Hosted run.1 s := SteeredRun.sequel_induct as (.start setup world state)
    (fun _ _ a _ ha h hact hroom => h.act hact (hkeeps a ha) hroom) hroom
  exact ⟨hrun.integrated, h.pending_iff hroom, h.landed_own, h.even⟩

/-- A unit for another process is parsed and answered, one of this run is integrated, and another
one for another process is aborted. -/
def hosted : List Action :=
  let ran (n : Nat) : List Action :=
    [.step n, .step n, .step n, .step n, .parse n, .step n, .step n]
  [.serve (fileUnit "/a.c")] ++ ran 0
    ++ [.submit (fileUnit "/b.c"), .serve (fileUnit "/c.c"), .abort (jobOf 2)] ++ ran 1

/-- One guest has been answered, and the unit of this run is the only one that landed. -/
theorem guests_apart_hosted :
    let run := SteeredRun.sequel steeredSetup (Scheduler.start steeredSetup {} {}) hosted
    let s := run.2
    run.1.peak + 1 < UInt64.size ∧ s.jobsThat Job.isServed = 1 ∧ run.1.landed.length = 1
      ∧ s.completion.pending.toNat
        = s.jobsThat (fun j => !j.fromRemote && !j.state.isTerminal) + s.retiring
      ∧ ∀ l ∈ run.1.landed, l.job.fromRemote = false := by
  have hroom : (SteeredRun.sequel steeredSetup (Scheduler.start steeredSetup {} {}) hosted).1.peak + 1
      < UInt64.size := by decide
  have hstay : ∀ entry ∈ (SteeredRun.sequel steeredSetup (Scheduler.start steeredSetup {} {})
      hosted).2.jobs.toList, entry.2.fromRemote = true → entry.2.destination = none := by
    decide
  obtain ⟨-, hpending, hlanded, heven⟩ := guests_apart hosted (by simp [hosted, Action.KeepsCount])
    hroom
  have heven := heven fun id job hget => hstay (id, job) (SortedMap.mem_toList_iff.mpr hget)
  exact ⟨hroom, by decide, by decide, hpending.mpr heven, hlanded heven⟩

/-- A job for another process that is handed off and completed there: what came of it is integrated,
and the count goes below zero. -/
theorem guest_handed_off :
    let unit : Invocation :=
      { directory := ⟨"/"⟩, compiler := "gcc", input := ⟨"/a.c"⟩, language := .c }
    let s := (SteeredRun.sequel steeredSetup (Scheduler.start steeredSetup {} {})
      [.serve unit, .handOff (jobOf 0) "peer" 1,
        .completeRemote (jobOf 0) {} { invocation := unit, lastModified := 1 }]).2
    s.jobsThat (fun j => !j.fromRemote && !j.state.isTerminal) = 0 ∧ s.retiring = 0
      ∧ s.completion.pending = 18446744073709551615
      ∧ s.state.sources = [{ invocation := unit, lastModified := 1 }] := by
  decide

end SymbolIndex
