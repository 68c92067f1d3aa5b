import SymbolIndex.Proofs.OnceOnly

/-!
# Runs that nobody steers

Units are submitted to the run of a build or of an update, and then its tasks move; nothing else is
done to it. Such a run has one task for each job, under the number of the job (`Posted`), and its
jobs are never handed off, taken back or aborted (`Home`).

A `Trace` is a run of this kind. It is one of those in which everything may happen, so what holds of
them holds of it (`Trace.exists_steeredRun`).
-/

namespace SymbolIndex

open List Scheduler

/-! ## A task for each job -/

section Posting

variable {id : JobId} {e : Errand}

/-- A task is the first for a job. -/
def Errand.IsFor (id : JobId) (e : Errand) : Prop := e = .unit id 0 ∨ ∃ r, e = .header id r

theorem Errand.IsFor.job? (h : e.IsFor id) : e.job? = some id := by
  rcases h with rfl | ⟨r, rfl⟩ <;> rfl

theorem Errand.IsFor.answers (h : e.IsFor id) : e.answers = false := by
  rcases h with rfl | ⟨r, rfl⟩ <;> rfl

theorem Errand.isFor_of_job? (hid : e.job? = some id) (hattempt : e.attempt = 0)
    (hown : e.answers = false) : e.IsFor id := by
  cases e with
  | unit id' attempt =>
    obtain rfl : id' = id := Option.some.inj hid
    exact .inl (congrArg _ hattempt)
  | header id' r =>
    obtain rfl : id' = id := Option.some.inj hid
    exact .inr ⟨r, rfl⟩
  | remote => simp [Errand.answers] at hown
  | request => simp [Errand.job?] at hid

end Posting

/-- Every job has one task, of its number. -/
structure Posted (s : Scheduler) : Prop where
  size : s.jobs.size = s.tasks.length
  errand : ∀ {n : Nat} {t : Task}, s.tasks[n]? = some t → t.errand.IsFor (jobOf n)

variable {setup : RunSetup} {s s' : Scheduler} {n : Nat} {g : Ledger}

theorem Posted.job? (h : Posted s) {t : Task} (ht : s.tasks[n]? = some t) :
    t.errand.job? = some (jobOf n) :=
  (h.errand ht).job?

namespace Scheduler

/-- What a step makes of a job when nothing is asked from outside. -/
inductive JobMoves (job : Job) : Job → Prop where
  | kept : JobMoves job job
  | begun : JobMoves job { job with state := .runningLocal, started := true }
  | ended (visited : SortedSet FileId) {next : JobState} :
      next = .completeLocal ∨ next = .crashed →
      JobMoves job (Job.advance { job with visited } next)

theorem JobMoves.invocation {job job' : Job} (h : JobMoves job job') :
    job'.invocation = job.invocation := by
  cases h with
  | kept | begun => rfl
  | ended =>
    unfold Job.advance Job.transition
    split <;> rfl

/-- **What a step does to the jobs** where nothing is asked for: one of them moves. -/
theorem Transition.jobMoves (h : Transition setup s (some n) s') (hposted : Posted s) :
    (∀ id, Option.Rel JobMoves (s.jobs.get? id) (s'.jobs.get? id))
      ∧ s'.jobs.size = s.jobs.size := by
  have hrefl : ∀ id, Option.Rel JobMoves (s.jobs.get? id) (s.jobs.get? id) := by
    intro id
    cases s.jobs.get? id with
    | none => exact .none
    | some => exact .some .kept
  have hsame : s'.jobs = s.jobs → (∀ id, Option.Rel JobMoves (s.jobs.get? id) (s'.jobs.get? id))
      ∧ s'.jobs.size = s.jobs.size := fun hjobs => ⟨fun id => hjobs ▸ hrefl id, by rw [hjobs]⟩
  have hone : ∀ {id' : JobId} {job job' : Job}, s.jobs.get? id' = some job →
      s'.jobs = s.jobs.insert id' job' → JobMoves job job' →
      (∀ id, Option.Rel JobMoves (s.jobs.get? id) (s'.jobs.get? id))
        ∧ s'.jobs.size = s.jobs.size := by
    intro id' job job' hjob hjobs hmoves
    obtain ⟨hget, hsize⟩ := jobs_insert hjob hjobs
    refine ⟨fun id => ?_, hsize⟩
    rw [hget]
    split
    · next heq =>
      rw [heq, hjob]
      exact .some hmoves
    · exact hrefl id
  cases h with
  | builds ht _ herrand =>
    exact absurd (hposted.job? ht) (by rw [herrand]; simp [Errand.job?])
  | starts _ _ _ hjob _ _ _ _ _ hfloor => exact hone hjob (floor_jobs hfloor) .begun
  | closes _ _ _ hjob hfate _ _ hget hfloor =>
    refine hone hjob ((floor_jobs hfloor).trans (eq_insert_of_get? hget)) ?_
    cases hfate with
    | dropped _ | lost _ _ => exact .kept
    | landed visited => exact .ended visited (.inl rfl)
    | failed => exact .ended _ (.inr rfl)
  | asks ht =>
    obtain ⟨_, -, -, hjobs, -⟩ := askPermit_cases ht
    exact hsame hjobs
  | declines _ _ _ hfloor =>
    exact hsame ((jobs_releasePermit _).trans (floor_jobs hfloor))
  | frees => exact hsame (jobs_releasePermit s)
  | shifts _ _ _ _ _ _ hfloor | learns _ _ _ hfloor | parses _ _ hfloor | leaves _ _ _ hfloor =>
    exact hsame (floor_jobs hfloor)

theorem Transition.invocation? (h : Transition setup s (some n) s') (hposted : Posted s)
    (id : JobId) : s'.invocation? id = s.invocation? id := by
  have hmoves := (h.jobMoves hposted).1 id
  unfold Scheduler.invocation?
  generalize s.jobs.get? id = before, s'.jobs.get? id = after at hmoves ⊢
  cases hmoves with
  | none => rfl
  | some hmoves => exact congrArg some hmoves.invocation

end Scheduler

namespace Posted

theorem congr (h : Posted s) (htasks : s'.tasks = s.tasks) (hjobs : s'.jobs = s.jobs) : Posted s' :=
  ⟨by rw [hjobs, htasks, h.size], fun ht => h.errand (htasks ▸ ht)⟩

theorem transition (h : Posted s) (hline : s.Asleep) (htransition : s.Transition setup (some n) s') :
    Posted s' := by
  refine ⟨?_, fun ht' => ?_⟩
  · rw [(htransition.jobMoves h).2, htransition.length_eq, h.size]
  · obtain ⟨t, ht, rfl | hpace⟩ := htransition.exists_task hline ht'
    · exact h.errand ht
    · rcases hpace.errand with hsame | ⟨hnone, -⟩
      · exact hsame ▸ h.errand ht
      · simp [h.job? ht] at hnone

variable (h : Posted s) (horderly : Orderly g s) (hroom : s.jobs.size < UInt64.size)

include h horderly hroom

theorem opens {i : Invocation} {errand : Errand} (hopens : s.Opens i errand s')
    (hown : errand.answers = false) : Posted s' ∧ s'.jobs.size = s.jobs.size + 1 := by
  obtain ⟨kind, hjobs⟩ := hopens.jobs
  have hsize : s'.jobs.size = s.jobs.size + 1 := by
    rw [hjobs, SortedMap.size_insert, if_neg (by simp [SortedMap.contains, horderly.get?_next hroom])]
  refine ⟨⟨by rw [hsize, hopens.tasks, length_append, h.size]; rfl, fun ht => ?_⟩, hsize⟩
  rw [hopens.tasks] at ht
  rcases getElem?_concat_cases ht with ht | ⟨rfl, rfl⟩
  · exact h.errand ht
  · rw [← h.size]
    exact Errand.isFor_of_job? hopens.job hopens.attempt hown

theorem submit (i : Invocation) :
    Posted (s.submit setup i).2 ∧ (s.submit setup i).2.jobs.size ≤ s.jobs.size + 1 := by
  rcases s.submit_opens setup i with ⟨-, hfloor, -⟩ | ⟨-, -, errand, hown, hopens⟩
  · have hjobs : (s.submit setup i).2.jobs = s.jobs := floor_jobs hfloor
    exact ⟨h.congr (floor_tasks hfloor) hjobs, hjobs ▸ Nat.le_succ _⟩
  · obtain ⟨hposted, hsize⟩ := h.opens horderly hroom hopens hown
    exact ⟨hposted, Nat.le_of_eq hsize⟩

end Posted

/-! ## Jobs that stay here -/

/-- A job of this run that nobody steers. -/
def Job.IsHome (job : Job) : Prop :=
  job.fromRemote = false ∧ (job.state = .queued ∨ job.state = .runningLocal
    ∨ job.state = .completeLocal ∨ job.state = .crashed)

theorem Job.IsHome.advance {job : Job} (h : job.IsHome) (visited : SortedSet FileId)
    {next : JobState} (hnext : next = .completeLocal ∨ next = .crashed) :
    (Job.advance { job with visited } next).IsHome := by
  unfold Job.advance Job.transition
  split
  · exact ⟨h.1, .inr (.inr hnext)⟩
  · exact h

namespace Scheduler

def Home (s : Scheduler) : Prop := ∀ id job, s.jobs.get? id = some job → job.IsHome

theorem Home.of_jobs (h : s.Home) (hjobs : s'.jobs = s.jobs) : s'.Home := by
  intro id job hjob
  rw [hjobs] at hjob
  exact h id job hjob

theorem Home.created (h : s.Home) {id : JobId} {kind : JobKind} {i : Invocation}
    (hjobs : s'.jobs = s.jobs.insert id (Job.make id kind i false)) : s'.Home := by
  intro id' job hjob
  rw [hjobs, SortedMap.get?_insert] at hjob
  split at hjob
  · cases hjob
    exact ⟨rfl, .inl rfl⟩
  · exact h id' job hjob

theorem Home.transition (h : s.Home) (hposted : Posted s)
    (htransition : Transition setup s (some n) s') :
    s'.Home := by
  intro id job' hjob'
  have hmoves := (htransition.jobMoves hposted).1 id
  rw [hjob'] at hmoves
  generalize hbefore : s.jobs.get? id = before at hmoves
  cases hmoves with
  | @some job _ hmoves =>
    obtain ⟨hown, hstate⟩ := h id job hbefore
    cases hmoves with
    | kept => exact ⟨hown, hstate⟩
    | begun => exact ⟨hown, .inr (.inl rfl)⟩
    | ended visited hnext => exact Job.IsHome.advance ⟨hown, hstate⟩ visited hnext

end Scheduler

/-! ## Traces -/

theorem SteeredRun.size_jobs {world : World} {state : IndexState}
    (h : SteeredRun setup (Scheduler.start setup world state) g s) : s.jobs.size ≤ g.peak := by
  cases h with
  | start => exact Nat.le_refl 0
  | act => exact Nat.le_max_right ..

variable {world : World} {state : IndexState} {is : List Invocation} {ls : List Landing}

/-- **The run of a build or an update is a steered run** in which the same units land. -/
theorem Trace.exists_steeredRun (h : Trace setup (Scheduler.start setup world state) is ls s)
    (hsize : is.length < UInt64.size) :
    ∃ g, SteeredRun setup (Scheduler.start setup world state) g s ∧ g.landed = ls
      ∧ g.peak ≤ is.length ∧ Posted s := by
  induction h with
  | start => exact ⟨{}, .start, rfl, Nat.le_refl 0, rfl, fun ht => absurd ht (by simp [Scheduler.start])⟩
  | submit i h ih =>
    rw [length_append, length_singleton] at hsize ⊢
    obtain ⟨g, hrun, hlanded, hpeak, hposted⟩ := ih (by omega)
    have hjobs := hrun.size_jobs
    obtain ⟨hposted, hmore⟩ := hposted.submit (hrun.orderly (by omega)) (by omega) i
    exact ⟨_, hrun.act (.submit i) rfl, (List.append_nil _).trans hlanded,
      Nat.max_le.mpr ⟨by omega, by omega⟩, hposted⟩
  | @recount is ls s₁ f h ih =>
    obtain ⟨g, hrun, hlanded, hpeak, hposted⟩ := ih hsize
    obtain ⟨htasks, -, hjobs⟩ := s₁.core_recounted f
    refine ⟨_, hrun.act (.recount f) rfl, (List.append_nil _).trans hlanded,
      Nat.max_le.mpr ⟨hpeak, ?_⟩, hposted.congr htasks hjobs⟩
    rw [hjobs]
    exact Nat.le_trans hrun.size_jobs hpeak
  | @step is ls s₁ s₂ n woken h hstep ih =>
    obtain ⟨g, hrun, rfl, hpeak, hposted⟩ := ih hsize
    have horderly := hrun.orderly (Nat.lt_of_le_of_lt hpeak hsize)
    have htransition := Scheduler.transition_step horderly.staffed hstep
    have hact : s₁.act? setup (.step n) = some s₂ := Option.map_eq_some_iff.mpr ⟨_, hstep, rfl⟩
    refine ⟨_, hrun.act (.step n) hact, rfl, Nat.max_le.mpr ⟨hpeak, ?_⟩,
      hposted.transition horderly.line htransition⟩
    rw [(htransition.jobMoves hposted).2]
    exact Nat.le_trans hrun.size_jobs hpeak
  | @parse is ls s₁ s₂ n h hend ih =>
    obtain ⟨g, hrun, hlanded, hpeak, hposted⟩ := ih hsize
    have horderly := hrun.orderly (Nat.lt_of_le_of_lt hpeak hsize)
    have htransition := Scheduler.transition_endParse hend
    refine ⟨_, hrun.act (.parse n) hend, (List.append_nil _).trans hlanded,
      Nat.max_le.mpr ⟨hpeak, ?_⟩, hposted.transition horderly.line htransition⟩
    rw [(htransition.jobMoves hposted).2]
    exact Nat.le_trans hrun.size_jobs hpeak

variable (h : Trace setup (Scheduler.start setup world state) is ls s)
  (hsize : is.length < UInt64.size)

include h hsize

theorem Trace.orderly : ∃ g : Ledger, g.landed = ls ∧ Orderly g s := by
  obtain ⟨g, hrun, hlanded, hpeak, -⟩ := h.exists_steeredRun hsize
  exact ⟨g, hlanded, hrun.orderly (Nat.lt_of_le_of_lt hpeak hsize)⟩

theorem Trace.posted : Posted s := by
  obtain ⟨g, -, -, -, hposted⟩ := h.exists_steeredRun hsize
  exact hposted

theorem Trace.size_jobs : s.jobs.size ≤ is.length := by
  obtain ⟨g, hrun, -, hpeak, -⟩ := h.exists_steeredRun hsize
  exact Nat.le_trans hrun.size_jobs hpeak

theorem Trace.transition_step {s₁ : Scheduler} {woken : List Nat}
    (hstep : s.step? setup n = some (s₁, woken)) : s.Transition setup (some n) s₁ := by
  obtain ⟨g, -, horderly⟩ := h.orderly hsize
  exact Scheduler.transition_step horderly.staffed hstep

theorem Trace.line : s.Asleep := by
  obtain ⟨g, -, horderly⟩ := h.orderly hsize
  exact horderly.line

omit h hsize

theorem Trace.home (h : Trace setup (Scheduler.start setup world state) is ls s)
    (hsize : is.length < UInt64.size) : s.Home := by
  induction h with
  | start => exact fun id job hjob => absurd hjob (by simp [Scheduler.start])
  | @submit is ls s₁ i h ih =>
    rw [length_append, length_singleton] at hsize
    have hhome := ih (by omega)
    rcases s₁.submit_opens setup i with ⟨-, hfloor, -⟩ | ⟨-, -, errand, hanswers, hopens⟩
    · exact hhome.of_jobs (floor_jobs hfloor)
    · obtain ⟨kind, hjobs⟩ := hopens.jobs
      rw [hanswers] at hjobs
      exact hhome.created hjobs
  | @recount is ls s₁ f h ih => exact (ih hsize).of_jobs (s₁.core_recounted f).2.2
  | step h hstep ih => exact (ih hsize).transition (h.posted hsize) (h.transition_step hsize hstep)
  | parse h hend ih =>
    exact (ih hsize).transition (h.posted hsize) (Scheduler.transition_endParse hend)

end SymbolIndex
