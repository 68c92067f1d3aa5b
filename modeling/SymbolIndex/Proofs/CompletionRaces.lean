import SymbolIndex.Proofs.Guests
import SymbolIndex.Proofs.Latch

/-!
# No completion is lost

Whoever takes a job off the count or stops holding completion open does two things: it takes itself
off its own count, and if it was the last there, it looks at the other count. In between anything
can happen. Tasks move in such steps anyway; a `CompletionRace` is a run together with those outside
who are between two of theirs: who hold completion open, have ended a job from outside, are about to
look at one of the counts, or are about to wait. Left to themselves they do what `abort`,
`completeRemote` and `endIntrospection` do.

`fired_of_idle`: whenever nothing is counted and nobody is still to look, the latch of a run that
was ever used has fired. Jobs for other processes are not counted and, unless one of them is handed
off, never taken off the count.
-/

namespace SymbolIndex

open Bool Completion List Option Scheduler SortedMap

variable {l : Latch} {c : Completion}

/-- Whether an action ends a job from outside or changes the counts. The others do to the counts what
tasks do. -/
def Action.meddles : Action → Bool
  | .abort _ | .completeRemote .. | .recount _ => true
  | _ => false

theorem Action.keepsCount_of_plain {a : Action} (h : a.meddles = false) : a.KeepsCount := by
  cases a with
  | recount => simp [meddles] at h
  | _ => trivial

theorem Latch.error_triggerSuccess (h : l.error = none) : l.triggerSuccess.error = none := by
  unfold triggerSuccess
  split <;> exact h

theorem Latch.isTriggered_triggerSuccess (l : Latch) : l.triggerSuccess.isTriggered = true := by
  unfold triggerSuccess
  split
  · assumption
  · rfl

theorem Latch.outcome?_of_fired (hfired : l.isTriggered = true) (h : l.error = none) :
    l.outcome? = some (.ok ()) := by
  have hcompleted : l.completed = true := by
    unfold isTriggered at hfired
    rw [h] at hfired
    simpa using hfired
  unfold outcome?
  rw [hcompleted]
  rfl

theorem Completion.error_checkIntrospections (h : c.latch.error = none) :
    c.checkIntrospections.latch.error = none := by
  unfold checkIntrospections
  split
  · exact Latch.error_triggerSuccess h
  · exact h

theorem Completion.error_checkPending (h : c.latch.error = none) :
    c.checkPending.latch.error = none := by
  unfold checkPending
  split
  · exact Latch.error_triggerSuccess h
  · exact h

namespace Scheduler

/-! ## Ending a job from outside -/

/-- Abort a job and leave it to the caller to take it off the count; the answer is whether it is on
the count. -/
def abortJob (s : Scheduler) (id : JobId) : Except JobError (Bool × Scheduler) := do
  let (job, s) ← s.moveJob id .aborted (fun j => j)
  return (!job.fromRemote, (s.note .info .scheduler ("Aborted " ++ job.text)).countAborted)

/-- Integrate what a remote worker made of a job and leave it to the caller to take the job off the
count; the answer is whether there was room for it. -/
def completeJob (s : Scheduler) (id : JobId) (c : Contribution) (source : Source) :
    Except JobError (Bool × Scheduler) := do
  if (s.jobs.get? id).any (fun j => j.state = .aborted) then .error (.aborted id)
  else
    let (_, moved) ← s.moveJob id .completeRemote (fun j => j)
    match s.state.integrate c source with
    | .error _ => return (false, s)
    | .ok (visited, state) =>
      let merged := { moved.noteReplaced source with state }
      return (true, (merged.updateJob id (fun j => { j with visited })).countCompleted)

/-- Take an ended job off the count, if it is on it. -/
def takeOff (left : Bool × Scheduler) : Scheduler :=
  if left.1 then left.2.mapCompletion Completion.jobDone else left.2

section Parts

variable {s s' : Scheduler} {id : JobId} {left : Bool × Scheduler}

theorem abort_eq (s : Scheduler) (id : JobId) : s.abort id = (s.abortJob id).map takeOff := by
  unfold abort abortJob takeOff
  cases s.moveJob id .aborted (fun j => j) with
  | error => rfl
  | ok moved =>
    obtain ⟨job, s₁⟩ := moved
    cases hguest : job.fromRemote <;> simp [bind, Except.bind, pure, Except.pure, Except.map, hguest]

theorem completeRemote_eq (s : Scheduler) (id : JobId) (c : Contribution) (source : Source) :
    s.completeRemote id c source = (s.completeJob id c source).map takeOff := by
  unfold completeRemote completeJob
  split
  · rfl
  · cases s.moveJob id .completeRemote (fun j => j) with
    | error => rfl
    | ok => cases s.state.integrate c source <;> rfl

theorem abortJob_leaves (h : s.abortJob id = .ok left) :
    left.2.tasks = s.tasks ∧ left.2.completion = s.completion := by
  unfold abortJob at h
  obtain ⟨job, -, -, hok⟩ := moveJob_eq_ok h (by decide)
  rw [← Except.ok.inj hok]
  exact ⟨rfl, rfl⟩

theorem completeJob_leaves {c : Contribution} {source : Source}
    (h : s.completeJob id c source = .ok left) :
    left.2.tasks = s.tasks ∧ left.2.completion = s.completion := by
  unfold completeJob at h
  split at h
  · cases h
  · obtain ⟨job, -, -, hok⟩ := moveJob_eq_ok h (by decide)
    cases hintegrate : s.state.integrate c source <;> rw [hintegrate] at hok <;>
      rw [← Except.ok.inj hok]
    · exact ⟨rfl, rfl⟩
    · unfold noteReplaced
      split <;> exact ⟨rfl, rfl⟩

end Parts

/-! ## What an action does to the counts -/

section Beating

variable {s s' : Scheduler} {setup : RunSetup} {who : Option Nat}

theorem Transition.size_le (h : Transition setup s who s') : s'.jobs.size ≤ s.jobs.size + 1 := by
  have hsame : s'.jobs = s.jobs → s'.jobs.size ≤ s.jobs.size + 1 :=
    fun hjobs => hjobs ▸ Nat.le_succ _
  have hone : ∀ {id : JobId} {job : Job}, s'.jobs = s.jobs.insert id job →
      s'.jobs.size ≤ s.jobs.size + 1 := by
    intro id job hjobs
    rw [hjobs, size_insert]
    split <;> omega
  cases h with
  | idle hfloor | shifts _ _ _ _ _ _ hfloor | learns _ _ _ hfloor | parses _ _ hfloor
  | leaves _ _ _ hfloor | requests hfloor => exact hsame (floor_jobs hfloor)
  | builds _ _ _ _ _ hfloor | starts _ _ _ _ _ _ _ _ _ hfloor | opens _ _ _ hfloor =>
    exact hone (floor_jobs hfloor)
  | asks ht =>
    obtain ⟨_, -, -, hjobs, -⟩ := askPermit_cases ht
    exact hsame hjobs
  | declines _ _ _ hfloor => exact hsame ((jobs_releasePermit _).trans (floor_jobs hfloor))
  | frees => exact hsame (jobs_releasePermit s)
  | closes _ _ _ _ _ _ _ hget hfloor =>
    exact hone ((floor_jobs hfloor).trans (eq_insert_of_get? hget))
  | steers hmoves => exact Nat.le_succ_of_le (Nat.le_of_eq hmoves.size)

/-- **Every action that does not meddle with the counts.** -/
theorem beat_act {g : Ledger} {a : Action} (h : Orderly g s) (hact : s.act? setup a = some s')
    (hplain : a.meddles = false) : s.Beat s' := by
  have hstill : ∀ {s' : Scheduler} {more : List Task}, s'.completion = s.completion →
      s'.tasks = s.tasks ++ more → (∀ t ∈ more, t.phase = .fresh) → s.Beat s' :=
    fun hcompletion htasks hfresh => .still hcompletion (checks_append htasks hfresh)
  cases a with
  | submit i =>
    cases hact
    rcases s.submit_opens setup i with ⟨-, hfloor, htallies⟩ | ⟨-, htallies, errand, -, hopens⟩
    · exact .still (congrArg Prod.fst htallies) (checks_congr (floor_tasks hfloor))
    · refine .counted (congrArg Prod.fst htallies) fun hlength => ?_
      rw [hopens.tasks, length_append] at hlength
      simp at hlength
  | request i => exact some.inj hact ▸ hstill rfl rfl (by simp)
  | serve i =>
    exact some.inj hact ▸ hstill rfl (s.submitFromRemote_opens setup i).tasks (by simp)
  | step =>
    obtain ⟨⟨s₁, woken⟩, hstep, rfl⟩ := map_eq_some_iff.mp hact
    exact (transition_step h.staffed hstep).beat h.line
  | parse => exact (transition_endParse hact).beat h.line
  | handOff =>
    obtain ⟨job, -, -, htallies, hmoves⟩ := handOff_eq_some hact
    exact hstill (congrArg Prod.fst htallies) hmoves.tasks (by simp)
  | reschedule =>
    obtain ⟨job, -, -, htallies, hmoves⟩ := reschedule_eq_some hact
    exact hstill (congrArg Prod.fst htallies) hmoves.tasks (by simp)
  | block =>
    obtain ⟨job, blockedFiles, -, htallies, hmoves⟩ := recordBlockedFile_eq_some hact
    exact hstill (congrArg Prod.fst htallies) hmoves.tasks (by simp)
  | meanwhile => exact some.inj hact ▸ .still rfl .rfl
  | completeRemote | abort | recount => simp [Action.meddles] at hplain

end Beating

/-! ## Ended jobs and the count -/

section Leaving

variable {s s' : Scheduler} {left : Bool × Scheduler} {a : Action} {setup : RunSetup}

theorem Sheltered.congr (h : s.Sheltered) (hjobs : s'.jobs = s.jobs) (htasks : s'.tasks = s.tasks) :
    s'.Sheltered := by
  have hstays : ∀ {id : JobId} {job : Job}, s'.Stays id job → s.Stays id job := by
    intro id job hstays
    unfold Stays at hstays ⊢
    rwa [hjobs] at hstays
  refine ⟨fun id job hs => h.home id job (hstays hs), fun e he id job hid hs => ?_⟩
  exact h.answers e (errands_congr htasks ▸ he) id job hid (hstays hs)

theorem allStay_congr (hjobs : s'.jobs = s.jobs) : s'.AllStay ↔ s.AllStay := by
  unfold AllStay
  rw [hjobs]

theorem core_takeOff (left : Bool × Scheduler) :
    (takeOff left).tasks = left.2.tasks ∧ (takeOff left).line = left.2.line
      ∧ (takeOff left).jobs = left.2.jobs := by
  unfold takeOff
  split
  · exact core_recounted _ _
  · exact ⟨rfl, rfl, rfl⟩

theorem pending_takeOff (left : Bool × Scheduler) :
    (takeOff left).books.pending = left.2.books.pending - UInt64.ofNat left.1.toNat := by
  unfold takeOff
  split
  · next hleft =>
    rw [hleft]
    refine (congrArg (fun tallies => tallies.2.pending) (tallies_mapCompletion _ _)).trans ?_
    exact pending_jobDone _
  · next hleft =>
    rw [not_eq_true] at hleft
    rw [hleft]
    exact (UInt64.sub_zero _).symm

theorem Entry.own_or_counted {guest : Bool} {landed : List Job} (h : s.Entry guest landed s')
    (hown : ∃ id job, s'.jobs.get? id = some job ∧ job.fromRemote = false) :
    (∃ id job, s.jobs.get? id = some job ∧ job.fromRemote = false)
      ∨ s'.completion.pending = s.completion.pending + 1 := by
  obtain ⟨id, job', hget, hown⟩ := hown
  rcases h.jobs_cases with hjobs | ⟨k, j, -, hjobs, -, hguest, hbooks⟩ | ⟨k, j, j', hfiled⟩
  · exact .inl ⟨id, job', hjobs ▸ hget, hown⟩
  · rw [hjobs, get?_insert] at hget
    split at hget
    · cases hget
      rw [← hguest, hown] at hbooks
      exact .inr (congrArg Books.pending hbooks)
    · exact .inl ⟨id, job', hget, hown⟩
  · rw [hfiled.jobs, get?_insert] at hget
    split at hget
    · cases hget
      exact .inl ⟨k, j, hfiled.filed, hfiled.guest.symm.trans hown⟩
    · exact .inl ⟨id, job', hget, hown⟩

end Leaving

end Scheduler

/-! ## Those outside -/

/-- A run, and how many outside are at each point of what they do. -/
structure CompletionRace where
  scheduler : Scheduler
  holders : Nat := 0
  leaving : Nat := 0
  /-- Who have taken the last job off the count and are about to look at the introspections. -/
  checking : Nat := 0
  /-- Who were the last to hold completion open and are about to look at the jobs. -/
  looking : Nat := 0
  /-- Who are about to wait, have found no job and are about to look at the introspections. -/
  idling : Nat := 0
  /-- How often someone has stopped holding completion open. -/
  ended : Nat := 0

/-- What is done in one go, by a task or by someone outside. -/
inductive CallerStep where
  | act (a : Action)
  | retire
  /-- Who has taken the last job off the count looks at the introspections. -/
  | check
  | hold
  | release
  | look
  | visit
  /-- Who wants to wait and has found no job looks at the introspections. -/
  | idle
  | sleep
  | leave

namespace CompletionRace

def recount (v : CompletionRace) (f : Completion → Completion) : CompletionRace :=
  { v with scheduler := v.scheduler.mapCompletion f }

/-- Someone has ended a job, and is to take it off the count if it is on the count. -/
def left (v : CompletionRace) (left : Bool × Scheduler) : CompletionRace :=
  { v with scheduler := left.2, leaving := v.leaving + left.1.toNat }

/-- One step; none where it cannot be done. -/
def do? (setup : RunSetup) (v : CompletionRace) : CallerStep → Option CompletionRace
  | .act (.abort id) => (v.scheduler.abortJob id).toOption.map v.left
  | .act (.completeRemote id c source) =>
    (v.scheduler.completeJob id c source).toOption.map v.left
  | .act (.recount _) => none
  | .act a => (v.scheduler.act? setup a).map (fun s => { v with scheduler := s })
  | .retire =>
    if v.leaving = 0 then none
    else some { v.recount (fun c => c.releaseJob.2) with
      leaving := v.leaving - 1
      checking := v.checking + v.scheduler.completion.releaseJob.1.toNat }
  | .check =>
    if v.checking = 0 then none
    else some { v.recount Completion.checkIntrospections with checking := v.checking - 1 }
  | .hold => some { v.recount Completion.beginIntrospection with holders := v.holders + 1 }
  | .release =>
    if v.holders = 0 then none
    else some { v.recount (fun c => c.releaseIntrospection.2) with
      holders := v.holders - 1
      looking := v.looking + v.scheduler.completion.releaseIntrospection.1.toNat
      ended := v.ended + 1 }
  | .look =>
    if v.looking = 0 then none
    else some { v.recount Completion.checkPending with looking := v.looking - 1 }
  | .visit =>
    if v.scheduler.completion.pending = 0 then some { v with idling := v.idling + 1 } else none
  | .idle =>
    if v.idling = 0 then none
    else some { v.recount Completion.checkIntrospections with idling := v.idling - 1 }
  | .sleep =>
    match v.scheduler.completion.latch.register with
    | .ok latch => some (v.recount (fun c => { c with latch }))
    | .error _ => none
  | .leave => some (v.recount (fun c => { c with latch := c.latch.wake.2 }))

theorem do?_act (setup : RunSetup) {a : Action} (v : CompletionRace) (h : a.meddles = false) :
    v.do? setup (.act a) = (v.scheduler.act? setup a).map (fun s => { v with scheduler := s }) := by
  cases a <;> first | rfl | simp [Action.meddles] at h

theorem do?_ends (setup : RunSetup) {a : Action} (v : CompletionRace) (h : a.meddles = true)
    (hcounts : ∀ f, a ≠ .recount f) :
    ∃ x : Except JobError (Bool × Scheduler), v.do? setup (.act a) = x.toOption.map v.left
      ∧ v.scheduler.act? setup a = (x.map takeOff).toOption
      ∧ ∀ left, x = .ok left → left.2.tasks = v.scheduler.tasks
        ∧ left.2.completion = v.scheduler.completion := by
  cases a with
  | abort id =>
    exact ⟨_, rfl, congrArg Except.toOption (abort_eq _ id), fun _ => abortJob_leaves⟩
  | completeRemote id c source =>
    exact ⟨_, rfl, congrArg Except.toOption (completeRemote_eq _ id c source),
      fun _ => completeJob_leaves⟩
  | recount f => exact absurd rfl (hcounts f)
  | _ => cases h

/-- One step, or nothing where it cannot be done. -/
def attempt (setup : RunSetup) (v : CompletionRace) (d : CallerStep) : CompletionRace :=
  (v.do? setup d).getD v

/-- Steps one after the other. -/
def after (setup : RunSetup) (v : CompletionRace) (ds : List CallerStep) : CompletionRace :=
  ds.foldl (attempt setup) v

/-! ### Who is left to themselves -/

section Alone

variable {setup : RunSetup} {v : CompletionRace} {a : Action} {s' : Scheduler}
  {f : Completion → Completion}

theorem mapCompletion_mapCompletion (s : Scheduler)
    (hlatch : (f s.completion).latch = s.completion.latch) (g : Completion → Completion) :
    (s.mapCompletion f).mapCompletion g = s.mapCompletion (fun c => g (f c)) := by
  unfold Scheduler.mapCompletion
  simp [hlatch]

theorem mapCompletion_congr (s : Scheduler) {g : Completion → Completion}
    (h : f s.completion = g s.completion) : s.mapCompletion f = s.mapCompletion g := by
  unfold Scheduler.mapCompletion
  rw [h]

theorem alone_left (setup : RunSetup) (v : CompletionRace) (left : Bool × Scheduler)
    (hleaving : v.leaving = 0) (hchecking : v.checking = 0) :
    ((v.left left).after setup [.retire, .check]).scheduler = takeOff left := by
  obtain ⟨owes, s⟩ := left
  cases owes with
  | false => simp [after, attempt, do?, CompletionRace.left, hleaving, hchecking, takeOff]
  | true =>
    cases hlast : s.completion.releaseJob.1 with
    | false =>
      simp only [after, attempt, do?, CompletionRace.left, recount, hleaving, hchecking, hlast,
        takeOff, List.foldl_cons, List.foldl_nil, Bool.toNat_true, Bool.toNat_false,
        Nat.zero_add, Nat.one_ne_zero, if_true, if_false, Option.getD_some, Option.getD_none]
      refine mapCompletion_congr s ?_
      simp [Completion.jobDone, hlast]
    | true =>
      simp only [after, attempt, do?, CompletionRace.left, recount, hleaving, hchecking, hlast,
        takeOff, List.foldl_cons, List.foldl_nil, Bool.toNat_true,
        Nat.zero_add, Nat.one_ne_zero, if_true, if_false, Option.getD_some]
      refine (mapCompletion_mapCompletion s rfl _).trans (mapCompletion_congr s ?_)
      simp [Completion.jobDone, hlast]

/-- **An action that is left to itself does all it does.** -/
theorem alone_act (hleaving : v.leaving = 0) (hchecking : v.checking = 0)
    (hact : v.scheduler.act? setup a = some s') (hcounts : ∀ f, a ≠ .recount f) :
    (v.after setup [.act a, .retire, .check]).scheduler = s' := by
  cases hmeddles : a.meddles with
  | false =>
    have hdo := do?_act setup v hmeddles
    rw [hact] at hdo
    have hdone : v.attempt setup (.act a) = { v with scheduler := s' } := by simp [attempt, hdo]
    -- Nobody has left a job, so nothing is done after that.
    have hrest : (({ v with scheduler := s' } : CompletionRace).after setup
        [.retire, .check]).scheduler = s' := by
      simp [after, attempt, do?, hleaving, hchecking]
    rwa [← hdone] at hrest
  | true =>
    obtain ⟨x, hdo, hends, -⟩ := do?_ends setup v hmeddles hcounts
    rw [hends] at hact
    cases x with
    | error => cases hact
    | ok left =>
      rw [← some.inj hact, ← alone_left setup v left hleaving hchecking]
      simp [after, attempt, hdo, Except.toOption]

/-- **Who stops holding completion open and is left to itself ends an introspection.** -/
theorem alone_release (hholders : v.holders ≠ 0) (hlooking : v.looking = 0) :
    (v.after setup [.release, .look]).scheduler
      = v.scheduler.mapCompletion Completion.endIntrospection := by
  cases hlast : v.scheduler.completion.releaseIntrospection.1 with
  | false =>
    simp only [after, attempt, do?, recount, hholders, hlooking, hlast, List.foldl_cons,
      List.foldl_nil, Bool.toNat_false, Nat.zero_add, if_true,
      if_false, Option.getD_some, Option.getD_none]
    refine mapCompletion_congr _ ?_
    simp [Completion.endIntrospection, hlast]
  | true =>
    simp only [after, attempt, do?, recount, hholders, hlooking, hlast, List.foldl_cons,
      List.foldl_nil, Bool.toNat_true, Nat.zero_add, Nat.one_ne_zero,
      if_false, Option.getD_some]
    refine (mapCompletion_mapCompletion _ rfl _).trans (mapCompletion_congr _ ?_)
    simp [Completion.endIntrospection, hlast]

end Alone

/-! ### The counts say who is there -/

/-- A run with at most `k` jobs whose tasks and counts are in order. -/
structure Vouched (k : Nat) (s : Scheduler) : Prop where
  orderly : ∃ g, Orderly g s
  size : s.jobs.size ≤ k
  sheltered : s.Sheltered
  even : s.AllStay → s.jobsThat Job.isServed = s.delivered
  room : s.jobsThat Job.isOpen + s.retiring + s.delivered ≤ s.jobs.size

section Vouching

variable {setup : RunSetup} {k : Nat} {a : Action} {s s' : Scheduler}

theorem Vouched.congr (h : Vouched k s) (htasks : s'.tasks = s.tasks) (hline : s'.line = s.line)
    (hjobs : s'.jobs = s.jobs) : Vouched k s' := by
  obtain ⟨g, horderly⟩ := h.orderly
  have hmarks := marks_eq (marks_congr htasks)
  have hthat := jobsThat_congr hjobs
  refine ⟨⟨g, horderly.still (turnsOf_congr (congrArg (List.map _) htasks)) hjobs
      (horderly.line.congr htasks hline) fun _ => rfl⟩, hjobs ▸ h.size,
    h.sheltered.congr hjobs htasks, fun hstay => ?_, ?_⟩
  · rw [hthat, hmarks.2]
    exact h.even ((allStay_congr hjobs).mp hstay)
  · rw [hthat, hmarks.1, hmarks.2, hjobs]
    exact h.room

theorem Vouched.act (h : Vouched k s) (hact : s.act? setup a = some s') (hkeeps : a.KeepsCount)
    (hroom : 2 * (k + 1) < UInt64.size) :
    Vouched (k + 1) s' ∧ ∃ guest landed, s.Entry guest landed s' := by
  obtain ⟨g, horderly⟩ := h.orderly
  have htransition := transition_act horderly.staffed hact
  have hsize : s'.jobs.size ≤ k + 1 := Nat.le_trans htransition.size_le (Nat.succ_le_succ h.size)
  have hfits : s'.jobs.size < UInt64.size := by omega
  have hentry := entry_act horderly hact hkeeps hfits
  refine ⟨⟨⟨_, horderly.act hact hfits⟩, hsize,
    h.sheltered.entry horderly hentry (htransition.engages horderly.line), fun hstay => ?_,
    hentry.room h.room⟩, _, _, hentry⟩
  have hbefore := hentry.allStay hstay
  exact hentry.even h.sheltered hbefore (h.even hbefore)

end Vouching

/-- The counts say who is there, after at most `k` steps. -/
structure Counted (k : Nat) (v : CompletionRace) : Prop where
  vouched : Vouched k v.scheduler
  pending : Balances v.scheduler.books.pending (v.scheduler.jobsThat Job.isServed)
    (v.scheduler.owed + v.leaving)
  leaving : v.leaving ≤ k
  introspections : v.scheduler.completion.introspections = UInt64.ofNat v.holders
  holders : v.holders ≤ k
  unfailed : v.scheduler.completion.latch.error = none

section Counting

variable {setup : RunSetup} {k : Nat} {v v' : CompletionRace} {a : Action} {s' : Scheduler}

theorem Counted.start (setup : RunSetup) (world : World) (state : IndexState) :
    Counted 0 { scheduler := .start setup world state } where
  vouched := ⟨⟨{}, .start setup world state⟩, Nat.le_refl _,
    (Hosted.start setup world state).sheltered, (Hosted.start setup world state).even,
    Nat.le_refl _⟩
  pending := rfl
  leaving := Nat.le_refl _
  introspections := rfl
  holders := Nat.le_refl _
  unfailed := rfl

variable (h : Counted k v)

include h

theorem Counted.mono : Counted (k + 1) v := { h with
    vouched := { h.vouched with size := Nat.le_succ_of_le h.vouched.size }
    leaving := Nat.le_succ_of_le h.leaving
    holders := Nat.le_succ_of_le h.holders }

/-- As long as every guest stays, the count is that of the jobs of this run that have not ended and
of those who are about to take one off. -/
theorem Counted.toNat_pending (hroom : 2 * k < UInt64.size)
    (hstay : v.scheduler.AllStay) :
    v.scheduler.completion.pending.toNat
      = v.scheduler.jobsThat Job.isOwnOpen + v.scheduler.retiring + v.leaving := by
  obtain ⟨-, hsize, -, heven, hfits⟩ := h.vouched
  have hleaving := h.leaving
  have hserved : v.scheduler.jobsThat Job.isServed ≤ v.scheduler.jobs.size :=
    Nat.le_trans List.countP_le_length (Nat.le_of_eq (List.length_map ..))
  have hown : v.scheduler.jobsThat Job.isOwnOpen ≤ v.scheduler.jobsThat Job.isOpen :=
    countP_mono_left fun job _ hjob => (and_eq_true_iff.mp hjob).2
  have hbalance : Balances v.scheduler.completion.pending (v.scheduler.jobsThat Job.isServed)
      (v.scheduler.jobsThat Job.isOwnOpen + v.scheduler.retiring + v.leaving
        + v.scheduler.delivered) := by
    refine h.pending.congr rfl rfl ?_
    unfold Scheduler.owed
    omega
  exact (hbalance.toNat_eq_iff (by omega) (by omega) (by omega)).mpr (heven hstay)

section

variable (f : Completion → Completion) (hscheduler : v'.scheduler = v.scheduler.mapCompletion f)

include hscheduler

theorem Counted.recount
    (hpending : Balances (f v.scheduler.completion).pending (v.scheduler.jobsThat Job.isServed)
      (v.scheduler.owed + v'.leaving))
    (hintrospections : (f v.scheduler.completion).introspections = UInt64.ofNat v'.holders)
    (hunfailed : (f v.scheduler.completion).latch.error = none) (hleaving : v'.leaving ≤ k + 1)
    (hholders : v'.holders ≤ k + 1) : Counted (k + 1) v' := by
  obtain ⟨htasks, hline, hjobs⟩ := v.scheduler.core_recounted f
  have hcompletion := v.scheduler.completion_mapCompletion f
  have hmarks := marks_eq (marks_congr htasks)
  rw [← hscheduler] at htasks hline hjobs hcompletion hmarks
  have hthat := jobsThat_congr hjobs
  refine ⟨h.mono.vouched.congr htasks hline hjobs, ?_, hleaving, ?_, hholders, ?_⟩
  · refine hpending.congr (congrArg Completion.pending hcompletion) (hthat _) ?_
    unfold Scheduler.owed
    rw [hthat, hmarks.1, hmarks.2]
  · rw [hcompletion]
    exact hintrospections
  · rw [hcompletion]
    exact hunfailed

theorem Counted.glance
    (hpending : (f v.scheduler.completion).pending = v.scheduler.completion.pending)
    (hintrospections : (f v.scheduler.completion).introspections
      = v.scheduler.completion.introspections)
    (hunfailed : (f v.scheduler.completion).latch.error = none) (hleaving : v'.leaving = v.leaving)
    (hholders : v'.holders = v.holders) :
    Counted (k + 1) v' := by
  refine h.recount f hscheduler ?_ ?_ hunfailed ?_ ?_
  · exact h.pending.congr hpending rfl (congrArg _ hleaving)
  · rw [hintrospections, hholders]
    exact h.introspections
  · exact hleaving ▸ Nat.le_succ_of_le h.leaving
  · exact hholders ▸ Nat.le_succ_of_le h.holders

end

theorem Counted.act (hact : v.scheduler.act? setup a = some s')
    (hplain : a.meddles = false) (hroom : 2 * (k + 1) < UInt64.size) :
    Counted (k + 1) { v with scheduler := s' } := by
  obtain ⟨g, horderly⟩ := h.vouched.orderly
  obtain ⟨hvouched, _, _, hentry⟩ := h.vouched.act hact (Action.keepsCount_of_plain hplain) hroom
  obtain ⟨hintrospections, hunfailed⟩ : s'.completion.introspections
      = v.scheduler.completion.introspections ∧ s'.completion.latch.error = none := by
    cases beat_act horderly hact hplain with
    | still hsame | counted hsame | released _ hsame => rw [hsame]; exact ⟨rfl, h.unfailed⟩
    | checked _ hchecked =>
      rw [hchecked]
      exact ⟨introspections_checkIntrospections _, error_checkIntrospections h.unfailed⟩
  exact ⟨hvouched, hentry.balances v.leaving h.pending, Nat.le_succ_of_le h.leaving,
    hintrospections.trans h.introspections, Nat.le_succ_of_le h.holders, hunfailed⟩

theorem Counted.left {left : Bool × Scheduler}
    (hact : v.scheduler.act? setup a = some (takeOff left)) (hkeeps : a.KeepsCount)
    (hcompletion : left.2.completion = v.scheduler.completion)
    (hroom : 2 * (k + 1) < UInt64.size) : Counted (k + 1) (v.left left) := by
  obtain ⟨htasks, hline, hjobs⟩ := core_takeOff left
  obtain ⟨hvouched, _, _, hentry⟩ := h.vouched.act hact hkeeps hroom
  have hmarks := marks_eq (marks_congr htasks)
  have hthat := jobsThat_congr hjobs
  have hbalance := hentry.balances v.leaving h.pending
  refine ⟨hvouched.congr htasks.symm hline.symm hjobs.symm, ?_, ?_, ?_,
    Nat.le_succ_of_le h.holders, ?_⟩
  · -- The count is still as it was, and the one who has left is to take the job off.
    rw [pending_takeOff] at hbalance
    unfold Scheduler.owed at hbalance ⊢
    rw [hthat, hthat, hmarks.1, hmarks.2] at hbalance
    cases howes : left.1 with
    | false =>
      rw [howes] at hbalance
      refine hbalance.congr (UInt64.sub_zero _).symm rfl ?_
      show _ + (v.leaving + left.1.toNat) = _
      rw [howes]
      rfl
    | true =>
      rw [howes] at hbalance
      refine hbalance.count.congr ?_ rfl ?_
      · show left.2.books.pending = left.2.books.pending - 1 + 1
        exact (UInt64.sub_add_cancel _ _).symm
      · show _ + (v.leaving + left.1.toNat) = _
        rw [howes]
        rfl
  · show v.leaving + left.1.toNat ≤ k + 1
    have hleaving := h.leaving
    have hone := toNat_le left.1
    omega
  · show left.2.completion.introspections = _
    rw [hcompletion]
    exact h.introspections
  · show left.2.completion.latch.error = none
    rw [hcompletion]
    exact h.unfailed

end Counting

/-! ### Someone is always there to look -/

/-- Something is counted, or someone is still to look. -/
def Stirs (v : CompletionRace) : Prop :=
  v.scheduler.completion.pending ≠ 0 ∨ v.scheduler.completion.introspections ≠ 0
    ∨ v.scheduler.Checks ∨ v.checking ≠ 0 ∨ v.looking ≠ 0

/-- A job was counted, or someone has stopped holding completion open. -/
def Used (v : CompletionRace) : Prop :=
  (∃ id job, v.scheduler.jobs.get? id = some job ∧ job.fromRemote = false) ∨ v.ended ≠ 0

/-- If the run was used, the latch has fired or someone will see to it. -/
def Told (v : CompletionRace) : Prop :=
  v.scheduler.AllStay → v.Used →
    v.scheduler.completion.latch.isTriggered = true ∨ v.Stirs

section SymbolReport

variable {setup : RunSetup} {k : Nat} {v v' : CompletionRace} {a : Action} {d : CallerStep}
  {s' : Scheduler}

theorem told_of_checked (h : v'.scheduler.completion
    = v.scheduler.completion.checkIntrospections) : v'.Told := by
  intro _ _
  by_cases hnone : v.scheduler.completion.introspections = 0
  · left
    rw [h]
    unfold Completion.checkIntrospections
    rw [if_pos hnone]
    exact Latch.isTriggered_triggerSuccess _
  · right; right; left
    rw [h, introspections_checkIntrospections]
    exact hnone

theorem told_of_released (h : v'.scheduler.completion = v.scheduler.completion.releaseJob.2)
    (hlast : v.scheduler.completion.releaseJob.1 = true →
      v'.scheduler.Checks ∨ v'.checking ≠ 0) : v'.Told := by
  intro _ _
  right
  by_cases hpending : v.scheduler.completion.pending = 1
  · rcases hlast (by simp [Completion.releaseJob, hpending]) with hchecks | hchecking
    · exact .inr (.inr (.inl hchecks))
    · exact .inr (.inr (.inr (.inl hchecking)))
  · left
    rw [h]
    show v.scheduler.completion.pending - 1 ≠ 0
    grind

theorem Told.still (h : v.Told) (hstay : v'.scheduler.AllStay → v.scheduler.AllStay)
    (hused : v'.Used → v.Used)
    (hpending : v'.scheduler.completion.pending = v.scheduler.completion.pending)
    (hheld : v'.scheduler.completion.introspections = v.scheduler.completion.introspections)
    (hfired : v'.scheduler.completion.latch.isTriggered = v.scheduler.completion.latch.isTriggered)
    (hchecks : v'.scheduler.Checks ↔ v.scheduler.Checks)
    (hothers : v'.checking = v.checking ∧ v'.looking = v.looking) : v'.Told := by
  intro hstay' hused'
  have htold := h (hstay hstay') (hused hused')
  unfold Stirs at htold ⊢
  rwa [hpending, hheld, hfired, hchecks, hothers.1, hothers.2]

/-- **An action that does not meddle with the counts.** -/
theorem Told.act (h : v.Told) (hcounted : Counted k v)
    (hact : v.scheduler.act? setup a = some s') (hplain : a.meddles = false)
    (hroom : 2 * (k + 1) < UInt64.size) : Told { v with scheduler := s' } := by
  obtain ⟨⟨g, horderly⟩, hsize, -, -, hfits⟩ := hcounted.vouched
  obtain ⟨-, _, _, hentry⟩ := hcounted.vouched.act hact (Action.keepsCount_of_plain hplain) hroom
  cases beat_act horderly hact hplain with
  | still hsame hchecks =>
    refine h.still hentry.allStay ?_ (congrArg Completion.pending hsame)
      (congrArg Completion.introspections hsame) (congrArg (·.latch.isTriggered) hsame) hchecks
      ⟨rfl, rfl⟩
    rintro (hown | hended)
    · rcases hentry.own_or_counted hown with hown | hone
      · exact .inl hown
      · rw [hsame] at hone
        grind
    · exact .inr hended
  | counted hcount =>
    intro hstay _
    right; left
    -- The count has not begun again at zero.
    have hexact := hcounted.toNat_pending (by omega) (hentry.allStay hstay)
    have hleaving := hcounted.leaving
    have hown : v.scheduler.jobsThat Job.isOwnOpen ≤ v.scheduler.jobsThat Job.isOpen :=
      countP_mono_left fun job _ hjob => (and_eq_true_iff.mp hjob).2
    have hnext := toNat_countJob (c := v.scheduler.completion) (by omega)
    show s'.completion.pending ≠ 0
    rw [hcount]
    intro hzero
    rw [hzero] at hnext
    cases hnext
  | released _ hreleased hchecks =>
    exact told_of_released hreleased fun hone => .inl (hchecks.mpr (.inr hone))
  | checked _ hchecked => exact told_of_checked hchecked

theorem Told.left (h : v.Told) (hcounted : Counted k v) {left : Bool × Scheduler}
    (hact : v.scheduler.act? setup a = some (takeOff left)) (hkeeps : a.KeepsCount)
    (hcompletion : left.2.completion = v.scheduler.completion)
    (htasks : left.2.tasks = v.scheduler.tasks) (hroom : 2 * (k + 1) < UInt64.size) :
    (v.left left).Told := by
  obtain ⟨-, -, hjobs⟩ := core_takeOff left
  obtain ⟨-, _, _, hentry⟩ := hcounted.vouched.act hact hkeeps hroom
  refine h.still (fun hstay => hentry.allStay ((allStay_congr hjobs).mpr hstay)) ?_
    (congrArg Completion.pending hcompletion) (congrArg Completion.introspections hcompletion)
    (congrArg (·.latch.isTriggered) hcompletion) (checks_congr htasks) ⟨rfl, rfl⟩
  rintro (hown | hended)
  · have hown : ∃ id job, left.2.jobs.get? id = some job ∧ job.fromRemote = false := hown
    rw [← hjobs] at hown
    rcases hentry.own_or_counted hown with hown | hone
    · exact .inl hown
    · -- Nothing is counted when a job ends.
      have hfewer := pending_takeOff left
      have hsame : left.2.books.pending = v.scheduler.completion.pending :=
        congrArg Completion.pending hcompletion
      rw [hsame, show (takeOff left).books.pending = _ from hone] at hfewer
      cases howes : left.1 <;> rw [howes] at hfewer
      · simp at hfewer
      · generalize v.scheduler.completion.pending = p at hfewer
        have htwo : p + 1 + 1 = p := hfewer ▸ UInt64.sub_add_cancel p 1
        grind
  · exact .inr hended

theorem Told.latch (h : v.Told) {f : Latch → Latch}
    (hfired : (f v.scheduler.completion.latch).isTriggered
      = v.scheduler.completion.latch.isTriggered) :
    (v.recount fun c => { c with latch := f c.latch }).Told := by
  obtain ⟨htasks, -, hjobs⟩ := v.scheduler.core_recounted fun c => { c with latch := f c.latch }
  have hcompletion := v.scheduler.completion_mapCompletion fun c => { c with latch := f c.latch }
  refine h.still (allStay_congr hjobs).mp (fun hused => ?_)
    (congrArg Completion.pending hcompletion :) (congrArg Completion.introspections hcompletion :)
    ((congrArg (·.latch.isTriggered) hcompletion).trans hfired) (checks_congr htasks)
    ⟨rfl, rfl⟩
  unfold Used at hused
  rwa [show (v.recount _).scheduler.jobs = _ from hjobs] at hused

section CallerSteps

variable (hcounted : Counted k v)

include hcounted

/-- **Who takes a job off the count.** -/
theorem retire_keeps (hdo : v.do? setup .retire = some v') :
    Counted (k + 1) v' ∧ v'.Told := by
  obtain ⟨hsome, hdo⟩ := ite_none_left_eq_some.mp hdo
  cases hdo
  refine ⟨hcounted.recount (fun c => c.releaseJob.2) rfl ?_ hcounted.introspections
    hcounted.unfailed (Nat.le_trans (Nat.sub_le ..) (Nat.le_succ_of_le hcounted.leaving))
    (Nat.le_succ_of_le hcounted.holders),
    told_of_released (v.scheduler.completion_mapCompletion _) fun hlast => .inr ?_⟩
  · refine Balances.release (hcounted.pending.congr rfl rfl ?_)
    show v.scheduler.owed + (v.leaving - 1) + 1 = v.scheduler.owed + v.leaving
    omega
  · simp [hlast]

/-- **Who has taken the last job off the count, or wants to wait, looks at the introspections.** -/
theorem check_keeps
    (hscheduler : v'.scheduler = v.scheduler.mapCompletion Completion.checkIntrospections)
    (hleaving : v'.leaving = v.leaving) (hholders : v'.holders = v.holders) :
    Counted (k + 1) v' ∧ v'.Told := by
  refine ⟨hcounted.glance Completion.checkIntrospections hscheduler
    (pending_checkIntrospections _) (introspections_checkIntrospections _)
    (error_checkIntrospections hcounted.unfailed) hleaving hholders,
    told_of_checked (v := v) ?_⟩
  rw [hscheduler]
  exact v.scheduler.completion_mapCompletion _

/-- **Someone begins to hold completion open.** -/
theorem hold_keeps (hroom : 2 * (k + 1) < UInt64.size)
    (hdo : v.do? setup .hold = some v') : Counted (k + 1) v' ∧ v'.Told := by
  cases hdo
  have hnext : v.scheduler.completion.beginIntrospection.introspections
      = UInt64.ofNat (v.holders + 1) := by
    rw [UInt64.ofNat_add, ← hcounted.introspections]
    rfl
  refine ⟨hcounted.recount Completion.beginIntrospection rfl hcounted.pending hnext
    hcounted.unfailed (Nat.le_succ_of_le hcounted.leaving) (Nat.succ_le_succ hcounted.holders),
    fun _ _ => ?_⟩
  right; right; left
  have hholders := hcounted.holders
  show (v.scheduler.mapCompletion Completion.beginIntrospection).completion.introspections ≠ 0
  rw [v.scheduler.completion_mapCompletion, hnext]
  intro hzero
  have hnat := congrArg UInt64.toNat hzero
  rw [UInt64.toNat_ofNat_of_lt' (by omega)] at hnat
  cases hnat

/-- **Someone stops holding completion open.** -/
theorem release_keeps (hdo : v.do? setup .release = some v') :
    Counted (k + 1) v' ∧ v'.Told := by
  obtain ⟨hsome, hdo⟩ := ite_none_left_eq_some.mp hdo
  cases hdo
  have hfewer : v.scheduler.completion.releaseIntrospection.2.introspections
      = UInt64.ofNat (v.holders - 1) := by
    show v.scheduler.completion.introspections - 1 = _
    rw [hcounted.introspections, show v.holders = v.holders - 1 + 1 by omega, UInt64.ofNat_add]
    exact UInt64.add_sub_cancel _ _
  refine ⟨hcounted.recount (fun c => c.releaseIntrospection.2) rfl hcounted.pending hfewer
    hcounted.unfailed (Nat.le_succ_of_le hcounted.leaving)
    (Nat.le_trans (Nat.sub_le ..) (Nat.le_succ_of_le hcounted.holders)), fun _ _ => .inr ?_⟩
  by_cases hlast : v.scheduler.completion.introspections = 1
  · right; right; right; right
    simp [Completion.releaseIntrospection, hlast]
  · right; left
    show (v.scheduler.mapCompletion _).completion.introspections ≠ 0
    rw [v.scheduler.completion_mapCompletion]
    show v.scheduler.completion.introspections - 1 ≠ 0
    grind

/-- **Who was the last to hold completion open looks at the jobs.** -/
theorem look_keeps (hdo : v.do? setup .look = some v') :
    Counted (k + 1) v' ∧ v'.Told := by
  obtain ⟨-, hdo⟩ := ite_none_left_eq_some.mp hdo
  cases hdo
  refine ⟨hcounted.glance Completion.checkPending rfl (pending_checkPending _)
    (introspections_checkPending _) (error_checkPending hcounted.unfailed)
    rfl rfl, fun _ _ => ?_⟩
  unfold Stirs
  rw [show (v.recount Completion.checkPending).scheduler.completion = _
    from v.scheduler.completion_mapCompletion _]
  by_cases hnone : v.scheduler.completion.pending = 0
  · left
    unfold Completion.checkPending
    rw [if_pos hnone]
    exact Latch.isTriggered_triggerSuccess _
  · right; left
    rw [pending_checkPending]
    exact hnone

end CallerSteps

theorem act_keeps (hcounted : Counted k v) (htold : v.Told) (hroom : 2 * (k + 1) < UInt64.size)
    (hdo : v.do? setup (.act a) = some v') : Counted (k + 1) v' ∧ v'.Told := by
  cases hmeddles : a.meddles with
  | false =>
    rw [do?_act setup v hmeddles] at hdo
    obtain ⟨s', hact, rfl⟩ := map_eq_some_iff.mp hdo
    exact ⟨hcounted.act hact hmeddles hroom, htold.act hcounted hact hmeddles hroom⟩
  | true =>
    have hcounts : ∀ f, a ≠ .recount f := by
      rintro f rfl
      cases hdo
    have hkeeps : a.KeepsCount := by cases a <;> trivial
    obtain ⟨x, hends, hact, hleaves⟩ := do?_ends setup v hmeddles hcounts
    rw [hends] at hdo
    obtain ⟨left, hleft, rfl⟩ := map_eq_some_iff.mp hdo
    obtain rfl := eq_ok_of_toOption hleft
    obtain ⟨htasks, hcompletion⟩ := hleaves left rfl
    exact ⟨hcounted.left hact hkeeps hcompletion hroom,
      htold.left hcounted hact hkeeps hcompletion htasks hroom⟩

/-- **Every step leaves the counts right and someone there to look.** -/
theorem do?_keeps (hcounted : Counted k v) (htold : v.Told) (hroom : 2 * (k + 1) < UInt64.size)
    (hdo : v.do? setup d = some v') : Counted (k + 1) v' ∧ v'.Told := by
  cases d with
  | act => exact act_keeps hcounted htold hroom hdo
  | retire => exact retire_keeps hcounted hdo
  | check =>
    obtain ⟨-, hdo⟩ := ite_none_left_eq_some.mp hdo
    cases hdo
    exact check_keeps hcounted rfl rfl rfl
  | hold => exact hold_keeps hcounted hroom hdo
  | release => exact release_keeps hcounted hdo
  | look => exact look_keeps hcounted hdo
  | visit =>
    simp only [do?] at hdo
    split at hdo
    · cases hdo
      exact ⟨{ hcounted.mono with }, htold⟩
    · cases hdo
  | idle =>
    obtain ⟨-, hdo⟩ := ite_none_left_eq_some.mp hdo
    cases hdo
    exact check_keeps hcounted rfl rfl rfl
  | sleep =>
    simp only [do?] at hdo
    split at hdo
    · next latch hlatch =>
      cases hdo
      have hsame : latch.error = none ∧ latch.isTriggered
          = v.scheduler.completion.latch.isTriggered := by
        unfold Latch.register at hlatch
        split at hlatch
        · cases hlatch
        · split at hlatch
          · cases hlatch
          · rw [← Except.ok.inj hlatch]
            exact ⟨hcounted.unfailed, rfl⟩
      exact ⟨hcounted.glance (fun c => { c with latch }) rfl rfl rfl hsame.1 rfl rfl,
        htold.latch (f := fun _ => latch) hsame.2⟩
    · cases hdo
  | leave =>
    cases hdo
    exact ⟨hcounted.glance (fun c => { c with latch := c.latch.wake.2 }) rfl rfl rfl
        hcounted.unfailed rfl rfl,
      htold.latch (f := fun latch => latch.wake.2) rfl⟩

/-- **Any steps, one after the other.** -/
theorem after_keeps (setup : RunSetup) (ds : List CallerStep) (hcounted : Counted k v)
    (htold : v.Told) (hroom : 2 * (k + ds.length) < UInt64.size) :
    Counted (k + ds.length) (v.after setup ds) ∧ (v.after setup ds).Told := by
  induction ds generalizing k v with
  | nil => exact ⟨hcounted, htold⟩
  | cons d ds ih =>
    rw [length_cons] at hroom
    have hone : Counted (k + 1) (v.attempt setup d) ∧ (v.attempt setup d).Told := by
      unfold attempt
      cases hdo : v.do? setup d with
      | none => exact ⟨hcounted.mono, htold⟩
      | some => exact do?_keeps hcounted htold (by omega) hdo
    have hrest := ih hone.1 hone.2 (by omega)
    rwa [show k + (d :: ds).length = k + 1 + ds.length by rw [length_cons]; omega]

end SymbolReport

/-- Nothing is counted, and nobody is still to look. -/
structure Idle (v : CompletionRace) : Prop where
  pending : v.scheduler.completion.pending = 0
  introspections : v.scheduler.completion.introspections = 0
  tasks : ∀ t ∈ v.scheduler.tasks, t.phase ≠ .checking
  checking : v.checking = 0
  looking : v.looking = 0

theorem Idle.not_stirs {v : CompletionRace} (h : v.Idle) : ¬ v.Stirs := by
  rintro (hpending | hheld | ⟨t, ht, hphase⟩ | hchecking | hlooking)
  · exact hpending h.pending
  · exact hheld h.introspections
  · exact h.tasks t ht hphase
  · exact hchecking h.checking
  · exact hlooking h.looking

end CompletionRace

/-- **No completion is lost.** Whatever was done in whatever order, fewer than 2⁶³ times, with no job
for another process handed off: as soon as nothing is counted and nobody is between its decrement
and its look, the latch has fired if a job was ever counted or anyone has ever stopped holding
completion open. Whoever wants to wait then gets success at once, and so does who sleeps before it. -/
theorem fired_of_idle {setup : RunSetup} {world : World} {state : IndexState} (ds : List CallerStep)
    (hroom : 2 * ds.length < UInt64.size) :
    let v := CompletionRace.after setup { scheduler := .start setup world state } ds
    let latch := v.scheduler.completion.latch
    v.scheduler.AllStay → v.Idle → v.Used →
      latch.isTriggered = true ∧ latch.register = .error (.ok ()) ∧ latch.wake.1 = .ok () := by
  intro v latch hstay hidle hused
  have hstart : CompletionRace.Told { scheduler := .start setup world state } := by
    rintro - (⟨id, job, hget, -⟩ | hended)
    · simp [Scheduler.start] at hget
    · exact absurd rfl hended
  obtain ⟨hcounted, htold⟩ := CompletionRace.after_keeps setup ds
    (CompletionRace.Counted.start setup world state) hstart (by omega)
  have hfired := (htold hstay hused).resolve_right hidle.not_stirs
  have houtcome := Latch.outcome?_of_fired hfired hcounted.unfailed
  refine ⟨hfired, ?_, ?_⟩
  · show Latch.register latch = _
    unfold Latch.register
    rw [houtcome]
  · show latch.outcome?.getD _ = _
    rw [houtcome]
    rfl

/-- Two units are submitted while someone holds completion open and someone sleeps. One is aborted,
and the other has been parsed, when completion is let go; the aborted one is taken off the count
before anyone looks at it, and the other one after. -/
def attended : List CallerStep :=
  let moves : List Action :=
    [.step 0, .step 0, .step 0, .step 0, .parse 0, .step 0, .step 0]
  [.hold, .sleep, .act (.submit (fileUnit "/a.c")), .act (.submit (fileUnit "/b.c")),
    .act (.abort (jobOf 1))] ++ moves.map .act
    ++ [.release, .retire, .look, .act (.step 0), .act (.step 0)]

/-- The last to look is the task of the unit that was parsed. -/
theorem fired_of_idle_attended :
    let v := CompletionRace.after steeredSetup { scheduler := .start steeredSetup {} {} } attended
    v.Idle ∧ v.Used ∧ v.scheduler.completion.latch.isTriggered = true
      ∧ v.scheduler.completion.latch.wake.1 = .ok () := by
  intro v
  have hstay : ∀ entry ∈ v.scheduler.jobs.toList,
      entry.2.fromRemote = true → entry.2.destination = none := by
    decide
  have hidle : v.Idle := ⟨by decide, by decide, by decide, by decide, by decide⟩
  have hused : v.Used := .inr (by decide)
  obtain ⟨hfired, -, hwake⟩ := fired_of_idle attended (by decide)
    (fun id job hget => hstay (id, job) (SortedMap.mem_toList_iff.mpr hget)) hidle hused
  exact ⟨hidle, hused, hfired, hwake⟩

end SymbolIndex
