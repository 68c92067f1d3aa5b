import SymbolIndex.Proofs.Entries

/-!
# What the counters of a run count

The entries of a run add up. A job for another process is not counted when it is made, so whatever
takes it off the count leaves the count one short; `Tallied` keeps the books on that. In a run that
has no such jobs the counters are exactly the numbers of jobs, which is `counters_conserved`.
-/

namespace SymbolIndex

open JobState List Option SortedMap UInt64

/-! ## Sequences of operations -/

namespace SteeredRun

variable {setup : RunSetup}

/-- One operation with its ledger: it is carried out, or it is refused and everything stays as it
is. -/
def attempt (setup : RunSetup) (at₀ : Ledger × Scheduler) (a : Action) : Ledger × Scheduler :=
  match at₀.2.act? setup a with
  | some s => (at₀.1.add at₀.2 a s, s)
  | none => at₀

/-- What actions lead to when those that are refused do nothing. -/
def sequel (setup : RunSetup) (s : Scheduler) (as : List Action) : Ledger × Scheduler :=
  as.foldl (attempt setup) ({}, s)

theorem peak_le_foldl (as : List Action) (at₀ : Ledger × Scheduler) :
    at₀.1.peak ≤ (as.foldl (attempt setup) at₀).1.peak := by
  induction as generalizing at₀ with
  | nil => exact Nat.le_refl _
  | cons _ _ ih =>
    refine Nat.le_trans ?_ (ih _)
    unfold attempt
    split
    · exact Nat.le_max_left ..
    · exact Nat.le_refl _

theorem sequel_induct {P : Ledger → Scheduler → Prop} {s : Scheduler} (as : List Action)
    (hstart : P {} s) (hact : ∀ g s₁ a s₂, a ∈ as → P g s₁ → s₁.act? setup a = some s₂ →
      (g.add s₁ a s₂).peak + 1 < UInt64.size → P (g.add s₁ a s₂) s₂)
    (hroom : (sequel setup s as).1.peak + 1 < UInt64.size) :
    P (sequel setup s as).1 (sequel setup s as).2 := by
  suffices key : ∀ (rest : List Action) (at₀ : Ledger × Scheduler), (∀ a ∈ rest, a ∈ as) →
      P at₀.1 at₀.2 → (rest.foldl (attempt setup) at₀).1.peak + 1 < UInt64.size →
      P (rest.foldl (attempt setup) at₀).1 (rest.foldl (attempt setup) at₀).2 from
    key as ({}, s) (fun _ ha => ha) hstart hroom
  intro rest
  induction rest with
  | nil => exact fun _ _ h _ => h
  | cons a rest ih =>
    intro at₀ hsub hbefore hend
    refine ih _ (fun b hb => hsub b (mem_cons_of_mem _ hb)) ?_ hend
    have hpeak : (attempt setup at₀ a).1.peak
        ≤ (rest.foldl (attempt setup) (attempt setup at₀ a)).1.peak := peak_le_foldl rest _
    rw [foldl_cons] at hend
    unfold attempt at hpeak hend ⊢
    split
    · next s₂ hs₂ =>
      rw [hs₂] at hpeak hend
      refine hact _ _ a _ (hsub a mem_cons_self) hbefore hs₂ ?_
      simp only at hpeak hend
      omega
    · exact hbefore

end SteeredRun

def Job.isOpen (j : Job) : Bool := !j.state.isTerminal

/-- Whether a job of this run has not ended. -/
def Job.isOwnOpen (j : Job) : Bool := !j.fromRemote && j.isOpen

/-- Whether a job has ended other than by an abort. -/
def JobState.isServed : JobState → Bool
  | .completeLocal | .completeRemote | .crashed => true
  | _ => false

theorem JobState.isServed_eq_false {state : JobState} (h : state.isTerminal = false) :
    state.isServed = false := by
  cases state <;> first | rfl | cases h

theorem JobState.not_ended {state : JobState} (h : state.isTerminal = false) :
    state.isComplete = false ∧ state ≠ .crashed ∧ state ≠ .aborted := by
  cases state <;> first | exact absurd h (by decide) | exact ⟨rfl, by simp, by simp⟩

theorem JobState.eq_of_kept {state state' : JobState} {p : JobState → Bool}
    (hsame : state'.isTerminal = state.isTerminal)
    (hkept : state.isTerminal = true → state' = state)
    (hp : ∀ {state}, state.isTerminal = false → p state = false) : p state' = p state := by
  cases hended : state.isTerminal with
  | true => rw [hkept hended]
  | false =>
    rw [hended] at hsame
    rw [hp hsame, hp hended]

section

variable {state : JobState} (h : state = .completeLocal ∨ state = .crashed)

include h

theorem JobState.isServed_of_ended : state.isServed = true := by
  rcases h with rfl | rfl <;> rfl

theorem JobState.isTerminal_of_ended : state.isTerminal = true := by
  rcases h with rfl | rfl <;> rfl

end

/-- Whether a job for another process has ended so. -/
def Job.isServed (j : Job) : Bool := j.fromRemote && j.state.isServed

/-! ## What the entries add up to -/

/-- The count of the jobs that have not ended, as a word of 64 bits: what it lacks of `owed` is
`missing`. -/
def Balances (pending : UInt64) (missing owed : Nat) : Prop :=
  pending + UInt64.ofNat missing = UInt64.ofNat owed

namespace Balances

variable {pending : UInt64} {missing owed : Nat}

theorem congr {pending' : UInt64} {missing' owed' : Nat} (h : Balances pending missing owed)
    (hpending : pending' = pending) (hmissing : missing' = missing) (howed : owed' = owed) :
    Balances pending' missing' owed' := by
  rw [hpending, hmissing, howed]
  exact h

theorem both (h : Balances pending missing owed) (k : Nat) :
    Balances pending (missing + k) (owed + k) := by
  unfold Balances at h ⊢
  rw [ofNat_add, ofNat_add, ← h]
  grind

theorem count (h : Balances pending missing owed) : Balances (pending + 1) missing (owed + 1) := by
  unfold Balances at h ⊢
  rw [ofNat_add, ← h]
  grind

theorem release (h : Balances pending missing (owed + 1)) :
    Balances (pending - 1) missing owed := by
  unfold Balances at h ⊢
  rw [ofNat_add] at h
  grind

theorem miss (h : Balances pending missing owed) : Balances (pending - 1) (missing + 1) owed := by
  unfold Balances at h ⊢
  rw [ofNat_add, ← h]
  grind

theorem toNat_eq_iff {besides : Nat} (h : Balances pending missing (owed + besides))
    (hmissing : missing < UInt64.size) (howed : owed < UInt64.size)
    (hbesides : besides < UInt64.size) : pending.toNat = owed ↔ missing = besides := by
  unfold Balances at h
  rw [ofNat_add] at h
  constructor
  · intro hexact
    have hpending : pending = UInt64.ofNat owed := by rw [← hexact, UInt64.ofNat_toNat]
    rw [hpending] at h
    have hwords : UInt64.ofNat missing = UInt64.ofNat besides := UInt64.add_right_inj _ |>.mp h
    have hnats := congrArg UInt64.toNat hwords
    rwa [UInt64.toNat_ofNat_of_lt' hmissing, UInt64.toNat_ofNat_of_lt' hbesides] at hnats
  · rintro rfl
    have hpending : pending = UInt64.ofNat owed := UInt64.add_left_inj _ |>.mp h
    rw [hpending, UInt64.toNat_ofNat_of_lt' howed]

end Balances

namespace Scheduler

/-- What the count of jobs has to be. -/
def owed (s : Scheduler) : Nat := s.jobsThat Job.isOwnOpen + s.retiring + s.delivered

theorem marks_eq {s s' : Scheduler} (h : s'.marks = s.marks) :
    s'.retiring = s.retiring ∧ s'.delivered = s.delivered :=
  Prod.mk.inj h

variable {s s' : Scheduler} {guest : Bool} {landed : List Job}

section Sums

variable {id : JobId} {job job' : Job}

theorem Refiles.served_eq (h : s.Refiles id job job' s')
    (hsame : job.fromRemote = false ∨ job'.state.isServed = job.state.isServed) :
    s'.jobsThat Job.isServed = s.jobsThat Job.isServed := by
  refine h.jobsThat_eq ?_
  unfold Job.isServed
  rw [h.guest]
  rcases hsame with hown | hstate
  · simp [hown]
  · rw [hstate]

theorem Refiles.ends (h : s.Refiles id job job' s') (hbefore : job.state.isTerminal = false)
    (hafter : job'.state.isTerminal = true) :
    s'.jobsThat Job.isOpen + 1 = s.jobsThat Job.isOpen
      ∧ s'.jobsThat Job.isOwnOpen + (!job.fromRemote).toNat = s.jobsThat Job.isOwnOpen
      ∧ s'.jobsThat Job.isServed
        = s.jobsThat Job.isServed + (job.fromRemote && job'.state.isServed).toNat := by
  have hopen := h.jobsThat Job.isOpen
  have hown := h.jobsThat Job.isOwnOpen
  have hserved := h.jobsThat Job.isServed
  simp only [Job.isOpen, Job.isOwnOpen, Job.isServed, h.guest, hbefore, hafter,
    JobState.isServed_eq_false hbefore, Bool.not_true, Bool.not_false, Bool.and_true,
    Bool.and_false, Bool.toNat_true, Bool.toNat_false, Nat.add_zero] at hopen hown hserved
  exact ⟨hopen, hown, hserved⟩

end Sums

/-- How the count of jobs moves against the jobs that are owed to it. -/
inductive Swings (s s' : Scheduler) : Prop where
  | even (k : Nat) : s'.books.pending = s.books.pending →
      s'.jobsThat Job.isServed = s.jobsThat Job.isServed + k → s'.owed = s.owed + k → Swings s s'
  | counted : s'.books.pending = s.books.pending + 1 →
      s'.jobsThat Job.isServed = s.jobsThat Job.isServed → s'.owed = s.owed + 1 → Swings s s'
  | released : s'.books.pending = s.books.pending - 1 →
      s'.jobsThat Job.isServed = s.jobsThat Job.isServed → s'.owed + 1 = s.owed → Swings s s'
  | missed : s'.books.pending = s.books.pending - 1 →
      s'.jobsThat Job.isServed = s.jobsThat Job.isServed + 1 → s'.owed = s.owed → Swings s s'

variable (h : s.Entry guest landed s')

include h

/-- **What an entry adds to the sums.** Every landing of a job for another process is of one that no
task has delivered, and every job is open, about to be taken off the count or delivered at most
once. -/
theorem Entry.sums : Swings s s'
      ∧ landed.countP Job.fromRemote + s'.delivered + s.jobsThat Job.isServed
        ≤ s.delivered + s'.jobsThat Job.isServed
      ∧ s'.jobsThat Job.isOpen + s'.retiring + s'.delivered + s.jobs.size
        ≤ s.jobsThat Job.isOpen + s.retiring + s.delivered + s'.jobs.size := by
  have howed : ∀ s : Scheduler, s.owed = s.jobsThat Job.isOwnOpen + s.retiring + s.delivered :=
    fun _ => rfl
  cases h with
  | quiet hjobs hbooks hmarks =>
    obtain ⟨hretiring, hdelivered⟩ := marks_eq hmarks
    simp only [jobsThat_congr hjobs, hjobs, List.countP_nil]
    refine ⟨.even 0 (congrArg _ hbooks) (jobsThat_congr hjobs _) ?_, by omega, by omega⟩
    rw [howed, howed, jobsThat_congr hjobs]
    omega
  | @opened _ id job hnew hjobs hstate hguest hbooks hmarks =>
    obtain ⟨hretiring, hdelivered⟩ := marks_eq hmarks
    have hserved := jobsThat_opened hnew hjobs Job.isServed
    have hown := jobsThat_opened hnew hjobs Job.isOwnOpen
    have hopen := jobsThat_opened hnew hjobs Job.isOpen
    have hsize : s'.jobs.size = s.jobs.size + 1 := by
      rw [hjobs, size_insert, if_neg (by simp [SortedMap.contains, hnew])]
    simp only [Job.isServed, Job.isOwnOpen, Job.isOpen, hstate, hguest, JobState.isServed,
      JobState.isTerminal, Bool.and_false, Bool.not_false, Bool.and_true, Bool.toNat_true,
      Bool.toNat_false] at hserved hown hopen
    rw [List.countP_nil]
    refine ⟨?_, by omega, by omega⟩
    cases guest with
    | true => exact .even 0 (congrArg _ hbooks) hserved (by grind)
    | false => exact .counted (congrArg _ hbooks) hserved (by grind)
  | @moved _ id job job' hfiled hsame hkept hbooks hmarks =>
    obtain ⟨hretiring, hdelivered⟩ := marks_eq hmarks
    have hstays := eq_of_kept hsame hkept JobState.isServed_eq_false
    have hserved := hfiled.served_eq (.inr hstays)
    have hopen : s'.jobsThat Job.isOpen = s.jobsThat Job.isOpen :=
      hfiled.jobsThat_eq (by simp [Job.isOpen, hsame])
    have hown : s'.jobsThat Job.isOwnOpen = s.jobsThat Job.isOwnOpen :=
      hfiled.jobsThat_eq (by simp [Job.isOwnOpen, Job.isOpen, hfiled.guest, hsame])
    rw [hfiled.size, List.countP_nil]
    exact ⟨.even 0 (congrArg _ hbooks) hserved (by grind), by omega, by omega⟩
  | @settled _ id job job' t ht hid hanswers hfiled hrunning hnext hbooks hmarks =>
    obtain ⟨hretiring, hdelivered⟩ := Prod.mk.inj hmarks
    have hpending : s'.books.pending = s.books.pending := by
      rw [hbooks]
      rcases hnext with hnext | hnext <;> rw [hnext] <;> rfl
    have hlanded : (if job'.state = .completeLocal then [job] else []).countP Job.fromRemote
        ≤ job.fromRemote.toNat := by
      split <;> cases hguest : job.fromRemote <;> simp [hguest]
    obtain ⟨hopen, hown, hserved⟩ :=
      hfiled.ends (by rw [hrunning]; rfl) (JobState.isTerminal_of_ended hnext)
    rw [JobState.isServed_of_ended hnext, Bool.and_true] at hserved
    rw [hfiled.size]
    -- A task will take a job off the count that nobody has counted if it is for another process.
    refine ⟨.even job.fromRemote.toNat hpending hserved ?_, by omega, by omega⟩
    rw [howed, howed]
    cases hguest : job.fromRemote <;> simp only [hguest, Bool.not_true, Bool.not_false,
      Bool.toNat_true, Bool.toNat_false] at hown ⊢ <;> omega
  | @delivered _ id job job' hfiled hguest hrunning hnext hbooks hmarks =>
    obtain ⟨hretiring, hdelivered⟩ := Prod.mk.inj hmarks
    obtain ⟨hopen, hown, hserved⟩ :=
      hfiled.ends (by rw [hrunning]; rfl) (JobState.isTerminal_of_ended hnext)
    rw [hguest] at hown hserved
    rw [JobState.isServed_of_ended hnext] at hserved
    rw [hfiled.size, List.countP_nil]
    exact ⟨.even 1 (congrArg _ hbooks) hserved (by grind), by grind, by omega⟩
  | retired hjobs hbooks hmarks =>
    obtain ⟨hretiring, hdelivered⟩ := Prod.mk.inj hmarks
    simp only [jobsThat_congr hjobs, hjobs, List.countP_nil]
    refine ⟨.released (congrArg _ hbooks) (jobsThat_congr hjobs _) ?_, by omega, by omega⟩
    rw [howed, howed, jobsThat_congr hjobs]
    omega
  | @returned _ id job job' hfiled hremote hnext hbooks hmarks =>
    obtain ⟨hretiring, hdelivered⟩ := marks_eq hmarks
    obtain ⟨hopen, hown, hserved⟩ := hfiled.ends (by rw [hremote]; rfl) (by rw [hnext]; rfl)
    rw [hnext, show JobState.isServed .completeRemote = true from rfl] at hserved
    rw [hfiled.size, countP_singleton]
    cases hguest : job.fromRemote with
    | true =>
      rw [hguest] at hown hserved
      exact ⟨.missed (congrArg _ hbooks) hserved (by grind), by grind, by omega⟩
    | false =>
      rw [hguest] at hown hserved
      exact ⟨.released (congrArg _ hbooks) hserved (by grind), by grind, by omega⟩
  | @aborted _ id job job' hfiled hopen hnext hbooks hmarks =>
    obtain ⟨hretiring, hdelivered⟩ := marks_eq hmarks
    obtain ⟨hopen, hown, hserved⟩ := hfiled.ends hopen (by rw [hnext]; rfl)
    rw [hnext, show JobState.isServed .aborted = false from rfl, Bool.and_false] at hserved
    rw [hfiled.size, List.countP_nil]
    refine ⟨?_, by grind, by omega⟩
    cases hguest : job.fromRemote with
    | true =>
      rw [hguest, if_pos rfl] at hbooks
      rw [hguest] at hown
      exact .even 0 (by rw [hbooks]; rfl) hserved (by grind)
    | false =>
      rw [hguest, if_neg (by decide)] at hbooks
      rw [hguest] at hown
      exact .released (congrArg _ hbooks) hserved (by grind)

/-- **An entry keeps the count in balance**, whatever else is owed. -/
theorem Entry.balances (besides : Nat)
    (hbefore : Balances s.books.pending (s.jobsThat Job.isServed) (s.owed + besides)) :
    Balances s'.books.pending (s'.jobsThat Job.isServed) (s'.owed + besides) := by
  cases h.sums.1 with
  | even k hpending hserved => exact (hbefore.both k).congr hpending hserved (by omega)
  | counted hpending hserved => exact hbefore.count.congr hpending hserved (by omega)
  | released hpending hserved howed =>
    rw [← howed, Nat.add_right_comm] at hbefore
    exact hbefore.release.congr hpending hserved rfl
  | missed hpending hserved => exact hbefore.miss.congr hpending hserved (by omega)

theorem Entry.room (hbefore : s.jobsThat Job.isOpen + s.retiring + s.delivered ≤ s.jobs.size) :
    s'.jobsThat Job.isOpen + s'.retiring + s'.delivered ≤ s'.jobs.size := by
  have hfits := h.sums.2.2
  omega

end Scheduler

/-- The count of jobs agrees with the jobs and the tasks. -/
structure Tallied (g : Ledger) (s : Scheduler) : Prop where
  orderly : Orderly g s
  peak : s.jobs.size ≤ g.peak
  pending : Balances s.books.pending (s.jobsThat Job.isServed) s.owed
  served : (g.landed.map Landing.job).countP Job.fromRemote + s.delivered
    ≤ s.jobsThat Job.isServed
  room : s.jobsThat Job.isOpen + s.retiring + s.delivered ≤ s.jobs.size

namespace Tallied

variable {g : Ledger} {s s' : Scheduler} {setup : RunSetup} {a : Action}

theorem start (setup : RunSetup) (world : World) (state : IndexState) :
    Tallied {} (Scheduler.start setup world state) where
  orderly := .start setup world state
  peak := Nat.le_refl _
  pending := rfl
  served := Nat.le_refl _
  room := Nat.le_refl _

/-- **Every action keeps the counts together.** -/
theorem act (h : Tallied g s) (hact : s.act? setup a = some s') (hkeeps : a.KeepsCount)
    (hroom : (g.add s a s').peak + 1 < UInt64.size) : Tallied (g.add s a s') s' := by
  have hpeak : s'.jobs.size ≤ (g.add s a s').peak := Nat.le_max_right ..
  have hentry := Scheduler.entry_act h.orderly hact hkeeps (by omega)
  obtain ⟨-, hserved, -⟩ := hentry.sums
  have hbefore := h.served
  refine ⟨h.orderly.act hact (by omega), hpeak, hentry.balances 0 h.pending, ?_, hentry.room h.room⟩
  show (List.map Landing.job (g.landed ++ s.landedBy a)).countP Job.fromRemote + _ ≤ _
  rw [map_append, countP_append]
  omega

end Tallied

/-! ## Runs of this process alone -/

namespace Scheduler

variable {s s' : Scheduler}

/-- All jobs are of this run. -/
def Own (s : Scheduler) : Prop := ∀ id job, s.jobs.get? id = some job → job.fromRemote = false

theorem Own.jobsThat_eq_zero (h : s.Own) {p : Job → Bool}
    (hp : ∀ job : Job, job.fromRemote = false → p job = false) : s.jobsThat p = 0 := by
  refine countP_eq_zero.mpr fun job hjob => ?_
  obtain ⟨entry, hentry, rfl⟩ := mem_map.mp hjob
  simp [hp entry.2 (h entry.1 entry.2 (get?_of_mem hentry))]

theorem Own.served_eq_zero (h : s.Own) : s.jobsThat Job.isServed = 0 :=
  h.jobsThat_eq_zero fun job hown => by simp [Job.isServed, hown]

theorem Own.pending_eq (h : s.Own) (besides : Nat) (hnone : s.delivered = 0)
    (hpending : Balances s.books.pending (s.jobsThat Job.isServed) (s.owed + besides))
    (hroom : s.jobsThat Job.isOpen + s.retiring + besides < UInt64.size) :
    s.completion.pending.toNat = s.jobsThat Job.isOpen + s.retiring + besides := by
  have hopen : s.jobsThat Job.isOwnOpen = s.jobsThat Job.isOpen := by
    refine countP_congr fun job hjob => ?_
    obtain ⟨entry, hentry, rfl⟩ := mem_map.mp hjob
    simp [Job.isOwnOpen, h entry.1 entry.2 (get?_of_mem hentry)]
  have howed : s.owed + besides = s.jobsThat Job.isOpen + s.retiring + besides := by
    unfold owed
    rw [hopen, hnone, Nat.add_zero]
  rw [h.served_eq_zero, howed, ← Nat.add_zero (_ + besides)] at hpending
  exact (hpending.toNat_eq_iff (by decide) hroom (by decide)).mpr rfl

/-- The counts are those of the jobs, by how they ended. -/
def Tells (s : Scheduler) (b : Books) : Prop :=
  b.completed = s.jobsThat (fun j => j.state.isComplete)
    ∧ b.failed = s.jobsThat (fun j => j.state = .crashed)
    ∧ b.aborted = s.jobsThat (fun j => j.state = .aborted)

theorem Tells.congr {b : Books} (h : s.Tells b) (hjobs : s'.jobs = s.jobs) : s'.Tells b := by
  unfold Tells at h ⊢
  simp only [jobsThat_congr hjobs]
  exact h

section SymbolReport

variable {b : Books} {id : JobId} {job job' : Job}

theorem Tells.ended (h : s.Tells b) (hfiled : s.Refiles id job job' s')
    (hopen : job.state.isTerminal = false) : s'.Tells (b.ended job'.state) := by
  obtain ⟨hcompleted, hfailed, haborted⟩ := h
  have hcomplete := hfiled.jobsThat (fun j => j.state.isComplete)
  have hcrashed := hfiled.jobsThat (fun j => j.state = .crashed)
  have hgone := hfiled.jobsThat (fun j => j.state = .aborted)
  -- An open job has not been counted in any of the three.
  simp only [JobState.not_ended hopen, decide_false, Bool.toNat_false, Nat.add_zero]
    at hcomplete hcrashed hgone
  unfold Tells
  rw [hcomplete, hcrashed, hgone, ← hcompleted, ← hfailed, ← haborted]
  cases job'.state <;> exact ⟨rfl, rfl, rfl⟩

theorem Tells.moved (h : s.Tells b) (hfiled : s.Refiles id job job' s')
    (hsame : job'.state.isTerminal = job.state.isTerminal)
    (hkept : job.state.isTerminal = true → job'.state = job.state) : s'.Tells b := by
  obtain ⟨hcompleted, hfailed, haborted⟩ := h
  refine ⟨hcompleted.trans ?_, hfailed.trans ?_, haborted.trans ?_⟩
  · exact (hfiled.jobsThat_eq
      (eq_of_kept hsame hkept (fun hopen => (JobState.not_ended hopen).1))).symm
  · exact (hfiled.jobsThat_eq (eq_of_kept (p := fun state => state = .crashed) hsame hkept
      (fun hopen => decide_eq_false (JobState.not_ended hopen).2.1))).symm
  · exact (hfiled.jobsThat_eq (eq_of_kept (p := fun state => state = .aborted) hsame hkept
      (fun hopen => decide_eq_false (JobState.not_ended hopen).2.2))).symm

theorem Tells.opened (h : s.Tells b) (hnew : s.jobs.get? id = none)
    (hjobs : s'.jobs = s.jobs.insert id job) (hstate : job.state = .queued) : s'.Tells b := by
  unfold Tells at h ⊢
  simp only [jobsThat_opened hnew hjobs, hstate]
  exact h

end SymbolReport

variable {landed : List Job}

theorem Entry.own (h : s.Entry false landed s') (hown : s.Own) : s'.Own := by
  intro id job' hget
  rcases h.origin hget with hsame | ⟨-, -, hguest⟩ | ⟨job, hfiled⟩
  · exact hown id job' hsame
  · exact hguest
  · exact hfiled.guest.trans (hown id job hfiled.filed)

/-- **An entry for a job of this run tells what came of it.** -/
theorem Entry.tells (h : s.Entry false landed s') (hown : s.Own) (htold : s.Tells s.books) :
    s'.Tells s'.books := by
  cases h with
  | quiet hjobs hbooks =>
    rw [hbooks]
    exact htold.congr hjobs
  | opened hnew hjobs hstate _ hbooks =>
    rw [hbooks]
    exact htold.opened hnew hjobs hstate
  | moved hfiled hsame hkept hbooks =>
    rw [hbooks]
    exact htold.moved hfiled hsame hkept
  | settled _ _ _ hfiled hrunning _ hbooks =>
    rw [hbooks]
    exact htold.ended hfiled (by rw [hrunning]; rfl)
  | @delivered _ id job job' hfiled hguest =>
    cases hguest.symm.trans (hown id job hfiled.filed)
  | retired hjobs hbooks =>
    rw [hbooks]
    exact htold.congr hjobs
  | returned hfiled hremote hnext hbooks =>
    rw [hbooks, ← hnext]
    exact htold.ended hfiled (by rw [hremote]; rfl)
  | @aborted _ id job job' hfiled hopen hnext hbooks =>
    rw [hbooks, hown id job hfiled.filed, ← hnext]
    exact htold.ended hfiled hopen

end Scheduler

/-- The job that an action moves, and where to. -/
def Action.target? : Action → Option (JobId × JobState)
  | .handOff id _ _ => some (id, .remote)
  | .completeRemote id _ _ => some (id, .completeRemote)
  | .reschedule id => some (id, .rescheduled)
  | .abort id => some (id, .aborted)
  | _ => none

namespace Scheduler

variable {s : Scheduler} {setup : RunSetup} {id : JobId} {next : JobState}

theorem moveJob_refused_iff {f : Job → Job} : (s.moveJob id next f).toOption = none
      ↔ ∀ job, s.jobs.get? id = some job → job.state.canMoveTo next = false := by
  unfold moveJob Job.transition
  cases hjob : s.jobs.get? id with
  | none => simp [Except.toOption]
  | some job =>
    cases hmove : job.state.canMoveTo next with
    | true => simp [hmove, bind, Except.bind, pure, Except.pure, Except.toOption]
    | false => simp [hmove, bind, Except.bind, Except.toOption]

theorem bind_refused_iff {ε α β : Type} {x : Except ε α} {f : α → Except ε β}
    (hf : ∀ a, ∃ b, f a = .ok b) : (x >>= f).toOption = none ↔ x.toOption = none := by
  cases x with
  | error => simp [bind, Except.bind, Except.toOption]
  | ok a =>
    obtain ⟨b, hb⟩ := hf a
    simp [bind, Except.bind, hb, Except.toOption]

/-- **What is asked of a job from outside is refused where there is no such job, and where the job
cannot get into the state.** -/
theorem refused_iff {a : Action} (htarget : a.target? = some (id, next)) : s.act? setup a = none
      ↔ ∀ job, s.jobs.get? id = some job → job.state.canMoveTo next = false := by
  cases a with
  | handOff | reschedule | abort =>
    obtain ⟨rfl, rfl⟩ := Prod.mk.inj (some.inj htarget)
    exact (bind_refused_iff fun _ => ⟨_, rfl⟩).trans moveJob_refused_iff
  | completeRemote id' c source =>
    obtain ⟨rfl, rfl⟩ := Prod.mk.inj (some.inj htarget)
    show (s.completeRemote id' c source).toOption = none ↔ _
    unfold completeRemote
    split
    · next haborted =>
      obtain ⟨job, hjob, hstate⟩ := (any_eq_true _ _).mp haborted
      refine ⟨fun _ job' hjob' => ?_, fun _ => rfl⟩
      obtain rfl : job = job' := some.inj (hjob.symm.trans hjob')
      rw [of_decide_eq_true hstate]
      rfl
    · refine (bind_refused_iff fun ⟨_, moved⟩ => ?_).trans moveJob_refused_iff
      cases s.state.integrate c source <;> exact ⟨_, rfl⟩
  | _ => exact absurd htarget (by simp [Action.target?])

end Scheduler

/-- The counts of a run without jobs for other processes. -/
structure Conserved (g : Ledger) (s : Scheduler) : Prop extends Tallied g s where
  own : s.Own
  tells : s.Tells s.books

namespace Conserved

variable {g : Ledger} {s s' : Scheduler} {setup : RunSetup} {a : Action}

theorem start (setup : RunSetup) (world : World) (state : IndexState) :
    Conserved {} (Scheduler.start setup world state) where
  toTallied := .start setup world state
  own := fun _ _ hget => absurd hget (by simp [Scheduler.start])
  tells := ⟨rfl, rfl, rfl⟩

theorem act (h : Conserved g s) (hact : s.act? setup a = some s') (hown : a.serves = false)
    (hkeeps : a.KeepsCount) (hroom : (g.add s a s').peak + 1 < UInt64.size) :
    Conserved (g.add s a s') s' := by
  have htallied := h.toTallied.act hact hkeeps hroom
  have hpeak := htallied.peak
  have hentry := Scheduler.entry_act h.orderly hact hkeeps (by omega)
  rw [hown] at hentry
  exact ⟨htallied, hentry.own h.own, hentry.tells h.own h.tells⟩

theorem pending_eq (h : Conserved g s) (hroom : g.peak + 1 < UInt64.size) :
    s.completion.pending.toNat = s.jobsThat Job.isOpen + s.retiring := by
  have hserved := h.served
  have hnone := h.own.served_eq_zero
  have hfits := h.room
  have hpeak := h.peak
  exact h.own.pending_eq 0 (by omega) h.pending (by omega)

end Conserved

theorem SteeredRun.sequel_append (setup : RunSetup) (s : Scheduler) (as : List Action) (a : Action) :
    sequel setup s (as ++ [a]) = attempt setup (sequel setup s as) a := by
  simp [sequel]

/-- **The counters of a run without jobs for other processes.** However its operations follow each
other, and whichever of them are refused, what is pending is the jobs that have not ended and those
that a task is just taking off the count, and the other three counts are of the jobs that have ended
in each way. What is asked of a job is refused exactly where the job is not known or cannot move,
and then everything stays as it is. -/
theorem counters_conserved {setup : RunSetup} {world : World} {state : IndexState}
    (as : List Action) (hown : ∀ a ∈ as, a.serves = false) (hkeeps : ∀ a ∈ as, a.KeepsCount)
    (hroom : (SteeredRun.sequel setup (Scheduler.start setup world state) as).1.peak + 1
      < UInt64.size) :
    let s := (SteeredRun.sequel setup (Scheduler.start setup world state) as).2
    s.completion.pending.toNat = s.jobsThat (fun j => !j.state.isTerminal) + s.retiring
      ∧ s.counters.completed
        = s.jobsThat (fun j => j.state = .completeLocal ∨ j.state = .completeRemote)
      ∧ s.counters.failed = s.jobsThat (fun j => j.state = .crashed)
      ∧ s.counters.aborted = s.jobsThat (fun j => j.state = .aborted)
      ∧ ∀ a id next, a.target? = some (id, next) → (s.act? setup a = none
          ↔ ∀ job, s.jobs.get? id = some job → job.state.canMoveTo next = false)
        ∧ (s.act? setup a = none →
          SteeredRun.sequel setup (Scheduler.start setup world state) (as ++ [a])
            = SteeredRun.sequel setup (Scheduler.start setup world state) as) := by
  intro s
  have h : Conserved _ s := SteeredRun.sequel_induct as (.start setup world state)
    (fun _ _ a _ ha h hact hroom => h.act hact (hown a ha) (hkeeps a ha) hroom) hroom
  obtain ⟨hcompleted, hfailed, haborted⟩ := h.tells
  refine ⟨h.pending_eq hroom, hcompleted.trans ?_, hfailed, haborted, ?_⟩
  · refine congrArg s.jobsThat (funext fun j => ?_)
    cases j.state <;> rfl
  · intro a id next htarget
    refine ⟨Scheduler.refused_iff htarget, fun hrefused => ?_⟩
    rw [SteeredRun.sequel_append]
    unfold SteeredRun.attempt
    rw [show (SteeredRun.sequel setup (Scheduler.start setup world state) as).2.act? setup a = none
      from hrefused]

/-- A job waits and a task is taking another one off the count; what has ended cannot be taken
back. -/
theorem counters_conserved_steered :
    let run := SteeredRun.sequel steeredSetup (Scheduler.start steeredSetup {} {})
    let s := (run steered).2
    (∀ a ∈ steered, a.serves = false) ∧ (run steered).1.peak + 1 < UInt64.size
      ∧ (s.jobsThat (fun j => !j.state.isTerminal), s.retiring) = (1, 1)
      ∧ s.completion.pending.toNat = s.jobsThat (fun j => !j.state.isTerminal) + s.retiring
      ∧ (s.counters.completed, s.counters.failed, s.counters.aborted) = (2, 0, 1)
      ∧ run (steered ++ [.reschedule (jobOf 0)]) = run steered := by
  have hroom : (SteeredRun.sequel steeredSetup (Scheduler.start steeredSetup {} {}) steered).1.peak + 1
      < UInt64.size := by decide +kernel
  have hown : ∀ a ∈ steered, a.serves = false := by decide +kernel
  obtain ⟨hpending, -, -, -, hrefused⟩ :=
    counters_conserved steered hown (by simp [steered, Action.KeepsCount]) hroom
  refine ⟨hown, hroom, by decide +kernel, hpending, by decide +kernel, ?_⟩
  have hstuck : ((SteeredRun.sequel steeredSetup (Scheduler.start steeredSetup {} {}) steered).2.act?
      steeredSetup (.reschedule (jobOf 0))).isNone = true := by decide +kernel
  exact (hrefused (.reschedule (jobOf 0)) _ _ rfl).2 (Option.isNone_iff_eq_none.mp hstuck)

end SymbolIndex
