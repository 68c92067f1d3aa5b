import SymbolIndex.Proofs.TaskInvariants
import SymbolIndex.Proofs.Latch

/-!
# How the jobs of a run end

Nobody steers the run of a build or of an update: units are submitted, and then tasks move until
nothing moves any more. A job of such a run is never handed off or aborted. It completes or it
crashes, and what it has parsed lands exactly when it completes.

`Trace.landed_iff` says so at every moment of a run, and `Scheduler.ended_of_wait` that every job
has ended once the run is found complete.
-/

namespace SymbolIndex

open List Option Scheduler

variable {setup : RunSetup} {world : World} {state : IndexState} {is : List Invocation}
  {ls : List Landing} {s s₁ : Scheduler} {n : Nat} {job : Job}

/-! ## What lands and what does not -/

theorem Scheduler.invocation?_submit {g : Ledger} (h : Orderly g s)
    (hroom : s.jobs.size < UInt64.size) (setup : RunSetup) (i : Invocation) :
    ((s.accept setup i).1 = none ∧ ∀ id, (s.submit setup i).2.invocation? id = s.invocation? id)
      ∨ ((s.accept setup i).1 ≠ none ∧ ∃ new, s.invocation? new = none
        ∧ ∀ id, (s.submit setup i).2.invocation? id
          = if id = new then some i else s.invocation? id) := by
  rcases s.submit_opens setup i with ⟨hnone, hfloor, -⟩ | ⟨hsome, -, errand, -, hopens⟩
  · have hjobs : (s.submit setup i).2.jobs = s.jobs := floor_jobs hfloor
    refine .inl ⟨hnone, fun id => ?_⟩
    unfold invocation?
    rw [hjobs]
  · obtain ⟨kind, hjobs⟩ := hopens.jobs
    refine .inr ⟨hsome, jobOf s.jobs.size, ?_, fun id => ?_⟩
    · unfold invocation?
      rw [h.get?_next hroom]
      rfl
    · unfold invocation?
      rw [hjobs]
      simp only [SortedMap.get?_insert, Std.compare_eq_iff_eq]
      split <;> rfl

section

variable (h : Trace setup (Scheduler.start setup world state) is ls s)
  (hsize : is.length < UInt64.size)

include h hsize

theorem Trace.invocation?_step {woken : List Nat} (hstep : s.step? setup n = some (s₁, woken))
    (id : JobId) : s₁.invocation? id = s.invocation? id :=
  (h.transition_step hsize hstep).invocation? (h.posted hsize) id

theorem Trace.invocation?_parse (hend : s.endParse? setup n = some s₁) (id : JobId) :
    s₁.invocation? id = s.invocation? id :=
  (transition_endParse hend).invocation? (h.posted hsize) id

theorem Trace.filed :
    (∀ id i, s.invocation? id = some i → i ∈ is)
      ∧ ∀ l ∈ ls, s.invocation? l.job.id = some l.job.invocation := by
  induction h with
  | start => exact ⟨fun id i hi => absurd hi (by simp [Scheduler.invocation?, Scheduler.start]),
      fun l hl => absurd hl not_mem_nil⟩
  | @submit is ls s₁ i h ih =>
    rw [length_append, length_singleton] at hsize
    obtain ⟨hasked, hlanded⟩ := ih (by omega)
    obtain ⟨g, -, horderly⟩ := h.orderly (by omega)
    have hjobs := h.size_jobs (by omega)
    rcases invocation?_submit horderly (by omega) setup i with
      ⟨-, hsame⟩ | ⟨-, new, hnew, hnext⟩
    · refine ⟨fun id j hj => ?_, fun l hl => (hsame _).trans (hlanded l hl)⟩
      exact mem_append_left _ (hasked id j ((hsame id).symm.trans hj))
    · refine ⟨fun id j hj => ?_, fun l hl => ?_⟩
      · rw [hnext] at hj
        split at hj
        · exact mem_append_right _ (mem_singleton.mpr (some.inj hj).symm)
        · exact mem_append_left _ (hasked id j hj)
      · rw [hnext, if_neg, hlanded l hl]
        intro heq
        cases hnew.symm.trans (heq ▸ hlanded l hl)
  | recount f h ih =>
    have hsame : ∀ s₁ : Scheduler, ∀ id,
        (s₁.mapCompletion f).invocation? id = s₁.invocation? id := by
      intro s₁ id
      unfold Scheduler.invocation?
      rw [(s₁.core_recounted f).2.2]
    obtain ⟨hasked, hlanded⟩ := ih hsize
    exact ⟨fun id j hj => hasked id j ((hsame _ id).symm.trans hj),
      fun l hl => (hsame _ _).trans (hlanded l hl)⟩
  | @step is ls s₁ s₂ n woken h hstep ih =>
    obtain ⟨hasked, hlanded⟩ := ih hsize
    have hsame := h.invocation?_step (by omega) hstep
    refine ⟨fun id j hj => hasked id j ((hsame id).symm.trans hj), fun l hl => ?_⟩
    rw [hsame]
    rcases mem_append.mp hl with hl | hl
    · exact hlanded l hl
    · obtain ⟨g, -, horderly⟩ := h.orderly hsize
      obtain ⟨t, id, i, -, -, hjob, -⟩ := mem_landingOf hl
      rw [(horderly.known id l.job hjob).1]
      unfold Scheduler.invocation?
      rw [hjob]
      rfl
  | @parse is ls s₁ s₂ n h hend ih =>
    obtain ⟨hasked, hlanded⟩ := ih hsize
    have hsame := h.invocation?_parse (by omega) hend
    exact ⟨fun id j hj => hasked id j ((hsame id).symm.trans hj),
      fun l hl => (hsame _).trans (hlanded l hl)⟩

/-- **What a job has parsed lands exactly when the job completes.** -/
theorem Trace.landed_iff (i : Invocation) :
    (∃ l ∈ ls, l.job.invocation = i)
      ↔ ∃ id job, s.jobs.get? id = some job ∧ job.invocation = i ∧ job.state = .completeLocal := by
  obtain ⟨g, rfl, horderly⟩ := h.orderly hsize
  have hhome := h.home hsize
  have hfiled := (h.filed hsize).2
  have hcount : ∀ id job, s.jobs.get? id = some job →
      g.landings id = job.state.isComplete.toNat := fun id job hjob =>
    (horderly.sound id job hjob).landings (hhome id job hjob).1
  constructor
  · rintro ⟨l, hl, rfl⟩
    obtain ⟨job, hjob, hinvocation⟩ := map_eq_some_iff.mp (hfiled l hl)
    refine ⟨l.job.id, job, hjob, hinvocation, ?_⟩
    have hpos : 0 < g.landings l.job.id := countP_pos_iff.mpr ⟨l, hl, decide_eq_true rfl⟩
    rw [hcount _ job hjob] at hpos
    rcases (hhome _ job hjob).2 with hstate | hstate | hstate | hstate <;> rw [hstate] at hpos ⊢ <;>
      first | rfl | cases hpos
  · rintro ⟨id, job, hjob, rfl, hstate⟩
    have hpos : 0 < g.landings id := by
      rw [hcount id job hjob, hstate]
      decide
    obtain ⟨l, hl, hid⟩ := countP_pos_iff.mp hpos
    refine ⟨l, hl, ?_⟩
    have hinvocation := hfiled l hl
    rw [of_decide_eq_true hid] at hinvocation
    unfold Scheduler.invocation? at hinvocation
    rw [hjob] at hinvocation
    exact (some.inj hinvocation).symm

end

/-! ## Complete runs -/

namespace Submission

variable {us vs : List ParsedUnit} {m : Submission}

theorem calm_of_alone (hsize : is.length < UInt64.size)
    (h : Trail setup (fun _ move => move = .driver) (start setup world state is) vs m) :
    Trail setup Calm (start setup world state is) vs m
      ∧ ∀ t ∈ m.scheduler.tasks, t.phase = .fresh := by
  induction h with
  | start => exact ⟨.start, fun t ht => absurd ht (by simp [start, Scheduler.start])⟩
  | act _ htrail hmove hdriver ih =>
    obtain ⟨hcalm, hfresh⟩ := ih
    subst hdriver
    refine ⟨hcalm.act _ hmove (fun _ hoverlooked => ?_), ?_⟩
    · obtain ⟨-, t, ht, hchecking⟩ := hoverlooked
      cases hchecking.symm.trans (hfresh t ht)
    · obtain ⟨more, htasks, hmore⟩ := (grows_drive (sound_of_trail hsize htrail) hsize hmove).tasks
      rw [htasks]
      exact fun t ht => (mem_append.mp ht).elim (hfresh t) (hmore t)

section Moves

variable {s' : Scheduler} {stage : Stage} {n : Nat}

theorem calm_step {woken : List Nat} (h : ∃ us, Trail setup Calm m us ⟨s, stage⟩)
    (hstep : s.step? setup n = some (s', woken)) : ∃ us, Trail setup Calm m us ⟨s', stage⟩ := by
  obtain ⟨us, htrail⟩ := h
  have hmove : move? setup ⟨s, stage⟩ (.task n) = some ⟨s', stage⟩ :=
    map_eq_some_iff.mpr ⟨_, hstep, rfl⟩
  exact ⟨_, htrail.act _ hmove (fun hdriver => absurd hdriver (by simp))⟩

theorem calm_parse (h : ∃ us, Trail setup Calm m us ⟨s, stage⟩)
    (hparse : s.endParse? setup n = some s') : ∃ us, Trail setup Calm m us ⟨s', stage⟩ := by
  obtain ⟨us, htrail⟩ := h
  have hmove : move? setup ⟨s, stage⟩ (.parse n) = some ⟨s', stage⟩ :=
    map_eq_some_iff.mpr ⟨_, hparse, rfl⟩
  exact ⟨_, htrail.act _ hmove (fun hdriver => absurd hdriver (by simp))⟩

end Moves

end Submission

/-- What steps and ends of parses keep is kept by all moves, when all is submitted. -/
theorem Intake.moves_keep {P : Scheduler → Prop} {p : Intake} (h : P p.scheduler)
    (hnone : p.rest = []) (hstep : ∀ {s s' : Scheduler} {n : Nat} {woken : List Nat}, P s →
      s.step? setup n = some (s', woken) → P s')
    (hparse : ∀ {s s' : Scheduler} {n : Nat}, P s → s.endParse? setup n = some s' → P s')
    (ms : List Move) : P (ms.foldl (Intake.move setup) p).scheduler := by
  induction ms generalizing p with
  | nil => exact h
  | cons m ms ih =>
    obtain ⟨hmoved, hrest⟩ : P (p.move setup m).scheduler ∧ (p.move setup m).rest = [] := by
      cases m with
      | driver =>
        have hstays : p.move setup .driver = p := by simp only [move, submitNext, hnone]
        rw [hstays]
        exact ⟨h, hnone⟩
      | task n =>
        simp only [move]
        split
        · next hmove => exact ⟨hstep h hmove, hnone⟩
        · exact ⟨h, hnone⟩
      | parse n =>
        simp only [move]
        split
        · next hmove => exact ⟨hparse h hmove, hnone⟩
        · exact ⟨h, hnone⟩
    exact ih hmoved hrest

theorem Latch.isTriggered_of_waitBriefly {l : Latch} (h : l.waitBriefly.1 = .ok ()) :
    l.isTriggered = true := by
  obtain ⟨completed, error, hasWaiter⟩ := l
  cases completed with
  | true => rfl
  | false =>
    cases error with
    | some => rfl
    | none => cases hasWaiter <;> nomatch h

theorem Completion.wait_eq_ok {c : Completion} (h : c.wait.1 = .ok ()) :
    c.latch.isTriggered = true ∨ (c.pending = 0 ∧ c.introspections = 0) := by
  by_cases hidle : c.isIdle = true
  · simp only [isIdle, Bool.and_eq_true, decide_eq_true_eq] at hidle
    exact .inr hidle
  · unfold wait at h
    rw [if_neg hidle] at h
    exact .inl (Latch.isTriggered_of_waitBriefly h)

/-- **Every job of a run that is complete has ended**, if all units were submitted before the first
task moved. -/
theorem Schedule.ended_of_wait {o : Schedule} (hearly : o.early = []) (hsize : is.length < UInt64.size)
    {stats : Counters} (hwait : (o.ended setup world state is).waitForCompletion.1 = .ok stats)
    {id : JobId} (hjob : (o.ended setup world state is).jobs.get? id = some job) :
    job.state.isTerminal = true := by
  have hsubmitted := (Submission.calm_of_alone hsize
    (Submission.alone_submitAll setup (Scheduler.start setup world state) is)).1
  obtain ⟨us, hcalm⟩ : ∃ us, Submission.Trail setup Submission.Calm
      (Submission.start setup world state is) us ⟨o.ended setup world state is, .waiting⟩ := by
    have hlate := Intake.moves_keep (p := { scheduler := _ }) ⟨_, hsubmitted⟩ rfl
      Submission.calm_step Submission.calm_parse o.late
    unfold Schedule.ended Schedule.run
    rw [hearly]
    cases o.settles with
    | false => exact hlate
    | true => exact settleWith_keeps hlate Submission.calm_step Submission.calm_parse _ _
  generalize o.ended setup world state is = s at hwait hjob hcalm
  have hanswer : s.completion.wait.1 = .ok () := by
    unfold waitForCompletion at hwait
    simp only at hwait
    split at hwait
    · cases hwait
    · assumption
  rcases Completion.wait_eq_ok hanswer with hfired | ⟨hpending, hheld⟩
  · exact (Submission.settled_of_calm hsize hcalm hfired).ended id job hjob
  · -- The one who waits finds nothing counted and fires the latch.
    have hidling : Submission.move? setup ⟨s, .waiting⟩ .driver = some ⟨s, .idling⟩ := by
      unfold Submission.move? Submission.drive?
      simp only [hpending, if_true]
    have hdone : Submission.move? setup ⟨s, .idling⟩ .driver
        = some ⟨s.mapCompletion Completion.checkIntrospections, .done⟩ := rfl
    have hcalm' := (hcalm.act _ hidling (fun _ hoverlooked => ?_)).act _ hdone (fun _ hoverlooked => ?_)
    · refine (Submission.settled_of_calm hsize hcalm' ?_).ended id job ?_
      · show (s.mapCompletion Completion.checkIntrospections).completion.latch.isTriggered = true
        rw [completion_mapCompletion]
        unfold Completion.checkIntrospections Latch.triggerSuccess
        rw [if_pos hheld]
        simp only
        split
        · assumption
        · rfl
      · show (s.mapCompletion Completion.checkIntrospections).jobs.get? id = some job
        rw [(s.core_recounted _).2.2]
        exact hjob
    · obtain ⟨⟨d, rest, hstage⟩, -⟩ := hoverlooked
      cases hstage
    · obtain ⟨⟨d, rest, hstage⟩, -⟩ := hoverlooked
      cases hstage

end SymbolIndex
