import SymbolIndex.Proofs.Integrate
import SymbolIndex.Scheduler.Control

/-!
# What the parts of a step leave behind

The parts that a step is made of, each with the scheduler it leads to. What is told to the log,
asked of the front end or written to the disk stays open; all else is said as it is. Where a part
can go several ways, the table of headers and the counts are named and the rest is the same in all
of them.
-/

namespace SymbolIndex

open List

variable {n : Nat}

/-- The number of the job that is made after `n` others. -/
def jobOf (n : Nat) : JobId := ⟨UInt64.ofNat (n + 1)⟩

theorem jobOf_inj {m : Nat} (hn : n < UInt64.size) (hm : m < UInt64.size)
    (h : jobOf n = jobOf m) : n = m := by
  have hval : UInt64.ofNat (n + 1) = UInt64.ofNat (m + 1) := congrArg JobId.val h
  have hnat := congrArg UInt64.toNat hval
  simp only [UInt64.toNat_ofNat'] at hnat
  rw [show UInt64.size = 2 ^ 64 from rfl] at hn hm
  omega

theorem modify_of_getElem? {tasks : List Task} {t : Task} (f : Task → Task)
    (h : tasks[n]? = some t) : tasks.modify n f = tasks.set n (f t) := by
  obtain ⟨hn, rfl⟩ := List.getElem?_eq_some_iff.mp h
  refine List.ext_getElem? (fun m => ?_)
  rw [getElem?_modify, getElem?_set]
  by_cases hm : n = m
  · subst hm
    simp [hn]
  · simp [hm]

theorem getElem?_set_of_some {α : Type} {l : List α} {a b : α} (h : l[n]? = some a) :
    (l.set n b)[n]? = some b :=
  getElem?_set_self (List.getElem?_eq_some_iff.mp h).1

theorem getElem?_set_cases {α : Type} {l : List α} {m : Nat} {a b : α}
    (h : (l.set n a)[m]? = some b) : (m = n ∧ b = a) ∨ (m ≠ n ∧ l[m]? = some b) := by
  rw [getElem?_set] at h
  split at h
  · next hm =>
    obtain ⟨-, heq⟩ := Option.ite_none_right_eq_some.mp h
    exact .inl ⟨hm.symm, (Option.some.inj heq).symm⟩
  · next hm => exact .inr ⟨Ne.symm hm, h⟩

theorem Job.advance_of_canMoveTo {j : Job} {next : JobState} (h : j.state.canMoveTo next = true) :
    j.advance next = { j with state := next, started := j.started || next == .runningLocal } := by
  unfold advance transition
  rw [if_pos h]
  rfl

/-! ## Errands -/

namespace Errand

/-- The job that a task is for. -/
def job? : Errand → Option JobId
  | .unit id _ | .header id _ | .remote id => some id
  | .request _ => none

def attempt : Errand → UInt32
  | .unit _ attempt => attempt
  | _ => 0

/-- Whether a task answers another process. -/
def answers : Errand → Bool
  | .remote _ => true
  | _ => false

/-- The reservation that a task has to settle. -/
def reservation? : Errand → Option Pch.Reservation
  | .header _ r => some r
  | _ => none

end Errand

/-! ## Reservations that come to an end -/

namespace Pch

/-- How a reservation ends. -/
inductive Ending where
  | completed (entry : PchEntry) (fromUnsaved : Bool)
  | released
  | abandoned
deriving DecidableEq

/-- Settle a reservation. -/
def Ending.conclude (how : Ending) (t : PchTable) (r : Reservation) : PchTable :=
  match how with
  | .completed entry fromUnsaved => t.complete r entry fromUnsaved
  | .released => t.release r
  | .abandoned => t.abandon r

end Pch

def PchTable.concluded (t : PchTable) (r? : Option Pch.Reservation) (how : Pch.Ending) : PchTable :=
  match r? with
  | some r => how.conclude t r
  | none => t

/-- The world when a front end is done. -/
def World.after (w : World) (frontend : Frontend) (request : ParseRequest) : World :=
  { w with disk := (frontend w.disk request).disk }

/-! ## Looks at the counts -/

namespace Completion

variable (c : Completion)

@[simp] theorem pending_checkIntrospections :
    c.checkIntrospections.pending = c.pending := by
  unfold checkIntrospections
  split <;> rfl

@[simp] theorem introspections_checkIntrospections :
    c.checkIntrospections.introspections = c.introspections := by
  unfold checkIntrospections
  split <;> rfl

@[simp] theorem pending_checkPending : c.checkPending.pending = c.pending := by
  unfold checkPending
  split <;> rfl

@[simp] theorem introspections_checkPending :
    c.checkPending.introspections = c.introspections := by
  unfold checkPending
  split <;> rfl

end Completion

/-! ## Parts of a step -/

namespace Scheduler

variable {i : Invocation} {setup : RunSetup} {errand : Errand} {request : ParseRequest}
  {indexer : UnitIndexer} {R : PchTable → PchTable → Prop}

/-- The invocation of a job. -/
def invocation? (s : Scheduler) (id : JobId) : Option Invocation :=
  (s.jobs.get? id).map Job.invocation

variable {s s' : Scheduler} {id : JobId} {unit : ParsedUnit} {n : Nat}

theorem modify_eq {tasks : List Task} {t : Task} {f : Task → Task} (htasks : s.tasks = tasks)
    (ht : tasks[n]? = some t) :
    ({ s with tasks := s.tasks.modify n f } : Scheduler) = s.setTask n (f t) := by
  unfold setTask
  rw [htasks, modify_of_getElem? f ht]

theorem mapCompletion_eq (s : Scheduler) (f : Completion → Completion) :
    ∃ log, s.mapCompletion f = { s with completion := f s.completion, log := log } := by
  unfold mapCompletion
  simp only
  split <;> exact ⟨_, rfl⟩

theorem releasePermit_eq (s : Scheduler) : ∃ tasks line permits,
    s.releasePermit.1 = { s with tasks := tasks, line := line, permits := permits } := by
  unfold releasePermit
  split <;> exact ⟨_, _, _, rfl⟩

theorem askPermit_eq (s : Scheduler) (n : Nat) : ∃ tasks line permits,
    s.askPermit n = { s with tasks := tasks, line := line, permits := permits } := by
  unfold askPermit
  split <;> exact ⟨_, _, _, rfl⟩

theorem getElem?_releasePermit (hout : n ∉ s.line) : s.releasePermit.1.tasks[n]? = s.tasks[n]? := by
  unfold releasePermit
  split
  · rfl
  · next m rest hline =>
    have hne : m ≠ n := fun heq => hout (by rw [hline, heq]; exact mem_cons_self ..)
    show (s.tasks.modify m _)[n]? = _
    exact getElem?_modify_ne _ _ hne

theorem startLocal?_eq {attempt : UInt32} (h : s.startLocal? id attempt = some (i, s')) :
    ∃ jobs, s' = { s with jobs := jobs } := by
  unfold startLocal? at h
  split at h
  · cases h
  · split at h
    · split at h
      · exact ⟨_, (Prod.mk.inj (Option.some.inj h)).2.symm⟩
      · cases h
    · cases h

theorem runFrontend_eq (setup : RunSetup) (s : Scheduler) (errand : Errand)
    (request : ParseRequest) (indexer : UnitIndexer) : ∃ disk calls errors log,
    (runFrontend setup s errand request indexer).1
      = { s with world := { s.world with disk := disk }, calls := calls, errors := errors
                 log := log } := by
  unfold runFrontend
  simp only
  split
  · exact ⟨_, _, _, _, rfl⟩
  · exact ⟨_, _, _, _, rfl⟩
  · exact ⟨_, _, _, _, rfl⟩
  · exact ⟨_, _, _, _, rfl⟩
  · split
    · split <;> exact ⟨_, _, _, _, rfl⟩
    · exact ⟨_, _, _, _, rfl⟩

/-- What a front end brings back was made from its events, and is recorded when it has done its
work. -/
theorem runFrontend_eq_ok (h : (runFrontend setup s errand request indexer).2 = .ok unit) :
    ∃ u, indexer.handleAll (s.world.after setup.frontend request).lastModified
        (setup.frontend s.world.disk request).events = (u, none)
      ∧ unit.contribution = u.contribution
      ∧ unit.source = ({ s with world := s.world.after setup.frontend request } : Scheduler).sourceOf
        request.invocation u.contribution := by
  unfold runFrontend at h
  simp only at h
  split at h
  · cases h
  · cases h
  · cases h
  · cases h
  · next image hnone hparsed =>
    refine ⟨_, Prod.ext rfl hnone, ?_⟩
    split at h
    · split at h
      · rw [← Except.ok.inj h]
        exact ⟨rfl, rfl⟩
      · cases h
    · rw [← Except.ok.inj h]
      exact ⟨rfl, rfl⟩

theorem unparsed_eq_ok (h : s.unparsed errand i indexer = .ok unit) :
    unit.contribution = indexer.contribution ∧ unit.source = s.sourceOf i indexer.contribution := by
  unfold unparsed at h
  split at h
  · cases h
  · rw [← Except.ok.inj h]
    exact ⟨rfl, rfl⟩

theorem invocation_runFrontend (h : (runFrontend setup s errand request indexer).2 = .ok unit) :
    unit.source.invocation = request.invocation := by
  obtain ⟨u, -, -, hsource⟩ := runFrontend_eq_ok h
  rw [hsource]
  rfl

theorem invocation_unparsed (h : s.unparsed errand i indexer = .ok unit) :
    unit.source.invocation = i := by
  rw [(unparsed_eq_ok h).2]
  rfl

theorem endParse?_eq_some (h : s.endParse? setup n = some s') :
    ∃ t request indexer, s.tasks[n]? = some t ∧ t.phase = .parsing request indexer
      ∧ ∃ disk calls errors log, s' = { s with
        world := { s.world with disk := disk }, calls := calls, errors := errors, log := log
        tasks := s.tasks.set n { t with phase := (.parsed request.invocation
          (runFrontend setup s t.errand request indexer).2) } } := by
  unfold endParse? at h
  split at h
  · cases h
  · next t ht =>
    split at h
    · next request indexer hphase =>
      split at h
      · cases h
      · have hended : s' = (runFrontend setup s t.errand request indexer).1.setPhase n
            (.parsed request.invocation (runFrontend setup s t.errand request indexer).2) :=
          (Option.some.inj h).symm
        obtain ⟨disk, calls, errors, log, hran⟩ := runFrontend_eq setup s t.errand request indexer
        rw [hran] at hended
        exact ⟨t, request, indexer, ht, hphase, disk, calls, errors, log,
          hended.trans (modify_eq rfl ht)⟩
    · cases h

section

variable (hrefl : ∀ t, R t t) (htrans : ∀ {t t' t''}, R t t' → R t' t'' → R t t'')

include hrefl htrans

theorem useHeaders_keep (disk : Disk)
    (hlookup : ∀ (t : PchTable) key, R t (t.lookupForInclude disk key).2) (keys : List String)
    (acc : PchUse × PchTable) :
    R acc.2 (keys.foldl (useHeader disk) acc).2 := by
  induction keys generalizing acc with
  | nil => exact hrefl _
  | cons key _ ih =>
    refine htrans ?_ (ih _)
    have hone := hlookup acc.2 key
    unfold useHeader
    simp only
    split
    · next heq => rwa [heq] at hone
    · next heq => rwa [heq] at hone

theorem beginParse_eq (setup : RunSetup) (s : Scheduler)
    (hlookup : ∀ (t : PchTable) key, R t (t.lookupForInclude s.world.disk key).2) (i : Invocation) :
    ∃ table requests log, R s.state.pch table
      ∧ (beginParse setup s i).2.2 = { s with state := { s.state with pch := table }
                                              requests := requests, log := log } := by
  have hprepare : ∃ table log, R s.state.pch table ∧ (preparePchUse setup s i).2
      = { s with state := { s.state with pch := table }, log := log } := by
    unfold preparePchUse
    split
    · exact ⟨_, _, hrefl _, rfl⟩
    · exact ⟨_, _, useHeaders_keep hrefl htrans s.world.disk hlookup i.includedHeaderKeys
        ({}, s.state.pch), rfl⟩
  obtain ⟨table, log, hkept, hprepare⟩ := hprepare
  unfold beginParse
  simp only
  rw [hprepare]
  split <;> exact ⟨_, _, _, hkept, rfl⟩

end

theorem exists_beginParse (setup : RunSetup) (s : Scheduler) (i : Invocation) :
    ∃ table requests log, (beginParse setup s i).2.2
      = { s with state := { s.state with pch := table }, requests := requests, log := log } := by
  obtain ⟨table, requests, log, -, hbegun⟩ := beginParse_eq (R := fun _ _ => True)
    (fun _ => trivial) (fun _ _ => trivial) setup s (fun _ _ => trivial) i
  exact ⟨table, requests, log, hbegun⟩

theorem noteReplaced_eq (s : Scheduler) (source : Source) :
    ∃ log, s.noteReplaced source = { s with log := log } := by
  unfold noteReplaced
  split <;> exact ⟨_, rfl⟩

theorem integrateUnit_eq_some (h : s.integrateUnit id unit = some s') : ∃ visited state log,
    s.state.integrate unit.contribution unit.source = .ok (visited, state) ∧ s' = { s with
        state := state, log := log
        jobs := s.jobs.modify id (fun j => Job.advance { j with visited } .completeLocal)
        counters := { s.counters with completed := s.counters.completed + 1 } } := by
  unfold integrateUnit at h
  split at h
  · cases h
  · next visited state hintegrate =>
    obtain ⟨log, hnoted⟩ := s.noteReplaced_eq unit.source
    rw [hnoted] at h
    exact ⟨visited, state, log, hintegrate, (Option.some.inj h).symm⟩

theorem integrateUnit_eq_none (h : s.integrateUnit id unit = none) :
    ∃ e, s.state.integrate unit.contribution unit.source = .error e := by
  unfold integrateUnit at h
  split at h
  · next e hintegrate => exact ⟨e, hintegrate⟩
  · cases h

end Scheduler

end SymbolIndex
