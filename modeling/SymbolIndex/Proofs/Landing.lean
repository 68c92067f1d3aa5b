import SymbolIndex.Proofs.Effects
import SymbolIndex.Proofs.Submission

/-!
# What a run integrates

Of all the steps of a run only one kind changes the index: a task that closes a unit or a header
which was parsed. Such a step lands one unit. A step may also take precompiled headers out of the
table, and a header that lands is put into it; no step puts another one there.

`landingOf` is what the next step of a task lands. A `Trace` lists the landings of a run, and
`Trace.integrated` and `Trace.ready` say that they account for the index and for the headers that
are ready.
-/

namespace SymbolIndex

open IndexState List Option Scheduler SortedMap

/-! ## Ready headers -/

namespace PchTable

variable {t t' : PchTable}

/-- The header behind a key that is ready. -/
def origin? (t : PchTable) (key : String) : Option Path :=
  match t.slots.get? key with
  | some (.ready entry) => some entry.originHeader
  | _ => none

/-- No new mark of a buffer. -/
def FewerMarks (t t' : PchTable) : Prop :=
  ∀ key, t'.isFromUnsaved key = true → t.isFromUnsaved key = true

/-- A table has no new header and no new mark of a buffer. -/
structure Fewer (t t' : PchTable) : Prop where
  ready : ∀ key o, t'.origin? key = some o → t.origin? key = some o
  marks : FewerMarks t t'

theorem Fewer.refl (t : PchTable) : Fewer t t := ⟨fun _ _ h => h, fun _ h => h⟩

theorem Fewer.trans {t'' : PchTable} (h : Fewer t t') (h' : Fewer t' t'') : Fewer t t'' :=
  ⟨fun key o ho => h.ready key o (h'.ready key o ho), fun key hk => h.marks key (h'.marks key hk)⟩

theorem fewer_of_get? (key : String) (hkey : ∀ entry, t'.slots.get? key ≠ some (.ready entry))
    (hothers : ∀ k, k ≠ key → t'.slots.get? k = t.slots.get? k) (hmarks : FewerMarks t t') :
    Fewer t t' := by
  refine ⟨fun k o ho => ?_, hmarks⟩
  unfold origin? at ho ⊢
  by_cases hk : k = key
  · subst hk
    split at ho
    · next entry hentry => exact absurd hentry (hkey entry)
    · cases ho
  · rwa [hothers k hk] at ho

theorem fewer_remove (t : PchTable) (key : String) : Fewer t (t.remove key) := by
  refine fewer_of_get? key (fun entry => ?_) (fun k hk => ?_) (fun k hk => ?_)
  · simp [remove, get?_erase]
  · simp [remove, get?_erase, hk]
  · simp only [isFromUnsaved, remove, SortedSet.contains_erase, Bool.and_eq_true] at hk
    exact hk.2

theorem fewer_release (t : PchTable) (r : Pch.Reservation) : Fewer t (t.release r) :=
  ⟨(t.fewer_remove r.key).ready, (t.fewer_remove r.key).marks⟩

theorem fewer_book (t : PchTable) (key : String) : Fewer t (t.book key).2 := by
  refine fewer_of_get? key (fun entry => ?_) (fun k hk => ?_) (fun k hk => hk)
  · simp [book]
  · simp [book, hk]

theorem reserve_cases (t : PchTable) (key : String) :
    (∃ entry, t.reserve key = (.ready entry, t) ∧ t.slots.get? key = some (.ready entry))
      ∨ (∃ ticket, t.reserve key = (.wait ticket, t)
        ∧ t.slots.get? key = some (.building ticket) ∧ t.status ticket = .building)
      ∨ (t.reserve key = t.book key ∧ t.origin? key = none
        ∧ ∀ ticket, t.slots.get? key = some (.building ticket) → t.status ticket ≠ .building) := by
  unfold reserve
  cases hget : t.slots.get? key with
  | none => exact .inr (.inr ⟨rfl, by simp [origin?, hget], by simp⟩)
  | some slot =>
    cases slot with
    | ready entry => exact .inl ⟨entry, rfl, rfl⟩
    | building ticket =>
      by_cases hopen : t.status ticket = .building
      · exact .inr (.inl ⟨ticket, by simp only [hopen, if_true], rfl, hopen⟩)
      · refine .inr (.inr ⟨by simp only [hopen, if_false], by simp [origin?, hget], ?_⟩)
        intro n hn
        obtain rfl : ticket = n := by simpa using hn
        exact hopen

theorem reserve_eq_book {table : PchTable} {key : String} {r : Pch.Reservation}
    (h : t.reserve key = (.reserved r, table)) :
    t.reserve key = t.book key ∧ r = ⟨key, t.tickets.length⟩ ∧ table = (t.book key).2 := by
  rcases t.reserve_cases key with ⟨entry, heq, -⟩ | ⟨ticket, heq, -⟩ | ⟨heq, -⟩
  · cases heq.symm.trans h
  · cases heq.symm.trans h
  · have hbook := heq.symm.trans h
    exact ⟨heq, by simpa [book, eq_comm] using (Prod.mk.inj hbook).1, (Prod.mk.inj hbook).2.symm⟩

theorem fewer_lookupForInclude (t : PchTable) (disk : Disk) (key : String) :
    Fewer t (t.lookupForInclude disk key).2 := by
  unfold lookupForInclude
  split
  · split
    · exact .refl t
    · exact t.fewer_remove key
  · exact .refl t

theorem origin?_complete (t : PchTable) (r : Pch.Reservation) (entry : PchEntry)
    (fromUnsaved : Bool) (key : String) :
    (t.complete r entry fromUnsaved).origin? key
      = if key = r.key then some entry.originHeader else t.origin? key := by
  unfold origin? complete setStatus
  simp only [get?_insert, Std.compare_eq_iff_eq]
  by_cases hkey : key = r.key <;> simp [hkey]

theorem fewer_concluded (t : PchTable) (r? : Option Pch.Reservation) {how : Pch.Ending}
    (h : how = .released ∨ how = .abandoned) : Fewer t (t.concluded r? how) := by
  cases r? with
  | none => exact .refl t
  | some r =>
    rcases h with rfl | rfl
    · exact t.fewer_release r
    · exact ⟨fun _ _ h => h, fun _ h => h⟩

theorem origin?_concluded (t : PchTable) (r? : Option Pch.Reservation) (entry : PchEntry)
    (fromUnsaved : Bool) (key : String) :
    (t.concluded r? (.completed entry fromUnsaved)).origin? key
      = if r?.map Pch.Reservation.key = some key then some entry.originHeader
        else t.origin? key := by
  cases r? with
  | none => rfl
  | some r => exact (t.origin?_complete r entry fromUnsaved key).trans (by simp [eq_comm])

theorem fewerMarks_concluded (t : PchTable) (r? : Option Pch.Reservation) (entry : PchEntry) :
    FewerMarks t (t.concluded r? (.completed entry false)) := by
  intro key hk
  cases r? with
  | none => exact hk
  | some =>
    simp only [concluded, Pch.Ending.conclude, isFromUnsaved, complete, setStatus,
      Bool.false_eq_true, if_false, SortedSet.contains_erase, Bool.and_eq_true] at hk
    exact hk.2

end PchTable

/-! ## Steps that land nothing -/

theorem IndexState.pch_integrate {s r : IndexState} {c : Contribution}
    {source : Source} {visited : SortedSet FileId}
    (h : s.integrate c source = .ok (visited, r)) : r.pch = s.pch := by
  obtain ⟨graph, files, files', -, -, rfl⟩ := integrate_eq_ok h
  rfl

/-- The index stays, and headers only go. -/
structure IndexState.Kept (a b : IndexState) : Prop where
  index : b.index = a.index
  headers : a.pch.Fewer b.pch

theorem IndexState.Kept.refl (a : IndexState) : Kept a a := ⟨rfl, .refl _⟩

theorem IndexState.Kept.of_eq {a b : IndexState} (h : b = a) : Kept a b := h ▸ refl a

namespace Scheduler

open IndexState (Kept)

variable {s s' : Scheduler} {setup : RunSetup} {n : Nat}

/-- What no task changes: a table of times, and what is remembered of submissions. -/
def backdrop (s : Scheduler) := (s.world.stamps, s.queued, s.counters.duplicates)

/-- A step that touches neither the index nor what was submitted. -/
structure Spares (s s' : Scheduler) : Prop where
  state : Kept s.state s'.state
  backdrop : s'.backdrop = s.backdrop

theorem Spares.refl (s : Scheduler) : Spares s s := ⟨.refl _, rfl⟩

theorem state_mapCompletion (s : Scheduler) (f : Completion → Completion) :
    (s.mapCompletion f).state = s.state := by
  obtain ⟨log, hcounts⟩ := s.mapCompletion_eq f
  rw [hcounts]

theorem Spares.mapCompletion (h : s.Spares s') (f : Completion → Completion) :
    s.Spares (s'.mapCompletion f) := by
  obtain ⟨log, hcounts⟩ := s'.mapCompletion_eq f
  rw [hcounts]
  exact ⟨h.state, h.backdrop⟩

theorem Spares.releasePermit (h : s.Spares s') : s.Spares s'.releasePermit.1 := by
  obtain ⟨tasks, line, permits, hfreed⟩ := s'.releasePermit_eq
  rw [hfreed]
  exact ⟨h.state, h.backdrop⟩

theorem spares_begin (setup : RunSetup) (s : Scheduler) (n : Nat) (errand : Errand) :
    s.Spares (s.begin setup n errand) := by
  unfold begin
  split
  · split <;> exact ⟨.refl _, rfl⟩
  · split <;> exact ⟨.refl _, rfl⟩
  · exact ⟨.refl _, rfl⟩
  · split
    · exact ⟨.refl _, rfl⟩
    · next key _ =>
      split
      · exact ⟨.refl _, rfl⟩
      · exact ⟨.refl _, rfl⟩
      · next r table heq =>
        obtain ⟨-, -, rfl⟩ := PchTable.reserve_eq_book heq
        obtain ⟨log, hcounts⟩ := mapCompletion_eq
          ((s.noteReserved key).mapPch (fun _ => (s.state.pch.book key).2)) Completion.countJob
        simp only [hcounts]
        exact ⟨⟨rfl, s.state.pch.fewer_book key⟩, rfl⟩

theorem spares_launch (setup : RunSetup) (s : Scheduler) (n : Nat) (errand : Errand) :
    s.Spares (s.launch setup n errand).1 := by
  unfold launch
  simp only
  split
  · next i s₁ hstarted =>
    obtain ⟨jobs, rfl⟩ : ∃ jobs, s₁ = { s with jobs := jobs } := by
      split at hstarted <;> first
        | exact startLocal?_eq hstarted
        | cases hstarted
    obtain ⟨table, requests, log, hfewer, hbegun⟩ := beginParse_eq PchTable.Fewer.refl
      PchTable.Fewer.trans setup { s with jobs := jobs }
      (fun t => t.fewer_lookupForInclude s.world.disk) i
    split
    · rw [hbegun]
      exact ⟨⟨rfl, hfewer⟩, rfl⟩
    · rw [hbegun]
      exact ⟨⟨rfl, hfewer⟩, rfl⟩
  · refine Spares.releasePermit ?_
    split
    · exact ⟨⟨rfl, s.state.pch.fewer_release _⟩, rfl⟩
    · exact ⟨.refl _, rfl⟩
    · exact ⟨.refl _, rfl⟩

end Scheduler

/-! ## Submissions -/

/-- A run precompiles an invocation. -/
def Config.Precompiles (c : Config) (i : Invocation) : Prop :=
  i.language.isHeader = true ∧ c.flags.disablePch = false ∧ c.flags.dontIndex = false
    ∧ i.headerKey? ≠ none

namespace Scheduler

open IndexState (Kept)

/-- What becomes of a unit or a header that is submitted, and of the run before a job is counted. -/
inductive Accepts (setup : RunSetup) (s : Scheduler) (i : Invocation) :
    Option Dispatch × Scheduler → Prop where
  | unwanted {log : List LogRecord} : i.language.isHeader = true →
      (setup.config.flags.disablePch = true ∨ setup.config.flags.dontIndex = true
        ∨ i.headerKey? = none) → Accepts setup s i (none, { s with log := log })
  | requested {key : String} {log : List LogRecord} : setup.config.Precompiles i →
      i.headerKey? = some key → s.state.pch.slots.get? key ≠ none →
      Accepts setup s i (none, { s with log := log }.countDuplicate)
  | repeated {log : List LogRecord} : i.language.isHeader = false →
      s.queued.any (fun q => q.same i.signature) = true →
      Accepts setup s i (none, { s with log := log }.countDuplicate)
  | unit : i.language.isHeader = false → s.queued.any (fun q => q.same i.signature) = false →
      Accepts setup s i (some (.unit i), { s with queued := s.queued ++ [i.signature] })
  | header {key : String} {log : List LogRecord} : setup.config.Precompiles i →
      i.headerKey? = some key → s.state.pch.reserve key = s.state.pch.book key →
      Accepts setup s i (some (.header i ⟨key, s.state.pch.tickets.length⟩),
        { s with log := log }.mapPch (fun t => (t.book key).2))

variable (setup : RunSetup) (s : Scheduler) (i : Invocation)

theorem accepts :
    Accepts setup s i (s.accept setup i) := by
  unfold accept
  split
  · next hheader =>
    simp only
    split
    · next hflags => exact .unwanted hheader ((Bool.or_eq_true_iff.mp hflags).imp_right .inl)
    · next hflags =>
      obtain ⟨hdisable, hdont⟩ : setup.config.flags.disablePch = false
          ∧ setup.config.flags.dontIndex = false := by simpa using hflags
      split
      · next hkey => exact .unwanted hheader (.inr (.inr hkey))
      · next key hkey =>
        have hwanted : setup.config.Precompiles i := ⟨hheader, hdisable, hdont, by simp [hkey]⟩
        rcases s.state.pch.reserve_cases key with ⟨_, heq, hget⟩ | ⟨_, heq, hget, -⟩ | ⟨heq, -⟩
        · rw [heq]
          exact .requested hwanted hkey (by simp [hget])
        · rw [heq]
          exact .requested hwanted hkey (by simp [hget])
        · rw [heq]
          exact .header hwanted hkey heq
  · next hunit =>
    have hunit := eq_false_of_ne_true hunit
    split
    · next hany => exact .repeated hunit hany
    · next hnone => exact .unit hunit (eq_false_of_ne_true hnone)

theorem submit_eq_accept :
    (s.submit setup i).2.state = (s.accept setup i).2.state
      ∧ (s.submit setup i).2.backdrop = (s.accept setup i).2.backdrop := by
  rw [submit_eq]
  rcases s.accept setup i with ⟨_ | d, s₁⟩
  · exact ⟨rfl, rfl⟩
  · obtain ⟨log, hcounts⟩ := s₁.mapCompletion_eq Completion.countJob
    simp only [hcounts]
    cases d <;> exact ⟨rfl, rfl⟩

theorem spares_submit :
    Kept s.state (s.submit setup i).2.state
      ∧ (s.submit setup i).2.world.stamps = s.world.stamps := by
  obtain ⟨hstate, hbackdrop⟩ := s.submit_eq_accept setup i
  have haccepts := s.accepts setup i
  rw [hstate]
  refine ⟨?_, (congrArg Prod.fst hbackdrop).trans ?_⟩ <;>
    generalize s.accept setup i = answer at haccepts ⊢ <;> cases haccepts
  case refine_1.header => exact ⟨rfl, s.state.pch.fewer_book _⟩
  all_goals exact .refl _

theorem kept_submit :
    Kept s.state (s.submit setup i).2.state :=
  (s.spares_submit setup i).1

end Scheduler

/-! ## Landings -/

/-- A unit that a job has parsed, as it gets into the index. -/
structure Landing where
  job : Job
  unit : ParsedUnit
  reservation : Option Pch.Reservation

namespace Landing

/-- The key of a header that has landed. -/
def key? (l : Landing) : Option String := l.reservation.map Pch.Reservation.key

/-- What a landing makes of the state of an index. -/
structure Lands (l : Landing) (a b : IndexState) : Prop where
  integrated : ∃ visited r, a.integrate l.unit.contribution l.unit.source = .ok (visited, r)
    ∧ b.index = r.index
  headers : ∀ key o, b.pch.origin? key = some o →
    if l.key? = some key then o = l.job.invocation.input else a.pch.origin? key = some o
  marks : l.unit.contribution.fromUnsaved = false → a.pch.FewerMarks b.pch

end Landing

namespace Scheduler

open IndexState (Kept)

/-- What a job lands with an outcome. -/
def lands (s : Scheduler) (id : JobId) (reservation : Option Pch.Reservation)
    (outcome : Except FrontendError ParsedUnit) : List Landing :=
  match s.jobs.get? id, outcome with
  | some job, .ok unit =>
    if job.state = .aborted then []
    else match s.state.integrate unit.contribution unit.source with
      | .ok _ => [{ job, unit, reservation }]
      | .error _ => []
  | _, _ => []

/-- What the next step of a task lands. -/
def landingOf (s : Scheduler) (n : Nat) : List Landing :=
  match s.tasks[n]? with
  | some { errand := .unit id _, phase := .closing _ outcome, .. } => s.lands id none outcome
  | some { errand := .header id r, phase := .closing _ outcome, .. } =>
    s.lands id (some r) outcome
  | _ => []

/-- What an action lands. -/
def landedBy (s : Scheduler) : Action → List Landing
  | .step n => s.landingOf n
  | .completeRemote id c source =>
    match s.jobs.get? id, s.state.integrate c source with
    | some job, .ok _ => [{ job, unit := { contribution := c, source }, reservation := none }]
    | _, _ => []
  | _ => []

/-- What a step makes of the state of an index: at most one unit lands. -/
inductive LandsAll : List Landing → IndexState → IndexState → Prop where
  | none {a b : IndexState} : Kept a b → LandsAll [] a b
  | one {l : Landing} {a b : IndexState} : l.Lands a b → LandsAll [l] a b

namespace LandsAll

variable {landed : List Landing} {us : List ParsedUnit} {a b state : IndexState}

theorem integrated (h : LandsAll landed a b)
    (hbefore : ∃ r, state.integrateAll us = .ok r ∧ a.index = r.index) :
    ∃ r, state.integrateAll (us ++ landed.map Landing.unit) = .ok r ∧ b.index = r.index := by
  obtain ⟨r, hall, hindex⟩ := hbefore
  rw [integrateAll_append hall]
  cases h with
  | none hkept => exact ⟨r, rfl, hkept.index.trans hindex⟩
  | one hone =>
    obtain ⟨visited, r₁, hintegrate, hindex₁⟩ := hone.integrated
    obtain ⟨r₂, hintegrate₂, hindex₂⟩ := integrate_congr hindex.symm hintegrate
    refine ⟨r₂, ?_, hindex₁.trans hindex₂.symm⟩
    show (r.integrate _ _ >>= fun a => a.2.integrateAll []) = _
    rw [hintegrate₂]
    rfl

end LandsAll

variable {s s' : Scheduler} {id : JobId} {unit : ParsedUnit} {job : Job} {n : Nat} {t : Task}
  {i : Invocation} {outcome : Except FrontendError ParsedUnit} {setup : RunSetup} {woken : List Nat}

/-! ## Ending the work on a job -/

/-- What comes of a job, of what was parsed for it and of its task `t` when the task ends its work,
with what lands: the task is `t'` then, and the run is `s'` but for the task. -/
inductive Closes (s : Scheduler) (t : Task) (job : Job) (i : Invocation) :
    Except FrontendError ParsedUnit → List Landing → Task → Scheduler → Prop where
  | dropped {outcome : Except FrontendError ParsedUnit} {answer : Option TaskAnswer} {disk : Disk}
      {log : List LogRecord} : job.state = .aborted →
      (t.errand.answers = true → answer = some (.refused (.aborted job.id))) →
      Closes s t job i outcome [] { t with phase := .finished, answer := answer } { s with
        world := { s.world with disk := disk }, log := log
        state := { s.state with pch := s.state.pch.concluded t.errand.reservation? .released } }
  | lost {unit : ParsedUnit} {e : Overflow} : job.state ≠ .aborted → t.errand.answers = false →
      s.state.integrate unit.contribution unit.source = .error e →
      Closes s t job i (.ok unit) [] { t with phase := .finished, answer := none } { s with
        state := { s.state with pch := s.state.pch.concluded t.errand.reservation? .abandoned } }
  | landed {unit : ParsedUnit} {answer : Option TaskAnswer} {visited : SortedSet FileId}
      {state : IndexState} {log : List LogRecord} : job.state ≠ .aborted →
      t.errand.answers = false →
      s.state.integrate unit.contribution unit.source = .ok (visited, state) →
      (t.errand.reservation? ≠ none → answer = some (.entry
        { artifactPath := unit.artifact.getD ⟨""⟩, originHeader := job.invocation.input })) →
      Closes s t job i (.ok unit) [{ job, unit, reservation := t.errand.reservation? }]
        { t with phase := .retiring, answer := answer } { s with
          log := log
          state := { state with pch := state.pch.concluded t.errand.reservation? (.completed
            { artifactPath := unit.artifact.getD ⟨""⟩, originHeader := job.invocation.input }
            unit.contribution.fromUnsaved) }
          jobs := s.jobs.modify job.id (fun j => Job.advance { j with visited } .completeLocal)
          counters := { s.counters with completed := s.counters.completed + 1 } }
  | failed {e : FrontendError} {answer : Option TaskAnswer} {log : List LogRecord} :
      job.state ≠ .aborted → t.errand.answers = false →
      Closes s t job i (.error e) [] { t with phase := .retiring, answer := answer } { s with
        log := log
        state := { s.state with pch := s.state.pch.concluded t.errand.reservation? .released }
        jobs := s.jobs.modify job.id (fun j => j.advance .crashed)
        counters := { s.counters with failed := s.counters.failed + 1 } }
  | told {outcome : Except FrontendError ParsedUnit} : job.state ≠ .aborted →
      t.errand.answers = true → t.errand.reservation? = none →
      Closes s t job i outcome []
        { t with
          phase := .finished
          answer := some (match outcome with
            | .ok unit =>
              .unit { invocation := i, contribution := unit.contribution, source := unit.source }
            | .error e => .refused (.failed job.id e.message)) }
        { s with jobs := s.jobs.modify job.id (fun j => j.advance (match outcome with
          | .ok _ => .completeLocal
          | .error _ => .crashed)) }

theorem lands_of_aborted (hjob : s.jobs.get? id = some job) (haborted : job.state = .aborted)
    (reservation : Option Pch.Reservation) (outcome : Except FrontendError ParsedUnit) :
    s.lands id reservation outcome = [] := by
  unfold lands
  rw [hjob]
  cases outcome with
  | error => rfl
  | ok => simp only [haborted, if_true]

theorem lands_error (s : Scheduler) (id : JobId) (reservation : Option Pch.Reservation)
    (e : FrontendError) : s.lands id reservation (.error e) = [] := by
  unfold lands
  split
  · next heq => cases heq
  · rfl

theorem lands_of_kept (hjob : s.jobs.get? id = some job) (hkept : job.state ≠ .aborted)
    (reservation : Option Pch.Reservation) (unit : ParsedUnit) :
    s.lands id reservation (.ok unit) = match s.state.integrate unit.contribution unit.source with
        | .ok _ => [{ job, unit, reservation }]
        | .error _ => [] := by
  unfold lands
  rw [hjob]
  simp only [hkept, if_false]

theorem landingOf_closing (htask : s.tasks[n]? = some t) (hphase : t.phase = .closing i outcome) :
    s.landingOf n = match t.errand with
      | .unit id _ => s.lands id none outcome
      | .header id r => s.lands id (some r) outcome
      | _ => [] := by
  obtain ⟨errand, phase, answer⟩ := t
  obtain rfl : phase = .closing i outcome := hphase
  unfold landingOf
  rw [htask]
  cases errand <;> rfl

theorem landingOf_eq_nil (htask : s.tasks[n]? = some t)
    (hphase : ∀ i outcome, t.phase ≠ .closing i outcome) : s.landingOf n = [] := by
  obtain ⟨errand, phase, answer⟩ := t
  unfold landingOf
  rw [htask]
  cases phase with
  | closing i outcome => exact absurd rfl (hphase i outcome)
  | _ => cases errand <;> rfl

/-- **What a task does that ends its work on its job.** -/
theorem closes (ht : s.tasks[n]? = some t) (hphase : t.phase = .closing i outcome)
    (hid : t.errand.job? = some id) (hjob : s.jobs.get? id = some job) :
    ∃ t' s₁, Closes s t job i outcome (s.landingOf n) t' s₁
      ∧ (s.close n t.errand i outcome).1 = s₁.setTask n t' := by
  rw [landingOf_closing ht hphase]
  obtain ⟨errand, phase, answer⟩ := t
  cases errand with
  | unit id' _ | header id' _ =>
    obtain rfl : id' = id := some.inj hid
    simp only [close, hjob, closeUnit, closeHeader]
    split
    · next haborted =>
      rw [lands_of_aborted hjob haborted]
      first
        | exact ⟨_, _, .dropped haborted nofun, modify_eq rfl ht⟩
        | split <;> exact ⟨_, _, .dropped haborted nofun, modify_eq rfl ht⟩
    · next hkept =>
      split
      · next unit =>
        split
        · next hunit =>
          obtain ⟨visited, state, log, hintegrate, rfl⟩ := integrateUnit_eq_some hunit
          rw [lands_of_kept hjob hkept, hintegrate]
          exact ⟨_, _, .landed hkept rfl hintegrate (by simp [Errand.reservation?]), modify_eq rfl ht⟩
        · next hunit =>
          obtain ⟨e, hintegrate⟩ := integrateUnit_eq_none hunit
          rw [lands_of_kept hjob hkept, hintegrate]
          exact ⟨_, _, .lost hkept rfl hintegrate, modify_eq rfl ht⟩
      · rw [lands_error]
        exact ⟨_, _, .failed hkept rfl, modify_eq rfl ht⟩
  | remote id' =>
    obtain rfl : id' = id := some.inj hid
    simp only [close, hjob, closeRemote]
    split
    · next haborted => exact ⟨_, _, .dropped haborted (fun _ => rfl), modify_eq rfl ht⟩
    · next hkept => split <;> exact ⟨_, _, .told hkept rfl rfl, modify_eq rfl ht⟩
  | request => simp [Errand.job?] at hid

theorem Closes.landsAll {landed : List Landing} {t' : Task}
    (h : Closes s t job i outcome landed t' s') :
    LandsAll landed s.state s'.state ∧ s'.backdrop = s.backdrop := by
  cases h with
  | dropped | failed =>
    exact ⟨.none ⟨rfl, s.state.pch.fewer_concluded _ (.inl rfl)⟩, rfl⟩
  | lost => exact ⟨.none ⟨rfl, s.state.pch.fewer_concluded _ (.inr rfl)⟩, rfl⟩
  | told => exact ⟨.none (.refl _), rfl⟩
  | @landed unit _ visited state _ _ _ hintegrate =>
    have hpch := pch_integrate hintegrate
    refine ⟨.one ⟨⟨visited, state, hintegrate, rfl⟩, fun key o ho => ?_, fun hsaved => ?_⟩, rfl⟩
    · rw [PchTable.origin?_concluded, hpch] at ho
      unfold Landing.key?
      split at ho
      · next hkey => rw [if_pos hkey]; exact (some.inj ho).symm
      · next hkey => rwa [if_neg hkey]
    · have hsaved : unit.contribution.fromUnsaved = false := hsaved
      simp only [hsaved, hpch]
      exact s.state.pch.fewerMarks_concluded _ _

theorem landsAll_close (ht : s.tasks[n]? = some t) (hphase : t.phase = .closing i outcome) :
    LandsAll (s.landingOf n) s.state (s.close n t.errand i outcome).1.state
      ∧ (s.close n t.errand i outcome).1.backdrop = s.backdrop := by
  cases hjob : t.errand.job?.bind s.jobs.get? with
  | some =>
    obtain ⟨id, hid, hjob⟩ := bind_eq_some_iff.mp hjob
    obtain ⟨t', s₁, hcloses, hclosed⟩ := closes ht hphase hid hjob
    rw [hclosed]
    exact hcloses.landsAll
  | none =>
    rw [landingOf_closing ht hphase]
    unfold close lands
    cases herrand : t.errand <;> rw [herrand] at hjob <;>
      simp_all [Errand.job?] <;> exact ⟨.none (.refl _), rfl⟩

/-- What a step does to the index and to the headers that are ready, and that it leaves the backdrop
alone. -/
theorem lands_step (h : s.step? setup n = some (s', woken)) :
    LandsAll (s.landingOf n) s.state s'.state ∧ s'.backdrop = s.backdrop := by
  unfold step? at h
  split at h
  · cases h
  · next t ht =>
    have hspares : (∀ i outcome, t.phase ≠ .closing i outcome) → ∀ {m : Moved},
        some m = some (s', woken) → s.Spares m.1 →
        LandsAll (s.landingOf n) s.state s'.state ∧ s'.backdrop = s.backdrop := by
      intro hphase m hm hspares
      rw [landingOf_eq_nil ht hphase]
      rw [some.inj hm] at hspares
      exact ⟨.none hspares.state, hspares.backdrop⟩
    split at h
    · next hphase => exact hspares (by simp [hphase]) h (s.spares_begin setup n t.errand)
    · next hphase => exact hspares (by simp [hphase]) h ⟨.refl _, rfl⟩
    · next hphase =>
      split at h <;> exact hspares (by simp [hphase]) h ⟨.refl _, rfl⟩
    · next hphase =>
      split at h
      · exact hspares (by simp [hphase]) h ⟨.refl _, rfl⟩
      · cases h
    · next hphase =>
      split at h
      · exact hspares (by simp [hphase]) h ⟨.refl _, rfl⟩
      · cases h
    · next hphase =>
      obtain ⟨tasks, line, permits, hasked⟩ := s.askPermit_eq n
      exact hspares (by simp [hphase]) h (by rw [hasked]; exact ⟨.refl _, rfl⟩)
    · cases h
    · next hphase => exact hspares (by simp [hphase]) h (s.spares_launch setup n t.errand)
    · cases h
    · next hphase =>
      have hfreed := (Spares.refl s).releasePermit
      exact hspares (by simp [hphase]) h ⟨hfreed.state, hfreed.backdrop⟩
    · next i outcome hphase =>
      have hclose := landsAll_close ht hphase
      rwa [some.inj h] at hclose
    · next hphase => exact hspares (by simp [hphase]) h ⟨.refl _, rfl⟩
    · next hphase =>
      have hcounts := (Spares.refl s).mapCompletion Completion.checkIntrospections
      exact hspares (by simp [hphase]) h ⟨hcounts.state, hcounts.backdrop⟩
    · cases h

/-- **What a step does to the index and to the headers that are ready.** -/
theorem landsAll_step (h : s.step? setup n = some (s', woken)) :
    LandsAll (s.landingOf n) s.state s'.state :=
  (lands_step h).1

theorem spares_endParse (h : s.endParse? setup n = some s') :
    s'.state = s.state ∧ s'.backdrop = s.backdrop := by
  obtain ⟨t, request, indexer, -, -, disk, calls, errors, log, rfl⟩ := endParse?_eq_some h
  exact ⟨rfl, rfl⟩

theorem state_endParse (h : s.endParse? setup n = some s') : s'.state = s.state :=
  (spares_endParse h).1

end Scheduler

/-! ## Whole runs -/

/-- What tasks land that move as `settleWith` lets them move. -/
def Scheduler.landingsWith (setup : RunSetup) (fuel : Nat) (s : Scheduler) (ready : List Nat) :
    List Landing :=
  match fuel with
  | 0 => []
  | fuel + 1 =>
    match ready with
    | n :: rest =>
      match s.step? setup n with
      | some (s₁, woken) => s.landingOf n ++ landingsWith setup fuel s₁ (n :: rest ++ woken)
      | none => landingsWith setup fuel s rest
    | [] =>
      match s.endSomeParse? setup with
      | some (n, s₁) => landingsWith setup fuel s₁ [n]
      | none => []

theorem Scheduler.settleWith_keeps {setup : RunSetup} {P : Scheduler → Prop} {s : Scheduler}
    (h : P s) (hstep : ∀ {s s' : Scheduler} {n : Nat} {woken : List Nat}, P s →
      s.step? setup n = some (s', woken) → P s')
    (hparse : ∀ {s s' : Scheduler} {n : Nat}, P s → s.endParse? setup n = some s' → P s')
    (fuel : Nat) (ready : List Nat) : P (s.settleWith setup fuel ready) := by
  induction fuel generalizing s ready with
  | zero => exact h
  | succ _ ih =>
    unfold settleWith
    split
    · split
      · next hmoved => exact ih (hstep h hmoved) _
      · exact ih h _
    · split
      · next hend =>
        obtain ⟨n, -, hn⟩ := exists_of_findSome?_eq_some hend
        obtain ⟨s₁, hended, heq⟩ := map_eq_some_iff.mp hn
        cases heq
        exact ih (hparse h hended) _
      · exact h

/-- A run that nobody steers and during which files stay as they are, with what is submitted to it
and what it lands on the way. -/
def Trace (setup : RunSetup) (s : Scheduler) (is : List Invocation) (ls : List Landing)
    (s' : Scheduler) : Prop :=
  RecordedRun (act? setup) (fun _ a _ => a.inner = true)
    (fun r s a _ => (r.1 ++ a.submitted, r.2 ++ s.landedBy a)) ([], []) s (is, ls) s'

namespace Trace

variable {setup : RunSetup} {s s' s₁ s₂ : Scheduler} {is : List Invocation} {ls : List Landing}
  {n : Nat}

theorem start : Trace setup s [] [] s := RecordedRun.start

theorem act (a : Action) (h : Trace setup s is ls s₁) (hact : s₁.act? setup a = some s₂)
    (hinner : a.inner = true) :
    Trace setup s (is ++ a.submitted) (ls ++ s₁.landedBy a) s₂ :=
  RecordedRun.act a h hact hinner

theorem submit (i : Invocation) (h : Trace setup s is ls s₁) :
    Trace setup s (is ++ [i]) ls (s₁.submit setup i).2 := by
  have hact := h.act (.submit i) rfl rfl
  rwa [show s₁.landedBy (.submit i) = [] from rfl, append_nil] at hact

theorem recount (f : Completion → Completion) (h : Trace setup s is ls s₁) :
    Trace setup s is ls (s₁.mapCompletion f) := by
  have hact := h.act (.recount f) rfl rfl
  rwa [show s₁.landedBy (.recount f) = [] from rfl, append_nil,
    show (Action.recount f).submitted = [] from rfl, append_nil] at hact

theorem step {woken : List Nat} (h : Trace setup s is ls s₁)
    (hstep : s₁.step? setup n = some (s₂, woken)) :
    Trace setup s is (ls ++ s₁.landingOf n) s₂ := by
  have hact := h.act (.step n) (map_eq_some_iff.mpr ⟨_, hstep, rfl⟩) rfl
  rwa [show (Action.step n).submitted = [] from rfl, append_nil] at hact

theorem parse (h : Trace setup s is ls s₁) (hparse : s₁.endParse? setup n = some s₂) :
    Trace setup s is ls s₂ := by
  have hact := h.act (.parse n) hparse rfl
  rwa [show s₁.landedBy (.parse n) = [] from rfl, append_nil,
    show (Action.parse n).submitted = [] from rfl, append_nil] at hact

/-- Induction on a trace, by what happens last. -/
@[elab_as_elim, induction_eliminator]
theorem induct {motive : ∀ {is ls s'}, Trace setup s is ls s' → Prop} (start : motive start)
    (submit : ∀ {is ls s₁} (i : Invocation) (h : Trace setup s is ls s₁), motive h →
      motive (h.submit i))
    (recount : ∀ {is ls s₁} (f : Completion → Completion) (h : Trace setup s is ls s₁), motive h →
      motive (h.recount f))
    (step : ∀ {is ls s₁ s₂ n woken} (h : Trace setup s is ls s₁)
      (hstep : s₁.step? setup n = some (s₂, woken)), motive h → motive (h.step hstep))
    (parse : ∀ {is ls s₁ s₂ n} (h : Trace setup s is ls s₁)
      (hparse : s₁.endParse? setup n = some s₂), motive h → motive (h.parse hparse))
    {is : List Invocation} {ls : List Landing} {s' : Scheduler} (h : Trace setup s is ls s') :
    motive h := by
  suffices key : ∀ {r s'}, RecordedRun (act? setup) (fun _ a _ => a.inner = true)
      (fun r s a _ => (r.1 ++ a.submitted, r.2 ++ s.landedBy a)) ([], []) s r s' →
      ∀ h : Trace setup s r.1 r.2 s', motive h from key h h
  intro r s' h
  induction h with
  | start => exact fun _ => start
  | @act r s₁ s₂ a h hact hinner ih =>
    have hone := ih h
    cases a with
    | submit i =>
      cases hact
      simp only [landedBy, append_nil, Action.submitted]
      exact fun _ => submit i h hone
    | recount f =>
      cases hact
      simp only [landedBy, append_nil, Action.submitted]
      exact fun _ => recount f h hone
    | step n =>
      obtain ⟨⟨s₂, woken⟩, hstep, rfl⟩ := map_eq_some_iff.mp hact
      simp only [landedBy, append_nil, Action.submitted]
      exact fun _ => step h hstep hone
    | parse n =>
      simp only [landedBy, append_nil, Action.submitted]
      exact fun _ => parse h hact hone
    | _ => cases hinner

/-- **The landings of a run are integrated one after the other, and nothing else is.** -/
theorem integrated (h : Trace setup s is ls s') :
    ∃ r, s.state.integrateAll (ls.map Landing.unit) = .ok r ∧ s'.state.index = r.index := by
  induction h with
  | start => exact ⟨s.state, rfl, rfl⟩
  | submit i _ ih =>
    obtain ⟨r, hall, hindex⟩ := ih
    exact ⟨r, hall, (kept_submit setup _ i).index.trans hindex⟩
  | recount f _ ih =>
    obtain ⟨r, hall, hindex⟩ := ih
    exact ⟨r, hall, by rw [state_mapCompletion]; exact hindex⟩
  | step _ hstep ih =>
    rw [map_append]
    exact (landsAll_step hstep).integrated ih
  | parse _ hparse => rwa [state_endParse hparse]

/-- The last landing of a key. -/
def lastLanding? (ls : List Landing) (key : String) : Option Landing :=
  ls.reverse.find? (fun l => l.key? == some key)

theorem ready_append {landed : List Landing} {a b : IndexState} {before : Option Path}
    {key : String} {o : Path} (h : Scheduler.LandsAll landed a b)
    (hbefore : a.pch.origin? key = some o → match lastLanding? ls key with
      | some l => o = l.job.invocation.input
      | none => before = some o)
    (ho : b.pch.origin? key = some o) :
    match lastLanding? (ls ++ landed) key with
    | some l => o = l.job.invocation.input
    | none => before = some o := by
  cases h with
  | none hkept =>
    rw [append_nil]
    exact hbefore (hkept.headers.ready key o ho)
  | @one l _ _ hone =>
    have hheaders := hone.headers key o ho
    unfold lastLanding?
    rw [reverse_append, reverse_singleton, singleton_append, find?_cons]
    by_cases hkey : l.key? = some key
    · rw [if_pos hkey] at hheaders
      simpa [hkey] using hheaders
    · rw [if_neg hkey] at hheaders
      rw [show (l.key? == some key) = false by simpa using hkey]
      exact hbefore hheaders

/-- **A key that is ready was landed last by a header of its own, or was ready before.** -/
theorem ready (h : Trace setup s is ls s') (key : String) (o : Path)
    (ho : s'.state.pch.origin? key = some o) :
    match lastLanding? ls key with
    | some l => o = l.job.invocation.input
    | none => s.state.pch.origin? key = some o := by
  induction h with
  | start => exact ho
  | submit i _ ih => exact ih ((kept_submit setup _ i).headers.ready key o ho)
  | recount f _ ih => exact ih (by rwa [state_mapCompletion] at ho)
  | step _ hstep ih => exact ready_append (landsAll_step hstep) ih ho
  | parse _ hparse ih => exact ih (by rwa [state_endParse hparse] at ho)

theorem settleWith (h : Trace setup s is ls s') (fuel : Nat) (ready : List Nat) :
    Trace setup s is (ls ++ s'.landingsWith setup fuel ready) (s'.settleWith setup fuel ready) := by
  induction fuel generalizing s' ls ready with
  | zero =>
    unfold Scheduler.landingsWith
    rw [append_nil]
    exact h
  | succ _ ih =>
    unfold Scheduler.settleWith Scheduler.landingsWith
    cases ready with
    | nil =>
      cases hend : s'.endSomeParse? setup with
      | some =>
        obtain ⟨m, -, hm⟩ := exists_of_findSome?_eq_some hend
        obtain ⟨s₂, hparse, rfl⟩ := map_eq_some_iff.mp hm
        simp only
        exact ih (h.parse hparse) _
      | none =>
        simp only [append_nil]
        exact h
    | cons n =>
      cases hstep : s'.step? setup n with
      | some =>
        simp only [hstep]
        rw [← append_assoc]
        exact ih (h.step hstep) _
      | none =>
        simp only [hstep]
        exact ih h _

theorem submitEach (h : Trace setup s is ls s') (count : Nat) (more : List Invocation) :
    Trace setup s (is ++ more) ls (Scheduler.submitEach setup count s' more).2 := by
  induction more generalizing is s' count with
  | nil => rwa [append_nil]
  | cons i more ih =>
    rw [append_cons]
    unfold Scheduler.submitEach
    rw [foldl_cons]
    have hnext := h.submit i
    simp only
    split <;> next hsubmit =>
      rw [hsubmit] at hnext
      exact ih hnext _

end Trace

/-! ## Scheduled runs -/

theorem Scheduler.landingOf_of_stuck {setup : RunSetup} {s : Scheduler} {n : Nat}
    (h : s.step? setup n = none) : s.landingOf n = [] := by
  unfold step? at h
  split at h
  · next hnone =>
    unfold landingOf
    rw [hnone]
  · next t ht =>
    refine landingOf_eq_nil ht fun i outcome hphase => ?_
    simp [hphase] at h

namespace Intake

variable {setup : RunSetup} {p : Intake} {s : Scheduler} {is : List Invocation} {ls : List Landing}

/-- What lands while a run goes on by some moves. -/
def landings (setup : RunSetup) (p : Intake) : List Move → List Landing
  | [] => []
  | .task n :: rest => p.scheduler.landingOf n ++ landings setup (p.move setup (.task n)) rest
  | m :: rest => landings setup (p.move setup m) rest

theorem trace_move (h : Trace setup s is ls p.scheduler) (m : Move) :
    ∃ done, p.rest = done ++ (p.move setup m).rest
      ∧ Trace setup s (is ++ done) (ls ++ p.landings setup [m]) (p.move setup m).scheduler := by
  cases m with
  | driver =>
    unfold move submitNext
    cases hrest : p.rest with
    | nil => exact ⟨[], by simp [hrest], by simpa [landings] using h⟩
    | cons i rest => exact ⟨[i], rfl, by simpa [landings] using h.submitEach p.count [i]⟩
  | task n =>
    refine ⟨[], ?_⟩
    simp only [landings, append_nil, nil_append]
    cases hstep : p.scheduler.step? setup n with
    | none =>
      have hmove : p.move setup (.task n) = p := by simp [move, hstep]
      rw [hmove, landingOf_of_stuck hstep, append_nil]
      exact ⟨rfl, h⟩
    | some moved =>
      have hmove : p.move setup (.task n) = { p with scheduler := moved.1 } := by
        simp [move, hstep]
      rw [hmove]
      exact ⟨rfl, h.step hstep⟩
  | parse n =>
    refine ⟨[], ?_⟩
    simp only [landings, append_nil, nil_append]
    cases hend : p.scheduler.endParse? setup n with
    | none =>
      have hmove : p.move setup (.parse n) = p := by simp [move, hend]
      rw [hmove]
      exact ⟨rfl, h⟩
    | some s₁ =>
      have hmove : p.move setup (.parse n) = { p with scheduler := s₁ } := by simp [move, hend]
      rw [hmove]
      exact ⟨rfl, h.parse hend⟩

theorem landings_cons (setup : RunSetup) (p : Intake) (m : Move) (ms : List Move) :
    p.landings setup (m :: ms) = p.landings setup [m] ++ (p.move setup m).landings setup ms := by
  cases m <;> simp [landings]

theorem trace_moves (h : Trace setup s is ls p.scheduler) (ms : List Move) :
    ∃ done, p.rest = done ++ (ms.foldl (move setup) p).rest
      ∧ Trace setup s (is ++ done) (ls ++ p.landings setup ms)
        (ms.foldl (move setup) p).scheduler := by
  induction ms generalizing p is ls with
  | nil => exact ⟨[], rfl, by simpa [landings] using h⟩
  | cons m ms ih =>
    obtain ⟨done, hrest, htrace⟩ := trace_move h m
    obtain ⟨done', hrest', htrace'⟩ := ih htrace
    refine ⟨done ++ done', by rw [hrest, hrest', append_assoc, foldl_cons], ?_⟩
    rw [landings_cons, ← append_assoc, ← append_assoc]
    exact htrace'

end Intake

namespace Schedule

/-- A run as a schedule has it. -/
def ended (o : Schedule) (setup : RunSetup) (world : World) (state : IndexState)
    (is : List Invocation) : Scheduler :=
  (o.run setup (Scheduler.start setup world state) is).2

/-- What a run lands. -/
def landings (o : Schedule) (setup : RunSetup) (world : World) (state : IndexState)
    (is : List Invocation) : List Landing :=
  let begun : Intake :=
    { scheduler := (Scheduler.start setup world state).mapCompletion Completion.beginIntrospection
      rest := is }
  let opened := o.early.foldl (Intake.move setup) begun
  let submitted := (Scheduler.submitEach setup opened.count opened.scheduler opened.rest).2
  let closed : Intake := { scheduler := submitted.mapCompletion Completion.endIntrospection }
  let ended := (o.late.foldl (Intake.move setup) closed).scheduler
  begun.landings setup o.early ++ closed.landings setup o.late ++
    if o.settles then
      ended.landingsWith setup (ended.tasks.foldl (fun n t => n + ended.stepsLeft t) 1)
        ended.freshTasks
    else []

/-- **However a run is scheduled, its landings are its trace.** -/
theorem trace (o : Schedule) (setup : RunSetup) (world : World) (state : IndexState)
    (is : List Invocation) :
    Trace setup (Scheduler.start setup world state) is (o.landings setup world state is)
      (o.ended setup world state is) := by
  unfold landings ended run
  simp only
  generalize hbegun : Intake.mk ((Scheduler.start setup world state).mapCompletion
    Completion.beginIntrospection) 0 is = begun
  have hstart : Trace setup (Scheduler.start setup world state) [] [] begun.scheduler := by
    rw [← hbegun]
    exact Trace.start.recount Completion.beginIntrospection
  obtain ⟨done, hrest, hopened⟩ := Intake.trace_moves hstart o.early
  have hall : done ++ (o.early.foldl (Intake.move setup) begun).rest = is := by
    rw [← hrest, ← hbegun]
  rw [nil_append, nil_append] at hopened
  generalize o.early.foldl (Intake.move setup) begun = opened at hopened hall ⊢
  have hsubmitted := (hopened.submitEach opened.count opened.rest).recount
    Completion.endIntrospection
  rw [hall] at hsubmitted
  generalize (Scheduler.submitEach setup opened.count opened.scheduler opened.rest).2.mapCompletion
    Completion.endIntrospection = closed at hsubmitted ⊢
  obtain ⟨done', hnone, hlate⟩ :=
    Intake.trace_moves (p := { scheduler := closed }) hsubmitted o.late
  obtain ⟨rfl, -⟩ := append_eq_nil_iff.mp hnone.symm
  rw [append_nil] at hlate
  split
  · exact hlate.settleWith _ _
  · rw [append_nil]
    exact hlate

end Schedule

end SymbolIndex
