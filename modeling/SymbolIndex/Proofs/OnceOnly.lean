import SymbolIndex.Frontend.Replay
import SymbolIndex.Proofs.Orderly

/-!
# Every job is integrated at most once

However a run is steered, a job begins to run at most once and is parsed at most once. What comes of
it is integrated once when it completes, here or remotely, and never when it crashes or is aborted,
at whatever point that happens. A job that waits to be run has one dispatch that will run it.
-/

namespace SymbolIndex

open List

/-! ## What tasks hold -/

/-- The unit that a task brings. -/
def Phase.unit? : Phase → Option ParsedUnit
  | .parsed _ (.ok unit) | .closing _ (.ok unit) => some unit
  | _ => none

namespace Scheduler

/-- No task of `s'` but the `n`-th holds a unit that it did not hold before, and that one only
where it comes out of its parse. -/
def Carries (s : Scheduler) (n : Nat) (s' : Scheduler) : Prop :=
  ∀ m t' unit, s'.tasks[m]? = some t' → t'.phase.unit? = some unit →
    (∃ t, s.tasks[m]? = some t ∧ t.errand = t'.errand ∧ t.phase.unit? = some unit)
      ∨ (m = n ∧ ∃ i, t'.phase = .parsed i (.ok unit))

section Carrying

variable {s s₁ s' : Scheduler} {n : Nat} {t t' : Task} {phase : Phase}

theorem Carries.of_tasks (h : s'.tasks = s.tasks) (n : Nat) : Carries s n s' := by
  intro m t' unit ht hunit
  rw [h] at ht
  exact .inl ⟨t', ht, rfl, hunit⟩

theorem Carries.of_set (ht : s.tasks[n]? = some t) (htasks : s'.tasks = s.tasks.set n t')
    (hphase : t'.phase.unit? = none ∨ (t'.errand = t.errand ∧ t'.phase.unit? = t.phase.unit?)
      ∨ ∃ i outcome, t'.phase = .parsed i outcome) : Carries s n s' := by
  intro m u unit hu hunit
  rw [htasks] at hu
  rcases getElem?_set_cases hu with ⟨rfl, rfl⟩ | ⟨-, hu⟩
  · rcases hphase with hnone | ⟨herrand, hsame⟩ | ⟨i, outcome, hparsed⟩
    · cases hnone.symm.trans hunit
    · exact .inl ⟨t, ht, herrand.symm, hsame.symm.trans hunit⟩
    · rw [hparsed] at hunit
      cases outcome with
      | error => simp [Phase.unit?] at hunit
      | ok unit' =>
        obtain rfl : unit' = unit := Option.some.inj hunit
        exact .inr ⟨rfl, i, hparsed⟩
  · exact .inl ⟨u, hu, rfl, hunit⟩

theorem Carries.trans (h : ∀ k, Carries s k s₁) (h' : Carries s₁ n s') : Carries s n s' := by
  intro m t' unit ht' hunit
  rcases h' m t' unit ht' hunit with ⟨t₁, ht₁, herrand, hunit₁⟩ | hparsed
  · rcases h (m + 1) m t₁ unit ht₁ hunit₁ with ⟨t, ht, herrand₁, hunit⟩ | ⟨hm, -⟩
    · exact .inl ⟨t, ht, herrand₁.trans herrand, hunit⟩
    · omega
  · exact .inr hparsed

theorem Carries.releasePermit (h : Carries s n s₁) : Carries s n s₁.releasePermit.1 := by
  unfold Scheduler.releasePermit
  split
  · exact h
  · next k rest hline =>
    intro m t' unit ht' hunit
    have ht' : (s₁.tasks.modify k (fun t => { t with phase := .granted }))[m]? = some t' := ht'
    rw [getElem?_modify] at ht'
    obtain ⟨t₁, ht₁, rfl⟩ := Option.map_eq_some_iff.mp ht'
    split at hunit
    · simp [Phase.unit?] at hunit
    · next hne =>
      rw [if_neg hne]
      exact h m t₁ unit ht₁ hunit

theorem unit?_of_isAside (h : phase.isAside = true) : phase.unit? = none := by
  cases phase <;> first | rfl | cases h

theorem unit?_of_isDone (h : phase.isDone = true) : phase.unit? = none := by
  cases phase <;> first | rfl | cases h

/-- **A unit comes to a task only out of its parse, or where that is skipped.** -/
theorem Transition.carries {setup : RunSetup} (h : Transition setup s (some n) s') (hline : Asleep s) :
    Carries s n s' := by
  cases h with
  | shifts ht _ _ haside _ _ hfloor =>
    exact .of_set ht (floor_tasks hfloor) (.inl (unit?_of_isAside haside))
  | learns ht _ _ hfloor | builds ht _ _ _ _ hfloor | leaves ht _ _ hfloor =>
    exact .of_set ht (floor_tasks hfloor) (.inl rfl)
  | asks ht =>
    obtain ⟨phase, rfl | rfl, htasks, -⟩ := askPermit_cases ht <;>
      exact .of_set ht htasks (.inl rfl)
  | starts ht _ _ _ _ _ _ hnext _ hfloor =>
    refine .of_set ht (floor_tasks hfloor) ?_
    rcases hnext with ⟨request, indexer, rfl⟩ | ⟨outcome, rfl⟩
    · exact .inl rfl
    · exact .inr (.inr ⟨_, outcome, rfl⟩)
  | declines ht _ _ hfloor =>
    exact Carries.releasePermit (.of_set ht (floor_tasks hfloor) (.inl rfl))
  | parses ht _ hfloor =>
    exact .of_set ht (floor_tasks hfloor) (.inr (.inr ⟨_, _, rfl⟩))
  | @frees _ t i outcome ht hphase =>
    have ht' := (getElem?_releasePermit (hline.not_mem ht (by simp [hphase]))).trans ht
    refine Carries.trans (fun k => (Carries.of_tasks rfl k).releasePermit)
      (.of_set ht' (tasks_frees hline ht hphase) (.inr (.inl ⟨rfl, ?_⟩)))
    rw [hphase]
    cases outcome <;> rfl
  | closes ht _ _ _ _ hdone _ _ hfloor =>
    exact .of_set ht (floor_tasks hfloor) (.inl (unit?_of_isDone hdone))

end Carrying

end Scheduler

/-! ## What is integrated came of the job -/

/-- What is held or has landed was brought by a front end. -/
structure Ledger.Honest (g : Ledger) (s : Scheduler) : Prop where
  held : ∀ t ∈ s.tasks, ∀ id unit, t.errand.job? = some id → t.phase.unit? = some unit →
    (id, unit) ∈ g.yielded
  landed : ∀ l ∈ g.landed, (l.job.id, l.unit) ∈ g.yielded

namespace Ledger.Honest

variable {g : Ledger} {s s' : Scheduler} {n : Nat} {a : Action}

theorem carry (h : g.Honest s) (hcarries : s.Carries n s') (ha : a = .step n ∨ a = .parse n)
    (hlanded : ∀ l ∈ s.landedBy a, (l.job.id, l.unit) ∈ g.yielded) : (g.add s a s').Honest s' := by
  refine ⟨fun t' ht' id unit hid hunit => ?_, fun l hl => ?_⟩
  · obtain ⟨m, ht'⟩ := mem_iff_getElem?.mp ht'
    rcases hcarries m t' unit ht' hunit with ⟨t, ht, herrand, hold⟩ | ⟨rfl, i, hparsed⟩
    · rw [← herrand] at hid
      exact mem_append_left _ (h.held t (mem_of_getElem? ht) id unit hid hold)
    · refine mem_append_right _ ?_
      unfold Scheduler.yieldedBy
      rcases ha with rfl | rfl <;> simp only [ht', hid, hparsed] <;> exact mem_singleton.mpr rfl
  · rcases mem_append.mp hl with hl | hl
    · exact mem_append_left _ (h.landed l hl)
    · exact mem_append_left _ (hlanded l hl)

theorem still (h : g.Honest s) {more : List Task} (htasks : s'.tasks = s.tasks ++ more)
    (hmore : ∀ t ∈ more, t.phase = .fresh)
    (hlanded : ∀ l ∈ s.landedBy a, (l.job.id, l.unit) ∈ s'.yieldedBy a) :
    (g.add s a s').Honest s' := by
  refine ⟨fun t ht id unit hid hunit => ?_, fun l hl => ?_⟩
  · rw [htasks] at ht
    rcases mem_append.mp ht with ht | ht
    · exact mem_append_left _ (h.held t ht id unit hid hunit)
    · rw [hmore t ht] at hunit
      simp [Phase.unit?] at hunit
  · rcases mem_append.mp hl with hl | hl
    · exact mem_append_left _ (h.landed l hl)
    · exact mem_append_right _ (hlanded l hl)

end Ledger.Honest

namespace Scheduler

theorem mem_landingOf {s : Scheduler} {n : Nat} {l : Landing} (h : l ∈ s.landingOf n) :
    ∃ t id i, s.tasks[n]? = some t ∧ t.errand.job? = some id ∧ s.jobs.get? id = some l.job
      ∧ t.phase = .closing i (.ok l.unit) ∧ t.errand.reservation? = l.reservation
      ∧ l.job.state ≠ .aborted
      ∧ ∃ landed, s.state.integrate l.unit.contribution l.unit.source = .ok landed := by
  have hlands : ∀ {id : JobId} {reservation : Option Pch.Reservation}
      {outcome : Except FrontendError ParsedUnit}, l ∈ s.lands id reservation outcome →
      s.jobs.get? id = some l.job ∧ outcome = .ok l.unit ∧ reservation = l.reservation
        ∧ l.job.state ≠ .aborted
        ∧ ∃ landed, s.state.integrate l.unit.contribution l.unit.source = .ok landed := by
    intro id reservation outcome hl
    unfold lands at hl
    split at hl
    · next job unit hjob =>
      split at hl
      · cases hl
      · next hkept =>
        split at hl
        · next landed hintegrate =>
          rw [mem_singleton.mp hl]
          exact ⟨hjob, rfl, rfl, hkept, landed, hintegrate⟩
        · cases hl
    · cases hl
  unfold landingOf at h
  split at h
  · next id attempt i outcome answer ht =>
    obtain ⟨hjob, rfl, hrest⟩ := hlands h
    exact ⟨_, id, i, ht, rfl, hjob, rfl, hrest⟩
  · next id r i outcome answer ht =>
    obtain ⟨hjob, rfl, hrest⟩ := hlands h
    exact ⟨_, id, i, ht, rfl, hjob, rfl, hrest⟩
  · cases h

end Scheduler

variable {setup : RunSetup} {g : Ledger} {s : Scheduler}

/-- **What is integrated for a job came of it.** -/
theorem SteeredRun.honest {world : World} {state : IndexState}
    (h : SteeredRun setup (Scheduler.start setup world state) g s) (hroom : g.peak + 1 < UInt64.size) :
    g.Honest s := by
  induction h with
  | start => exact ⟨fun t ht => absurd ht not_mem_nil, fun l hl => absurd hl not_mem_nil⟩
  | @act g s₁ s₂ a hrun hact _ ih =>
    have hpeak : max g.peak s₂.jobs.size + 1 < UInt64.size := hroom
    have horderly := SteeredRun.orderly hrun (by omega)
    have hhonest := ih (by omega)
    have htransition := Scheduler.transition_act horderly.staffed hact
    cases a with
    | step =>
      refine hhonest.carry (htransition.carries horderly.line) (.inl rfl) fun l hl => ?_
      obtain ⟨t, id, i, ht, hid, hjob, hphase, -⟩ := Scheduler.mem_landingOf hl
      rw [(horderly.known id l.job hjob).1]
      exact hhonest.held t (mem_of_getElem? ht) id l.unit hid (by rw [hphase]; rfl)
    | parse =>
      exact hhonest.carry (htransition.carries horderly.line) (.inr rfl)
        fun l hl => absurd hl not_mem_nil
    | completeRemote id =>
      obtain ⟨more, htasks, hmore⟩ := htransition.appends
      refine hhonest.still htasks hmore fun l hl => ?_
      unfold Scheduler.landedBy at hl
      simp only at hl
      split at hl
      · next job _ hjob _ =>
        rw [mem_singleton.mp hl, (horderly.known id job hjob).1]
        exact mem_singleton.mpr rfl
      · cases hl
    | _ =>
      -- Apart from steps and front ends, tasks only get more.
      obtain ⟨more, htasks, hmore⟩ := htransition.appends
      exact hhonest.still htasks hmore fun l hl => absurd hl not_mem_nil

/-! ## Once only -/

/-- **A job runs, is parsed and is integrated once at most, and none that waits is stranded.** -/
theorem integrated_once {setup : RunSetup} {world : World} {state : IndexState} {g : Ledger}
    {s : Scheduler} (h : SteeredRun setup (Scheduler.start setup world state) g s)
    (hroom : g.peak + 1 < UInt64.size) :
    -- A job begins to run at most once, and the front end parses it at most once.
    (∀ id, g.started.count id ≤ 1 ∧ g.parsed.count id ≤ g.started.count id)
    -- The index and the ready headers are what the landings make of those at the beginning.
    ∧ (∃ r, state.integrateAll (g.landed.map Landing.unit) = .ok r ∧ s.state.index = r.index)
    ∧ (∀ key o, s.state.pch.origin? key = some o → match Trace.lastLanding? g.landed key with
        | some l => o = l.job.invocation.input
        | none => state.pch.origin? key = some o)
    -- What lands for a job came of it.
    ∧ (∀ l ∈ g.landed, (l.job.id, l.unit) ∈ g.yielded)
    ∧ ∀ id job, s.jobs.get? id = some job → job.fromRemote = false →
      -- A job lands once when it completes, and otherwise not.
      (g.landings id = if job.state = .completeLocal ∨ job.state = .completeRemote then 1 else 0)
      -- A job that waits is not stranded: a dispatch that is not over is for the attempt it waits
      -- for, and there is no second one until the numbers of the attempts repeat.
      ∧ (job.state = .queued ∨ job.state = .rescheduled →
        (∃ t ∈ s.turnsOf id, t.attempt = job.attempts ∧ t.progress ≠ .over)
        ∧ (g.returned.count id < UInt32.size →
          (s.turnsOf id).countP (fun t => t.attempt = job.attempts ∧ t.progress ≠ .over) = 1)) := by
  have horderly := h.orderly (by omega)
  refine ⟨fun id => ?_, h.integrated, h.ready, (h.honest hroom).landed, fun id job hjob hguest => ?_⟩
  · cases hjob : s.jobs.get? id with
    | none =>
      have hblank := (horderly.blank id hjob).tally
      simp only [Ledger.tally, Prod.mk.injEq] at hblank
      omega
    | some job =>
      have hsound := horderly.sound id job hjob
      exact ⟨hsound.starts_le, Nat.le_trans (Nat.le_add_right _ _) hsound.parses⟩
  · have hsound := horderly.sound id job hjob
    have hlandings : g.landings id = job.state.isComplete.toNat := hsound.landings hguest
    refine ⟨?_, fun hwaits => ?_⟩
    · rw [hlandings]
      cases job.state <;> rfl
    · have hwaits : job.state.waits = true := JobState.waits_iff.mpr hwaits
      obtain ⟨t, ht, hattempt, hprogress⟩ := hsound.due hwaits
      exact ⟨⟨t, ht, hattempt, by simp [hprogress]⟩, fun hreturns => hsound.countP_due hreturns hwaits⟩

/-- Two units can be parsed here, and there is nothing in them. -/
def steeredSetup : RunSetup where
  config := { dbPath := ⟨"/db"⟩ }
  frontend := .replay (SortedMap.ofList [(⟨"/a.c"⟩, {}), (⟨"/b.c"⟩, {})])

/-- The first job is handed off before it runs and taken back. Its first dispatch finds that, and its
second one runs it. The second job is aborted while it is parsed, the third is completed by a remote
worker, and the fourth is taken back and waits. -/
def steered : List Action :=
  let launched (n : Nat) : List Action := [.step n, .step n, .step n, .step n]
  [.submit (fileUnit "/a.c"), .handOff (jobOf 0) "peer" 1, .reschedule (jobOf 0)]
    ++ launched 0 ++ launched 1 ++ [.parse 1, .step 1, .step 1]
    ++ [.submit (fileUnit "/b.c")] ++ launched 2 ++ [.abort (jobOf 1), .parse 2, .step 2, .step 2]
    ++ [.submit (fileUnit "/c.c"), .handOff (jobOf 2) "peer" 1,
      .completeRemote (jobOf 2) {} { invocation := fileUnit "/c.c", lastModified := 0 }]
    ++ [.submit (fileUnit "/d.c"), .handOff (jobOf 3) "peer" 1, .reschedule (jobOf 3)]

/-- Two of the four jobs are integrated, and the one that waits has one dispatch that can run it. -/
theorem integrated_once_steered :
    ∃ g s, SteeredRun steeredSetup (Scheduler.start steeredSetup {} {}) g s ∧ g.peak + 1 < UInt64.size
      ∧ (g.landings (jobOf 0), g.landings (jobOf 1), g.landings (jobOf 2), g.landings (jobOf 3))
        = (1, 0, 1, 0)
      ∧ (s.turnsOf (jobOf 3)).countP (fun t => t.attempt = 1 ∧ t.progress ≠ .over) = 1 := by
  let jobs (s : Scheduler) : List (Option (JobState × UInt32 × Bool)) :=
    [0, 1, 2, 3].map (fun n => (s.jobs.get? (jobOf n)).map (fun j => (j.state, j.attempts, j.fromRemote)))
  have hplayed : (play? (Scheduler.act? steeredSetup) (fun _ _ _ => true) Ledger.add {}
      (Scheduler.start steeredSetup {} {}) steered).any
      (fun (g, s) => g.peak = 4 ∧ g.returned.count (jobOf 3) = 1
        ∧ jobs s = [some (.completeLocal, 1, false), some (.aborted, 0, false),
          some (.completeRemote, 0, false), some (.rescheduled, 1, false)]) = true := by
    decide
  obtain ⟨⟨g, s⟩, hplay, hends⟩ := (Option.any_eq_true _ _).mp hplayed
  obtain ⟨hpeak, hreturned, hjobs⟩ := of_decide_eq_true hends
  have h : SteeredRun steeredSetup _ g s := RecordedRun.start.of_play (fun _ _ _ _ => trivial) hplay
  have hroom : g.peak + 1 < UInt64.size := by
    rw [hpeak]
    decide
  obtain ⟨-, -, -, -, honce⟩ := integrated_once h hroom
  simp only [jobs, List.map_cons, List.map_nil, List.cons.injEq, Option.map_eq_some_iff,
    Prod.mk.injEq, and_true] at hjobs
  obtain ⟨⟨a, ha, hastate, -, haguest⟩, ⟨b, hb, hbstate, -, hbguest⟩, ⟨c, hc, hcstate, -, hcguest⟩,
    ⟨d, hd, hdstate, hdattempts, hdguest⟩⟩ := hjobs
  have hwaits := (honce _ d hd hdguest).2 (.inr hdstate)
  rw [hdattempts] at hwaits
  refine ⟨g, s, h, hroom, ?_, hwaits.2 (by rw [hreturned]; decide)⟩
  rw [(honce _ a ha haguest).1, (honce _ b hb hbguest).1, (honce _ c hc hcguest).1,
    (honce _ d hd hdguest).1, hastate, hbstate, hcstate, hdstate]
  rfl

end SymbolIndex
