import SymbolIndex.Proofs.Transitions

/-!
# Who builds which header

A reservation is in the hands of one task from the moment it is made until that task is done with
it: as long the key is being built under its ticket, and everybody who holds the ticket waits for
that one task. `ReservationsOwned` says so of one moment and `ReservationsOwned.transition` that
every action keeps it so, whatever becomes of the jobs: a task whose job was aborted, handed off or
has failed settles its reservation all the same.

A task that has a reservation in hand never waits for another one (`ReservationsOwned.plain`).
-/

namespace SymbolIndex

open List PchTable

/-- Looks for headers, or sleeps until one is settled. -/
def Phase.seeks : Phase → Bool
  | .seeking _ | .awaiting _ _ | .expecting _ _ => true
  | _ => false

theorem Phase.isDone_eq_false_of_seeks {p : Phase} (h : p.seeks = true) : p.isDone = false := by
  cases p <;> simp_all [seeks, isDone]

namespace PchTable

variable {disk : Disk} {t t' : PchTable} {key : String} {ticket : Nat}

theorem Thins.status (h : Thins disk t t') (ticket : Nat) : t'.status ticket = t.status ticket := by
  unfold PchTable.status
  rw [h.tickets]

theorem Thins.building (h : Thins disk t t') (hget : t.slots.get? key = some (.building ticket)) :
    t'.slots.get? key = some (.building ticket) := by
  rcases h.slots key with hsame | ⟨-, entry, hready, -⟩
  · exact hsame.trans hget
  · cases hget.symm.trans hready

theorem not_building_of_book (h : t.reserve key = t.book key)
    (hget : t.slots.get? key = some (.building ticket)) : t.status ticket ≠ .building := by
  rcases t.reserve_cases key with ⟨entry, heq, -⟩ | ⟨ticket', heq, -⟩ | ⟨-, -, hnone⟩
  · exact absurd (heq.symm.trans h) (by simp [book])
  · exact absurd (heq.symm.trans h) (by simp [book])
  · exact hnone ticket hget

end PchTable

namespace Scheduler

variable {setup : RunSetup} {s s' : Scheduler} {n : Nat} {t t' : Task} {who : Option Nat}
  {phase : Phase}

/-- The reservation that a task has in hand. -/
def hand (s : Scheduler) (n : Nat) : Option Pch.Reservation := (s.tasks[n]?).bind Task.inHand?

theorem hand_eq (ht : s.tasks[n]? = some t) : s.hand n = t.inHand? := by
  unfold hand
  rw [ht]
  rfl

theorem hand_of_open (ht : s.tasks[n]? = some t) (h : t.phase.isDone = false) :
    s.hand n = t.errand.reservation? := by
  rw [hand_eq ht, Task.inHand?, h]
  rfl

theorem exists_task_of_hand {r : Pch.Reservation} (h : s.hand n = some r) :
    ∃ t, s.tasks[n]? = some t ∧ t.errand.reservation? = some r ∧ t.phase.isDone = false := by
  obtain ⟨t, ht, hhand⟩ := Option.bind_eq_some_iff.mp h
  unfold Task.inHand? at hhand
  split at hhand
  · cases hhand
  · next hdone => exact ⟨t, ht, hhand, by simpa using hdone⟩

theorem hand_set (ht : s.tasks[n]? = some t) (htasks : s'.tasks = s.tasks.set n t') (m : Nat) :
    s'.hand m = if m = n then t'.inHand? else s.hand m := by
  unfold hand
  rw [htasks]
  by_cases hm : m = n
  · subst hm
    rw [getElem?_set_of_some ht, if_pos rfl]
    rfl
  · rw [getElem?_set_ne (Ne.symm hm), if_neg hm]

theorem hand_set_same (ht : s.tasks[n]? = some t) (htasks : s'.tasks = s.tasks.set n t')
    (hsame : t'.inHand? = t.inHand?) (m : Nat) : s'.hand m = s.hand m := by
  rw [hand_set ht htasks]
  split
  · next hm => rw [hsame, hm, hand_eq ht]
  · rfl

theorem hand_append (htasks : s'.tasks = s.tasks ++ [t]) (m : Nat) :
    s'.hand m = if m = s.tasks.length then t.inHand? else s.hand m := by
  unfold hand
  rw [htasks]
  rcases Nat.lt_trichotomy m s.tasks.length with hlt | rfl | hgt
  · rw [getElem?_append_left hlt, if_neg (by omega)]
  · rw [getElem?_concat_length, if_pos rfl]
    rfl
  · rw [if_neg (by omega), getElem?_eq_none (by simp; omega), getElem?_eq_none (by omega)]

theorem hand_length (s : Scheduler) : s.hand s.tasks.length = none := by
  unfold hand
  rw [getElem?_eq_none (Nat.le_refl _)]
  rfl

theorem hand_append_same (htasks : s'.tasks = s.tasks ++ [t]) (hnone : t.inHand? = none) (m : Nat) :
    s'.hand m = s.hand m := by
  rw [hand_append htasks]
  split
  · next hm => rw [hm, hand_length, hnone]
  · rfl

theorem inHand?_of_none (h : t.errand.reservation? = none) : t.inHand? = none := by
  unfold Task.inHand?
  rw [h, ite_self]

theorem inHand?_of_phase (h : t.phase.isDone = false) (h' : phase.isDone = false) :
    Task.inHand? { t with phase := phase } = t.inHand? := by
  unfold Task.inHand?
  rw [h]
  simp [h']

theorem inHand?_of_done (h : phase.isDone = true) (answer : Option TaskAnswer) :
    Task.inHand? { t with phase := phase, answer := answer } = none := by
  unfold Task.inHand?
  rw [if_pos h]

theorem hand_releasePermit (hline : Asleep s) (m : Nat) : s.releasePermit.1.hand m = s.hand m := by
  rcases hline.wakes with hsame | ⟨k, t, ht, hphase, hwoken⟩
  · unfold hand
    rw [hsame]
  · exact hand_set_same ht hwoken (inHand?_of_phase (by rw [hphase]; rfl) rfl) m

theorem pch_releasePermit (s : Scheduler) : s.releasePermit.1.state = s.state := by
  obtain ⟨tasks, line, permits, hfreed⟩ := s.releasePermit_eq
  rw [hfreed]

/-- What a step does to the reservations in the hands of tasks. -/
inductive Keeping (s s' : Scheduler) : Prop where
  | keeps : (∀ m, s'.hand m = s.hand m) → s.state.pch.Thins s.world.disk s'.state.pch → Keeping s s'
  | books (n : Nat) (key : String) : s.hand n = none →
      (∀ m, s'.hand m
        = if m = n then some ⟨key, s.state.pch.tickets.length⟩ else s.hand m) →
      s.state.pch.reserve key = s.state.pch.book key →
      s'.state.pch = (s.state.pch.book key).2 → Keeping s s'
  | ends (n : Nat) (how : Pch.Ending) : (∀ m, s'.hand m = if m = n then none else s.hand m) →
      s'.state.pch = s.state.pch.concluded (s.hand n) how → Keeping s s'

/-- Who has to settle a reservation does not wait for one. -/
def Plain (s : Scheduler) : Prop :=
  ∀ (n : Nat) (t : Task), s.tasks[n]? = some t → t.errand.reservation? ≠ none →
    t.phase.seeks = false

theorem Plain.paced (h : Plain s) (hpaced : Paced setup s s') : Plain s' := by
  intro m t' ht' hres
  rcases hpaced.2 m t' ht' with ⟨t, ht, rfl | hpace⟩ | ⟨-, hfresh, -⟩
  · exact h m t' ht hres
  · have hold := h m t ht
    cases hpace with
    | sought _ _ hnone => exact absurd hnone hres
    | passed hphase _ | waited hphase _ | resumed hphase _ =>
      exact absurd (hold hres) (by simp [hphase, Phase.seeks])
    | expected _ herrand =>
      rw [show _ = _ from herrand] at hres
      exact absurd rfl hres
    | ended _ hdone | retired _ hdone =>
      cases hseeks : Phase.seeks _ with
      | false => rfl
      | true => exact absurd (Phase.isDone_eq_false_of_seeks hseeks) (by rw [hdone]; decide)
    | _ => rfl
  · rw [hfresh]
    rfl

theorem Plain.inHand? (h : Plain s) (ht : s.tasks[n]? = some t) (hseeks : t.phase.seeks = true) :
    t.inHand? = none := by
  cases hres : t.errand.reservation? with
  | none => exact inHand?_of_none hres
  | some => exact absurd hseeks (by simp [h n t ht (by simp [hres])])

theorem Transition.keeping (h : Transition setup s who s') (hline : Asleep s) (hplain : Plain s) :
    Keeping s s' := by
  have hthins : ∀ {s₁ : Scheduler} {tasks jobs line permits},
      s₁.floor = (tasks, jobs, line, permits, s.state.pch) →
      s.state.pch.Thins s.world.disk s₁.state.pch := by
    intro s₁ _ _ _ _ hfloor
    rw [floor_table hfloor]
    exact .refl _ _
  -- One task moves, keeps what it has in hand, and the table stays.
  have hmoves : ∀ {s₁ : Scheduler} {n t t'} {jobs line permits}, s.tasks[n]? = some t →
      t'.inHand? = t.inHand? →
      s₁.floor = (s.tasks.set n t', jobs, line, permits, s.state.pch) → Keeping s s₁ := by
    intro s₁ n t t' _ _ _ ht hsame hfloor
    exact .keeps (hand_set_same ht (floor_tasks hfloor) hsame) (hthins hfloor)
  cases h with
  | idle hfloor =>
    refine .keeps (fun m => ?_) (hthins hfloor)
    unfold hand
    rw [floor_tasks hfloor]
  | shifts ht _ _ _ _ hsame hfloor => exact hmoves ht hsame hfloor
  | learns ht hphase _ hfloor =>
    refine hmoves ht ?_ hfloor
    rw [inHand?_of_done rfl, hplain.inHand? ht (by rw [hphase]; rfl)]
  | @builds _ n t i key ht hphase herrand hkey hbook hfloor =>
    refine .books n key ?_ (fun m => ?_) hbook (floor_table hfloor)
    · rw [hand_eq ht]
      exact inHand?_of_none (by rw [herrand]; rfl)
    · rw [hand_set ht (floor_tasks hfloor)]
      rfl
  | @asks n t ht hphase =>
    have hopen : t.phase.isDone = false := by rw [hphase]; rfl
    unfold askPermit
    split
    · exact .keeps (hand_set_same ht (modify_of_getElem? _ ht) (inHand?_of_phase hopen rfl))
        (.refl _ _)
    · exact .keeps (hand_set_same ht (modify_of_getElem? _ ht) (inHand?_of_phase hopen rfl))
        (.refl _ _)
  | starts ht hphase _ _ _ _ _ hnext hthins hfloor =>
    refine .keeps (hand_set_same ht (floor_tasks hfloor) ?_) ?_
    · refine inHand?_of_phase (by rw [hphase]; rfl) ?_
      rcases hnext with ⟨_, _, rfl⟩ | ⟨_, rfl⟩ <;> rfl
    · rw [floor_table hfloor]
      exact hthins
  | @declines s₁ n t answer ht hphase _ hfloor =>
    have htasks := floor_tasks hfloor
    have hasleep := asleep_declines hline ht hphase htasks (floor_line hfloor)
    refine .ends n .released (fun m => ?_) ?_
    · rw [hand_releasePermit hasleep, hand_set ht htasks, inHand?_of_done rfl]
    · rw [pch_releasePermit, hand_of_open ht (by rw [hphase]; rfl)]
      exact floor_table hfloor
  | parses ht hphase hfloor =>
    exact hmoves ht (inHand?_of_phase (by rw [hphase]; rfl) rfl) hfloor
  | @frees n t i outcome ht hphase =>
    have hopen : t.phase.isDone = false := by rw [hphase]; rfl
    have hkept := getElem?_releasePermit (hline.not_mem ht (by simp [hphase]))
    refine .keeps (fun m => ?_) ?_
    · rw [hand_set_same (hkept.trans ht) (tasks_frees hline ht hphase)
        (inHand?_of_phase hopen rfl), hand_releasePermit hline]
    · rw [show (s.releasePermit.1.setPhase n _).state = _ from pch_releasePermit s]
      exact .refl _ _
  | @closes _ n t _ _ _ _ _ how _ _ _ _ ht hphase _ _ _ hdone _ _ hfloor =>
    refine .ends n how (fun m => ?_) ?_
    · rw [hand_set ht (floor_tasks hfloor), inHand?_of_done hdone]
    · rw [hand_of_open ht (by rw [hphase]; rfl)]
      exact floor_table hfloor
  | @leaves _ n t _ _ _ ht hphase hnone hfloor =>
    refine hmoves ht ?_ hfloor
    rw [inHand?_of_done rfl, inHand?_of_none]
    cases herrand : t.errand with
    | request => rfl
    | _ => simp [herrand, Errand.job?] at hnone
  | @opens _ i errand kind table hid _ hres hfloor =>
    have htable : s'.state.pch = table := floor_table hfloor
    rcases hres with ⟨hnone, rfl⟩ | ⟨key, rfl, -, hbook, rfl⟩
    · exact .keeps (hand_append_same (floor_tasks hfloor) (inHand?_of_none hnone)) (hthins hfloor)
    · refine .books s.tasks.length key s.hand_length (fun m => ?_) hbook htable
      rw [hand_append (floor_tasks hfloor)]
      rfl
  | requests hfloor => exact .keeps (hand_append_same (floor_tasks hfloor) rfl) (hthins hfloor)
  | steers hmoves hsteers htable =>
    refine .keeps (fun m => ?_) (by rw [htable]; exact .refl _ _)
    have htasks := hmoves.tasks
    cases hsteers with
    | rescheduled => exact hand_append_same htasks rfl m
    | _ =>
      rw [append_nil] at htasks
      unfold hand
      rw [htasks]

/-- Every reservation that is not settled is in the hands of one task, and its key is being built
under its ticket. -/
structure ReservationsOwned (s : Scheduler) : Prop where
  slot : ∀ n r, s.hand n = some r → s.state.pch.slots.get? r.key = some (.building r.ticket)
  pending : ∀ n r, s.hand n = some r → s.state.pch.status r.ticket = .building
  owner : ∀ ticket, s.state.pch.status ticket = .building →
    ∃ n r, s.hand n = some r ∧ r.ticket = ticket
  apart : ∀ m n r r', s.hand m = some r → s.hand n = some r' → r.ticket = r'.ticket → m = n
  plain : Plain s

namespace ReservationsOwned

variable {r : Pch.Reservation}

theorem lt_length (h : ReservationsOwned s) (hr : s.hand n = some r) :
    r.ticket < s.state.pch.tickets.length :=
  lt_of_status_building (h.pending n r hr)

theorem key_apart (h : ReservationsOwned s) {m : Nat} {r' : Pch.Reservation} (hm : s.hand m = some r)
    (hn : s.hand n = some r') (hkey : r.key = r'.key) : m = n := by
  have hslot := h.slot m r hm
  rw [hkey, h.slot n r' hn] at hslot
  refine h.apart m n r r' hm hn ?_
  simpa [eq_comm] using hslot

theorem keeps (h : ReservationsOwned s) {disk : Disk} (hhand : ∀ m, s'.hand m = s.hand m)
    (hthins : s.state.pch.Thins disk s'.state.pch) (hplain : Plain s') : ReservationsOwned s' := by
  refine ⟨fun n r hr => ?_, fun n r hr => ?_, fun ticket hticket => ?_, fun m n r r' hr hr' => ?_,
    hplain⟩
  · exact hthins.building (h.slot n r (hhand n ▸ hr))
  · rw [hthins.status]
    exact h.pending n r (hhand n ▸ hr)
  · rw [hthins.status] at hticket
    simpa only [hhand] using h.owner ticket hticket
  · exact h.apart m n r r' (hhand m ▸ hr) (hhand n ▸ hr')

theorem books (h : ReservationsOwned s) {key : String} (hnone : s.hand n = none)
    (hhand : ∀ m, s'.hand m = if m = n then some ⟨key, s.state.pch.tickets.length⟩ else s.hand m)
    (hbook : s.state.pch.reserve key = s.state.pch.book key)
    (htable : s'.state.pch = (s.state.pch.book key).2) (hplain : Plain s') :
    ReservationsOwned s' := by
  -- The key was in nobody's hands, and the ticket is new.
  have hfree : ∀ m r, s.hand m = some r → r.key ≠ key := by
    intro m r hr hkey
    exact not_building_of_book hbook (hkey ▸ h.slot m r hr) (h.pending m r hr)
  have hnew : ∀ m r, s.hand m = some r → r.ticket ≠ s.state.pch.tickets.length :=
    fun m r hr => Nat.ne_of_lt (h.lt_length hr)
  refine ⟨fun m r hr => ?_, fun m r hr => ?_, fun ticket hticket => ?_,
    fun m k r r' hr hr' heq => ?_, hplain⟩
  · rw [htable, building_book]
    rw [hhand] at hr
    split at hr
    · cases hr
      simp
    · have hne := hfree m r hr
      simpa [hne] using h.slot m r hr
  · rw [htable, status_book]
    rw [hhand] at hr
    split at hr
    · cases hr
      simp
    · rw [if_neg (hnew m r hr)]
      exact h.pending m r hr
  · rw [htable, status_book] at hticket
    split at hticket
    · next heq => exact ⟨n, ⟨key, s.state.pch.tickets.length⟩, by simp [hhand], heq.symm⟩
    · obtain ⟨m, r, hr, heq⟩ := h.owner ticket hticket
      have hne : m ≠ n := by
        rintro rfl
        cases hnone.symm.trans hr
      exact ⟨m, r, by simpa [hhand, hne] using hr, heq⟩
  · rw [hhand] at hr hr'
    split at hr <;> split at hr'
    · next hm hk => rw [hm, hk]
    · cases hr
      exact absurd heq.symm (hnew k r' hr')
    · cases hr'
      exact absurd heq (hnew m r hr)
    · exact h.apart m k r r' hr hr' heq

theorem ends (h : ReservationsOwned s) (hn : s.hand n = some r) (how : Pch.Ending)
    (hhand : ∀ m, s'.hand m = if m = n then none else s.hand m)
    (htable : s'.state.pch = how.conclude s.state.pch r) (hplain : Plain s') :
    ReservationsOwned s' := by
  have hother : ∀ {m r'}, s'.hand m = some r' → m ≠ n ∧ s.hand m = some r' := by
    intro m r' hr'
    rw [hhand] at hr'
    split at hr'
    · cases hr'
    · next hne => exact ⟨hne, hr'⟩
  have hstatus : ∀ ticket, s'.state.pch.status ticket
      = if ticket = r.ticket then how.status else s.state.pch.status ticket := by
    rw [htable]
    exact status_conclude how (h.lt_length hn)
  refine ⟨fun m r' hr' => ?_, fun m r' hr' => ?_, fun ticket hticket => ?_,
    fun m k r₁ r₂ hr₁ hr₂ => h.apart m k r₁ r₂ (hother hr₁).2 (hother hr₂).2, hplain⟩
  · obtain ⟨hne, hr'⟩ := hother hr'
    have hkey : r'.key ≠ r.key := fun heq => hne (h.key_apart hr' hn heq)
    rw [htable]
    exact (building_conclude how _ r hkey).trans (h.slot m r' hr')
  · obtain ⟨hne, hr'⟩ := hother hr'
    rw [hstatus, if_neg (fun heq => hne (h.apart m n r' r hr' hn heq))]
    exact h.pending m r' hr'
  · rw [hstatus] at hticket
    split at hticket
    · exact absurd hticket (by cases how <;> simp [Pch.Ending.status])
    · next hne =>
      obtain ⟨m, r', hr', heq⟩ := h.owner ticket hticket
      refine ⟨m, r', ?_, heq⟩
      rw [hhand, if_neg]
      · exact hr'
      · rintro rfl
        exact hne (heq.symm.trans (congrArg Pch.Reservation.ticket
          (Option.some.inj (hr'.symm.trans hn))))

theorem keeping (h : ReservationsOwned s) (hkeeping : Keeping s s') (hplain : Plain s') :
    ReservationsOwned s' := by
  cases hkeeping with
  | keeps hhand hthins => exact h.keeps hhand hthins hplain
  | books n key hnone hhand hbook htable => exact h.books hnone hhand hbook htable hplain
  | ends n how hhand htable =>
    cases hn : s.hand n with
    | some r =>
      rw [hn] at htable
      exact h.ends hn how hhand htable hplain
    | none =>
      -- Nothing was in its hands, so nothing has ended.
      rw [hn] at htable
      have hthins : s.state.pch.Thins s.world.disk s'.state.pch := by
        rw [htable]
        exact .refl _ _
      refine h.keeps (fun m => ?_) hthins hplain
      rw [hhand]
      split
      · next hm => rw [hm, hn]
      · rfl

/-- **Every action leaves every open reservation with one task.** -/
theorem transition (h : ReservationsOwned s) (htransition : Transition setup s who s')
    (hline : Asleep s) : ReservationsOwned s' :=
  h.keeping (htransition.keeping hline h.plain) (h.plain.paced (htransition.paced hline))

theorem start (setup : RunSetup) (world : World) {state : IndexState}
    (hsettled : ∀ ticket, state.pch.settled ticket = true) :
    ReservationsOwned (Scheduler.start setup world state) where
  slot := fun _ _ hr => absurd hr (by simp [hand, Scheduler.start])
  pending := fun _ _ hr => absurd hr (by simp [hand, Scheduler.start])
  owner := fun ticket hticket => absurd (hsettled ticket) (by
    unfold PchTable.settled
    rw [show state.pch.status ticket = _ from hticket]
    decide)
  apart := fun _ _ _ _ hr => absurd hr (by simp [hand, Scheduler.start])
  plain := by
    intro n t ht
    simp [Scheduler.start] at ht

end ReservationsOwned

end Scheduler

end SymbolIndex
