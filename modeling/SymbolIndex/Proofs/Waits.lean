import SymbolIndex.Latch

/-!
# Waits at a latch

Any number of waits and triggers come to one latch in any order. A wait that registers lets go of
the lock and takes it again when it was roused or its time has run out: triggers, other waits and
the end of its time can fall before it sleeps, while it sleeps, and before it has the lock again.

The bell that rouses sleepers is none of the program's own; `Rouses` says what is relied on. A wait
is entered for the bell under the lock under which it registers. So the trigger that comes next
rings for it, wherever it then is (`Kept.trigger`), and no other trigger rings at all.

`safe` says what a latch promises to all who wait at it.
-/

namespace SymbolIndex

open List Option

namespace Latch

theorem isSome_outcome? (l : Latch) : l.outcome?.isSome = l.isTriggered := by
  unfold outcome? isTriggered
  cases l.completed <;> simp

theorem outcome?_of_quiet {l : Latch} (h : l.isTriggered = false) : l.outcome? = none := by
  rwa [← isSome_outcome?, isSome_eq_false_iff, isNone_iff_eq_none] at h

theorem ne_cancelled_of_outcome? {l : Latch} {answer : Except LatchError Unit}
    (h : l.outcome? = some answer) : answer ≠ .error .cancelled := by
  unfold outcome? at h
  split at h
  · cases h
    simp
  · obtain ⟨reason, -, rfl⟩ := map_eq_some_iff.mp h
    simp

/-- A latch with at most one outcome is known by it. -/
theorem eq_of_outcome? {l l' : Latch} (h : l'.outcome? = l.outcome?)
    (hsingle : l.completed = true → l.error = none)
    (hsingle' : l'.completed = true → l'.error = none) :
    l'.completed = l.completed ∧ l'.error = l.error := by
  unfold outcome? at h
  cases hc : l.completed <;> cases hc' : l'.completed <;> cases he : l.error <;>
    cases he' : l'.error <;> simp_all

theorem outcome?_eq_wake {l : Latch} (h : l.isTriggered = true) : l.outcome? = some l.wake.1 := by
  rw [← isSome_outcome?] at h
  obtain ⟨answer, hanswer⟩ := isSome_iff_exists.mp h
  simp [wake, hanswer]

end Latch

/-- What is done to the bell of a latch: the `n`-th wait is entered for it, or it is rung. -/
inductive Ring where
  | enter (n : Nat)
  | all
deriving DecidableEq

/-- A ringing is heard by exactly those who were entered before it. -/
def Rouses (heard : List Ring → Nat → Bool) : Prop :=
  ∀ rings n, heard rings n = true ↔
    ∃ k < rings.length, rings[k]? = some .all ∧ .enter n ∈ rings.take k

namespace LatchWaits

/-- Where a wait has got to. -/
inductive Place where
  /-- It has registered and does not sleep yet. -/
  | enrolled
  | asleep
  /-- It was roused, or its time has run out, and it is about to take the lock again. -/
  | roused
  | expired
  | returned (answer : Except LatchError Unit)
  /-- It was answered at once and never registered. -/
  | answered (answer : Except LatchError Unit)

namespace Place

/-- The moves that a wait has still to make once the bell has been rung for it. -/
def left : Place → Nat
  | .enrolled | .asleep => 2
  | .roused | .expired => 1
  | .returned _ | .answered _ => 0

def answer? : Place → Option (Except LatchError Unit)
  | .returned answer | .answered answer => some answer
  | _ => none

end Place

structure Wait where
  /-- Whether it was given a time to wait. -/
  limited : Bool
  place : Place

def Wait.isPending (w : Wait) : Bool := 0 < w.place.left

/-- What a wait does, or is done to it. -/
inductive Move where
  | suspend
  | rouse
  | expire
  | resume
deriving DecidableEq

/-- What comes to a latch. -/
inductive Action where
  | succeed
  | fail (reason : String)
  | wait (limited : Bool)
  | move (n : Nat) (m : Move)
deriving DecidableEq

def Action.outcome? : Action → Option (Except LatchError Unit)
  | .succeed => some (.ok ())
  | .fail reason => some (.error (.failed reason))
  | _ => none

def Action.trigger (a : Action) (l : Latch) : Latch :=
  match a with
  | .succeed => l.triggerSuccess
  | .fail reason => l.triggerFailure reason
  | _ => l

/-- Where a move leads a wait that has registered, and what it does to the latch. -/
inductive Turns (heard : Bool) (latch : Latch) (w : Wait) : Move → Place → Latch → Prop where
  | suspend : w.place = .enrolled → heard = false → Turns heard latch w .suspend .asleep latch
  | rouse : w.place.left = 2 → heard = true → Turns heard latch w .rouse .roused latch
  | expire : w.place.left = 2 → w.limited = true → Turns heard latch w .expire .expired latch
  | wake : w.place = .roused →
      Turns heard latch w .resume (.returned latch.wake.1) latch.wake.2
  | giveUp : w.place = .expired →
      Turns heard latch w .resume (.returned latch.giveUp.1) latch.giveUp.2

end LatchWaits

/-- A latch with its bell and all waits that were ever begun. -/
structure LatchWaits where
  latch : Latch := {}
  rings : List Ring := []
  waits : List LatchWaits.Wait := []

namespace LatchWaits

/-- Only a trigger that finds the latch untriggered rings. -/
def trigger (l : LatchWaits) (a : Action) : LatchWaits :=
  { l with
    latch := a.trigger l.latch
    rings := if l.latch.isTriggered then l.rings else l.rings ++ [.all] }

def answer (l : LatchWaits) (limited : Bool) (answer : Except LatchError Unit) : LatchWaits :=
  { l with waits := l.waits ++ [⟨limited, .answered answer⟩] }

def enrol (l : LatchWaits) (limited : Bool) (latch : Latch) : LatchWaits :=
  { latch
    rings := l.rings ++ [.enter l.waits.length]
    waits := l.waits ++ [⟨limited, .enrolled⟩] }

def arrive (l : LatchWaits) (limited : Bool) : LatchWaits :=
  match l.latch.register with
  | .error answer => l.answer limited answer
  | .ok latch => l.enrol limited latch

/-- What is done under the lock, and what waits do without it. -/
inductive Step (heard : List Ring → Nat → Bool) (l : LatchWaits) : Action → LatchWaits → Prop where
  | triggers {a : Action} {answer : Except LatchError Unit} : a.outcome? = some answer →
      Step heard l a (l.trigger a)
  | arrives {limited : Bool} : Step heard l (.wait limited) (l.arrive limited)
  | turns {n : Nat} {w : Wait} {m : Move} {place : Place} {latch : Latch} :
      l.waits[n]? = some w → Turns (heard l.rings n) l.latch w m place latch →
      Step heard l (.move n m) { l with latch, waits := l.waits.set n { w with place } }

inductive Run (heard : List Ring → Nat → Bool) (l : LatchWaits) :
    List Action → LatchWaits → Prop where
  | refl : Run heard l [] l
  | step {as : List Action} {a : Action} {l' l'' : LatchWaits} : Run heard l as l' →
      Step heard l' a l'' → Run heard l (as ++ [a]) l''

variable {heard : List Ring → Nat → Bool} {l l' : LatchWaits} {a : Action} {as more : List Action}
  {n : Nat} {w : Wait} {m : Move} {place : Place} {latch latch' : Latch}
  {answer : Except LatchError Unit}

/-! ## What a step does -/

theorem trigger_fired (a : Action) (h : latch.isTriggered = true) : a.trigger latch = latch := by
  cases a with
  | succeed | fail => exact if_pos h
  | wait | move => rfl

theorem trigger_fresh (h : latch.isTriggered = false) (ha : a.outcome? = some answer) :
    (a.trigger latch).outcome? = some answer
      ∧ (a.trigger latch).hasWaiter = latch.hasWaiter
      ∧ ((a.trigger latch).completed = true → (a.trigger latch).error = none) := by
  obtain ⟨hcompleted, herror⟩ : latch.completed = false ∧ latch.error = none := by
    simpa [Latch.isTriggered] using h
  cases a with
  | succeed | fail =>
    cases ha
    simp [Action.trigger, Latch.triggerSuccess, Latch.triggerFailure, Latch.outcome?, h,
      hcompleted, herror]
  | wait | move => cases ha

theorem arrive_of_outcome? {limited : Bool} (h : l.latch.outcome? = some answer) :
    l.arrive limited = l.answer limited answer := by
  simp [arrive, Latch.register, h]

theorem arrive_of_waiter {limited : Bool} (h : l.latch.outcome? = none)
    (hwaiter : l.latch.hasWaiter = true) :
    l.arrive limited = l.answer limited (.error .multipleWaiters) := by
  simp [arrive, Latch.register, h, hwaiter]

theorem arrive_of_free {limited : Bool} (h : l.latch.outcome? = none)
    (hfree : l.latch.hasWaiter = false) :
    l.arrive limited = l.enrol limited { l.latch with hasWaiter := true } := by
  simp [arrive, Latch.register, h, hfree]

/-- A wait can move, and each move of its own brings it nearer to its return. -/
def Advances (heard : List Ring → Nat → Bool) (l : LatchWaits) (n : Nat) (w : Wait) : Prop :=
  (∃ m l', m ≠ .expire ∧ Step heard l (.move n m) l')
    ∧ ∀ m l', Step heard l (.move n m) l' →
      ∃ place, l'.waits[n]? = some { w with place } ∧ place.left < w.place.left

theorem Turns.keeps {rung : Bool} (h : Turns rung latch w m place latch') :
    0 < w.place.left ∧ latch' = { latch with hasWaiter := latch.hasWaiter && 0 < place.left } := by
  cases h with
  | rouse htwo | expire htwo => exact ⟨by omega, by simp [Place.left]⟩
  | suspend hplace => simp [hplace, Place.left]
  | wake hplace | giveUp hplace => simp [hplace, Place.left, Latch.wake, Latch.giveUp]

/-! ## What holds at all times -/

/-- Of one wait: it was entered for the bell when it registered and hears the bell if that has been
rung; it was roused by nothing else, and gives up only when its time has run out. -/
structure Fits (heard : List Ring → Nat → Bool) (as : List Action) (l : LatchWaits) (n : Nat)
    (place : Place) : Prop where
  entered : 0 < place.left → .enter n ∈ l.rings
  hears : 0 < place.left → l.latch.isTriggered = true → heard l.rings n = true
  roused : place = .roused → l.latch.isTriggered = true
  expired : place = .expired → .move n .expire ∈ as
  returned : ∀ answer, place = .returned answer → .move n .expire ∉ as →
    l.latch.outcome? = some answer
  uncancelled : place.answer? ≠ some (.error .cancelled)

/-- What holds of a latch and all its waits after some steps. -/
structure Kept (heard : List Ring → Nat → Bool) (as : List Action) (l : LatchWaits) : Prop where
  single : l.latch.completed = true → l.latch.error = none
  first : l.latch.outcome? = as.findSome? Action.outcome?
  rung : .all ∈ l.rings → l.latch.isTriggered = true
  pending : l.waits.countP Wait.isPending = l.latch.hasWaiter.toNat
  fits : ∀ n w, l.waits[n]? = some w → Fits heard as l n w.place

theorem Fits.later (h : Fits heard as l n place) (a : Action) :
    Fits heard (as ++ [a]) l n place :=
  { h with
    expired := fun hplace => mem_append_left _ (h.expired hplace)
    returned := fun answer hplace htime =>
      h.returned answer hplace fun hmem => htime (mem_append_left _ hmem) }

theorem fits_append {ws : List Wait} (hold : ∀ n w, ws[n]? = some w → Fits heard as l n w.place)
    (hnew : Fits heard as l ws.length w.place) (n : Nat) (v : Wait)
    (hv : (ws ++ [w])[n]? = some v) : Fits heard as l n v.place := by
  rw [getElem?_append] at hv
  split at hv
  · exact hold n v hv
  · next hge =>
    obtain ⟨hlt, rfl⟩ := List.getElem?_eq_some_iff.mp hv
    obtain rfl : n = ws.length := by
      rw [length_singleton] at hlt
      omega
    simpa using hnew

namespace Kept

theorem left_of_free (h : Kept heard as l) (hfree : l.latch.hasWaiter = false)
    (hw : l.waits[n]? = some w) : w.place.left = 0 := by
  have hzero := h.pending
  rw [hfree] at hzero
  simpa [Wait.isPending] using countP_eq_zero.mp hzero w (mem_of_getElem? hw)

theorem first_append (h : Kept heard as l) (ha : a.outcome? = none) :
    l.latch.outcome? = (as ++ [a]).findSome? Action.outcome? := by
  rw [findSome?_append, h.first]
  simp [ha]

/-- The outcome of a latch that has fired is that of all that follows. -/
theorem outcome?_append (h : Kept heard as l) (hfired : l.latch.isTriggered = true)
    (more : List Action) : l.latch.outcome? = (as ++ more).findSome? Action.outcome? := by
  rw [← Latch.isSome_outcome?, h.first] at hfired
  rw [findSome?_append, or_of_isSome hfired, h.first]

/-- **Someone triggers.** -/
theorem trigger (h : Kept heard as l) (hbell : Rouses heard) (ha : a.outcome? = some answer) :
    Kept heard (as ++ [a]) (l.trigger a) := by
  unfold LatchWaits.trigger
  cases hfired : l.latch.isTriggered with
  | true =>
    rw [trigger_fired a hfired]
    exact ⟨h.single, h.outcome?_append hfired _, h.rung, h.pending,
      fun n w hw => (h.fits n w hw).later a⟩
  | false =>
    obtain ⟨houtcome, hwaiter, hsingle⟩ := trigger_fresh hfired ha
    have hnone := Latch.outcome?_of_quiet hfired
    have hfired' : (a.trigger l.latch).isTriggered = true := by
      rw [← Latch.isSome_outcome?, houtcome]
      rfl
    refine ⟨hsingle, ?_, fun _ => hfired', h.pending.trans (by rw [hwaiter]), fun n w hw => ?_⟩
    · rw [houtcome, findSome?_append, ← h.first, hnone]
      simp [ha]
    · -- the bell rings for all who are registered, wherever they are
      have hfits := (h.fits n w hw).later a
      refine ⟨fun hleft => mem_append_left _ (hfits.entered hleft), fun hleft _ => ?_,
        fun _ => hfired', hfits.expired, fun answer hplace htime => ?_, hfits.uncancelled⟩
      · exact (hbell _ n).mpr
          ⟨l.rings.length, by simp, by simp, by simpa using hfits.entered hleft⟩
      · cases hnone.symm.trans (hfits.returned answer hplace htime)

/-- **A wait begins and gets its answer at once.** -/
theorem answers (h : Kept heard as l) (limited : Bool) (hne : answer ≠ .error .cancelled) :
    Kept heard (as ++ [.wait limited]) (l.answer limited answer) := by
  refine ⟨h.single, h.first_append rfl, h.rung, ?_, fits_append (fun n w hw => ?_) ?_⟩
  · exact countP_append.trans h.pending
  · exact { (h.fits n w hw).later _ with }
  · constructor <;> simp [Place.left, Place.answer?, hne]

/-- **A wait begins and registers.** Nobody else is registered then. -/
theorem enrols (h : Kept heard as l) (limited : Bool) (hquiet : l.latch.isTriggered = false)
    (hfree : l.latch.hasWaiter = false) :
    Kept heard (as ++ [.wait limited]) (l.enrol limited { l.latch with hasWaiter := true }) := by
  refine ⟨h.single, h.first_append rfl, fun hrung => h.rung ?_, ?_,
    fits_append (fun n w hw => ?_) ?_⟩
  · simpa [enrol] using hrung
  · exact countP_append.trans (by rw [h.pending, hfree]; rfl)
  · have hfits := (h.fits n w hw).later (.wait limited)
    have hleft := h.left_of_free hfree hw
    exact { hfits with entered := by simp [hleft], hears := by simp [hleft] }
  · refine ⟨fun _ => by simp [enrol], fun _ hfired => ?_, by simp, by simp, by simp,
      by simp [Place.answer?]⟩
    cases hquiet.symm.trans hfired

theorem arrives (h : Kept heard as l) (limited : Bool) :
    Kept heard (as ++ [.wait limited]) (l.arrive limited) := by
  cases hfired : l.latch.isTriggered with
  | true =>
    have houtcome := Latch.outcome?_eq_wake hfired
    rw [arrive_of_outcome? houtcome]
    exact h.answers limited (Latch.ne_cancelled_of_outcome? houtcome)
  | false =>
    have hnone := Latch.outcome?_of_quiet hfired
    cases hwaiter : l.latch.hasWaiter with
    | true =>
      rw [arrive_of_waiter hnone hwaiter]
      exact h.answers limited (by simp)
    | false =>
      rw [arrive_of_free hnone hwaiter]
      exact h.enrols limited hfired hwaiter

theorem fits_turned (h : Kept heard as l) (hbell : Rouses heard) (hw : l.waits[n]? = some w)
    (hturns : Turns (heard l.rings n) l.latch w m place latch) :
    Fits heard (as ++ [.move n m]) l n place := by
  have hfits := h.fits n w hw
  have hleft := hturns.keeps.1
  refine ⟨fun _ => hfits.entered hleft, fun _ => hfits.hears hleft, fun hroused => ?_,
    fun hexpired => ?_, fun answer hanswer htime => ?_, ?_⟩
  · cases hturns with
    | rouse _ hheard =>
      obtain ⟨k, -, hall, -⟩ := (hbell l.rings n).mp hheard
      exact h.rung (mem_of_getElem? hall)
    | _ => cases hroused
  · cases hturns with
    | expire => exact mem_append_right as mem_cons_self
    | _ => cases hexpired
  · cases hturns with
    | wake hplace =>
      cases hanswer
      exact Latch.outcome?_eq_wake (hfits.roused hplace)
    | giveUp hplace => exact absurd (mem_append_left _ (hfits.expired hplace)) htime
    | _ => cases hanswer
  · cases hturns with
    | wake hplace =>
      have houtcome := Latch.outcome?_eq_wake (hfits.roused hplace)
      exact fun h => Latch.ne_cancelled_of_outcome? houtcome (Option.some.inj h)
    | _ => simp [Place.answer?, Latch.giveUp]

/-- **A wait that has registered moves on.** -/
theorem turns (h : Kept heard as l) (hbell : Rouses heard) (hw : l.waits[n]? = some w)
    (hturns : Turns (heard l.rings n) l.latch w m place latch) :
    Kept heard (as ++ [.move n m])
      { l with latch, waits := l.waits.set n { w with place } } := by
  obtain ⟨hlt, hget⟩ := List.getElem?_eq_some_iff.mp hw
  have hmoved := h.fits_turned hbell hw hturns
  obtain ⟨hleft, rfl⟩ := hturns.keeps
  refine ⟨h.single, h.first_append rfl, h.rung, ?_, fun k v hv => ?_⟩
  · have hone : l.latch.hasWaiter = true := by
      cases hfree : l.latch.hasWaiter with
      | true => rfl
      | false =>
        rw [h.left_of_free hfree hw] at hleft
        cases hleft
    have hpending : w.isPending = true := decide_eq_true hleft
    rw [countP_set hlt, hget, h.pending, hpending, hone]
    cases hleft' : decide (0 < place.left) <;> simp [Wait.isPending, hleft']
  · rw [getElem?_set] at hv
    split at hv
    · next hk =>
      subst hk
      obtain rfl := Option.some.inj hv
      exact { hmoved with }
    · exact { (h.fits k v hv).later _ with }

theorem step (h : Kept heard as l) (hbell : Rouses heard) (hstep : Step heard l a l') :
    Kept heard (as ++ [a]) l' := by
  cases hstep with
  | triggers ha => exact h.trigger hbell ha
  | arrives => exact h.arrives _
  | turns hw hturns => exact h.turns hbell hw hturns

theorem run (h : Kept heard as l) (hbell : Rouses heard) (hrun : Run heard l more l') :
    Kept heard (as ++ more) l' := by
  induction hrun with
  | refl => rwa [append_nil]
  | step _ hstep ih =>
    rw [← append_assoc]
    exact ih.step hbell hstep

theorem start (heard : List Ring → Nat → Bool) : Kept heard [] {} :=
  ⟨by simp, rfl, by simp, rfl, by simp⟩

theorem advances (h : Kept heard as l) (hfired : l.latch.isTriggered = true)
    (hw : l.waits[n]? = some w) (hleft : 0 < w.place.left) : Advances heard l n w := by
  have hheard := (h.fits n w hw).hears hleft hfired
  refine ⟨?_, fun m l' hstep => ?_⟩
  · cases hplace : w.place with
    | enrolled | asleep =>
      exact ⟨.rouse, _, by decide, .turns hw (.rouse (by rw [hplace]; rfl) hheard)⟩
    | roused => exact ⟨.resume, _, by decide, .turns hw (.wake hplace)⟩
    | expired => exact ⟨.resume, _, by decide, .turns hw (.giveUp hplace)⟩
    | returned | answered => simp [hplace, Place.left] at hleft
  · cases hstep with
    | triggers ha => cases ha
    | @turns _ v _ place _ hv hturns =>
      obtain rfl := Option.some.inj (hv.symm.trans hw)
      refine ⟨place, getElem?_set_self (List.getElem?_eq_some_iff.mp hw).1, ?_⟩
      cases hturns with
      | suspend _ hquiet => cases hquiet.symm.trans hheard
      | rouse htwo | expire htwo =>
        rw [htwo]
        decide
      | wake hplace | giveUp hplace =>
        rw [hplace]
        exact Nat.zero_lt_one

end Kept

/-! ## What a latch promises -/

/-- What a latch promises after the actions `as` to all who are there and to all who come. -/
structure Safe (heard : List Ring → Nat → Bool) (as : List Action) (l : LatchWaits) : Prop where
  /-- At most one outcome is set, that of the first trigger, and it stays. -/
  single : ¬ (l.latch.completed = true ∧ l.latch.error.isSome = true)
  first : l.latch.outcome? = as.findSome? Action.outcome?
  lasting : l.latch.isTriggered = true → ∀ more l', Run heard l more l' →
    l'.latch.completed = l.latch.completed ∧ l'.latch.error = l.latch.error
  /-- The latch has a waiter exactly while one wait is between registering and returning. -/
  waiter : l.waits.countP Wait.isPending = if l.latch.hasWaiter then 1 else 0
  /-- Any other wait before a trigger is refused and changes nothing else. -/
  refused : l.latch.hasWaiter = true → l.latch.isTriggered = false →
    ∀ limited, l.arrive limited = l.answer limited (.error .multipleWaiters)
  /-- Who has registered and has not run out of time returns the outcome of the first trigger, -/
  answered : ∀ n limited answer, l.waits[n]? = some ⟨limited, .returned answer⟩ →
    .move n .expire ∉ as → as.findSome? Action.outcome? = some answer
  /-- and does return: wherever it is when the trigger comes, nothing holds it from then on. -/
  returns : l.latch.isTriggered = true → ∀ n w, l.waits[n]? = some w → 0 < w.place.left →
    Advances heard l n w
  /-- A wait that begins after the trigger returns that same outcome at once. -/
  late : ∀ answer, as.findSome? Action.outcome? = some answer →
    ∀ limited, l.arrive limited = l.answer limited answer
  uncancelled : ∀ w ∈ l.waits, w.place.answer? ≠ some (.error .cancelled)

/-- **Whatever comes to a latch in whatever order, the latch keeps what it promises.** -/
theorem safe (hbell : Rouses heard) (h : Run heard {} as l) : Safe heard as l := by
  have hkept : Kept heard as l := (Kept.start heard).run hbell h
  refine ⟨fun hboth => ?_, hkept.first, fun hfired more l' hrun => ?_, ?_,
    fun hwaiter hquiet limited => arrive_of_waiter (Latch.outcome?_of_quiet hquiet) hwaiter,
    fun n limited answer hw htime => ?_, fun hfired n w => hkept.advances hfired,
    fun answer hanswer limited => arrive_of_outcome? (hkept.first.trans hanswer), fun w hw => ?_⟩
  · rw [hkept.single hboth.1] at hboth
    cases hboth.2
  · have hkept' := hkept.run hbell hrun
    exact Latch.eq_of_outcome? (hkept'.first.trans (hkept.outcome?_append hfired more).symm)
      hkept.single hkept'.single
  · rw [hkept.pending]
    cases l.latch.hasWaiter <;> rfl
  · exact hkept.first.symm.trans ((hkept.fits n _ hw).returned answer rfl htime)
  · obtain ⟨n, hn⟩ := mem_iff_getElem?.mp hw
    exact (hkept.fits n w hn).uncancelled

/-! ## A bell -/

def heardBy (rings : List Ring) (n : Nat) : Bool :=
  decide (∃ k < rings.length, rings[k]? = some .all ∧ .enter n ∈ rings.take k)

/-- The first wait registers, a second one is refused, and both triggers come before the first wait
has gone to sleep. -/
def crossing : List Action :=
  [.wait true, .wait false, .fail "store closed", .succeed, .move 0 .rouse, .wait true,
    .move 0 .resume]

theorem safe_crossing : Rouses heardBy ∧ ∃ l, Run heardBy {} crossing l
    ∧ l.waits = [⟨true, .returned (.error (.failed "store closed"))⟩,
      ⟨false, .answered (.error .multipleWaiters)⟩,
      ⟨true, .answered (.error (.failed "store closed"))⟩]
    ∧ Safe heardBy crossing l := by
  have hbell : Rouses heardBy := fun rings n => decide_eq_true_iff
  have hrefused := (Run.refl.step (@Step.arrives heardBy {} true)).step (@Step.arrives _ _ false)
  have hfired := (hrefused.step (.triggers (a := .fail "store closed") rfl)).step
    (.triggers (a := .succeed) rfl)
  have hroused := hfired.step (.turns (n := 0) rfl (.rouse rfl rfl))
  have hrun := (hroused.step (@Step.arrives _ _ true)).step
    (.turns (n := 0) (w := ⟨true, .roused⟩) rfl (.wake rfl))
  exact ⟨hbell, _, hrun, rfl, safe hbell hrun⟩

end LatchWaits

end SymbolIndex
