import SymbolIndex.Proofs.Landing

/-!
# The turns of a job

A job that was handed to a remote worker and taken back is dispatched again, while its earlier
dispatches may still wait for a header or for a permit. Seen from the job each dispatch is a turn,
which bears the number of the attempt it was made for. Only the turn whose number the job bears can
start it.

An `Account` is all there is to say of one job: where it stands, its turns, and how often it was
started, parsed, integrated and taken back. `Account.Sound` says how these hang together, and each
lemma about it is one thing that can happen to a job.
-/

namespace SymbolIndex

open Bool JobState List

namespace JobState

variable {state : JobState}

def waits : JobState → Bool
  | .queued | .rescheduled => true
  | _ => false

def isComplete : JobState → Bool
  | .completeLocal | .completeRemote => true
  | _ => false

/-- Whether a job was never run here. -/
def isUnstarted : JobState → Bool
  | .queued | .remote | .rescheduled | .completeRemote => true
  | _ => false

theorem waits_iff : state.waits = true ↔ state = .queued ∨ state = .rescheduled := by
  cases state <;> simp [waits]

theorem isTerminal_of_waits (h : state.waits = true) : state.isTerminal = false := by
  rcases waits_iff.mp h with rfl | rfl <;> rfl

theorem isUnstarted_of_waits (h : state.waits = true) : state.isUnstarted = true := by
  cases state <;> simp_all [waits, isUnstarted]

end JobState

/-- How far a dispatch has got. -/
inductive Progress where
  | waiting
  | parsing
  | holding
  | leaving
  | over
deriving DecidableEq

/-- Whether a dispatch runs its job. -/
def Progress.isBusy : Progress → Bool
  | .parsing | .holding => true
  | _ => false

def Progress.isPast : Progress → Bool
  | .leaving | .over => true
  | _ => false

def Phase.progress : Phase → Progress
  | .fresh | .seeking _ | .awaiting _ _ | .asking | .inLine | .granted => .waiting
  | .parsing _ _ => .parsing
  | .parsed _ _ | .closing _ _ => .holding
  | .expecting _ _ | .retiring | .checking => .leaving
  | .finished => .over

/-- One dispatch of a job. -/
structure Turn where
  attempt : UInt32
  answers : Bool
  progress : Progress
deriving DecidableEq

namespace Turn

def moved (t : Turn) (progress : Progress) : Turn := { t with progress }

@[simp] theorem attempt_moved (t : Turn) (p : Progress) : (t.moved p).attempt = t.attempt := rfl

@[simp] theorem progress_moved (t : Turn) (p : Progress) : (t.moved p).progress = p := rfl

end Turn

/-- A job with its dispatches and what was done about it. -/
structure Account where
  state : JobState
  attempts : UInt32
  begun : Bool
  guest : Bool
  turns : List Turn
  starts : Nat
  parses : Nat
  landings : Nat
  returns : Nat

namespace Account

def busy (turns : List Turn) : Nat := turns.countP (fun t => t.progress.isBusy)

def parsing (turns : List Turn) : Nat := turns.countP (fun t => t.progress = .parsing)

/-- A job is begun once at most, lands once at most, and is not forgotten. -/
structure Sound (a : Account) : Prop where
  starts : a.starts = a.begun.toNat
  unstarted : a.state.isUnstarted = true → a.begun = false
  busy : busy a.turns ≤ a.starts
  parses : a.parses + parsing a.turns ≤ a.starts
  held : ∀ t ∈ a.turns, t.progress.isBusy = true → a.state = .runningLocal ∨ a.state = .aborted
  landings : a.guest = false → a.landings = a.state.isComplete.toNat
  answers : ∀ t ∈ a.turns, t.answers = true → a.guest = true
  due : a.state.waits = true →
    ∃ t ∈ a.turns, t.attempt = a.attempts ∧ t.progress = .waiting
  -- The numbers of the attempts repeat once they have run through all there are.
  apart : a.returns < UInt32.size → a.attempts.toNat = a.returns
    ∧ (a.turns.map Turn.attempt).Nodup ∧ ∀ t ∈ a.turns, t.attempt.toNat ≤ a.returns

namespace Sound

variable {a : Account} {p : Progress} {next : JobState} {landed : Nat}

theorem starts_le (h : Sound a) : a.starts ≤ 1 := by
  rw [h.starts]
  cases a.begun <;> decide

theorem not_busy (h : Sound a) (hstate : a.state.isUnstarted = true) :
    ∀ t ∈ a.turns, t.progress.isBusy = false := by
  have hbusy := h.busy
  rw [h.starts, h.unstarted hstate] at hbusy
  have hzero : a.turns.countP (fun t => t.progress.isBusy) = 0 := Nat.le_zero.mp hbusy
  intro t ht
  exact eq_false_iff.mpr (countP_eq_zero.mp hzero t ht)

/-! ## What a turn does -/

variable {l l' : List Turn} {t : Turn}

theorem mem_moved (hturns : a.turns = l ++ t :: l') {u : Turn} (hu : u ∈ l ++ t.moved p :: l') :
    u ∈ a.turns ∨ u = t.moved p := by
  rw [hturns]
  simp only [mem_append, mem_cons] at hu ⊢
  grind

theorem mem_turns (hturns : a.turns = l ++ t :: l') : t ∈ a.turns := by
  rw [hturns]
  exact mem_append_right _ mem_cons_self

section

variable (h : Sound a) (hturns : a.turns = l ++ t :: l')

include h hturns

theorem apart_moved (p : Progress) :
    a.returns < UInt32.size → a.attempts.toNat = a.returns
      ∧ ((l ++ t.moved p :: l').map Turn.attempt).Nodup
      ∧ ∀ u ∈ l ++ t.moved p :: l', u.attempt.toNat ≤ a.returns := by
  intro hreturns
  obtain ⟨hattempts, hnodup, hle⟩ := h.apart hreturns
  refine ⟨hattempts, ?_, fun u hu => ?_⟩
  · rw [hturns] at hnodup
    simpa using hnodup
  · rcases mem_moved hturns hu with hu | rfl
    · exact hle u hu
    · exact hle t (mem_turns hturns)

theorem answers_moved (p : Progress) :
    ∀ u ∈ l ++ t.moved p :: l', u.answers = true → a.guest = true := by
  intro u hu
  rcases mem_moved hturns hu with hu | rfl
  · exact h.answers u hu
  · exact h.answers t (mem_turns hturns)

omit h hturns in
theorem busy_moved (l l' : List Turn) (t : Turn) (p : Progress) :
    Account.busy (l ++ t.moved p :: l') = Account.busy l + Account.busy l' + p.isBusy.toNat := by
  unfold Account.busy
  rw [countP_append, countP_cons]
  cases h : p.isBusy with
  | false => simp [h]
  | true =>
    simp only [Turn.progress_moved, h, if_true, Bool.toNat_true]
    omega

omit h hturns in
theorem parsing_moved (l l' : List Turn) (t : Turn) (p : Progress) :
    Account.parsing (l ++ t.moved p :: l')
      = Account.parsing l + Account.parsing l' + (decide (p = .parsing)).toNat := by
  unfold Account.parsing
  rw [countP_append, countP_cons]
  by_cases h : p = .parsing
  · simp only [Turn.progress_moved, h, decide_true, if_true, Bool.toNat_true]
    omega
  · simp [h]

theorem start (hwaits : a.state.waits = true)
    (hp : p.isBusy = true) :
    Sound { a with
      state := .runningLocal, begun := true, turns := l ++ t.moved p :: l'
      starts := a.starts + 1 } := by
  have hstarts : a.starts = 0 := by
    rw [h.starts, h.unstarted (isUnstarted_of_waits hwaits)]
    rfl
  -- None was busy, so the one that starts is the only one.
  have hbusy := h.busy
  have hparses := h.parses
  rw [hturns, show t = t.moved t.progress from rfl] at hbusy hparses
  rw [busy_moved] at hbusy
  rw [parsing_moved] at hparses
  exact
    { starts := by rw [hstarts]; rfl
      unstarted := fun hstate => absurd hstate false_ne_true
      busy := by
        rw [busy_moved, hp]
        show _ + 1 ≤ a.starts + 1
        omega
      parses := by
        rw [parsing_moved]
        have hone := toNat_le (decide (p = .parsing))
        show a.parses + _ ≤ a.starts + 1
        omega
      held := fun _ _ _ => .inl rfl
      landings := fun hguest => by
        rw [h.landings hguest]
        rcases waits_iff.mp hwaits with hstate | hstate <;> rw [hstate] <;> rfl
      answers := h.answers_moved hturns p
      due := fun hstate => absurd hstate false_ne_true
      apart := h.apart_moved hturns p }

theorem further {parses : Nat}
    (hbusy : p.isBusy = true → t.progress.isBusy = true)
    (hparses : parses + (decide (p = .parsing)).toNat
      ≤ a.parses + (decide (t.progress = .parsing)).toNat)
    (hdue : ¬ (a.state.waits = true ∧ t.attempt = a.attempts ∧ t.progress = .waiting)) :
    Sound { a with turns := l ++ t.moved p :: l', parses := parses } where
  starts := h.starts
  unstarted := h.unstarted
  busy := by
    have hbefore := h.busy
    rw [hturns, show t = t.moved t.progress from rfl, busy_moved] at hbefore
    rw [busy_moved]
    cases hp : p.isBusy with
    | false => exact Nat.le_trans (Nat.le_add_right ..) hbefore
    | true => rwa [hbusy hp] at hbefore
  parses := by
    have hbefore := h.parses
    rw [hturns, show t = t.moved t.progress from rfl, parsing_moved] at hbefore
    rw [parsing_moved]
    show parses + _ ≤ a.starts
    omega
  held := fun u hu hubusy => by
    rcases mem_moved hturns hu with hu | rfl
    · exact h.held u hu hubusy
    · exact h.held t (mem_turns hturns) (hbusy hubusy)
  landings := h.landings
  answers := h.answers_moved hturns p
  due := fun hwaits => by
    obtain ⟨u, hu, hattempt, hprogress⟩ := h.due hwaits
    rw [hturns] at hu
    simp only [mem_append, mem_cons] at hu ⊢
    rcases hu with hu | rfl | hu
    · exact ⟨u, .inl hu, hattempt, hprogress⟩
    · exact absurd ⟨hwaits, hattempt, hprogress⟩ hdue
    · exact ⟨u, .inr (.inr hu), hattempt, hprogress⟩
  apart := h.apart_moved hturns p

theorem parse (ht : t.progress = .parsing) :
    Sound { a with turns := l ++ t.moved .holding :: l', parses := a.parses + 1 } :=
  h.further hturns (fun _ => by rw [ht]; rfl) (by rw [ht]; exact Nat.le_refl _)
    (fun hdue => absurd (ht.symm.trans hdue.2.2) (by decide))

theorem release (hp : p.isPast = true)
    (hdue : ¬ (a.state.waits = true ∧ t.attempt = a.attempts ∧ t.progress = .waiting)) :
    Sound { a with turns := l ++ t.moved p :: l' } := by
  refine h.further hturns (fun hbusy => ?_) ?_ hdue <;> cases p <;>
    simp_all [Progress.isPast, Progress.isBusy]

theorem close (ht : t.progress.isBusy = true)
    (hrunning : a.state = .runningLocal) (hp : p.isPast = true)
    (hnext : next = .completeLocal ∨ next = .crashed)
    (hlanded : a.guest = false → landed = a.landings + next.isComplete.toNat) :
    Sound { a with state := next, turns := l ++ t.moved p :: l', landings := landed } := by
  have hreleased := h.release hturns hp (fun hdue => by
    rw [hrunning] at hdue
    exact absurd hdue.1 (by decide))
  -- It was the only busy one.
  have hnone : ∀ u ∈ l ++ t.moved p :: l', u.progress.isBusy = false := by
    have hbusy := h.busy
    have hstarts := h.starts_le
    rw [hturns] at hbusy
    have hzero : Account.busy (l ++ t.moved p :: l') = 0 := by
      have hidle : p.isBusy = false := by cases p <;> first | rfl | cases hp
      rw [show t = t.moved t.progress from rfl, busy_moved, ht, toNat_true] at hbusy
      rw [busy_moved, hidle, toNat_false]
      omega
    intro u hu
    exact eq_false_iff.mpr (countP_eq_zero.mp hzero u hu)
  have hstates : next.isUnstarted = false ∧ next.waits = false := by
    rcases hnext with rfl | rfl <;> exact ⟨rfl, rfl⟩
  exact
    { starts := h.starts
      unstarted := fun hstate => absurd (hstates.1.symm.trans hstate) (by decide)
      busy := hreleased.busy
      parses := hreleased.parses
      held := fun u hu hubusy => absurd ((hnone u hu).symm.trans hubusy) (by decide)
      landings := fun hguest => by
        have hbefore := h.landings hguest
        rw [hrunning] at hbefore
        rw [hlanded hguest, hbefore]
        exact Nat.zero_add _
      answers := hreleased.answers
      due := fun hwaits => absurd (hstates.2.symm.trans hwaits) (by decide)
      apart := hreleased.apart }

end

/-! ## What is done to a job from outside -/

variable (h : Sound a)

include h

theorem moved (hunstarted : next.isUnstarted = true → a.state.isUnstarted = true)
    (hheld : next = .aborted ∨ a.state.isUnstarted = true)
    (hlanded : a.guest = false → landed = next.isComplete.toNat) (hdue : next.waits = false) :
    Sound { a with state := next, landings := landed } where
  starts := h.starts
  unstarted := fun hnext => h.unstarted (hunstarted hnext)
  busy := h.busy
  parses := h.parses
  held := fun t ht hbusy => hheld.elim .inr fun hidle =>
    absurd ((h.not_busy hidle t ht).symm.trans hbusy) (by decide)
  landings := hlanded
  answers := h.answers
  due := fun hwaits => absurd (hdue.symm.trans hwaits) (by decide)
  apart := h.apart

theorem handOff (hwaits : a.state.waits = true) :
    Sound { a with state := .remote } := by
  have hidle := isUnstarted_of_waits hwaits
  refine h.moved (fun _ => hidle) (.inr hidle) (fun hguest => ?_) rfl
  rw [h.landings hguest]
  rcases waits_iff.mp hwaits with hstate | hstate <;> rw [hstate] <;> rfl

theorem completeRemote (hremote : a.state = .remote) :
    Sound { a with state := .completeRemote, landings := a.landings + 1 } := by
  have hidle : a.state.isUnstarted = true := by rw [hremote]; rfl
  refine h.moved (fun _ => hidle) (.inr hidle) (fun hguest => ?_) rfl
  rw [h.landings hguest, hremote]
  rfl

theorem abort (hstate : a.state.isTerminal = false) :
    Sound { a with state := .aborted } := by
  refine h.moved (fun hidle => absurd hidle (by decide)) (.inl rfl) (fun hguest => ?_) rfl
  rw [h.landings hguest]
  cases hold : a.state <;> rw [hold] at hstate <;> first | rfl | cases hstate

theorem reschedule (hremote : a.state = .remote) :
    Sound { a with
      state := .rescheduled, attempts := a.attempts + 1
      turns := a.turns ++ [⟨a.attempts + 1, false, .waiting⟩], returns := a.returns + 1 } :=
  { starts := h.starts
    unstarted := fun _ => h.unstarted (by rw [hremote]; rfl)
    busy := by
      refine Nat.le_trans (Nat.le_of_eq ?_) h.busy
      unfold Account.busy
      rw [countP_append]
      rfl
    parses := by
      refine Nat.le_trans (Nat.le_of_eq ?_) h.parses
      unfold Account.parsing
      rw [countP_append]
      rfl
    held := fun t ht hbusy => by
      rcases mem_append.mp ht with ht | ht
      · have hidle := h.not_busy (by rw [hremote]; rfl) t ht
        cases hidle.symm.trans hbusy
      · rw [mem_singleton.mp ht] at hbusy
        cases hbusy
    landings := fun hguest => by
      rw [h.landings hguest, hremote]
      rfl
    answers := fun t ht hanswers => by
      rcases mem_append.mp ht with ht | ht
      · exact h.answers t ht hanswers
      · rw [mem_singleton.mp ht] at hanswers
        cases hanswers
    due := fun _ => ⟨_, mem_append_right _ (mem_singleton.mpr rfl), rfl, rfl⟩
    apart := fun hreturns => by
      have hfewer : a.returns + 1 < UInt32.size := hreturns
      obtain ⟨hattempts, hnodup, hle⟩ := h.apart (by omega)
      have hnext : (a.attempts + 1).toNat = a.returns + 1 := by
        rw [UInt32.toNat_add, hattempts]
        exact Nat.mod_eq_of_lt hfewer
      refine ⟨hnext, ?_, fun t ht => ?_⟩
      · rw [map_append, nodup_append]
        refine ⟨hnodup, by simp, fun k hk k' hk' heq => ?_⟩
        obtain ⟨t, ht, rfl⟩ := mem_map.mp hk
        have hnew : k' = a.attempts + 1 := by simpa using hk'
        have hbound := hle t ht
        rw [heq, hnew, hnext] at hbound
        omega
      · rcases mem_append.mp ht with ht | ht
        · exact Nat.le_succ_of_le (hle t ht)
        · rw [mem_singleton.mp ht]
          exact Nat.le_of_eq hnext }

omit h in
theorem opened (guest answers : Bool) (hanswers : answers = true → guest = true) :
    Sound { state := .queued, attempts := 0, begun := false, guest := guest
            turns := [⟨0, answers, .waiting⟩], starts := 0, parses := 0, landings := 0
            returns := 0 } :=
  { starts := rfl
    unstarted := fun _ => rfl
    busy := Nat.le_refl 0
    parses := Nat.le_refl 0
    held := fun t ht hbusy => by
      rw [mem_singleton.mp ht] at hbusy
      cases hbusy
    landings := fun _ => rfl
    answers := fun t ht => by
      rw [mem_singleton.mp ht]
      exact hanswers
    due := fun _ => ⟨_, mem_singleton.mpr rfl, rfl, rfl⟩
    apart := fun _ => ⟨rfl, by simp, fun t ht => by
      rw [mem_singleton.mp ht]
      exact Nat.le_refl 0⟩ }

/-! ## What follows -/

/-- **A job that waits has one turn that can start it.** -/
theorem countP_due (hreturns : a.returns < UInt32.size)
    (hwaits : a.state.waits = true) :
    a.turns.countP (fun t => t.attempt = a.attempts ∧ t.progress ≠ .over) = 1 := by
  obtain ⟨-, hnodup, -⟩ := h.apart hreturns
  obtain ⟨t, ht, hattempt, hprogress⟩ := h.due hwaits
  have hle : a.turns.countP (fun t => t.attempt = a.attempts ∧ t.progress ≠ .over)
      ≤ (a.turns.map Turn.attempt).count a.attempts := by
    rw [List.count, countP_map]
    refine countP_mono_left fun u _ hu => ?_
    have hu := of_decide_eq_true hu
    simpa using hu.1
  have hone := nodup_iff_count.mp hnodup a.attempts
  have hpos : 0 < a.turns.countP (fun t => t.attempt = a.attempts ∧ t.progress ≠ .over) :=
    countP_pos_iff.mpr ⟨t, ht, by simp [hattempt, hprogress]⟩
  omega

end Sound

end Account

end SymbolIndex
