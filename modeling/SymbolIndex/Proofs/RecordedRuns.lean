import SymbolIndex.Scheduler.Schedule

/-!
# Recorded runs

A machine goes from state to state by actions, and somebody keeps a record of them. `RecordedRun` is
the one relation of this kind: which actions there are, which of them are allowed and what is taken
down are its arguments. A list of actions can be played (`play?`), and what comes of it is a
recorded run (`RecordedRun.of_play`).

`Action` lists all that can happen to a scheduler.
-/

namespace SymbolIndex

/-- A run from a state and a record to others. `act?` is what an action makes of a state, and `note`
is what the record becomes by it. -/
inductive RecordedRun {σ α ρ : Type} (act? : σ → α → Option σ) (allowed : σ → α → σ → Prop)
    (note : ρ → σ → α → σ → ρ) (r : ρ) (s : σ) : ρ → σ → Prop where
  | start : RecordedRun act? allowed note r s r s
  | act {r₁ : ρ} {s₁ s₂ : σ} (a : α) : RecordedRun act? allowed note r s r₁ s₁ →
      act? s₁ a = some s₂ → allowed s₁ a s₂ → RecordedRun act? allowed note r s (note r₁ s₁ a s₂) s₂

/-- Take actions one after the other; none when one of them is refused or not allowed. -/
def play? {σ α ρ : Type} (act? : σ → α → Option σ) (allows : σ → α → σ → Bool)
    (note : ρ → σ → α → σ → ρ) : ρ → σ → List α → Option (ρ × σ)
  | r, s, [] => some (r, s)
  | r, s, a :: rest =>
    match act? s a with
    | some s' => if allows s a s' then play? act? allows note (note r s a s') s' rest else none
    | none => none

namespace RecordedRun

variable {σ α ρ : Type} {act? : σ → α → Option σ} {allowed : σ → α → σ → Prop}
  {note : ρ → σ → α → σ → ρ} {r r₁ r₂ : ρ} {s s₁ s₂ : σ}

/-- **What every allowed action keeps holds at the end of a run.** -/
theorem keeps {I : σ → Prop} (h : RecordedRun act? allowed note r s r₁ s₁) (hstart : I s)
    (hact : ∀ s₁ a s₂, I s₁ → act? s₁ a = some s₂ → allowed s₁ a s₂ → I s₂) : I s₁ := by
  induction h with
  | start => exact hstart
  | act a _ hmoves hallowed ih => exact hact _ a _ ih hmoves hallowed

theorem trans (h : RecordedRun act? allowed note r s r₁ s₁)
    (h' : RecordedRun act? allowed note r₁ s₁ r₂ s₂) : RecordedRun act? allowed note r s r₂ s₂ := by
  induction h' with
  | start => exact h
  | act a _ hact hallowed ih => exact ih.act a hact hallowed

theorem mono {allowed' : σ → α → σ → Prop} (h : RecordedRun act? allowed note r s r₁ s₁)
    (hmore : ∀ s a s', allowed s a s' → allowed' s a s') :
    RecordedRun act? allowed' note r s r₁ s₁ := by
  induction h with
  | start => exact .start
  | act a _ hact hallowed ih => exact ih.act a hact (hmore _ _ _ hallowed)

/-- A record that begins with something else goes on in the same way. -/
theorem map_record {f : ρ → ρ} (hf : ∀ r s a s', note (f r) s a s' = f (note r s a s'))
    (h : RecordedRun act? allowed note r s r₁ s₁) :
    RecordedRun act? allowed note (f r) s (f r₁) s₁ := by
  induction h with
  | start => exact .start
  | act a _ hact hallowed ih =>
    rw [← hf]
    exact ih.act a hact hallowed

/-- A run that begins with an action. -/
theorem cons (a : α) (hact : act? s a = some s₁) (hallowed : allowed s a s₁)
    (h : RecordedRun act? allowed note (note r s a s₁) s₁ r₂ s₂) :
    RecordedRun act? allowed note r s r₂ s₂ :=
  (start.act a hact hallowed).trans h

theorem eq_or_exists_cons (h : RecordedRun act? allowed note r s r₁ s₁) :
    (r₁ = r ∧ s₁ = s) ∨ ∃ a s', act? s a = some s' ∧ allowed s a s'
      ∧ RecordedRun act? allowed note (note r s a s') s' r₁ s₁ := by
  induction h with
  | start => exact .inl ⟨rfl, rfl⟩
  | act a _ hact hallowed ih =>
    rcases ih with ⟨rfl, rfl⟩ | ⟨a', s', hact', hallowed', hrest⟩
    · exact .inr ⟨a, _, hact, hallowed, .start⟩
    · exact .inr ⟨a', s', hact', hallowed', hrest.act a hact hallowed⟩

/-- **Actions that were played are a run.** -/
theorem of_play {allows : σ → α → σ → Bool} {as : List α}
    (h : RecordedRun act? allowed note r s r₁ s₁)
    (hallows : ∀ s a s', allows s a s' = true → allowed s a s')
    (hplay : play? act? allows note r₁ s₁ as = some (r₂, s₂)) :
    RecordedRun act? allowed note r s r₂ s₂ := by
  induction as generalizing r₁ s₁ with
  | nil =>
    cases hplay
    exact h
  | cons a _ ih =>
    unfold play? at hplay
    split at hplay
    · next hact =>
      split at hplay
      · next hok => exact ih (h.act a hact (hallows _ _ _ hok)) hplay
      · cases hplay
    · cases hplay

end RecordedRun

/-! ## What happens to a scheduler -/

/-- Something that happens to a run: what is asked from outside, and what its tasks do. -/
inductive Action where
  | submit (i : Invocation)
  | request (i : Invocation)
  | serve (i : Invocation)
  | step (n : Nat)
  | parse (n : Nat)
  | handOff (id : JobId) (destination : String) (port : UInt16)
  | completeRemote (id : JobId) (c : Contribution) (source : Source)
  | reschedule (id : JobId)
  | abort (id : JobId)
  | block (id : JobId) (path : Path)
  | recount (f : Completion → Completion)
  /-- Something happens to the files, or to the front ends that are held up. -/
  | meanwhile (world : World) (gates : SortedSet Path)

namespace Action

/-- Actions of a run that nobody steers. -/
def unsteered : Action → Bool
  | .submit _ | .step _ | .parse _ | .recount _ | .meanwhile _ _ => true
  | _ => false

/-- Unsteered actions that leave the files alone. -/
def inner : Action → Bool
  | .submit _ | .step _ | .parse _ | .recount _ => true
  | _ => false

def submitted : Action → List Invocation
  | .submit i => [i]
  | _ => []

end Action

/-- What an action makes of a run; none where it is refused or where nothing moves. -/
def Scheduler.act? (setup : RunSetup) (s : Scheduler) : Action → Option Scheduler
  | .submit i => some (s.submit setup i).2
  | .request i => some (s.requestHeader i)
  | .serve i => some (s.submitFromRemote setup i)
  | .step n => (s.step? setup n).map Prod.fst
  | .parse n => s.endParse? setup n
  | .handOff id destination port => (s.handOff id destination port).toOption
  | .completeRemote id c source => (s.completeRemote id c source).toOption
  | .reschedule id => (s.reschedule id).toOption
  | .abort id => (s.abort id).toOption
  | .block id path => (s.recordBlockedFile id path).toOption
  | .recount f => some (s.mapCompletion f)
  | .meanwhile world gates => some { s with world, gates }

/-- A file with nothing but its name, for runs that are played. -/
def fileUnit (name : String) : Invocation :=
  { directory := ⟨"/"⟩, compiler := "gcc", input := ⟨name⟩, language := .c }

end SymbolIndex
