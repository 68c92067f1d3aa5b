import SymbolIndex.Proofs.RecordedRuns

/-!
# Submitting while tasks move

`submitAll` submits units in one go. Here the one who submits takes a step at a time, and between
two of its steps the tasks of the run move in any order and any front end may come to its end.
Whatever is done to a count is a step of its own, and so is every look at one: a unit is accepted,
then counted, then made a job; the end of the submission is taken off the count, and only then is
the count of jobs looked at.

Left to itself the one who submits does what `submitAll` does.
-/

namespace SymbolIndex

/-- A job that was accepted and has no task yet. -/
inductive Dispatch where
  | unit (invocation : Invocation)
  | header (invocation : Invocation) (reservation : Pch.Reservation)

namespace Scheduler

/-- The first part of a submission: whether it is to become a job. -/
def accept (setup : RunSetup) (s : Scheduler) (i : Invocation) : Option Dispatch × Scheduler :=
  if i.language.isHeader then
    let flags := setup.config.flags
    if flags.disablePch || flags.dontIndex then
      (none, s.note .debug .scheduler ("Skipping header " ++ i.input.text))
    else match i.headerKey? with
      | none =>
        (none, s.note .debug .scheduler (i.input.text ++ " has no .gch output, skipping"))
      | some key =>
        match s.state.pch.reserve key with
        | (.reserved r, table) =>
          (some (.header i r), (s.noteReserved key).mapPch (fun _ => table))
        | _ =>
          let s := s.note .debug .scheduler ("Precompiled header " ++ key ++ " already requested")
          (none, s.countDuplicate)
  else if s.queued.any (fun q => q.same i.signature) then
    let s := s.note .debug .scheduler ("Skipping duplicate invocation for " ++ i.input.text)
    (none, s.countDuplicate)
  else (some (.unit i), { s with queued := s.queued ++ [i.signature] })

def post (setup : RunSetup) (s : Scheduler) : Dispatch → JobId × Scheduler
  | .unit i =>
    let (id, s) := s.createJob setup.kind i false
    (id, s.spawn (.unit id 0))
  | .header i r =>
    let (id, s) := s.createJob .pch i false
    (id, s.spawn (.header id r))

theorem submit_eq (setup : RunSetup) (s : Scheduler) (i : Invocation) :
    s.submit setup i = match s.accept setup i with
      | (none, s) => (none, s)
      | (some d, s) =>
        let (id, s) := (s.mapCompletion Completion.countJob).post setup d
        (some id, s) := by
  unfold submit submitHeader accept
  split
  · simp only
    split
    · rfl
    · cases i.headerKey? with
      | none => rfl
      | some key =>
        simp only
        rcases s.state.pch.reserve key with ⟨answer, table⟩
        cases answer <;> rfl
  · split <;> rfl

theorem snd_submitAll (setup : RunSetup) (s : Scheduler) (is : List Invocation) :
    (s.submitAll setup is).2 = (is.foldl (fun s i => (s.submit setup i).2)
      (s.mapCompletion Completion.beginIntrospection)).mapCompletion Completion.endIntrospection := by
  refine congrArg (mapCompletion · Completion.endIntrospection)
    (List.foldl_hom Prod.snd fun acc i => ?_).symm
  rcases acc with ⟨count, s⟩
  rcases hsubmit : s.submit setup i with ⟨_ | id, s₁⟩ <;> simp only [hsubmit]

end Scheduler

def unitOf : Except FrontendError ParsedUnit → List ParsedUnit
  | .ok unit => [unit]
  | .error _ => []

/-- The unit of a task whose front end has just come to a good end. -/
def Phase.harvest : Phase → List ParsedUnit
  | .parsed _ outcome => unitOf outcome
  | _ => []

/-! ## The one who submits -/

/-- How far the one who submits has got. -/
inductive Stage where
  | opening (is : List Invocation)
  | submitting (is : List Invocation)
  | counting (d : Dispatch) (is : List Invocation)
  | posting (d : Dispatch) (is : List Invocation)
  /-- Was the last to hold completion open and looks at the count of jobs. -/
  | looking
  /-- Waits for the end of the run, and looks at the count of jobs first. -/
  | waiting
  /-- Has found no job and looks whether completion is held open. -/
  | idling
  | done

/-- A run and the one who submits to it. -/
structure Submission where
  scheduler : Scheduler
  stage : Stage

namespace Submission

def start (setup : RunSetup) (world : World) (state : IndexState) (is : List Invocation) :
    Submission :=
  { scheduler := Scheduler.start setup world state, stage := .opening is }

/-- What the one who submits does next. -/
def drive? (setup : RunSetup) (m : Submission) : Option Submission :=
  let s := m.scheduler
  match m.stage with
  | .opening is => some ⟨s.mapCompletion Completion.beginIntrospection, .submitting is⟩
  | .submitting (i :: is) =>
    match s.accept setup i with
    | (some d, s) => some ⟨s, .counting d is⟩
    | (none, s) => some ⟨s, .submitting is⟩
  | .counting d is => some ⟨s.mapCompletion Completion.countJob, .posting d is⟩
  | .posting d is => some ⟨(s.post setup d).2, .submitting is⟩
  | .submitting [] =>
    let (last, completion) := s.completion.releaseIntrospection
    some ⟨s.mapCompletion (fun _ => completion), if last then .looking else .waiting⟩
  | .looking => some ⟨s.mapCompletion Completion.checkPending, .waiting⟩
  | .waiting => some ⟨s, if s.completion.pending = 0 then .idling else .done⟩
  | .idling => some ⟨s.mapCompletion Completion.checkIntrospections, .done⟩
  | .done => none

def move? (setup : RunSetup) (m : Submission) : Move → Option Submission
  | .driver => m.drive? setup
  | .task n => (m.scheduler.step? setup n).map (fun moved => { m with scheduler := moved.1 })
  | .parse n => (m.scheduler.endParse? setup n).map (fun s => { m with scheduler := s })

def parsed (m : Submission) : Move → List ParsedUnit
  | .driver => []
  | .task n | .parse n => ((m.scheduler.tasks[n]?).map (fun t => t.phase.harvest)).getD []

/-- A run of the one who submits and of the tasks, with the units that were parsed. -/
abbrev Trail (setup : RunSetup) (allowed : Submission → Move → Prop) (m : Submission)
    (us : List ParsedUnit) (m' : Submission) : Prop :=
  RecordedRun (move? setup) (fun m move _ => allowed m move) (fun us _ move m' => us ++ m'.parsed move)
    [] m us m'

variable {setup : RunSetup} {allowed : Submission → Move → Prop} {m m' : Submission}
  {us : List ParsedUnit}

theorem Trail.trans {m₁ m₂ : Submission} {vs : List ParsedUnit} (h : Trail setup allowed m us m₁)
    (h' : Trail setup allowed m₁ vs m₂) : Trail setup allowed m (us ++ vs) m₂ := by
  have hafter := h'.map_record (f := (us ++ ·)) fun vs _ move m' => List.append_assoc us vs _
  rw [List.append_nil] at hafter
  exact RecordedRun.trans h hafter

theorem Trail.mono {allowed' : Submission → Move → Prop}
    (hsub : ∀ m move, allowed m move → allowed' m move) (h : Trail setup allowed m us m') :
    Trail setup allowed' m us m' :=
  RecordedRun.mono h fun m move _ => hsub m move

def play? (setup : RunSetup) (allowed : Submission → Move → Bool) (m : Submission) :
    List Move → Option (List ParsedUnit × Submission) :=
  SymbolIndex.play? (move? setup) (fun m move _ => allowed m move)
    (fun us _ move m' => us ++ m'.parsed move) [] m

theorem trail_of_play {allowed : Submission → Move → Bool} {moves : List Move}
    (h : m.play? setup allowed moves = some (us, m')) :
    Trail setup (fun m move => allowed m move = true) m us m' :=
  RecordedRun.start.of_play (fun _ _ _ => id) h

/-- Only the one who submits moves. -/
abbrev Alone (setup : RunSetup) (m m' : Submission) : Prop :=
  Trail setup (fun _ move => move = .driver) m [] m'

theorem alone_of_drive (h : m.drive? setup = some m') : Alone setup m m' := by
  have hmove : m.move? setup .driver = some m' := h
  exact RecordedRun.start.act Move.driver hmove rfl

/-! ## Left to itself -/

variable (setup : RunSetup) (s : Scheduler)

theorem alone_submit (i : Invocation) (is : List Invocation) :
    Alone setup ⟨s, .submitting (i :: is)⟩ ⟨(s.submit setup i).2, .submitting is⟩ := by
  rw [Scheduler.submit_eq]
  rcases haccept : s.accept setup i with ⟨_ | d, s₁⟩
  · refine alone_of_drive ?_
    simp only [drive?, haccept]
  · have hcount : drive? setup ⟨s, .submitting (i :: is)⟩ = some ⟨s₁, .counting d is⟩ := by
      simp only [drive?, haccept]
    exact (alone_of_drive hcount).trans ((alone_of_drive rfl).trans (alone_of_drive rfl))

theorem alone_submits (is : List Invocation) : Alone setup ⟨s, .submitting is⟩
    ⟨is.foldl (fun s i => (s.submit setup i).2) s, .submitting []⟩ := by
  induction is generalizing s with
  | nil => exact .start
  | cons i is ih => exact Trail.trans (alone_submit setup s i is) (ih _)

theorem alone_end :
    Alone setup ⟨s, .submitting []⟩ ⟨s.mapCompletion Completion.endIntrospection, .waiting⟩ := by
  have hquiet : s.mapCompletion (fun _ => s.completion.releaseIntrospection.2)
      = { s with completion := s.completion.releaseIntrospection.2 } := by
    unfold Scheduler.mapCompletion
    simp [Completion.releaseIntrospection]
  cases hlast : s.completion.releaseIntrospection.1 with
  | false =>
    refine alone_of_drive ?_
    have hend : s.completion.endIntrospection = s.completion.releaseIntrospection.2 := by
      unfold Completion.endIntrospection
      simp [hlast]
    simp only [drive?, hlast, Bool.false_eq_true, if_false]
    unfold Scheduler.mapCompletion
    simp only [hend]
  | true =>
    have hrelease : drive? setup ⟨s, .submitting []⟩
        = some ⟨{ s with completion := s.completion.releaseIntrospection.2 }, .looking⟩ := by
      simp only [drive?, hlast, if_true, hquiet]
    have hlook : drive? setup
          ⟨{ s with completion := s.completion.releaseIntrospection.2 }, .looking⟩
        = some ⟨s.mapCompletion Completion.endIntrospection, .waiting⟩ := by
      have hend : s.completion.endIntrospection
          = s.completion.releaseIntrospection.2.checkPending := by
        unfold Completion.endIntrospection
        simp [hlast]
      simp only [drive?, Scheduler.mapCompletion, hend]
      rfl
    exact (alone_of_drive hrelease).trans (alone_of_drive hlook)

/-- **Left to itself, the one who submits does what `submitAll` does.** -/
theorem alone_submitAll (is : List Invocation) :
    Alone setup ⟨s, .opening is⟩ ⟨(s.submitAll setup is).2, .waiting⟩ := by
  have hbegin : Alone setup ⟨s, .opening is⟩
      ⟨s.mapCompletion Completion.beginIntrospection, .submitting is⟩ := alone_of_drive rfl
  rw [Scheduler.snd_submitAll]
  exact (hbegin.trans (alone_submits setup _ is)).trans (alone_end setup _)

end Submission

end SymbolIndex
