import SymbolIndex.Proofs.Makers
import SymbolIndex.Proofs.Visibility

/-!
# Changes of a header reach the units that use it

A database is built, and updated any number of times; in each run tasks move in any order. A `Book`
takes down what each parse begins with, and what each unit that lands was parsed with. `Journal` is
a run with its book, and `Chronicle` a build with the updates after it, each of which starts from
what the run before it has stored.

Along all of it, whatever a stored unit was last parsed with was made by a unit that is stored
before it (`Chronicle.holds`). So a plan that finds the unit of a header stale has every unit that
was parsed with that header parsed again.
-/

namespace SymbolIndex

open List Option PchTable Scheduler

/-! ## Runs that keep their artifacts -/

namespace Scheduler

/-- There is room for jobs, and every header that is ready is on disk. -/
def intact (s : Scheduler) : Bool :=
  s.jobs.size + 1 < UInt64.size && s.state.pch.toMap.toList.all (fun entry =>
    s.world.disk.isFile entry.2.artifactPath)

section Landing

variable {setup : RunSetup} {s s' : Scheduler} {n : Nat} {who : Option Nat} {key : String}

theorem intact_jobs (h : s.intact = true) : s.jobs.size < UInt64.size :=
  Nat.lt_of_succ_lt (of_decide_eq_true (Bool.and_eq_true_iff.mp h).1)

theorem isFile_of_intact (h : s.intact = true) {entry : PchEntry}
    (hready : s.state.pch.slots.get? key = some (.ready entry)) :
    s.world.disk.isFile entry.artifactPath = true := by
  have hmem : (key, entry) ∈ s.state.pch.toMap.toList :=
    SortedMap.mem_toList_iff.mpr ((get?_toMap ..).mpr hready)
  exact all_eq_true.mp (Bool.and_eq_true_iff.mp h).2 _ hmem

theorem Transition.origin? (h : Transition setup s who s') (hsane : Sane s) (hintact : s.intact = true)
    {o : Path} (hready : s.state.pch.origin? key = some o) :
    s'.state.pch.origin? key = some o := by
  obtain ⟨g, horderly⟩ := hsane.orderly
  obtain ⟨entry, hslot, horigin⟩ := origin?_eq_some.mp hready
  have hkeeping := h.keeping horderly.line hsane.owned.plain
  exact origin?_eq_some.mpr
    ⟨entry, hkeeping.ready hsane.owned hslot (isFile_of_intact hintact hslot), horigin⟩

theorem Transition.origin?_eq (h : Transition setup s who s') (hsane : Sane s)
    (hintact : s.intact = true) (hkept : s.state.Kept s'.state) (key : String) :
    s'.state.pch.origin? key = s.state.pch.origin? key :=
  Option.ext fun o => ⟨hkept.headers.ready key o, h.origin? hsane hintact⟩

theorem origin?_of_mem_landingOf (h : Transition setup s (some n) s') {l : Landing}
    (hl : l ∈ s.landingOf n) {r : Pch.Reservation} (hr : l.reservation = some r) :
    s'.state.pch.origin? r.key = some l.job.invocation.input := by
  obtain ⟨t, id, i, ht, hid, hjob, hphase, hres, hkept, landed, hintegrate⟩ := mem_landingOf hl
  have hthis : ∀ {t₁ : Task}, s.tasks[n]? = some t₁ → t₁ = t :=
    fun ht₁ => some.inj (ht₁.symm.trans ht)
  have hnot : ∀ {t₁ : Task} {phase : Phase}, s.tasks[n]? = some t₁ → t₁.phase = phase →
      phase ≠ .closing i (.ok l.unit) → s'.state.pch.origin? r.key = some l.job.invocation.input :=
    fun ht₁ hphase₁ hne => absurd (hphase₁.symm.trans (hthis ht₁ ▸ hphase)) hne
  cases h with
  | shifts ht₁ _ haside =>
    rw [hthis ht₁, hphase] at haside
    simp [Phase.isAside] at haside
  | learns ht₁ hphase₁ => exact hnot ht₁ hphase₁ (by simp)
  | builds ht₁ hphase₁ => exact hnot ht₁ hphase₁ (by simp)
  | asks ht₁ hphase₁ => exact hnot ht₁ hphase₁ (by simp)
  | starts ht₁ hphase₁ | declines ht₁ hphase₁ | parses ht₁ hphase₁ | frees ht₁ hphase₁ =>
    exact hnot ht₁ hphase₁ (by simp)
  | leaves ht₁ _ hnone =>
    rw [hthis ht₁, hid] at hnone
    cases hnone
  | closes ht₁ hphase₁ hid₁ hjob₁ hfate _ _ _ hfloor =>
    obtain rfl := hthis ht₁
    obtain ⟨-, rfl⟩ : i = _ ∧ Except.ok l.unit = _ := by simpa using hphase.symm.trans hphase₁
    cases hid.symm.trans hid₁
    cases hjob.symm.trans hjob₁
    have htable : s'.state.pch = _ := floor_table hfloor
    rw [hres, hr] at htable
    cases hfate with
    | dropped haborted => exact absurd haborted hkept
    | lost _ hlost => cases hintegrate.symm.trans hlost
    | landed =>
      rw [htable]
      exact (origin?_complete ..).trans (if_pos rfl)

end Landing

end Scheduler

/-! ## Runs and their books -/

/-- The headers each parse has used, while it runs and once it has landed. -/
structure Book where
  used : Nat → List (String × PchEntry) := fun _ => []
  parses : List (Source × List (String × PchEntry)) := []

namespace Book

variable {setup : RunSetup} {b : Book} {s s' : Scheduler} {n : Nat} {t t' : Task}

/-- What a task is parsed with, when an action has led from `s` to `s'`. It is taken down where the
parse begins. -/
def usedAfter (setup : RunSetup) (b : Book) (s s' : Scheduler) (n : Nat) :
    List (String × PchEntry) :=
  match s.tasks[n]?, s'.tasks[n]? with
  | some { phase := .granted, .. }, some { phase := .parsing request _, .. } =>
    Scheduler.uses setup s request.invocation
  | some { phase := .granted, .. }, _ => []
  | _, _ => b.used n

/-- What is written down at an action. -/
def after (setup : RunSetup) (b : Book) (s : Scheduler) (a : Action) (s' : Scheduler) : Book where
  used := b.usedAfter setup s s'
  parses := b.parses ++ match a with
    | .step n => (s.landingOf n).map (fun l => (l.unit.source, b.used n))
    | _ => []

theorem usedAfter_granted (ht : s.tasks[n]? = some t) (hphase : t.phase = .granted)
    (ht' : s'.tasks[n]? = some t') : b.usedAfter setup s s' n = match t'.phase with
      | .parsing request _ => Scheduler.uses setup s request.invocation
      | _ => [] := by
  obtain ⟨errand, phase, answer⟩ := t
  obtain ⟨errand', phase', answer'⟩ := t'
  obtain rfl : phase = .granted := hphase
  unfold usedAfter
  rw [ht, ht']
  cases phase' <;> rfl

theorem usedAfter_of_ne (ht : s.tasks[n]? = some t) (hphase : t.phase ≠ .granted) :
    b.usedAfter setup s s' n = b.used n := by
  obtain ⟨errand, phase, answer⟩ := t
  unfold usedAfter
  rw [ht]
  cases phase <;> first | rfl | exact absurd rfl hphase

end Book

variable {errand : Errand} {i : Invocation}

def Journal.allows (a : Action) (s' : Scheduler) : Bool := a.unsteered && s'.intact

def Journal.note (setup : RunSetup) (r : List Invocation × Book) (s : Scheduler) (a : Action)
    (s' : Scheduler) : List Invocation × Book :=
  (r.1 ++ a.submitted, r.2.after setup s a s')

/-- A run that nobody steers, with what is submitted to it and with its book. Tasks move in any
order, and files may change on the way as long as no artifact is lost. -/
def Journal (setup : RunSetup) (s : Scheduler) (is : List Invocation) (b : Book)
    (s' : Scheduler) : Prop :=
  s.intact = true ∧ RecordedRun (Scheduler.act? setup) (fun _ a s' => Journal.allows a s' = true)
    (Journal.note setup) ([], {}) s (is, b) s'

/-- What a task carries that is to be parsed, or was parsed, with some headers: the units that have
made them are stored, and what is made of the invocation watches them. -/
def Phase.Laden (sources : List Source) (uses : List (String × PchEntry)) (i : Invocation) :
    Phase → Prop :=
  Phase.Carries
    (fun _ indexer =>
      ∀ use ∈ uses, HasMaker sources use ∧ indexer.Watches use.2.originHeader)
    (fun outcome => ∀ unit, outcome = .ok unit → unit.source.invocation = i
      ∧ ∀ use ∈ uses, HasMaker sources use ∧ unit.source.Watches use.2.originHeader) i

/-- A task is for a known job that fits its errand, and carries what comes of a parse with some
headers. -/
def Scheduler.Bears (known : List Invocation) (s : Scheduler) (uses : List (String × PchEntry))
    (t : Task) : Prop :=
  ∃ id job, t.errand.job? = some id ∧ s.jobs.get? id = some job ∧ job.invocation ∈ known
    ∧ t.errand.Fits job.invocation ∧ t.phase.Laden s.state.sources uses job.invocation

theorem Errand.Fits.header {r : Pch.Reservation} (h : errand.Fits i)
    (hr : errand.reservation? = some r) :
    i.language.isHeader = true ∧ i.headerKey? = some r.key := by
  cases errand with
  | header _ r' =>
    obtain rfl : r' = r := some.inj hr
    exact h
  | _ => simp [Errand.reservation?] at hr

theorem Errand.Fits.unit (h : errand.Fits i) (hnone : errand.reservation? = none) :
    i.language.isHeader = false := by
  cases errand with
  | unit => exact h
  | header => simp [Errand.reservation?] at hnone
  | _ => exact h.elim

/-- What is known of every moment of a run, given what was parsed in earlier ones. -/
structure Accounted (known : List Invocation) (past : List (Source × List (String × PchEntry)))
    (b : Book) (s : Scheduler) : Prop where
  sane : s.Sane
  coherent : Coherent known s.state.sources s.state.pch
  founded : Founded s.state.sources (past ++ b.parses)
  tasks : ∀ (n : Nat) (t : Task), s.tasks[n]? = some t → s.Bears known (b.used n) t

section Laden

variable {setup : RunSetup} {s : Scheduler} {sources sources' : List Source}
  {uses : List (String × PchEntry)} {i : Invocation} {phase : Phase} {t t' : Task}
  {known : List Invocation}

theorem Phase.Laden.mono (h : phase.Laden sources uses i)
    (hmono : ∀ use, HasMaker sources use → HasMaker sources' use) :
    phase.Laden sources' uses i := by
  cases phase with
  | parsing =>
    exact ⟨h.1, fun use huse => ⟨hmono use (h.2 use huse).1, (h.2 use huse).2⟩⟩
  | parsed j outcome | closing j outcome =>
    refine ⟨h.1, fun unit hok => ?_⟩
    obtain ⟨hown, huses⟩ := h.2 unit hok
    exact ⟨hown, fun use huse => ⟨hmono use (huses use huse).1, (huses use huse).2⟩⟩
  | _ => trivial

theorem Phase.laden_of_isDone (h : phase.isDone = true) : phase.Laden sources uses i := by
  cases phase <;> trivial

theorem laden_begun (hcoherent : Coherent known s.state.sources s.state.pch) (i : Invocation) :
    (Phase.parsing (Scheduler.beginParse setup s i).1 (Scheduler.beginParse setup s i).2.1).Laden
      s.state.sources (Scheduler.uses setup s i) i := by
  refine ⟨rfl, fun use huse => ⟨?_, watches_beginParse huse⟩⟩
  obtain ⟨-, -, hready, -⟩ := mem_uses.mp huse
  exact hcoherent.made _ _ (origin?_eq_some.mpr ⟨_, hready, rfl⟩)

/-- **A task that moves goes on carrying what its book says.** -/
theorem Phase.Laden.pace {b : Book} {s' : Scheduler} {m : Nat} {id : JobId} {job : Job}
    (h : t.phase.Laden s.state.sources (b.used m) job.invocation) (hpace : Pace setup s t t')
    (hcoherent : Coherent known s.state.sources s.state.pch) (ht : s.tasks[m]? = some t)
    (ht' : s'.tasks[m]? = some t') (hid : t.errand.job? = some id)
    (hjob : s.jobs.get? id = some job) :
    t'.phase.Laden s.state.sources (b.usedAfter setup s s' m) job.invocation := by
  cases hpace with
  | begun hphase hid₁ hjob₁ =>
    cases hid.symm.trans hid₁
    cases hjob.symm.trans hjob₁
    rw [Book.usedAfter_granted ht hphase ht']
    exact laden_begun hcoherent job.invocation
  | skipped hphase hid₁ hjob₁ _ hown =>
    cases hid.symm.trans hid₁
    cases hjob.symm.trans hjob₁
    rw [Book.usedAfter_granted ht hphase ht']
    exact ⟨rfl, fun unit hok => ⟨hown unit hok, by simp⟩⟩
  | parsed hphase =>
    rw [Book.usedAfter_of_ne ht (by simp [hphase])]
    rw [hphase] at h
    obtain ⟨hown, huses⟩ := h
    refine ⟨hown, fun unit hok => ⟨?_, fun use huse => ⟨(huses use huse).1, ?_⟩⟩⟩
    · exact (Scheduler.invocation_runFrontend hok).trans hown
    · exact Scheduler.watches_runFrontend (huses use huse).2 hok
  | closing hphase =>
    rw [Book.usedAfter_of_ne ht (by simp [hphase])]
    rw [hphase] at h
    exact h
  | ended _ hdone | retired _ hdone => exact Phase.laden_of_isDone hdone
  | _ => trivial

end Laden

namespace Accounted

variable {setup : RunSetup} {s s' : Scheduler} {known : List Invocation} {b : Book} {n : Nat}
  {past : List (Source × List (String × PchEntry))} {who : Option Nat} {t t' : Task} {a : Action}

section

variable (h : Accounted known past b s)

include h

theorem carry (hroom : s.jobs.size < UInt64.size) (hjobs : s.JobsTurn s')
    (hmono : ∀ use, HasMaker s.state.sources use → HasMaker s'.state.sources use)
    (ht : s.tasks[n]? = some t) (ht' : s'.tasks[n]? = some t')
    (hpace : t' = t ∨ Pace setup s t t') :
    s'.Bears known (b.usedAfter setup s s' n) t' := by
  obtain ⟨g, horderly⟩ := h.sane.orderly
  obtain ⟨id, job, hid, hjob, hknown, hfits, hladen⟩ := h.tasks n t ht
  obtain ⟨job', hjob', hturns⟩ := hjobs.exists_job horderly hroom hjob
  have hsame := hturns.invocation
  have herrand : t'.errand = t.errand := by
    rcases hpace with rfl | hpace
    · rfl
    · refine hpace.errand.resolve_right fun ⟨hnone, _⟩ => ?_
      cases hid.symm.trans hnone
  refine ⟨id, job', herrand ▸ hid, hjob', hsame ▸ hknown, by rw [herrand, hsame]; exact hfits, ?_⟩
  rw [hsame]
  refine Phase.Laden.mono ?_ hmono
  rcases hpace with rfl | hpace
  · by_cases hphase : t'.phase = .granted
    · rw [hphase]
      trivial
    · rw [Book.usedAfter_of_ne ht hphase]
      exact hladen
  · exact hladen.pace hpace h.coherent ht ht' hid hjob

theorem still (hsane : s'.Sane)
    (hsources : s'.state.sources = s.state.sources)
    (horigin : ∀ key, s'.state.pch.origin? key = s.state.pch.origin? key)
    (hparses : (b.after setup s a s').parses = b.parses)
    (htasks : ∀ (n : Nat) (t' : Task), s'.tasks[n]? = some t' →
      s'.Bears known (b.usedAfter setup s s' n) t') :
    Accounted known past (b.after setup s a s') s' where
  sane := hsane
  coherent := hsources ▸ h.coherent.congr horigin
  founded := by
    rw [hsources, hparses]
    exact h.founded
  tasks := htasks

/-- **What lands is the unit of a job, under a key that was not ready, after the units of all
headers that it was parsed with.** -/
theorem landing (htransition : s.Transition setup (some n) s')
    (hintact : s.intact = true) {l : Landing} (hl : l ∈ s.landingOf n)
    (hlands : l.Lands s.state s'.state) :
    s'.state.sources = l.unit.source.landIn s.state.sources
      ∧ l.unit.source.invocation ∈ known ∧ l.unit.source.Joins s.state.pch s'.state.pch
      ∧ ∀ use ∈ b.used n, HasMaker s.state.sources use
        ∧ l.unit.source.Watches use.2.originHeader := by
  obtain ⟨t, id, i, ht, hid, hjob, hphase, hres, -⟩ := mem_landingOf hl
  obtain ⟨id', job, hid', hjob', hknown, hfits, hladen⟩ := h.tasks n t ht
  cases hid.symm.trans hid'
  cases hjob.symm.trans hjob'
  rw [hphase] at hladen
  obtain ⟨hown, huses⟩ := hladen.2 l.unit rfl
  refine ⟨?_, hown ▸ hknown, ?_, huses⟩
  · obtain ⟨visited, r, hintegrate, hindex⟩ := hlands.integrated
    rw [← IndexState.sources_integrate hintegrate]
    exact congrArg (fun index => index.2.2) hindex
  · have hstays : ∀ {key o}, s.state.pch.origin? key = some o →
        s'.state.pch.origin? key = some o := htransition.origin? h.sane hintact
    cases hr : l.reservation with
    | none =>
      have hunit : l.unit.source.invocation.language.isHeader = false :=
        hown ▸ hfits.unit (hres.trans hr)
      refine .unit hunit fun key => Option.ext fun o => ⟨fun ho => ?_, hstays⟩
      have hheaders := hlands.headers key o ho
      rwa [if_neg (by simp [Landing.key?, hr])] at hheaders
    | some r =>
      have hmakes : l.unit.source.Makes r.key := by
        obtain ⟨hheader, hkey⟩ := hfits.header (hres.trans hr)
        exact ⟨hown ▸ hheader, hown ▸ hkey⟩
      have hnone : s.state.pch.origin? r.key = none := by
        have hhand : s.hand n = some r := by
          rw [hand_eq ht]
          unfold Task.inHand?
          rw [hphase, hres, hr]
          rfl
        unfold PchTable.origin?
        rw [h.sane.owned.slot n r hhand]
      refine .header hmakes hnone fun key => ?_
      split
      · next heq =>
        rw [heq, origin?_of_mem_landingOf htransition hl hr, ← hown]
        rfl
      · next hne =>
        refine Option.ext fun o => ⟨fun ho => ?_, hstays⟩
        have hheaders := hlands.headers key o ho
        rwa [if_neg (by simpa [Landing.key?, hr] using Ne.symm hne)] at hheaders

/-- **Every step of a task.** -/
theorem step (hkeys : OneKey known) {woken : List Nat}
    (hstep : s.step? setup n = some (s', woken)) (hintact : s.intact = true) (hsane : s'.Sane) :
    Accounted known past (b.after setup s (.step n) s') s' := by
  obtain ⟨g, horderly⟩ := h.sane.orderly
  have htransition := transition_step horderly.staffed hstep
  have hcarry : (∀ use, HasMaker s.state.sources use → HasMaker s'.state.sources use) →
      ∀ (m : Nat) (t' : Task), s'.tasks[m]? = some t' →
        s'.Bears known (b.usedAfter setup s s' m) t' := by
    intro hmono m t' ht'
    obtain ⟨t, ht, hpace⟩ := htransition.exists_task horderly.line ht'
    exact h.carry (intact_jobs hintact) htransition.jobs hmono ht ht' hpace
  have hlands := landsAll_step hstep
  cases hlanding : s.landingOf n with
  | nil =>
    rw [hlanding] at hlands
    cases hlands with
    | none hkept =>
      have hsources : s'.state.sources = s.state.sources :=
        congrArg (fun index => index.2.2) hkept.index
      refine h.still hsane hsources (htransition.origin?_eq h.sane hintact hkept) ?_
        (hcarry (fun use huse => hsources ▸ huse))
      simp [Book.after, hlanding]
  | cons l =>
    have hl : l ∈ s.landingOf n := hlanding ▸ mem_cons_self ..
    rw [hlanding] at hlands
    cases hlands with
    | one hone =>
      obtain ⟨hsources, hknown, hjoins, huses⟩ := h.landing htransition hintact hl hone
      have hkept : ∀ y ∈ s.state.sources, ∀ key, y.Makes key → ¬ y.Same l.unit.source :=
        fun y hy key hmakes => h.coherent.not_same hkeys hknown hjoins hy hmakes
      refine ⟨hsane, hsources ▸ h.coherent.land hkeys hknown hjoins, ?_,
        hcarry fun use ⟨x, hx, hmakes, hinput⟩ => ⟨x, ?_, hmakes, hinput⟩⟩
      · have hparses : (b.after setup s (.step n) s').parses
            = b.parses ++ [(l.unit.source, b.used n)] := by
          simp [Book.after, hlanding]
        rw [hsources, hparses, ← append_assoc]
        exact h.founded.land hkept huses
      · rw [hsources]
        exact Source.mem_landIn.mpr (.inr ⟨hx, hkept x hx _ hmakes⟩)

open Scheduler (floor_tasks floor_jobs) in
theorem submit (hi : i ∈ known) (hintact : s.intact = true) (hsane : (s.submit setup i).2.Sane) :
    Accounted known past (b.after setup s (.submit i) (s.submit setup i).2)
      (s.submit setup i).2 := by
  obtain ⟨g, horderly⟩ := h.sane.orderly
  have htransition : s.Transition setup none (s.submit setup i).2 :=
    transition_act (a := .submit i) horderly.staffed rfl
  have hkept := s.kept_submit setup i
  have hsubmits := s.submits setup i
  generalize (s.submit setup i).1 = id at hsubmits
  generalize (s.submit setup i).2 = s' at *
  have hsources : s'.state.sources = s.state.sources :=
    congrArg (fun index => index.2.2) hkept.index
  have hold : ∀ {m : Nat} {t : Task}, s.tasks[m]? = some t → s'.tasks[m]? = some t →
      s'.Bears known (b.usedAfter setup s s' m) t :=
    fun ht ht' => h.carry (intact_jobs hintact) htransition.jobs
      (fun use huse => hsources ▸ huse) ht ht' (.inl rfl)
  have hnew : ∀ {errand : Errand} {kind : JobKind}, s'.tasks = s.tasks ++ [{ errand := errand }] →
      s'.jobs = s.jobs.insert (jobOf s.jobs.size) (Job.make (jobOf s.jobs.size) kind i false) →
      errand.job? = some (jobOf s.jobs.size) → errand.Fits i →
      ∀ (m : Nat) (t' : Task), s'.tasks[m]? = some t' →
        s'.Bears known (b.usedAfter setup s s' m) t' := by
    intro errand kind htasks hjobs hid hfits m t' ht'
    rcases getElem?_concat_cases (htasks ▸ ht') with ht | ⟨-, rfl⟩
    · exact hold ht ht'
    · refine ⟨_, Job.make (jobOf s.jobs.size) kind i false, hid, ?_, hi, hfits, trivial⟩
      rw [hjobs, SortedMap.get?_insert, if_pos (by rw [Std.compare_eq_iff_eq])]
  refine h.still hsane hsources (htransition.origin?_eq h.sane hintact hkept) (append_nil _) ?_
  cases hsubmits with
  | declined hfloor =>
    have htasks : s'.tasks = s.tasks := floor_tasks hfloor
    exact fun m t' ht' => hold (htasks ▸ ht') ht'
  | unit hunit hfloor =>
    exact hnew (floor_tasks hfloor) (floor_jobs hfloor) rfl hunit
  | header hheader hkey _ hfloor =>
    exact hnew (floor_tasks hfloor) (floor_jobs hfloor) rfl ⟨hheader, hkey⟩

theorem idle (hsane : s'.Sane) (htasks : s'.tasks = s.tasks)
    (hjobs : s'.jobs = s.jobs) (hstate : s'.state = s.state) (hintact : s.intact = true)
    (hparses : (b.after setup s a s').parses = b.parses) :
    Accounted known past (b.after setup s a s') s' := by
  refine h.still hsane (by rw [hstate]) (fun key => by rw [hstate]) hparses fun m t' ht' => ?_
  exact h.carry (intact_jobs hintact) (.kept hjobs) (fun use huse => hstate ▸ huse)
    (htasks ▸ ht') ht' (.inl rfl)

/-- **Every action of a run that nobody steers.** -/
theorem act (hkeys : OneKey known) (hown : a.unsteered = true)
    (hsubmitted : ∀ i ∈ a.submitted, i ∈ known) (hact : s.act? setup a = some s')
    (hintact : s.intact = true) (hintact' : s'.intact = true) :
    Accounted known past (b.after setup s a s') s' := by
  have hsane := h.sane.act hact (intact_jobs hintact) (intact_jobs hintact')
  cases a with
  | submit i =>
    cases hact
    exact h.submit (hsubmitted i (by simp [Action.submitted])) hintact hsane
  | step =>
    obtain ⟨⟨s₁, woken⟩, hstep, rfl⟩ := map_eq_some_iff.mp hact
    exact h.step hkeys hstep hintact hsane
  | parse =>
    obtain ⟨g, horderly⟩ := h.sane.orderly
    have htransition := transition_endParse hact
    have hstate := state_endParse hact
    refine h.still hsane (by rw [hstate]) (fun key => by rw [hstate]) (append_nil _)
      fun m t' ht' => ?_
    obtain ⟨t, ht, hpace⟩ := htransition.exists_task horderly.line ht'
    exact h.carry (intact_jobs hintact) htransition.jobs (fun use huse => hstate ▸ huse) ht ht' hpace
  | recount f =>
    cases hact
    obtain ⟨htasks, hjobs, -⟩ := by
      simpa only [Scheduler.floor, Prod.mk.injEq] using s.floor_mapCompletion f
    exact h.idle hsane htasks hjobs (s.state_mapCompletion f) hintact (append_nil _)
  | meanwhile =>
    cases hact
    exact h.idle hsane rfl rfl rfl hintact (append_nil _)
  | _ => simp [Action.unsteered] at hown

end

theorem start (setup : RunSetup) (world : World) {state : IndexState}
    (hsettled : ∀ ticket, state.pch.settled ticket = true)
    (hcoherent : Coherent known state.sources state.pch) (hfounded : Founded state.sources past) :
    Accounted known past {} (Scheduler.start setup world state) where
  sane := ⟨⟨{}, .start setup world state⟩, .start setup world hsettled,
    fun _ _ hjob => absurd hjob (by simp [Scheduler.start])⟩
  coherent := hcoherent
  founded := by
    rw [show ({} : Book).parses = [] from rfl, append_nil]
    exact hfounded
  tasks := fun n t ht => absurd ht (by simp [Scheduler.start])

end Accounted

/-- **A whole run.** -/
theorem Journal.accounted {setup : RunSetup} {s s' : Scheduler} {is known : List Invocation}
    {b : Book} {past : List (Source × List (String × PchEntry))} (h : Journal setup s is b s')
    (hkeys : OneKey known) (hknown : ∀ i ∈ is, i ∈ known) (hstart : Accounted known past {} s) :
    Accounted known past b s' ∧ s'.intact = true := by
  obtain ⟨hintact, hrun⟩ := h
  generalize hrecord : (is, b) = record at hrun
  induction hrun generalizing is b with
  | start =>
    cases hrecord
    exact ⟨hstart, hintact⟩
  | @act record s₁ s₂ a _ hact hallowed ih =>
    obtain ⟨rfl, rfl⟩ := Prod.mk.inj hrecord
    obtain ⟨hown, hintact'⟩ := Bool.and_eq_true_iff.mp hallowed
    obtain ⟨haccounted, hintact⟩ := ih (fun i hi => hknown i (mem_append_left _ hi)) rfl
    exact ⟨haccounted.act hkeys hown (fun i hi => hknown i (mem_append_right _ hi)) hact
      hintact hintact', hintact'⟩

namespace Journal

variable {setup : RunSetup} {s : Scheduler} {is : List Invocation} {b : Book}

theorem start (h : s.intact = true) : Journal setup s [] {} s := ⟨h, .start⟩

theorem act {s₁ s₂ : Scheduler} (h : Journal setup s is b s₁) (a : Action)
    (hown : a.unsteered = true) (hact : s₁.act? setup a = some s₂) (hintact : s₂.intact = true) :
    Journal setup s (is ++ a.submitted) (b.after setup s₁ a s₂) s₂ :=
  ⟨h.1, h.2.act a hact (Bool.and_eq_true_iff.mpr ⟨hown, hintact⟩)⟩

theorem move {s₁ s₂ : Scheduler} (h : Journal setup s is b s₁) {a : Action}
    (hnone : a.submitted = []) (hown : a.unsteered = true) (hact : s₁.act? setup a = some s₂)
    (hintact : s₂.intact = true) : Journal setup s is (b.after setup s₁ a s₂) s₂ := by
  have hmoved := h.act a hown hact hintact
  rwa [hnone, append_nil] at hmoved

theorem of_play {s' : Scheduler} {as : List Action} (hintact : s.intact = true)
    (hplay : play? (Scheduler.act? setup) (fun _ => allows) (note setup) ([], {}) s as
      = some ((is, b), s')) : Journal setup s is b s' :=
  ⟨hintact, RecordedRun.start.of_play (fun _ _ _ => id) hplay⟩

end Journal

/-! ## A build and the updates after it -/

/-- What a run leaves in a database: pending references are resolved, and artifacts are moved
there. -/
def IndexState.stored (i : IndexState) (disk : Disk) (db : Path) : IndexState :=
  { i with graph := i.graph.reconcile.1, pch := (i.pch.relocateAll disk db).table }

/-- What an update starts from. -/
def IndexState.reopened (i : IndexState) (plan : Plan) : IndexState :=
  Engine.retainedState (Database.loadedOf i) plan
    (Database.invalidation i.graph.entities plan.dirtyFiles i.files).2

/-- What is stored after a build and any number of updates, with all that was parsed. Each update
parses what its plan says, with the buffers it is given; the artifacts of every run reach the
database. -/
inductive Chronicle (is : List Invocation) :
    List (Source × List (String × PchEntry)) → IndexState → Prop where
  | build {setup : RunSetup} {world : World} {b : Book} {s : Scheduler} {disk : Disk} {db : Path} :
      Journal setup (Scheduler.start setup world {}) is b s →
      (s.state.pch.relocateAll disk db).report.dropped = [] →
      Chronicle is b.parses (s.state.stored disk db)
  | update {past : List (Source × List (String × PchEntry))} {state : IndexState}
      {setup : RunSetup} {seen world : World} {plan : Plan} {b : Book} {s : Scheduler} {disk : Disk}
      {db : Path} : Chronicle is past state →
      plan = Plan.make seen.lastModified state.sources setup.unsaved.keys →
      Journal setup (Scheduler.start setup world (state.reopened plan)) plan.reparse b s →
      (s.state.pch.relocateAll disk db).report.dropped = [] →
      Chronicle is (past ++ b.parses) (s.state.stored disk db)

theorem IndexState.settled_reopened (i : IndexState) (plan : Plan) (ticket : Nat) :
    (i.reopened plan).pch.settled ticket = true := by
  have htickets : ∀ (keys : List String) (t : PchTable),
      (keys.foldl PchTable.remove t).tickets = t.tickets := by
    intro keys
    induction keys with
    | nil => exact fun _ => rfl
    | cons key _ ih => exact fun t => ih (t.remove key)
  have hnone : (i.reopened plan).pch.tickets = [] := htickets _ _
  unfold PchTable.settled PchTable.status
  simp [hnone]

theorem Coherent.stored {known : List Invocation} {i : IndexState} {disk : Disk} {db : Path}
    (h : Coherent known i.sources i.pch)
    (hmoved : (i.pch.relocateAll disk db).report.dropped = []) :
    Coherent known (i.stored disk db).sources (i.stored disk db).pch := by
  refine h.congr fun key => ?_
  have hsame := (i.pch.loses_relocateAll disk db).origin key
  rwa [hmoved, if_neg (by simp)] at hsame

namespace Chronicle

variable {is : List Invocation} {past : List (Source × List (String × PchEntry))}
  {state : IndexState}

/-- **Whatever a stored unit was last parsed with was made by a unit that is stored before it.** -/
theorem holds (h : Chronicle is past state) (hkeys : OneKey is) :
    Coherent is state.sources state.pch ∧ Founded state.sources past := by
  induction h with
  | build hrun hmoved =>
    have hstart : ∀ setup world, Accounted is [] {} (Scheduler.start setup world {}) :=
      fun setup world => .start setup world
        (fun ticket => by simp [PchTable.settled, PchTable.status]) (.empty is)
        (fun before x after hsplit => absurd hsplit (by simp))
    obtain ⟨haccounted, -⟩ := hrun.accounted hkeys (fun i hi => hi) (hstart _ _)
    exact ⟨haccounted.coherent.stored hmoved, haccounted.founded⟩
  | @update past state setup seen world plan b s disk db _ hplan hrun hmoved ih =>
    obtain ⟨hcoherent, hfounded⟩ := ih
    have hretained : Coherent is (state.reopened plan).sources (state.reopened plan).pch := by
      subst hplan
      exact hcoherent.retained fun key => Engine.origin?_retainedState ..
    have hknown : ∀ i ∈ plan.reparse, i ∈ is := by
      subst hplan
      intro i hi
      obtain ⟨before, x, after, hsplit, -, rfl⟩ := Plan.exists_of_mem_reparse hi
      exact hcoherent.known x (by rw [hsplit]; simp)
    obtain ⟨haccounted, -⟩ := hrun.accounted hkeys hknown (.start _ _
      (state.settled_reopened plan) hretained (hplan ▸ hfounded.retained))
    exact ⟨haccounted.coherent.stored hmoved, haccounted.founded⟩

end Chronicle

/-! ### Runs that come to their end one after the other -/

section Trace

variable {setup : RunSetup} {s s₁ s' : Scheduler} {is : List Invocation} {ls : List Landing}

def Trace.Safe (setup : RunSetup) (s s' : Scheduler) : Prop :=
  ∀ is ls s₁, Trace setup s is ls s₁ → (∃ is ls, Trace setup s₁ is ls s') → s₁.intact = true

theorem Trace.Safe.last (h : Trace.Safe setup s s') (htrace : Trace setup s is ls s') :
    s'.intact = true :=
  h is ls s' htrace ⟨[], [], .start⟩

theorem Trace.Safe.before (h : Trace.Safe setup s s')
    (hon : ∀ {s₂ is ls}, Trace setup s₂ is ls s₁ → ∃ is ls, Trace setup s₂ is ls s') :
    Trace.Safe setup s s₁ :=
  fun is ls s₂ hto ⟨_, _, hfrom⟩ => h is ls s₂ hto (hon hfrom)

theorem Trace.journal (h : Trace setup s is ls s') (hsafe : Trace.Safe setup s s') :
    ∃ b, Journal setup s is b s' := by
  induction h with
  | start => exact ⟨{}, .start (hsafe.last .start)⟩
  | submit i htrace ih =>
    obtain ⟨b, hb⟩ := ih (hsafe.before fun hto => ⟨_, _, hto.submit i⟩)
    exact ⟨_, hb.act (.submit i) rfl rfl (hsafe.last (htrace.submit i))⟩
  | recount f htrace ih =>
    obtain ⟨b, hb⟩ := ih (hsafe.before fun hto => ⟨_, _, hto.recount f⟩)
    exact ⟨_, hb.move (a := .recount f) rfl rfl rfl (hsafe.last (htrace.recount f))⟩
  | @step _ _ _ _ n _ htrace hstep ih =>
    obtain ⟨b, hb⟩ := ih (hsafe.before fun hto => ⟨_, _, hto.step hstep⟩)
    exact ⟨_, hb.move (a := .step n) rfl rfl (by simp [Scheduler.act?, hstep])
      (hsafe.last (htrace.step hstep))⟩
  | @parse _ _ _ _ n htrace hparse ih =>
    obtain ⟨b, hb⟩ := ih (hsafe.before fun hto => ⟨_, _, hto.parse hparse⟩)
    exact ⟨_, hb.move (a := .parse n) rfl rfl hparse (hsafe.last (htrace.parse hparse))⟩

end Trace

variable {r : Run}

/-- A run loses no artifact, neither on the way nor when they are moved into the database. -/
structure Run.Intact (r : Run) : Prop where
  moments : ∀ s, r.Moment s → s.intact = true
  moved : r.relocation.report.dropped = []

theorem Run.Intact.journal (h : r.Intact) :
    ∃ b, Journal r.setup (Scheduler.start r.setup r.world r.start) r.invocations b r.ended :=
  r.trace.journal fun _ _ s hto hfrom => h.moments s ⟨⟨_, _, hto⟩, hfrom⟩

theorem Run.saved_eq_stored (r : Run) : r.saved = r.ended.state.stored r.disk r.db := by
  unfold saved
  rfl

/-- **The runs of a database are a build and the updates after it**, as long as they lose no
artifact. -/
theorem Runs.chronicle {earlier : List Run} (h : Runs (r :: earlier))
    (hintact : ∀ r' ∈ r :: earlier, r'.Intact) :
    ∃ first past, (r :: earlier).getLast? = some first
      ∧ Chronicle first.invocations past r.saved := by
  generalize hruns : r :: earlier = runs at h hintact
  induction h generalizing r earlier with
  | build hstart =>
    obtain ⟨rfl, rfl⟩ := List.cons.inj hruns
    have hown := hintact r (mem_cons_self ..)
    obtain ⟨b, hb⟩ := hown.journal
    rw [hstart] at hb
    exact ⟨r, b.parses, rfl, r.saved_eq_stored ▸ .build hb hown.moved⟩
  | update _ hcont ih =>
    obtain ⟨rfl, rfl⟩ := List.cons.inj hruns
    obtain ⟨first, past, hfirst, hpast⟩ :=
      ih rfl fun r' hr' => hintact r' (mem_cons_of_mem _ hr')
    have hown := hintact r (mem_cons_self ..)
    obtain ⟨b, hb⟩ := hown.journal
    rw [hcont.start, hcont.dirty, hcont.invocations] at hb
    exact ⟨first, past ++ b.parses, by rwa [getLast?_cons_cons],
      r.saved_eq_stored ▸ .update hpast rfl hb hown.moved⟩

/-- **A change of a header reaches the units that use it.** If a stored unit was last parsed with
the header of a key, then the one stored unit that makes this key comes before it, and the unit
depends on the input of that one or was made from a buffer. So it is parsed again whenever that one
is, and that one is whenever its input or a file that it includes has another time than it had. -/
theorem changed_header_reaches_users {is : List Invocation}
    {past : List (Source × List (String × PchEntry))} {state : IndexState}
    (h : Chronicle is past state) (hkeys : OneKey is) {before after : List Source} {u : Source}
    (hsplit : state.sources = before ++ u :: after) {key : String} {entry : PchEntry}
    (huse : (key, entry) ∈ lastUses past u) :
    ∃ x ∈ before, x.Makes key ∧ x.input = entry.originHeader
      ∧ (∀ y ∈ state.sources, y.Makes key → y = x)
      ∧ (u.fromUnsavedFile = true ∨ u.dependencies.contains entry.originHeader = true)
      ∧ ∀ times changed,
        (¬ x.UpToDate times → x.invocation ∈ (Plan.make times state.sources changed).reparse)
        ∧ (x.invocation ∈ (Plan.make times state.sources changed).reparse →
          u.invocation ∈ (Plan.make times state.sources changed).reparse) := by
  obtain ⟨hcoherent, hfounded⟩ := h.holds hkeys
  obtain ⟨⟨x, hx, hmakes, hinput⟩, hwatches⟩ := hfounded before u after hsplit _ huse
  have hstored : x ∈ state.sources := by
    rw [hsplit]
    exact List.mem_append_left _ hx
  have halone : ∀ y ∈ state.sources, y.Makes key → y = x :=
    fun y hy hmakes' => hcoherent.alone y hy x hstored key hmakes' hmakes
  refine ⟨x, hx, hmakes, hinput, halone, hwatches, fun times changed => ?_⟩
  obtain ⟨front, between, rfl⟩ := List.append_of_mem hx
  have hsplit' : state.sources = front ++ x :: (between ++ u :: after) := by
    rw [hsplit]
    simp
  constructor
  · intro hstale
    rw [hsplit']
    refine Plan.mem_reparse_of_not_stays (fun hstays => hstale ?_) _
    exact (Plan.isSourceDirty_false hstays).2.1
  · intro hreparse
    obtain ⟨-, -, hiff, -⟩ := Plan.retained_or_reparse times changed hcoherent.apart
    have hdirty : ¬ Plan.Stays times changed front x := by
      intro hstays
      refine (hiff x hstored).mp ?_ hreparse
      rw [hsplit']
      exact Plan.mem_retained_of_stays hstays _
    rw [hsplit]
    exact Plan.mem_reparse_of_not_stays (hfounded.not_stays hsplit huse hinput hdirty) after

/-- A header and a unit that includes it, when the header has a time. -/
def stampedWorld (disk : Disk) (micros : Int) : World :=
  { disk, stamps := some (SortedMap.ofList [(⟨"/h.h"⟩, { micros }), (⟨"/b.c"⟩, { micros := 0 })]) }

def awaitedMoves : List Action :=
  [.submit awaitedHeader, .submit awaitingUnit, .step 1, .step 1, .step 0, .step 0, .step 0,
    .parse 0, .step 0, .step 0, .step 1, .step 1, .step 1, .step 1, .parse 1, .step 1, .step 1]

def keptOf (s : Scheduler) : IndexState × Disk :=
  (s.state.stored s.world.disk ⟨"/db"⟩, (s.state.pch.relocateAll s.world.disk ⟨"/db"⟩).disk)

def keptPlan (s : Scheduler) : Plan :=
  Plan.make (stampedWorld {} 2000).lastModified (keptOf s).1.sources []

def awaitedRun (s : Scheduler) : Option ((List Invocation × Book) × Scheduler) :=
  play? (Scheduler.act? awaitedSetup) (fun _ => Journal.allows) (Journal.note awaitedSetup) ([], {})
    s awaitedMoves

def rebuilt : Option (((List Invocation × Book) × Scheduler)
    × (List Invocation × Book) × Scheduler) :=
  (awaitedRun (Scheduler.start awaitedSetup (stampedWorld {} 1000) {})).bind fun first =>
    (awaitedRun (Scheduler.start awaitedSetup (stampedWorld (keptOf first.2).2 2000)
      ((keptOf first.2).1.reopened (keptPlan first.2)))).map (Prod.mk first)

theorem rebuilt_spec : rebuilt.any (fun r =>
    (r.1.2.state.pch.relocateAll r.1.2.world.disk ⟨"/db"⟩).report.dropped = []
      && (r.2.2.state.pch.relocateAll r.2.2.world.disk ⟨"/db"⟩).report.dropped = []
      && (Scheduler.start awaitedSetup (stampedWorld (keptOf r.1.2).2 2000)
        ((keptOf r.1.2).1.reopened (keptPlan r.1.2))).intact
      && (r.1.1.1, r.2.1.1) = ([awaitedHeader, awaitingUnit], (keptPlan r.1.2).reparse)
      && r.2.2.state.sources.map Source.invocation = [awaitedHeader, awaitingUnit]
      && (r.2.2.state.sources[1]?).any (fun u =>
        (lastUses (r.1.1.2.parses ++ r.2.1.2.parses) u).map Prod.fst = ["/h.h"])) = true := by
  decide +kernel

/-- After a build and an update the header is stored before the unit, and a change of the header has
both parsed again. -/
theorem changed_header_reaches_users_rebuilt :
    ∃ past state x u, Chronicle [awaitedHeader, awaitingUnit] past state
      ∧ OneKey [awaitedHeader, awaitingUnit] ∧ state.sources = [x, u]
      ∧ u.invocation = awaitingUnit ∧ (∃ entry, ("/h.h", entry) ∈ lastUses past u)
      ∧ x.Makes "/h.h" ∧ ∀ times changed, ¬ x.UpToDate times →
        u.invocation ∈ (Plan.make times state.sources changed).reparse := by
  obtain ⟨⟨⟨⟨is₁, b₁⟩, s₁⟩, ⟨is₂, b₂⟩, s₂⟩, hrebuilt, hspec⟩ :=
    (Option.any_eq_true _ _).mp rebuilt_spec
  simp only [Bool.and_eq_true, decide_eq_true_eq, Prod.mk.injEq] at hspec
  obtain ⟨⟨⟨⟨⟨hmoved₁, hmoved₂⟩, hintact⟩, rfl, rfl⟩, hsources⟩, hused⟩ := hspec
  obtain ⟨first, hfirst, hsecond⟩ := Option.bind_eq_some_iff.mp hrebuilt
  obtain ⟨second, hsecond, heq⟩ := Option.map_eq_some_iff.mp hsecond
  cases heq
  have hbuilt : Chronicle [awaitedHeader, awaitingUnit] b₁.parses (keptOf s₁).1 :=
    .build (.of_play (by decide +kernel) hfirst) hmoved₁
  have hrun : Journal awaitedSetup (Scheduler.start awaitedSetup (stampedWorld (keptOf s₁).2 2000)
      ((keptOf s₁).1.reopened (keptPlan s₁))) (keptPlan s₁).reparse b₂ s₂ :=
    .of_play hintact hsecond
  have hupdated : Chronicle [awaitedHeader, awaitingUnit] (b₁.parses ++ b₂.parses) (keptOf s₂).1 :=
    .update hbuilt (show keptPlan s₁ = Plan.make (stampedWorld {} 2000).lastModified
      (keptOf s₁).1.sources awaitedSetup.unsaved.keys from rfl) hrun hmoved₂
  have hkeys : OneKey [awaitedHeader, awaitingUnit] := by
    unfold OneKey
    decide +kernel
  obtain ⟨x, rest, hstored, -, hrest⟩ := List.map_eq_cons_iff.mp hsources
  obtain ⟨u, last, rfl, hunit, hlast⟩ := List.map_eq_cons_iff.mp hrest
  obtain rfl := List.map_eq_nil_iff.mp hlast
  replace hstored : (keptOf s₂).1.sources = [x, u] := hstored
  have hkey : "/h.h" ∈ (lastUses (b₁.parses ++ b₂.parses) u).map Prod.fst := by
    have hsource : s₂.state.sources[1]? = some u := congrArg (fun l : List Source => l[1]?) hstored
    rw [hsource, Option.any_some, decide_eq_true_eq] at hused
    rw [hused]
    exact List.mem_singleton_self _
  obtain ⟨⟨key, entry⟩, huse, rfl⟩ := List.mem_map.mp hkey
  obtain ⟨y, hy, hmakes, -, -, -, hplans⟩ :=
    changed_header_reaches_users hupdated hkeys (show _ = [x] ++ u :: [] from hstored) huse
  obtain rfl := List.mem_singleton.mp hy
  exact ⟨_, _, y, u, hupdated, hkeys, hstored, hunit, ⟨entry, huse⟩, hmakes,
    fun times changed hstale => (hplans times changed).2 ((hplans times changed).1 hstale)⟩

end SymbolIndex
