import SymbolIndex.Frontend.Replay
import SymbolIndex.Proofs.History

/-!
# A build and an update

The shortest history in which something can go stale: recorded parses are built into a database in
memory, files get other times, and the database is updated from other recordings.

Whether both runs succeed is computed by `succeeds`. It does not read back what the build has
written, since `History.holds` says what is read; so it is cheap to evaluate, and `history` turns it
into a history whose runs are closed terms.
-/

namespace SymbolIndex

namespace Engine

variable {site site' : Site} {e : Engine} {st : Store}

theorem run_congr (e : Engine) (kind : JobKind) (unsaved : UnsavedFiles) (state : IndexState)
    (is : List Invocation) (hstorage : site.storage = site'.storage)
    (hstamps : site.stamps = site'.stamps) :
    (e.run site kind unsaved state is).1 = (e.run site' kind unsaved state is).1
      ∧ (e.run site kind unsaved state is).2.storage
        = (e.run site' kind unsaved state is).2.storage := by
  have hworld : site.world = site'.world := by
    unfold Site.world
    rw [hstorage, hstamps]
  unfold run
  simp only [hworld]
  split
  · exact ⟨rfl, hstorage⟩
  · split
    · exact ⟨rfl, by simp only [Site.withDisk, hstorage]⟩
    · exact ⟨rfl, by simp only [notePhase, Site.note, Site.noteAll, Site.withDisk, hstorage]⟩

theorem save_congr (e : Engine) (st : Store) (listing : Option Path) (f : Finished)
    (hstorage : site.storage = site'.storage) :
    (e.save st site listing f).1 = (e.save st site' listing f).1 := by
  obtain ⟨storage, stamps, requests, calls, log⟩ := site
  obtain ⟨storage', stamps', requests', calls', log'⟩ := site'
  subst hstorage
  -- The file for the diagnostics is a function of the storage alone.
  obtain ⟨kept, hkept⟩ : ∃ kept : Storage → Option Path, ∀ site : Site,
      (keepErrors e.scratch site st.path f.errors).1 = kept site.storage := by
    refine ⟨fun s => (keepErrors e.scratch { storage := s } st.path f.errors).1, fun site => ?_⟩
    unfold keepErrors
    simp only
    split
    · rfl
    · split
      · rfl
      · split <;> rfl
  unfold save
  simp only [Site.withDisk, Site.noteAll]
  split
  · rfl
  · split
    · rfl
    · simp only [hkept, storage_noteClosed, Site.withStorage]

/-- **When an update succeeds**, given what is in the database it opens. -/
theorem update_of_stores {site₁ : Site} {unsaved : UnsavedFiles} {loaded : Database.Loaded}
    {m : Entities} {emptied : Storage} {f : Finished} {answer : RunSummary × Nat}
    (hopen : Store.open site.storage e.backend e.config.dbPath .readWrite = .ok (st, site.storage))
    (hstores : Database.Stores st site.storage loaded m)
    (hplan : (Plan.make site.world.lastModified loaded.sources unsaved.keys).isEmpty = false)
    (hcommit : Database.commit st site.storage (Database.invalidation m
        (Plan.make site.world.lastModified loaded.sources unsaved.keys).dirtyFiles loaded.files).1
      = (.ok (), emptied))
    (hrun : e.run { storage := emptied, stamps := site.stamps } .dirty unsaved
        (e.updateRun site unsaved st loaded m emptied).start
        (e.updateRun site unsaved st loaded m emptied).invocations = (.ok f, site₁))
    (hsave : (e.save st site₁ none f).1 = .ok answer) :
    ∃ site', e.update site unsaved = (.ok answer.1, site') := by
  have hupdates := updates hopen hstores unsaved
  generalize e.update site unsaved = result at hupdates
  cases hupdates with
  | idle hempty => cases hplan.symm.trans hempty
  | stuck _ hfailed => cases hcommit.symm.trans hfailed
  | @ran _ site₂ site' _ _ hemptied hconcluded hstorage hstamps =>
    cases hcommit.symm.trans hemptied
    obtain ⟨hok, hstorage₃⟩ := run_congr e .dirty unsaved
      (e.updateRun site unsaved st loaded m emptied).start
      (e.updateRun site unsaved st loaded m emptied).invocations
      (show site₂.storage = ({ storage := emptied, stamps := site.stamps } : Site).storage
        from hstorage) hstamps
    rw [hrun] at hok hstorage₃
    rcases hran : e.run site₂ .dirty unsaved (e.updateRun site unsaved st loaded m emptied).start
      (e.updateRun site unsaved st loaded m emptied).invocations with ⟨ran, site₃⟩
    rw [hran] at hok hstorage₃ hconcluded
    obtain rfl : ran = .ok f := hok
    simp only [concluded, save_congr e st none f hstorage₃, hsave] at hconcluded
    rw [← (Prod.mk.inj hconcluded).1]
    exact ⟨site', rfl⟩

/-- An engine whose front end answers from recordings. -/
def replaying (recordings : List (Path × Recording)) (backend : Backend := .memory)
    (schedule : Schedule := {}) : Engine where
  config := { dbPath := ⟨"/db"⟩, stagingDir := some ⟨"/staging"⟩ }
  frontend := .replay (SortedMap.ofList recordings)
  backend := backend
  schedule := schedule

/-- A build from recordings. -/
def replayed (recordings : List (Path × Recording)) (site : Site) (is : List Invocation)
    (backend : Backend := .memory) : Except EngineError RunSummary × Site :=
  (replaying recordings backend).build site { invocations := is, sourceDir := some ⟨"/"⟩ }

/-- The database that such a build makes, before anything is written to it. -/
def replayedStore (recordings : List (Path × Recording)) (site : Site) (is : List Invocation)
    (backend : Backend := .memory) : Store × Storage :=
  let ended := Schedule.ended {} ((replaying recordings backend).setupFor .compile ∅) site.world {} is
  (Store.open { site.storage with disk := ended.world.disk } backend ⟨"/db"⟩ .create).toOption.getD
    default

/-- The run of a build. -/
def replayedRun (recordings : List (Path × Recording)) (site : Site) (is : List Invocation)
    (backend : Backend := .memory) : Run :=
  let opened := replayedStore recordings site is backend
  (replaying recordings backend).buildRun site is opened.1 opened.2

/-- **A build from recordings begins a history.** Where the database is a directory, the disk is
empty before it is made, and no artifact is moved into it. -/
theorem history_replayed {recordings : List (Path × Recording)} {site : Site}
    {is : List Invocation} {backend : Backend} {top : Spot} {b : RunSummary}
    (hb : (replayed recordings site is backend).1 = .ok b)
    (hdirectory : backend = .filesystem → top = ["db"]
      ∧ (replayedRun recordings site is backend).ended.world.disk = {}
      ∧ (replayedRun recordings site is backend).relocation.disk
        = (replayedStore recordings site is backend).2.disk) :
    History ⟨"/db"⟩ top backend (replayedStore recordings site is backend).1
      (replayed recordings site is backend).2.storage [replayedRun recordings site is backend] := by
  have hbuilt : (replaying recordings backend).build site
      { invocations := is, sourceDir := some ⟨"/"⟩ }
      = (.ok b, (replayed recordings site is backend).2) := Prod.ext hb rfl
  obtain ⟨is', st, made, hcollect, hopen, -⟩ := build_eq_ok hbuilt
  have his : is = is' := Except.ok.inj hcollect
  subst his
  have hopened : replayedStore recordings site is backend = (st, made) := by
    unfold replayedStore
    simp only
    erw [hopen]
    rfl
  unfold replayedRun at hdirectory ⊢
  rw [hopened] at hdirectory ⊢
  have hdirect : Store.Direct ⟨"/db"⟩ top backend
      ((replaying recordings backend).buildRun site is st made).ended.world.disk := by
    intro hb
    obtain ⟨rfl, hempty, -⟩ := hdirectory hb
    rw [hempty]
    exact Disk.straight_of_empty (by decide) (by decide) (by decide)
  refine .build rfl rfl hbuilt hcollect hopen hdirect fun hb => ?_
  rw [(hdirectory hb).2.2]
  exact .refl (Store.serves_of_create hdirect hopen).1

end Engine

/-- A build from recordings, other times of files, and an update from other recordings. -/
structure Episode where
  invocations : List Invocation
  first : List (Path × Recording)
  before : List (Path × Stamp)
  second : List (Path × Recording)
  after : List (Path × Stamp)
  backend : Backend := .memory
  /-- The schedule of the update. -/
  schedule : Schedule := {}

namespace Episode

variable (p : Episode)

def buildSite : Site := { stamps := some (SortedMap.ofList p.before) }

/-- What the build answers. -/
def built : Except EngineError RunSummary × Site :=
  Engine.replayed p.first p.buildSite p.invocations p.backend

def updateSite : Site :=
  { storage := p.built.2.storage, stamps := some (SortedMap.ofList p.after) }

def updater : Engine := Engine.replaying p.second p.backend p.schedule

/-- What the update answers. -/
def updated : Except EngineError RunSummary × Site := p.updater.update p.updateSite ∅

/-- The store of the build, newly made. -/
def opened : Store × Storage := Engine.replayedStore p.first p.buildSite p.invocations p.backend

def buildRun : Run := Engine.replayedRun p.first p.buildSite p.invocations p.backend

def plan : Plan := p.buildRun.planAfter p.updateSite.world ∅

/-- The storage without what is in changed files. -/
def emptied : Except DatabaseError Unit × Storage :=
  Database.commit p.opened.1 p.built.2.storage (Database.invalidation
    p.buildRun.saved.graph.entities p.plan.dirtyFiles p.buildRun.saved.files).1

def updateRun : Run :=
  p.updater.updateRun p.updateSite ∅ p.opened.1 (Database.loadedOf p.buildRun.saved)
    p.buildRun.saved.graph.entities p.emptied.2

def ran : Except EngineError Engine.Finished × Site :=
  p.updater.run { storage := p.emptied.2, stamps := p.updateSite.stamps } .dirty ∅
    p.updateRun.start p.updateRun.invocations

/-- Where the database is a directory, the build finds an empty disk and moves no artifact. -/
def buildsAlone : Bool :=
  p.backend = .memory || (p.buildRun.ended.world.disk = {}
    && p.buildRun.relocation.disk = p.opened.2.disk)

/-- Both runs succeed, and the second one has something to do. -/
def succeeds : Bool :=
  p.built.1.toOption.isSome && p.buildsAlone && !p.plan.isEmpty && p.emptied.1.toOption.isSome
    && p.ran.1.toOption.any (fun f =>
      (p.updater.save p.opened.1 p.ran.2 none f).1.toOption.isSome)

/-- Where the database is a directory, the update moves no artifact into it. -/
def MovesNothing : Prop :=
  p.backend = .filesystem → p.updateRun.relocation.disk = p.emptied.2.disk

/-- Where the database is. -/
def top : Spot :=
  match p.backend with
  | .memory => []
  | .filesystem => ["db"]

variable {p}

theorem exists_ok {ε α : Type} {x : Except ε α} (h : x.toOption.isSome = true) :
    ∃ a, x = .ok a := by
  cases x with
  | ok a => exact ⟨a, rfl⟩
  | error => simp [Except.toOption] at h

theorem history_build (h : p.built.1.toOption.isSome = true)
    (hbuilds : p.buildsAlone = true := by rfl) : ∃ b, p.built.1 = .ok b
      ∧ History ⟨"/db"⟩ p.top p.backend p.opened.1 p.built.2.storage [p.buildRun] := by
  obtain ⟨b, hb⟩ := exists_ok h
  refine ⟨b, hb, Engine.history_replayed hb fun hdirectory => ?_⟩
  simp only [buildsAlone, hdirectory, reduceCtorEq, decide_false, Bool.false_or, Bool.and_eq_true,
    decide_eq_true_eq] at hbuilds
  exact ⟨by simp [top, hdirectory], hbuilds⟩

theorem history_before (h : p.built.1.toOption.isSome = true)
    (hbuilds : p.buildsAlone = true := by rfl) :
    History p.updater.config.dbPath p.top p.updater.backend p.opened.1 p.updateSite.storage
      [p.buildRun] := by
  obtain ⟨-, -, hbuild⟩ := history_build h hbuilds
  exact hbuild

theorem built_of_succeeds (h : p.succeeds = true) : p.built.1.toOption.isSome = true := by
  simp only [succeeds, Bool.and_eq_true] at h
  exact h.1.1.1.1

/-- **An episode that succeeds is a history of two runs.** -/
theorem history (h : p.succeeds = true) (hmoved : p.MovesNothing := by exact nofun) :
    (∃ b, p.built.1 = .ok b) ∧ (∃ u, p.updated.1 = .ok u ∧ u.nothingChanged = false)
      ∧ History ⟨"/db"⟩ p.top p.backend p.opened.1 p.updated.2.storage
        [p.updateRun, p.buildRun] := by
  unfold succeeds at h
  simp only [Bool.and_eq_true, Bool.not_eq_true'] at h
  obtain ⟨⟨⟨⟨hbuild, hbuilds⟩, hplan⟩, hcommit⟩, hsave⟩ := h
  obtain ⟨b, hb, hprev⟩ := history_build hbuild hbuilds
  obtain ⟨u, hu⟩ := exists_ok hcommit
  have hemptied : p.emptied = (.ok (), p.emptied.2) := Prod.ext hu rfl
  obtain ⟨f, hf, hsaved⟩ : ∃ f, p.ran.1 = .ok f
      ∧ (p.updater.save p.opened.1 p.ran.2 none f).1.toOption.isSome = true := by
    cases hran : p.ran.1 with
    | error => simp [hran, Except.toOption] at hsave
    | ok f =>
      rw [hran] at hsave
      exact ⟨f, rfl, hsave⟩
  obtain ⟨answer, hanswer⟩ := exists_ok hsaved
  have hchanged : answer.1.nothingChanged = false :=
    (Engine.save_eq_ok (Prod.ext hanswer rfl)).choose_spec.2.1
  obtain ⟨site', hupdate⟩ : ∃ site', p.updater.update p.updateSite ∅ = (.ok answer.1, site') :=
    Engine.update_of_stores hprev.holds.serves.opens (hprev.holds.stores _ _ rfl) hplan hemptied
      (Prod.ext hf rfl) hanswer
  have hupdated : p.updated = (.ok answer.1, site') := hupdate
  refine ⟨⟨b, hb⟩, ⟨answer.1, by rw [hupdated], hchanged⟩, ?_⟩
  rw [hupdated]
  refine .update hprev rfl rfl hupdate hchanged hemptied fun hdirectory => ?_
  have hsame := hmoved hdirectory
  unfold updateRun at hsame
  rw [hsame]
  exact .refl (History.serves_of_commit hprev.holds.serves hemptied)

theorem exists_updated (h : p.succeeds = true) (hmoved : p.MovesNothing := by exact nofun) :
    ∃ u, p.updated = (.ok u, p.updated.2) := by
  obtain ⟨-, ⟨u, hu, -⟩, -⟩ := history h hmoved
  exact ⟨u, Prod.ext hu rfl⟩

end Episode

end SymbolIndex
