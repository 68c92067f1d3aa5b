import SymbolIndex.Engine
import SymbolIndex.Proofs.Landing
import SymbolIndex.Proofs.Persistence

/-!
# The history of a database

A database is made by a build and changed by updates. Each of them is a run of the scheduler: what
it starts from, what it lands, and what of it is written. A run of an update starts from what the
run before it has written, because what was written is what is loaded.

`History` follows the storage from run to run. It asks of the outside only that nobody else writes
to the database, neither between two runs nor, where the database is a directory, during one.
-/

namespace SymbolIndex

open Database Engine List
open Store (Changes Serves)

/-! ## Integrating units -/

namespace IndexState

variable {t t' : FileTable}

theorem grows_internAll {visited visited' : SortedSet FileId} {ps : List Path}
    (h : internAll t visited ps = .ok (visited', t')) : t.Grows t' := by
  induction ps generalizing t visited with
  | nil =>
    cases h
    exact .refl
  | cons _ _ ih =>
    obtain ⟨⟨id, t₁⟩, hone, h⟩ := bind_eq_ok_iff.mp h
    exact (FileTable.Grows.refl.intern hone).trans (ih h)

theorem extends_of_grows (h : t.Grows t') : t.Extends t' := by
  induction h with
  | refl => exact .refl t
  | intern _ hone ih => exact ih.trans (FileTable.intern_spec hone).1

/-- **What integrating units makes of an index.** The record of a symbol is the result of the
operations that name it, and the reference at a place is the first that was entered there. -/
theorem integrateAll_spec {s r : IndexState} {us : List ParsedUnit}
    (h : s.integrateAll us = .ok r) :
    s.files.Grows r.files ∧ ∀ T, r.files.Extends T →
      (∀ u, r.graph.entities.get? u = EntityOp.actAll T.place
        (EntityOp.on u (Graph.opsOf (us.map ParsedUnit.contribution))) (s.graph.entities.get? u))
      ∧ ∀ l, r.graph.pending.get? l = (s.graph.pending.get? l).or
        (Graph.firstAt T.place l (Graph.pendingOf (us.map ParsedUnit.contribution))) := by
  induction us generalizing s with
  | nil =>
    cases h
    exact ⟨.refl, fun _ _ => ⟨fun _ => rfl, fun _ => by simp [Graph.firstAt, Graph.pendingOf]⟩⟩
  | cons _ _ ih =>
    obtain ⟨⟨visited, s₁⟩, hone, h⟩ := bind_eq_ok_iff.mp h
    obtain ⟨hgrows, hget⟩ := ih h
    obtain ⟨graph, files, files', hmerge, hintern, rfl⟩ := integrate_eq_ok hone
    have hinterned := grows_internAll hintern
    obtain ⟨-, hmerged⟩ := Graph.merge_spec hmerge
    refine ⟨((FileTable.Grows.of_merge hmerge).trans hinterned).trans hgrows, fun T hT => ?_⟩
    have hT₁ := hmerged T (((extends_of_grows hinterned).trans (extends_of_grows hgrows)).trans hT)
    refine ⟨fun usr => ?_, fun l => ?_⟩
    · rw [(hget T hT).1 usr]
      show EntityOp.actAll _ _ (graph.entities.get? usr) = _
      rw [hT₁.1 usr]
      simp only [Graph.opsOf, map_cons, flatMap_cons, EntityOp.on_append, EntityOp.actAll_append]
    · rw [(hget T hT).2 l]
      show (graph.pending.get? l).or _ = _
      rw [hT₁.2 l]
      simp only [Graph.pendingOf, map_cons, flatMap_cons, Graph.firstAt_append, Option.or_assoc]

end IndexState

/-! ## Runs -/

/-- A run of the scheduler within a build or an update. -/
structure Run where
  setup : RunSetup
  schedule : Schedule
  /-- What the plan of the run was made from. -/
  seen : World
  dirty : SortedSet Path
  world : World
  start : IndexState
  invocations : List Invocation
  db : Path
  disk : Disk

namespace Run

variable {prev r : Run}

/-- The run when its schedule is over. -/
def ended (r : Run) : Scheduler := r.schedule.ended r.setup r.world r.start r.invocations

/-- What has landed, in order. -/
def landings (r : Run) : List Landing :=
  r.schedule.landings r.setup r.world r.start r.invocations

/-- What moving the artifacts into the database leads to. -/
def relocation (r : Run) : PchTable.Relocation := r.ended.state.pch.relocateAll r.disk r.db

@[irreducible] def saved (r : Run) : IndexState :=
  { r.ended.state with graph := r.ended.state.graph.reconcile.1, pch := r.relocation.table }

theorem files_saved (r : Run) : r.saved.files = r.ended.state.files := by
  unfold saved
  rfl

theorem graph_saved (r : Run) : r.saved.graph = r.ended.state.graph.reconcile.1 := by
  unfold saved
  rfl

theorem sources_saved (r : Run) : r.saved.sources = r.ended.state.sources := by
  unfold saved
  rfl

theorem pch_saved (r : Run) : r.saved.pch = r.relocation.table := by
  unfold saved
  rfl

theorem trace (r : Run) :
    Trace r.setup (Scheduler.start r.setup r.world r.start) r.invocations r.landings r.ended :=
  r.schedule.trace r.setup r.world r.start r.invocations

/-- The units that have landed, in order. -/
def units (r : Run) : List ParsedUnit := r.landings.map Landing.unit

theorem exists_integrated (r : Run) : ∃ i, r.start.integrateAll r.units = .ok i
    ∧ r.saved.graph = i.graph.reconcile.1 ∧ r.saved.files = i.files
    ∧ r.saved.sources = i.sources := by
  obtain ⟨i, hall, hindex⟩ := r.trace.integrated
  simp only [IndexState.index, Prod.mk.injEq] at hindex
  rw [r.graph_saved, r.files_saved, r.sources_saved, hindex.1]
  exact ⟨i, hall, rfl, hindex.2⟩

theorem grows_files (r : Run) : r.start.files.Grows r.saved.files := by
  obtain ⟨i, hall, -, hfiles, -⟩ := r.exists_integrated
  rw [hfiles]
  exact (IndexState.integrateAll_spec hall).1

/-- A storage with the artifacts moved. -/
def readied (r : Run) (s : Storage) : Storage := { s with disk := r.relocation.disk }

def Listing (key : String) : Prop := key = DbKey.sourceDir ∨ key = DbKey.files

/-- A run is written, and what is written after it leaves the index alone. -/
def Writes (r : Run) (st : Store) (s s' : Storage) : Prop :=
  ∃ stored, commit st (r.readied s) (Database.saveMutations r.saved) = (.ok (), stored)
    ∧ ∀ path top b, Serves path top b st stored →
      Changes path top b st Listing stored s'

/-- The run was found complete. -/
def Completed (r : Run) : Prop := ∃ stats, r.ended.waitForCompletion.1 = .ok stats

/-- What an update after a run plans. -/
def planAfter (prev : Run) (seen : World) (unsaved : UnsavedFiles) : Plan :=
  Plan.make seen.lastModified prev.saved.sources unsaved.keys

/-- A run is an update of what another has stored. -/
structure Continues (prev r : Run) : Prop where
  dirty : r.dirty = (prev.planAfter r.seen r.setup.unsaved).dirtyFiles
  invocations : r.invocations = (prev.planAfter r.seen r.setup.unsaved).reparse
  start : r.start = Engine.retainedState (Database.loadedOf prev.saved)
    (prev.planAfter r.seen r.setup.unsaved)
    (invalidation prev.saved.graph.entities r.dirty prev.saved.files).2

theorem Continues.files (h : prev.Continues r) : r.start.files = prev.saved.files := by
  rw [h.start]
  rfl

theorem Continues.extends_files (h : prev.Continues r) :
    prev.saved.files.Extends r.saved.files := by
  rw [← h.files]
  exact IndexState.extends_of_grows r.grows_files

end Run

/-- A build and the updates after it, the last first. -/
inductive Runs : List Run → Prop where
  | build {r : Run} : r.start = {} → r.dirty = ∅ → Runs [r]
  | update {r prev : Run} {earlier : List Run} :
      Runs (prev :: earlier) → prev.Continues r → Runs (r :: prev :: earlier)

theorem Runs.numbered {r : Run} {earlier : List Run} (h : Runs (r :: earlier)) :
    r.saved.files.Numbered := by
  generalize hruns : r :: earlier = runs at h
  induction h generalizing r earlier with
  | build hstart =>
    obtain ⟨rfl, -⟩ := List.cons.inj hruns
    refine r.grows_files.numbered ?_
    rw [hstart]
    exact FileTable.numbered_empty
  | update _ hcont ih =>
    obtain ⟨rfl, -⟩ := List.cons.inj hruns
    refine r.grows_files.numbered ?_
    rw [hcont.files]
    exact ih rfl

/-! ## What an engine does to a storage -/

theorem Scheduler.waitForCompletion_frame (s : Scheduler) :
    s.waitForCompletion.2.state = s.state ∧ s.waitForCompletion.2.world = s.world := by
  have hworld : ∀ f, (s.mapCompletion f).world = s.world := by
    intro f
    unfold mapCompletion
    simp only
    split <;> rfl
  unfold waitForCompletion
  simp only
  split
  · exact ⟨s.state_mapCompletion _, hworld _⟩
  · exact ⟨s.state_mapCompletion _, hworld _⟩

namespace Engine

open Run (Listing)

def errorLogName (millis : Nat) : String := "errors_" ++ toString millis ++ ".log"

theorem isName_errorLogName (millis : Nat) :
    Disk.IsName (errorLogName millis) ∧ ∀ key, Store.fileNameFor key ≠ errorLogName millis := by
  have hlist : (errorLogName millis).toList
      = "errors_".toList ++ (toString millis).toList ++ ".log".toList := by
    unfold errorLogName
    rw [String.toList_append, String.toList_append]
  have hne : ∀ name : String, name.toList.length < 5 → errorLogName millis ≠ name := by
    intro name hlt heq
    have hlength := congrArg (fun s => s.toList.length) heq
    simp only [hlist, length_append] at hlength
    have hfront : "errors_".toList.length = 7 := by decide
    omega
  refine ⟨⟨hne _ (by decide), hne _ (by decide), hne _ (by decide), ?_⟩, fun key heq => ?_⟩
  · rw [hlist, mem_append, mem_append, not_or, not_or]
    refine ⟨⟨by decide, fun hmem => ?_⟩, by decide⟩
    have hdigit := Nat.isDigit_of_mem_toDigits (b := 10) (n := millis) (c := '/') (by omega)
      (by omega) (by simpa [Nat.toString_eq_ofList_toDigits] using hmem)
    cases hdigit
  · have hlast := Store.getLast?_fileNameFor key
    rw [heq, hlist, getLast?_append] at hlast
    cases Option.some.inj hlast

section Storage

variable {path : Path} {top : Spot} {b : Backend} {st : Store} {site : Site} {s : Storage}

theorem changes_keepErrors (scratch : Path) (errors : List String)
    (h : Serves path top b st site.storage) :
    Changes path top b st (fun _ => False) site.storage
      (keepErrors scratch site st.path errors).2.storage := by
  unfold keepErrors
  simp only
  split
  · exact .refl h
  · split
    · exact .refl h
    · split
      · exact .refl h
      · next disk hwrite =>
        obtain ⟨hname, hvalue⟩ := isName_errorLogName (Disk.millis site.storage.disk.now).toNat
        exact h.writeBeside hname hvalue hwrite

theorem storage_noteClosed (st : Store) (site : Site) :
    (noteClosed st site).storage = site.storage := by
  unfold noteClosed
  split <;> rfl

theorem changes_closing (h : Serves path top b st s) (site : Site) (scratch : Path)
    (errors : List String) :
    Changes path top b st (fun _ => False) s
      (keepErrors scratch (noteClosed st (site.withStorage s)) st.path errors).2.storage := by
  have hclosed : (noteClosed st (site.withStorage s)).storage = s := storage_noteClosed st _
  rw [← hclosed] at h
  have hkeep := changes_keepErrors scratch errors h
  rwa [hclosed] at hkeep

theorem changes_writeListing {s' : Storage} {root : Path} {n : Nat}
    (h : Serves path top b st s) (hok : Database.writeListing st s root = (.ok n, s')) :
    Changes path top b st Listing s s' := by
  unfold Database.writeListing at hok
  split at hok
  · cases hok
  · next listing _ =>
    split at hok
    · next s₁ hcommit =>
      cases hok
      refine (Mutation.changes_applyAll h (applyAll_of_commit hcommit)).mono ?_
      rintro key ⟨m, hm, hkey⟩
      simp only [Database.listingMutations, mem_cons, not_mem_nil, or_false] at hm
      rcases hm with rfl | rfl
      · exact .inl hkey
      · exact .inr hkey
    · cases hok

def savedState (f : Finished) (disk : Disk) (db : Path) : IndexState :=
  { f.state with
    graph := f.state.graph.reconcile.1
    pch := (f.state.pch.relocateAll disk db).table }

/-- **A run that was saved is committed; what comes after leaves the index alone.** -/
theorem save_eq_ok {e : Engine} {site' : Site} {listing : Option Path} {f : Finished}
    {answer : RunSummary × Nat} (h : e.save st site listing f = (.ok answer, site')) :
    ∃ stored, commit st
        { site.storage with disk := (f.state.pch.relocateAll site.storage.disk st.path).disk }
        (Database.saveMutations (savedState f site.storage.disk st.path)) = (.ok (), stored)
      ∧ answer.1.nothingChanged = false
      ∧ ∀ path top b, Serves path top b st stored →
        Changes path top b st Listing stored site'.storage := by
  unfold save at h
  simp only at h
  split at h
  · cases h
  · next stored hcommit =>
    refine ⟨stored, hcommit, ?_⟩
    split at h
    · cases h
    · next n s₁ hlisted =>
      obtain ⟨hanswer, rfl⟩ := Prod.mk.inj h
      refine ⟨by rw [← Except.ok.inj hanswer], fun path top b hserves => ?_⟩
      have hchanges : Changes path top b st Listing stored s₁ := by
        cases listing with
        | some => exact changes_writeListing hserves hlisted
        | none =>
          cases hlisted
          exact .refl hserves
      refine hchanges.trans (Changes.mono ?_ (fun _ => False.elim))
      exact changes_closing hchanges.serves _ e.scratch f.errors

end Storage

def setupFor (e : Engine) (kind : JobKind) (unsaved : UnsavedFiles) : RunSetup :=
  { config := e.config, frontend := e.frontend, unsaved, kind }

variable {e : Engine} {site site' : Site} {unsaved : UnsavedFiles} {s : Storage} {st : Store}
  {summary : RunSummary} {m : Entities}

/-- **How a run ends**: it cannot start, its jobs are not found to have ended, or it is complete. -/
theorem run_cases {kind : JobKind} {state : IndexState} {is : List Invocation}
    {answer : Except EngineError Finished} (h : e.run site kind unsaved state is = (answer, site'))
    {w : World} (hworld : site.world = w) (hstorage : site.storage = s) {ended : Scheduler}
    (hended : e.schedule.ended (e.setupFor kind unsaved) w state is = ended) :
    ((e.setupFor kind unsaved).canStart = false ∧ site'.storage = s ∧ ∃ err, answer = .error err)
      ∨ ((e.setupFor kind unsaved).canStart = true
        ∧ site'.storage = { s with disk := ended.world.disk }
        ∧ ((∃ failure err, ended.waitForCompletion.1 = .error failure ∧ answer = .error err)
          ∨ ∃ stats f, ended.waitForCompletion.1 = .ok stats ∧ answer = .ok f
            ∧ f.state = ended.state)) := by
  subst hworld hstorage hended
  have hframe :=
    (e.schedule.ended (e.setupFor kind unsaved) site.world state is).waitForCompletion_frame
  unfold run at h
  simp only at h
  split at h
  · next hstart =>
    cases h
    exact .inl ⟨by simpa [setupFor] using hstart, rfl, _, rfl⟩
  · next hstart =>
    refine .inr ⟨by simpa [setupFor] using hstart, ?_⟩
    rw [← hframe.2]
    split at h
    · next failure hanswer =>
      cases h
      exact ⟨rfl, .inl ⟨failure, _, hanswer, rfl⟩⟩
    · next stats hanswer =>
      cases h
      exact ⟨rfl, .inr ⟨stats, _, hanswer, rfl, hframe.1⟩⟩

theorem run_eq_ok {kind : JobKind} {state : IndexState} {is : List Invocation} {f : Finished}
    (h : e.run site kind unsaved state is = (.ok f, site')) {w : World} (hworld : site.world = w)
    (hstorage : site.storage = s) :
    f.state = (e.schedule.ended (e.setupFor kind unsaved) w state is).state
      ∧ site'.storage = { s with
          disk := (e.schedule.ended (e.setupFor kind unsaved) w state is).world.disk }
      ∧ ∃ stats, (e.schedule.ended (e.setupFor kind unsaved) w state is).waitForCompletion.1
          = .ok stats := by
  rcases run_cases h hworld hstorage rfl with
    ⟨-, -, err, herr⟩ | ⟨-, hleft, ⟨_, _, -, herr⟩ | ⟨stats, _, hwait, hok, hstate⟩⟩
  · cases herr
  · cases herr
  · cases hok
    exact ⟨hstate, hleft, stats, hwait⟩

def buildRun (e : Engine) (site : Site) (is : List Invocation) (st : Store) (made : Storage) : Run :=
  { setup := e.setupFor .compile ∅, schedule := e.schedule, seen := site.world, dirty := ∅
    world := site.world, start := {}, invocations := is, db := st.path, disk := made.disk }

def updateRun (e : Engine) (site : Site) (unsaved : UnsavedFiles) (st : Store)
    (loaded : Database.Loaded) (m : Entities) (emptied : Storage) : Run :=
  let setup := e.setupFor .dirty unsaved
  let plan := Plan.make site.world.lastModified loaded.sources unsaved.keys
  let world : World := { site.world with disk := emptied.disk }
  let start := retainedState loaded plan
    (invalidation m plan.dirtyFiles loaded.files).2
  { setup, schedule := e.schedule, seen := site.world, dirty := plan.dirtyFiles, world, start
    invocations := plan.reparse, db := st.path
    disk := (e.schedule.ended setup world start plan.reparse).world.disk }

theorem openStore_eq_ok {mode : OpenMode} (h : e.openStore site mode = (.ok st, site')) :
    Store.open site.storage e.backend e.config.dbPath mode = .ok (st, site'.storage)
      ∧ site'.stamps = site.stamps := by
  unfold openStore at h
  split at h
  · cases h
  · next store storage hopen =>
    obtain ⟨hst, rfl⟩ := Prod.mk.inj h
    rw [hopen, Except.ok.inj hst]
    exact ⟨rfl, rfl⟩

/-- **What a build does.** -/
theorem build_eq_ok {request : BuildRequest} (h : e.build site request = (.ok summary, site')) :
    ∃ is st made, collect site.world request = .ok is
      ∧ Store.open { site.storage with disk := (e.buildRun site is st made).ended.world.disk }
          e.backend e.config.dbPath .create = .ok (st, made)
      ∧ (e.buildRun site is st made).Completed
      ∧ (e.buildRun site is st made).Writes st made site'.storage := by
  unfold build at h
  split at h
  · cases h
  · simp only at h
    split at h
    · cases h
    · cases h
    · next is _ hcollect =>
      split at h
      · cases h
      · next f site₁ hrun =>
        obtain ⟨hstate, hstorage, hcompleted⟩ := run_eq_ok hrun rfl rfl
        split at h
        · cases h
        · next st site₂ hopen =>
          obtain ⟨hopened, -⟩ := openStore_eq_ok hopen
          split at h
          · cases h
          · next answer n site₃ hsave =>
            cases h
            obtain ⟨stored, hcommit, -, hchanges⟩ := save_eq_ok hsave
            rw [hstorage] at hopened
            refine ⟨is, st, site₂.storage, hcollect, hopened, hcompleted, stored, ?_, hchanges⟩
            unfold savedState at hcommit
            rw [hstate] at hcommit
            unfold Run.saved
            exact hcommit

/-- What comes of an update once its run has ended. -/
def concluded (e : Engine) (st : Store) :
    Except EngineError Finished × Site → Except EngineError RunSummary × Storage
  | (.error error, site) => (.error error, site.storage)
  | (.ok f, site) => ((e.save st site none f).1.map Prod.fst, (e.save st site none f).2.storage)

/-- All that an update can come to, given its plan and what is in the database it opens. -/
inductive Updates (e : Engine) (site : Site) (unsaved : UnsavedFiles) (st : Store)
    (loaded : Database.Loaded) (m : Entities) (plan : Plan) :
    Except EngineError RunSummary × Site → Prop where
  | idle {site' : Site} : plan.isEmpty = true → site'.storage = site.storage →
      site'.stamps = site.stamps → site'.requests = site.requests → site'.calls = site.calls →
      Updates e site unsaved st loaded m plan (.ok { nothingChanged := true }, site')
  | stuck {failure : DatabaseError} {site' : Site} : plan.isEmpty = false →
      commit st site.storage (invalidation m plan.dirtyFiles loaded.files).1
        = (.error failure, site'.storage) →
      Updates e site unsaved st loaded m plan (.error (.database failure), site')
  | ran {emptied : Storage} {site₁ site' : Site} {answer : Except EngineError RunSummary} :
      plan.isEmpty = false →
      commit st site.storage (invalidation m plan.dirtyFiles loaded.files).1
        = (.ok (), emptied) →
      e.concluded st (e.run site₁ .dirty unsaved
          (e.updateRun site unsaved st loaded m emptied).start
          (e.updateRun site unsaved st loaded m emptied).invocations) = (answer, site'.storage) →
      site₁.storage = emptied → site₁.stamps = site.stamps →
      Updates e site unsaved st loaded m plan (answer, site')

variable {loaded : Database.Loaded}
  (hopen : Store.open site.storage e.backend e.config.dbPath .readWrite = .ok (st, site.storage))
  (hstores : Database.Stores st site.storage loaded m)

include hopen hstores

theorem updates (unsaved : UnsavedFiles) :
    Updates e site unsaved st loaded m
      (Plan.make site.world.lastModified loaded.sources unsaved.keys) (e.update site unsaved) := by
  obtain ⟨site₁, hopened, hstorage, hstamps, hworld, hrequests, hcalls⟩ : ∃ site₁,
      e.openStore site .readWrite = (.ok st, site₁) ∧ site₁.storage = site.storage
        ∧ site₁.stamps = site.stamps ∧ site₁.world = site.world
        ∧ site₁.requests = site.requests ∧ site₁.calls = site.calls := by
    unfold openStore
    rw [hopen]
    exact ⟨_, rfl, rfl, rfl, rfl, rfl, rfl⟩
  unfold update Database.invalidate
  simp only [hopened, hstorage, hstores.load, hworld, Site.noteAll, hstores.entities]
  split
  · next hempty =>
    refine .idle hempty (storage_noteClosed st _) ?_ ?_ ?_ <;>
      (unfold noteClosed; split <;> assumption)
  · next hstale =>
    have hstale := Bool.eq_false_iff.mpr hstale
    rcases hcommit : commit st site.storage (invalidation m
      (Plan.make site.world.lastModified loaded.sources unsaved.keys).dirtyFiles loaded.files).1
      with ⟨failure | ⟨⟩, emptied⟩ <;> simp only
    · exact .stuck hstale hcommit
    · split
      · next error site₂ hran =>
        exact .ran hstale hcommit (congrArg (e.concluded st) hran) rfl hstamps
      · next f site₂ hran =>
        have hconcluded := congrArg (e.concluded st) hran
        simp only [concluded] at hconcluded
        split <;> next hsave =>
          rw [hsave] at hconcluded
          exact .ran hstale hcommit hconcluded rfl hstamps

/-- **What an update does**, given what is in the database it opens: nothing, when no unit is
stale, and otherwise it forgets what is stale and runs. -/
theorem update_eq_ok (h : e.update site unsaved = (.ok summary, site')) :
    let plan := Plan.make site.world.lastModified loaded.sources unsaved.keys
    (summary.nothingChanged = true ∧ plan.isEmpty = true ∧ site'.storage = site.storage)
      ∨ (summary.nothingChanged = false ∧ plan.isEmpty = false ∧ ∃ emptied,
          commit st site.storage (invalidation m plan.dirtyFiles loaded.files).1 = (.ok (), emptied)
          ∧ (e.updateRun site unsaved st loaded m emptied).Completed
          ∧ (e.updateRun site unsaved st loaded m emptied).Writes st emptied site'.storage) := by
  have hupdates := updates hopen hstores unsaved
  rw [h] at hupdates
  cases hupdates with
  | idle hempty hstorage => exact .inl ⟨rfl, hempty, hstorage⟩
  | @ran emptied site₁ _ _ hstale hcommit hconcluded hstorage hstamps =>
    right
    rcases hrun : e.run site₁ .dirty unsaved (e.updateRun site unsaved st loaded m emptied).start
      (e.updateRun site unsaved st loaded m emptied).invocations with ⟨_ | f, site₂⟩ <;>
      rw [hrun] at hconcluded
    · cases hconcluded
    · have hworld : site₁.world = { site.world with disk := emptied.disk } := by
        unfold Site.world
        rw [hstorage, hstamps]
      obtain ⟨hstate, hran, hcompleted⟩ := run_eq_ok hrun hworld hstorage
      rcases hsave : e.save st site₂ none f with ⟨_ | answer, site₃⟩ <;>
        simp only [concluded, hsave, Prod.mk.injEq] at hconcluded <;> cases hconcluded.1
      obtain ⟨stored, hstored, hchanged, hchanges⟩ := save_eq_ok hsave
      refine ⟨hchanged, hstale, emptied, hcommit, hcompleted, stored, ?_, ?_⟩
      · unfold savedState at hstored
        rw [hstate, hran] at hstored
        unfold Run.saved
        exact hstored
      · exact hconcluded.2 ▸ hchanges

end Engine

/-! ## From run to run -/

/-- What happens on a disk leaves a database in a directory alone; one in memory is not on it. -/
def Spared (path : Path) (top : Spot) (b : Backend) (st : Store) (s : Storage) (disk : Disk) :
    Prop :=
  b = .filesystem → Changes path top b st (fun _ => False) s { s with disk }

theorem Spared.changes {path : Path} {top : Spot} {b : Backend} {st : Store} {s : Storage}
    {disk : Disk} (h : Spared path top b st s disk) (hserves : Serves path top b st s) :
    Changes path top b st (fun _ => False) s { s with disk } := by
  cases hserves with
  | directory => exact h rfl
  | volume hdb hlt => exact ⟨.volume hdb hlt, fun _ _ => rfl⟩

/-- All that was done to a database: a build, updates, and changes elsewhere. -/
inductive History (path : Path) (top : Spot) (b : Backend) : Store → Storage → List Run → Prop where
  | build {e : Engine} {site site' : Site} {request : BuildRequest} {summary : RunSummary}
      {is : List Invocation} {st : Store} {made : Storage} :
      e.config.dbPath = path → e.backend = b →
      e.build site request = (.ok summary, site') →
      Engine.collect site.world request = .ok is →
      Store.open { site.storage with disk := (e.buildRun site is st made).ended.world.disk }
        b path .create = .ok (st, made) →
      Store.Direct path top b (e.buildRun site is st made).ended.world.disk →
      Spared path top b st made (e.buildRun site is st made).relocation.disk →
      History path top b st site'.storage [e.buildRun site is st made]
  /-- An update that finds stale units runs over the database that the last run has left. -/
  | update {e : Engine} {site site' : Site} {unsaved : UnsavedFiles} {summary : RunSummary}
      {st : Store} {prev : Run} {earlier : List Run} {emptied : Storage} :
      History path top b st site.storage (prev :: earlier) →
      e.config.dbPath = path → e.backend = b →
      e.update site unsaved = (.ok summary, site') → summary.nothingChanged = false →
      commit st site.storage (invalidation prev.saved.graph.entities
        (prev.planAfter site.world unsaved).dirtyFiles prev.saved.files).1 = (.ok (), emptied) →
      Spared path top b st emptied (e.updateRun site unsaved st (Database.loadedOf prev.saved)
        prev.saved.graph.entities emptied).relocation.disk →
      History path top b st site'.storage
        (e.updateRun site unsaved st (Database.loadedOf prev.saved) prev.saved.graph.entities
          emptied :: prev :: earlier)
  | still {st : Store} {s s' : Storage} {runs : List Run} :
      History path top b st s runs → Changes path top b st (fun _ => False) s s' →
      History path top b st s' runs

namespace History

/-- A database serves, and holds what the last run has saved. -/
structure Holds (path : Path) (top : Spot) (b : Backend) (st : Store) (s : Storage)
    (runs : List Run) : Prop where
  serves : Serves path top b st s
  chain : Runs runs
  stores : ∀ r earlier, runs = r :: earlier →
    Database.Stores st s (Database.loadedOf r.saved) r.saved.graph.entities

variable {path : Path} {top : Spot} {b : Backend} {st : Store} {s s' : Storage} {r prev : Run}
  {earlier runs : List Run}

theorem Holds.changes {changed : String → Prop} (h : Holds path top b st s runs)
    (hchanges : Changes path top b st changed s s')
    (hindex : ∀ key ∈ Database.indexKeys, ¬ changed key) : Holds path top b st s' runs := by
  refine ⟨hchanges.serves, h.chain, fun r earlier heq => ?_⟩
  exact (h.stores r earlier heq).changes hchanges hindex

theorem holds_of_writes (hruns : Runs (r :: earlier)) (hserves : Serves path top b st s)
    (hspared : Spared path top b st s r.relocation.disk) (hwrites : r.Writes st s s') :
    Holds path top b st s' (r :: earlier) := by
  obtain ⟨stored, hcommit, hlater⟩ := hwrites
  have hready : Serves path top b st (r.readied s) := (hspared.changes hserves).serves
  have hstored := Mutation.changes_applyAll hready (applyAll_of_commit hcommit)
  have hholds : Holds path top b st stored (r :: earlier) := by
    refine ⟨hstored.serves, hruns, fun r' earlier' heq => ?_⟩
    cases heq
    exact stores_of_save hready hruns.numbered.toSound hcommit
  refine hholds.changes (hlater path top b hstored.serves) ?_
  unfold Run.Listing
  decide

variable {e : Engine} {site site' : Site} {request : BuildRequest} {summary : RunSummary}
  {unsaved : UnsavedFiles}

theorem writes_of_build {is : List Invocation} {made : Storage}
    (hok : e.build site request = (.ok summary, site'))
    (hcollect : Engine.collect site.world request = .ok is) (hopen : Store.open
      { site.storage with disk := (e.buildRun site is st made).ended.world.disk }
      e.backend e.config.dbPath .create = .ok (st, made)) :
    (e.buildRun site is st made).Writes st made site'.storage := by
  obtain ⟨is', st', made', hcollect', hopen', -, hwrites⟩ := build_eq_ok hok
  obtain rfl : is = is' := Except.ok.inj (hcollect.symm.trans hcollect')
  cases hopen.symm.trans hopen'
  exact hwrites

theorem continues_updateRun (e : Engine) (site : Site) (unsaved : UnsavedFiles) (prev : Run)
    (emptied : Storage) :
    prev.Continues (e.updateRun site unsaved st (Database.loadedOf prev.saved)
      prev.saved.graph.entities emptied) := by
  refine ⟨rfl, rfl, rfl⟩

theorem writes_of_update {emptied : Storage}
    (hholds : Holds path top b st site.storage (prev :: earlier)) (hpath : e.config.dbPath = path)
    (hbackend : e.backend = b) (hok : e.update site unsaved = (.ok summary, site'))
    (hchanged : summary.nothingChanged = false)
    (hcommit : commit st site.storage (invalidation prev.saved.graph.entities
        (prev.planAfter site.world unsaved).dirtyFiles prev.saved.files).1 = (.ok (), emptied)) :
    (e.updateRun site unsaved st (Database.loadedOf prev.saved) prev.saved.graph.entities
      emptied).Writes st emptied site'.storage := by
  subst hpath hbackend
  rcases update_eq_ok hholds.serves.opens (hholds.stores prev earlier rfl) hok with
    ⟨hidle, -⟩ | ⟨-, -, emptied', hcommit', -, hwrites⟩
  · rw [hchanged] at hidle
    cases hidle
  · rw [sources_loadedOf, files_loadedOf] at hcommit'
    unfold Run.planAfter at hcommit
    obtain rfl : emptied = emptied' := congrArg Prod.snd (hcommit.symm.trans hcommit')
    exact hwrites

theorem serves_of_commit {ms : List Mutation} (h : Serves path top b st s)
    (hok : commit st s ms = (.ok (), s')) : Serves path top b st s' :=
  (Mutation.changes_applyAll h (applyAll_of_commit hok)).serves

/-- **A database holds what the last run has written.** -/
theorem holds (h : History path top b st s runs) : Holds path top b st s runs := by
  induction h with
  | build hpath hbackend hok hcollect hopen hdirect hspared =>
    subst hpath hbackend
    have hserves := (Store.serves_of_create hdirect hopen).1
    exact holds_of_writes (.build rfl rfl) hserves hspared (writes_of_build hok hcollect hopen)
  | update _ hpath hbackend hok hchanged hcommit hspared ih =>
    refine holds_of_writes (.update ih.chain (continues_updateRun _ _ _ _ _))
      (serves_of_commit ih.serves hcommit) hspared ?_
    exact writes_of_update ih hpath hbackend hok hchanged hcommit
  | still _ hchanges ih => exact ih.changes hchanges (fun _ _ => id)

theorem completed (h : History path top b st s runs) : ∀ r ∈ runs, r.Completed := by
  induction h with
  | build _ _ hok hcollect =>
    obtain ⟨is', st', made', hcollect', -, hcompleted, -⟩ := build_eq_ok hok
    cases hcollect.symm.trans hcollect'
    intro r hr
    rw [mem_singleton.mp hr]
    exact hcompleted
  | update h hpath hbackend hok hchanged hcommit _ ih =>
    subst hpath hbackend
    intro r hr
    rcases mem_cons.mp hr with rfl | hr
    · rcases update_eq_ok h.holds.serves.opens (h.holds.stores _ _ rfl) hok with
        ⟨hidle, -⟩ | ⟨-, -, emptied, hcommit', hcompleted, -⟩
      · rw [hchanged] at hidle
        cases hidle
      · rw [sources_loadedOf, files_loadedOf] at hcommit'
        unfold Run.planAfter at hcommit
        obtain rfl := congrArg Prod.snd (hcommit.symm.trans hcommit')
        exact hcompleted
    · exact ih r hr
  | still _ _ ih => exact ih

theorem induct {motive : Store → Storage → List Run → Prop}
    (hbuild : ∀ {st made s' r}, r.start = {} → r.dirty = ∅ → Serves path top b st made →
      (∀ key, key ≠ "" → st.valueAt made key = none) →
      Changes path top b st (fun _ => False) made (r.readied made) → r.Writes st made s' →
      motive st s' [r])
    (hupdate : ∀ {st s emptied s' prev r earlier}, Holds path top b st s (prev :: earlier) →
      motive st s (prev :: earlier) → prev.Continues r →
      commit st s (invalidation prev.saved.graph.entities r.dirty
        prev.saved.files).1 = (.ok (), emptied) →
      Changes path top b st (fun _ => False) emptied (r.readied emptied) →
      r.Writes st emptied s' → motive st s' (r :: prev :: earlier))
    (hstill : ∀ {st s s' runs}, motive st s runs →
      Changes path top b st (fun _ => False) s s' → motive st s' runs)
    (h : History path top b st s runs) : motive st s runs := by
  induction h with
  | @build _ _ _ _ _ _ st made hpath hbackend hok hcollect hopen hdirect hspared =>
    subst hpath hbackend
    obtain ⟨hserves, hempty⟩ := Store.serves_of_create hdirect hopen
    refine hbuild rfl rfl hserves (fun key hkey => ?_) (hspared.changes hserves)
      (writes_of_build hok hcollect hopen)
    cases hvalue : st.valueAt made key with
    | none => rfl
    | some value => exact absurd (Store.read_of_valueAt hvalue) (hempty key hkey value)
  | update hprev hpath hbackend hok hchanged hcommit hspared ih =>
    refine hupdate hprev.holds ih (continues_updateRun _ _ _ _ _) hcommit ?_ ?_
    · exact hspared.changes (serves_of_commit hprev.holds.serves hcommit)
    · exact writes_of_update hprev.holds hpath hbackend hok hchanged hcommit
  | still _ hchanges ih => exact hstill ih hchanges

end History

end SymbolIndex
