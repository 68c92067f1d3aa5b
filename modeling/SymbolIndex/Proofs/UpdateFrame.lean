import SymbolIndex.Proofs.Provenance

/-!
# What an update takes away and what it leaves

An update that parses something forgets the places in the files that count as changed and starts
from the others. So whatever it stores in a changed file was told by a unit that it has parsed
(`Run.Continues.exact`), and what was stored elsewhere is still there (`Run.Continues.framed`).

An update that parses nothing changes nothing, even if a file counts as changed: a buffer stands for
a file that no unit is known to depend on, and the places in it stay as they were
(`History.update_keeps_changed_place`).
-/

namespace SymbolIndex

namespace Run

/-- Every place that is stored in a changed file comes from a unit of the run. -/
def Exact (r : Run) : Prop :=
  ∀ usr e role l, r.saved.graph.entities.get? usr = some e → e.At role l →
    r.saved.files.LiesIn r.dirty l → r.Brings usr role l

/-- Every place of a symbol that was stored outside the changed files is stored for the same symbol
in the same role, but that a declaration gives way to a definition that the run puts at its place.
Files keep their numbers. -/
structure Framed (prev r : Run) : Prop where
  numbers : prev.saved.files.Extends r.saved.files
  places : ∀ usr e role l, prev.saved.graph.entities.get? usr = some e → e.At role l →
    role ≠ .base → ¬ prev.saved.files.LiesIn r.dirty l →
    ∃ e', r.saved.graph.entities.get? usr = some e'
      ∧ (e'.At role l
        ∨ (role = .declaration ∧ e'.At .definition l ∧ r.Brings usr .definition l))

variable {prev r : Run} {earlier : List Run}

theorem Continues.exact (h : prev.Continues r) (hruns : Runs (prev :: earlier)) : r.Exact := by
  intro usr e role l hget hat hlies
  rcases r.at_saved h.pending_start hget hat with ⟨e₁, he₁, hat₁⟩ | hbrings
  · -- a place the run started from lies outside the changed files, whatever has a number by now
    obtain ⟨⟨e₀, he₀, hat₀⟩, hoff⟩ := h.at_of_start he₁ hat₁
    have hnumbers := hruns.located usr e₀ role l he₀ hat₀
    have hsound := (Runs.update hruns h).numbered.toSound
    exact absurd ((hnumbers.liesIn_iff h.extends_files hsound r.dirty).mp hlies) hoff
  · exact hbrings

theorem Continues.framed (h : prev.Continues r) : Framed prev r where
  numbers := h.extends_files
  places := fun usr e role l hget hat hrole hoff => by
    obtain ⟨e₁, he₁, hat₁⟩ := h.at_start hget hat hrole hoff
    exact at_saved_of_start he₁ hat₁

end Run

/-! ## Updates -/

namespace Engine

open Database (Loaded)
open Mutation (applyAll)

/-- What an update takes off its database before it runs, and the records that are left. -/
def forgets (site : Site) (unsaved : UnsavedFiles) (loaded : Loaded) (m : Entities) :
    List Mutation × Entities :=
  Database.invalidation m
    (Plan.make site.world.lastModified loaded.sources unsaved.keys).dirtyFiles loaded.files

/-- The storage once that is taken off. -/
def forgotten (site : Site) (unsaved : UnsavedFiles) (st : Store) (loaded : Loaded)
    (m : Entities) : Storage :=
  (applyAll st site.storage (forgets site unsaved loaded m).1).2

/-- The run of an update. -/
def reachedRun (e : Engine) (site : Site) (unsaved : UnsavedFiles) (st : Store)
    (loaded : Loaded) (m : Entities) : Run :=
  e.updateRun site unsaved st loaded m (forgotten site unsaved st loaded m)

theorem commit_snd {st : Store} (s : Storage) (ms : List Mutation) :
    (Database.commit st s ms).2 = (applyAll st s ms).2 := by
  unfold Database.commit
  split
  · next hall => rw [hall]
  · next hall => rw [hall]

end Engine

namespace Episode

variable {p : Episode}

/-- The run of the update of an episode. -/
def reachedRun (p : Episode) : Run :=
  p.updater.reachedRun p.updateSite ∅ p.opened.1 (Database.loadedOf p.buildRun.saved)
    p.buildRun.saved.graph.entities

theorem buildsAlone_of_succeeds (h : p.succeeds = true) : p.buildsAlone = true := by
  simp only [succeeds, Bool.and_eq_true] at h
  exact h.1.1.1.2

theorem reparse_of_succeeds (h : p.succeeds = true) : p.plan.reparse ≠ [] := by
  simp only [succeeds, Bool.and_eq_true, Bool.not_eq_true'] at h
  intro hnil
  have hplan := h.1.1.2
  unfold Plan.isEmpty at hplan
  rw [hnil] at hplan
  cases hplan

theorem forgotten_eq (p : Episode) :
    Engine.forgotten p.updateSite ∅ p.opened.1 (Database.loadedOf p.buildRun.saved)
      p.buildRun.saved.graph.entities = p.emptied.2 :=
  (Engine.commit_snd _ _).symm

/-- The update of an episode that succeeds leaves the database alone while its artifacts are
moved. -/
theorem spared_reachedRun (h : p.succeeds = true) (hmoved : p.MovesNothing) :
    Spared p.updater.config.dbPath p.top p.updater.backend p.opened.1
      (Engine.forgotten p.updateSite ∅ p.opened.1 (Database.loadedOf p.buildRun.saved)
        p.buildRun.saved.graph.entities) p.reachedRun.relocation.disk := by
  intro hdirectory
  have hprev := history_before (built_of_succeeds h) (buildsAlone_of_succeeds h)
  simp only [succeeds, Bool.and_eq_true] at h
  obtain ⟨_, hcommit⟩ := exists_ok h.1.2
  unfold reachedRun Engine.reachedRun
  rw [forgotten_eq]
  have hsame : (p.updater.updateRun p.updateSite ∅ p.opened.1 (Database.loadedOf p.buildRun.saved)
      p.buildRun.saved.graph.entities p.emptied.2).relocation.disk = p.emptied.2.disk :=
    hmoved hdirectory
  rw [hsame]
  exact .refl (History.serves_of_commit hprev.holds.serves (Prod.ext hcommit rfl))

end Episode

/-- **When an update has nothing to do**, given what is in the database it opens: it leaves the
storage alone and asks nothing of the front end. -/
theorem Engine.update_of_idle {e : Engine} {site : Site} {unsaved : UnsavedFiles} {st : Store}
    {loaded : Database.Loaded} {m : Entities}
    (hopen : Store.open site.storage e.backend e.config.dbPath .readWrite = .ok (st, site.storage))
    (hstores : Database.Stores st site.storage loaded m)
    (hplan : (Plan.make site.world.lastModified loaded.sources unsaved.keys).isEmpty = true) :
    ∃ site', e.update site unsaved = (.ok { nothingChanged := true }, site')
      ∧ site'.storage = site.storage ∧ site'.stamps = site.stamps
      ∧ site'.requests = site.requests ∧ site'.calls = site.calls := by
  have hupdates := updates hopen hstores unsaved
  generalize e.update site unsaved = result at hupdates
  cases hupdates with
  | idle _ hstorage hstamps hrequests hcalls =>
    exact ⟨_, rfl, hstorage, hstamps, hrequests, hcalls⟩
  | stuck hstale | ran hstale => cases hplan.symm.trans hstale

namespace History

variable {top : Spot} {st : Store} {prev : Run} {earlier : List Run}

/-- **What an update changes.** After any history, an update that succeeds and has a unit to parse
stores no place in a changed file but those told by a unit that it has parsed, and keeps every place
of a symbol in other files. An update that has no unit to parse leaves the storage as it is. -/
theorem update_exact_framed {e : Engine} {site site' : Site} {unsaved : UnsavedFiles}
    {summary : RunSummary}
    (h : History e.config.dbPath top e.backend st site.storage (prev :: earlier))
    (hok : e.update site unsaved = (.ok summary, site'))
    (hspared : Spared e.config.dbPath top e.backend st
      (Engine.forgotten site unsaved st (Database.loadedOf prev.saved) prev.saved.graph.entities)
      (e.reachedRun site unsaved st (Database.loadedOf prev.saved)
        prev.saved.graph.entities).relocation.disk) :
    let plan := prev.planAfter site.world unsaved
    let r := e.reachedRun site unsaved st (Database.loadedOf prev.saved) prev.saved.graph.entities
    (plan.reparse = [] ∧ summary.nothingChanged = true ∧ site'.storage = site.storage)
      ∨ (plan.reparse ≠ [] ∧ summary.nothingChanged = false ∧ r.dirty = plan.dirtyFiles
          ∧ Database.Stores st site'.storage (Database.loadedOf r.saved) r.saved.graph.entities
          ∧ r.Exact ∧ Run.Framed prev r) := by
  intro plan r
  rcases Engine.update_eq_ok h.holds.serves.opens (h.holds.stores prev earlier rfl) hok with
    ⟨hidle, hempty, hstorage⟩ | ⟨hchanged, hsome, emptied, hcommit, -, -⟩
  · exact .inl ⟨List.isEmpty_iff.mp hempty, hidle, hstorage⟩
  · obtain rfl : Engine.forgotten site unsaved st (Database.loadedOf prev.saved)
        prev.saved.graph.entities = emptied :=
      congrArg Prod.snd (Database.applyAll_of_commit hcommit)
    have hcont : prev.Continues r := continues_updateRun e site unsaved prev _
    have hafter := h.update rfl rfl hok hchanged hcommit hspared
    refine .inr ⟨fun hnil => ?_, hchanged, rfl, hafter.holds.stores _ _ rfl,
      hcont.exact h.holds.chain, hcont.framed⟩
    have hsome : plan.reparse.isEmpty = false := hsome
    rw [hnil] at hsome
    cases hsome

/-- A unit defines a symbol at the beginning of a file. -/
def defines (usr : Usr) (p : Path) : Event :=
  .declaration
    { cursor := { usr := usr, kind := .function, displayName := usr
                  location := ⟨p, 1, 1⟩, semanticParents := [] }
      location := ⟨p, 1, 1⟩, isDefinition := true, semanticContainer := none
      overridden := [], childReferences := [] }

/-- A database in a directory. A unit defines a symbol in itself, and then it is edited and does
not. -/
def rewritten : Episode :=
  { invocations := [Invocation.forSource ⟨"/a.c"⟩]
    first := [(⟨"/a.c"⟩, { events := [defines "g" ⟨"/a.c"⟩] })]
    before := [(⟨"/a.c"⟩, { micros := 1000 })]
    second := []
    after := [(⟨"/a.c"⟩, { micros := 2000 })]
    backend := .filesystem }

theorem succeeds_rewritten : rewritten.succeeds = true := by decide +kernel

theorem movesNothing_rewritten : rewritten.MovesNothing := fun _ => by with_unfolding_all rfl

/-- The unit is parsed again, and the directory holds what comes of it. -/
theorem update_exact_framed_rewritten :
    let r := rewritten.reachedRun
    History ⟨"/db"⟩ ["db"] .filesystem rewritten.opened.1 rewritten.updateSite.storage
        [rewritten.buildRun]
      ∧ ∃ summary site', rewritten.updated = (.ok summary, site')
        ∧ rewritten.plan.reparse ≠ [] ∧ r.dirty = rewritten.plan.dirtyFiles
        ∧ Database.Stores rewritten.opened.1 site'.storage (Database.loadedOf r.saved)
          r.saved.graph.entities
        ∧ r.Exact ∧ Run.Framed rewritten.buildRun r := by
  intro r
  have hprev := Episode.history_before (Episode.built_of_succeeds succeeds_rewritten)
    (Episode.buildsAlone_of_succeeds succeeds_rewritten)
  obtain ⟨summary, hok⟩ := Episode.exists_updated succeeds_rewritten movesNothing_rewritten
  refine ⟨hprev, summary, _, hok, ?_⟩
  rcases update_exact_framed hprev hok
      (Episode.spared_reachedRun succeeds_rewritten movesNothing_rewritten)
    with ⟨hnone, -⟩ | ⟨hsome, -, hdirty, hstores, hexact, hframed⟩
  · exact absurd hnone (Episode.reparse_of_succeeds succeeds_rewritten)
  · exact ⟨hsome, hdirty, hstores, hexact, hframed⟩

/-- A unit that defines a symbol in itself and another in a file that it is not known to depend on.
Then the unit is edited and tells of neither. -/
def outlying : Episode :=
  { invocations := [Invocation.forSource ⟨"/a.c"⟩]
    first := [(⟨"/a.c"⟩, { events := [defines "f" ⟨"/x.h"⟩, defines "g" ⟨"/a.c"⟩] })]
    before := [(⟨"/a.c"⟩, { micros := 1000 })]
    second := [(⟨"/a.c"⟩, { events := [] })]
    after := [(⟨"/a.c"⟩, { micros := 2000 })] }

theorem succeeds_outlying : outlying.succeeds = true := by decide +kernel

theorem built_outlying : outlying.built.1.toOption.isSome = true :=
  Episode.built_of_succeeds succeeds_outlying

/-- A database, with the times of files as they were when the unit was built. -/
def outlyingSite (s : Storage) : Site := { outlying.buildSite with storage := s }

def outlyingBuffer : UnsavedFiles := SortedMap.ofList [(⟨"/x.h"⟩, ⟨#[]⟩)]

/-- The buffer makes its file count as changed, no unit is parsed, and the definition in the file is
stored afterwards as it was before. -/
theorem update_keeps_changed_place :
    let site := outlyingSite outlying.built.2.storage
    ∃ site', (Engine.replaying outlying.first).update site outlyingBuffer
        = (.ok { nothingChanged := true }, site')
      ∧ site'.requests = []
      ∧ ∃ loaded m e l, Database.Stores outlying.opened.1 site'.storage loaded m
        ∧ m.get? "f" = some e ∧ e.At .definition l
        ∧ loaded.files.LiesIn (Plan.make site.world.lastModified loaded.sources
            outlyingBuffer.keys).dirtyFiles l := by
  intro site
  obtain ⟨-, -, hbuild⟩ := Episode.history_build built_outlying
  have hstores := hbuild.holds.stores _ _ rfl
  -- the times of files do not depend on the storage, so the plan is computed without it
  have htimes : site.world.lastModified = (outlyingSite {}).world.lastModified := rfl
  have hidle : (Plan.make site.world.lastModified
      (Database.loadedOf outlying.buildRun.saved).sources outlyingBuffer.keys).isEmpty = true := by
    rw [htimes, Database.sources_loadedOf, Run.sources_saved]
    decide
  have hdefined : (outlying.buildRun.saved.graph.entities.get? "f").bind Entity.definition
      = some ⟨⟨1⟩, 1, 1⟩ := by
    rw [Run.graph_saved]
    decide
  obtain ⟨e, hget, hat⟩ := Option.bind_eq_some_iff.mp hdefined
  obtain ⟨site', hok, hstorage, -, hrequests, -⟩ :
      ∃ site', (Engine.replaying outlying.first).update site outlyingBuffer
        = (.ok { nothingChanged := true }, site')
      ∧ site'.storage = site.storage ∧ site'.stamps = site.stamps
      ∧ site'.requests = site.requests ∧ site'.calls = site.calls :=
    Engine.update_of_idle hbuild.holds.serves.opens hstores hidle
  refine ⟨site', hok, hrequests, Database.loadedOf outlying.buildRun.saved,
    outlying.buildRun.saved.graph.entities, e, _, ?_, hget, hat, ⟨"/x.h"⟩, ?_, ?_⟩
  · rw [hstorage]
    exact hstores
  · rw [htimes, Database.sources_loadedOf, Run.sources_saved]
    decide
  · rw [Database.files_loadedOf, Run.files_saved]
    decide

end History

end SymbolIndex
