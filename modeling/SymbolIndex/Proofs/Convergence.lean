import SymbolIndex.Proofs.StaleHeaders
import SymbolIndex.Proofs.Times
import SymbolIndex.Proofs.UpdateFrame

/-!
# Updates come to rest

An update without buffers that follows a build, or another update without buffers, finds nothing to
do when no file has got another time in between. What is stored of a unit is then what the planner
compares it with, with one exception: where one file is spelled in two ways and the two spellings
have different times, a dependency is stored with the time of the spelling that came last, and the
planner looks it up under the one that came first. Such a unit is parsed again by every update
(`History.update_converges`, `History.update_parses_unchanged`).
-/

namespace SymbolIndex

open List Source

variable {times : Path → UInt64} {sources : List Source}

/-! ## A plan with nothing to do -/

theorem Plan.isEmpty_iff : (Plan.make times sources []).isEmpty = true
      ↔ ∀ x ∈ sources, x.fromUnsavedFile = false ∧ x.UpToDate times := by
  obtain ⟨split, rfl, hsplit⟩ := split_make times sources []
  have hempty : (Plan.make times (split.map Prod.fst) []).isEmpty = true
      ↔ ∀ e ∈ split, e.2 = false := by
    unfold isEmpty
    rw [List.isEmpty_iff, hsplit.reparse, map_eq_nil_iff, filter_eq_nil_iff]
    simp
  rw [hempty]
  constructor
  · intro hclean x hx
    obtain ⟨⟨x, b⟩, he, rfl⟩ := mem_map.mp hx
    obtain rfl : b = false := hclean _ he
    obtain ⟨before, after, rfl⟩ := append_of_mem he
    have hjudged : Clean times [] before x := hsplit.judged before _ after rfl
    exact ⟨hjudged.saved, hjudged.upToDate⟩
  · intro hfresh
    have hmem : ∀ e ∈ split, e.1.fromUnsavedFile = false ∧ e.1.UpToDate times :=
      fun e he => hfresh e.1 (mem_map_of_mem he)
    -- the first unit that is parsed again has no reason for it, since all before it are kept
    by_contra hdirty
    push Not at hdirty
    obtain ⟨before, ⟨x, b⟩, after, rfl, hb, hbefore⟩ :
        ∃ before e after, split = before ++ e :: after ∧ e.2 = true
          ∧ ∀ e' ∈ before, e'.2 = false := by
      obtain ⟨e, he, hedirty⟩ := hdirty
      have hsome : (split.find? (fun e => e.2)).isSome = true := by
        rw [find?_isSome]
        exact ⟨e, he, by simpa using hedirty⟩
      obtain ⟨e₁, hfind⟩ := Option.isSome_iff_exists.mp hsome
      obtain ⟨hdirty₁, before, after, rfl, hbefore⟩ := find?_eq_some_iff_append.mp hfind
      exact ⟨before, e₁, after, rfl, hdirty₁, fun e' he' => by simpa using hbefore e' he'⟩
    obtain rfl : b = true := hb
    have hstale : Stale times [] before x := hsplit.judged before _ after rfl
    obtain ⟨hsaved, hupToDate⟩ := hmem (x, true) (by simp)
    rcases hstale with hunsaved | hold | ⟨p, -, hannounced | ⟨e', he', d, hd, houtdated, -⟩⟩
    · cases hsaved.symm.trans hunsaved
    · exact hold hupToDate
    · rcases hannounced with ⟨c, hc, -⟩ | ⟨e', he', hdirty', -⟩
      · cases hc
      · cases (hbefore e' he').symm.trans hdirty'
    · exact houtdated ((hmem e' (mem_append_left _ he')).2.2 d hd)

theorem Plan.upToDate_of_retained {changed : List Path} {x : Source}
    (hx : x ∈ (Plan.make times sources changed).retained) :
    x.fromUnsavedFile = false ∧ x.UpToDate times := by
  obtain ⟨split, -, hsplit⟩ := split_make times sources changed
  rw [hsplit.retained] at hx
  obtain ⟨⟨x, b⟩, he, rfl⟩ := mem_map.mp hx
  obtain ⟨he, hb⟩ := mem_filter.mp he
  obtain rfl : b = false := by simpa using hb
  obtain ⟨before, after, hlist⟩ := append_of_mem he
  have hclean : Clean times changed before x := hsplit.judged before _ after hlist
  exact ⟨hclean.saved, hclean.upToDate⟩

/-! ## What is stored after a run without buffers -/

namespace Run

variable {x : Source}

/-- A stored unit has the path among its files. -/
def Watches (r : Run) (p : Path) : Prop :=
  ∃ x ∈ r.saved.sources, ∃ f ∈ x.files, p.same f = true

/-- A stored unit has a dependency with the time of another spelling, and the spelling under which
the dependency is stored has another time. -/
def Mistimed (r : Run) (times : Path → UInt64) : Prop :=
  ∃ x ∈ r.saved.sources, ∃ d ∈ x.dependencies.toList,
    ∃ q, q.same d.1 = true ∧ d.2 = times q ∧ times q ≠ times d.1

/-- Watched files have the same times at every look. -/
def Steady (r : Run) (looks : World → Prop) (times : Path → UInt64) : Prop :=
  ∀ w, looks w → ∀ p, r.Watches p → w.lastModified p = times p

variable {r prev : Run} {earlier : List Run} {times : Path → UInt64}

theorem unmarked_start (h : Runs (r :: earlier)) : r.start.pch.Unmarked := by
  cases h with
  | build hstart =>
    rw [hstart]
    exact fun _ => rfl
  | update _ hcont =>
    rw [hcont.start]
    -- marks are not stored, so none is loaded
    have hremoved : ∀ (keys : List String) (t : PchTable), t.Unmarked →
        (keys.foldl PchTable.remove t).Unmarked := by
      intro keys
      induction keys with
      | nil => exact fun _ ht => ht
      | cons key _ ih => exact fun t ht => ih _ (ht.fewer (t.fewer_remove key).marks)
    exact hremoved _ _ (fun _ => rfl)

/-- **A stored unit** was timed in the last run, or was found up to date when it was planned. -/
theorem timed_or_retained (h : Runs (r :: earlier)) (hunsaved : r.setup.unsaved = ∅)
    (hsize : r.invocations.length < UInt64.size) (hx : x ∈ r.saved.sources) :
    x.Timed r.Looks ∨ (x.fromUnsavedFile = false ∧ x.UpToDate r.seen.lastModified) := by
  rcases mem_sources_saved.mp hx with ⟨front, u, back, hunits, rfl, -⟩ | ⟨hold, -⟩
  · have hu : u ∈ r.units := by rw [hunits]; simp
    obtain ⟨l, hl, rfl⟩ := mem_map.mp hu
    exact .inl (timed_landing hunsaved (unmarked_start h) hsize hl)
  · cases h with
    | build hstart =>
      rw [hstart] at hold
      cases hold
    | @update _ prev _ _ hcont =>
      rw [hcont.start] at hold
      exact .inr (Plan.upToDate_of_retained hold)

/-- A stored unit has the times of some spelling of each of its files. -/
structure Agrees (times : Path → UInt64) (x : Source) : Prop where
  saved : x.fromUnsavedFile = false
  input : times x.input = x.lastModified
  dependencies : ∀ d ∈ x.dependencies.toList, ∃ q, q.same d.1 = true ∧ d.2 = times q

theorem agrees_of_steady (h : Runs (r :: earlier)) (hunsaved : r.setup.unsaved = ∅)
    (hsize : r.invocations.length < UInt64.size) (hsteady : r.Steady r.Looks times)
    (hx : x ∈ r.saved.sources) : Agrees times x := by
  have hinput : r.Watches x.input :=
    ⟨x, hx, x.input, mem_files_iff.mpr (.inl rfl), Path.same_refl _⟩
  have hdependency : ∀ d ∈ x.dependencies.toList, ∀ q : Path, q.same d.1 = true → r.Watches q :=
    fun d hd q hq => ⟨x, hx, d.1, mem_files_iff.mpr (.inr ⟨d, hd, rfl⟩), hq⟩
  rcases timed_or_retained h hunsaved hsize hx with htimed | ⟨hsaved, hupToDate⟩
  · refine ⟨htimed.saved, ?_, fun d hd => ?_⟩
    · obtain ⟨w, hw, htime⟩ := htimed.input
      rw [htime, hsteady w hw _ hinput]
    · obtain ⟨w, q, hw, hsame, htime⟩ := htimed.recorded d hd
      exact ⟨q, hsame, by rw [htime, hsteady w hw q (hdependency d hd q hsame)]⟩
  · refine ⟨hsaved, ?_, fun d hd => ⟨d.1, Path.same_refl _, ?_⟩⟩
    · rw [← hsteady _ .planned _ hinput]
      exact hupToDate.1
    · rw [← hsteady _ .planned _ (hdependency d hd _ (Path.same_refl _))]
      exact (hupToDate.2 d hd).symm

/-- **Units that agree leave nothing to do unless one is mistimed.** -/
theorem isEmpty_planAfter_iff {w : World} (hagrees : ∀ x ∈ r.saved.sources, Agrees w.lastModified x) :
    (r.planAfter w ∅).isEmpty = true ↔ ¬ r.Mistimed w.lastModified := by
  unfold planAfter
  rw [show SortedMap.keys (∅ : UnsavedFiles) = [] from rfl, Plan.isEmpty_iff]
  constructor
  · rintro hall ⟨x, hx, d, hd, q, -, htime, hdiffer⟩
    exact hdiffer (htime.symm.trans ((hall x hx).2.2 d hd).symm)
  · intro hnone x hx
    have hx' := hagrees x hx
    refine ⟨hx'.saved, hx'.input, fun d hd => ?_⟩
    obtain ⟨q, hsame, htime⟩ := hx'.dependencies d hd
    by_contra hdiffer
    exact hnone ⟨x, hx, d, hd, q, hsame, htime, fun heq => hdiffer (heq.symm.trans htime.symm)⟩

end Run

/-! ## The last operation on a database -/

/-- The last operation on a database was a build or an update without buffers: the storage, the runs
of the database, and the worlds in which the operation has looked up times. -/
inductive Rested (path : Path) (top : Spot) (b : Backend) (st : Store) :
    Storage → List Run → (World → Prop) → Prop where
  | ran {s : Storage} {r : Run} {earlier : List Run} :
      History path top b st s (r :: earlier) → r.setup.unsaved = ∅ →
      Rested path top b st s (r :: earlier) r.Looks
  | idle {e : Engine} {site site' : Site} {summary : RunSummary} {runs : List Run} :
      History path top b st site.storage runs → e.config.dbPath = path → e.backend = b →
      e.update site ∅ = (.ok summary, site') → summary.nothingChanged = true →
      Rested path top b st site'.storage runs (fun w => w = site.world)
  | still {s s' : Storage} {runs : List Run} {looks : World → Prop} :
      Rested path top b st s runs looks → Store.Changes path top b st (fun _ => False) s s' →
      Rested path top b st s' runs looks

namespace Rested

variable {path : Path} {top : Spot} {b : Backend} {st : Store} {s : Storage} {r prev : Run}
  {earlier runs : List Run} {looks : World → Prop} {times : Path → UInt64}

theorem history (h : Rested path top b st s runs looks) : History path top b st s runs := by
  induction h with
  | ran hruns => exact hruns
  | @idle e site site' summary runs hruns hpath hbackend hok hidle =>
    subst hpath hbackend
    cases runs with
    | nil => exact absurd hruns.holds.chain (by rintro ⟨⟩)
    | cons r earlier =>
      rcases Engine.update_eq_ok hruns.holds.serves.opens (hruns.holds.stores r earlier rfl) hok
        with ⟨-, -, hstorage⟩ | ⟨hchanged, -⟩
      · rw [hstorage]
        exact hruns
      · cases hidle.symm.trans hchanged
  | still _ hchanges ih => exact ih.still hchanges

/-- **What is stored agrees with times that are steady.** -/
theorem agrees (h : Rested path top b st s (r :: earlier) looks)
    (hsize : r.invocations.length < UInt64.size) (hsteady : r.Steady looks times) {x : Source}
    (hx : x ∈ r.saved.sources) : Run.Agrees times x := by
  generalize hruns : r :: earlier = runs at h
  induction h with
  | ran hhistory hunsaved =>
    cases hruns
    exact Run.agrees_of_steady hhistory.holds.chain hunsaved hsize hsteady hx
  | @idle e site site' summary runs hhistory hpath hbackend hok hidle =>
    subst hpath hbackend hruns
    rcases Engine.update_eq_ok hhistory.holds.serves.opens
      (hhistory.holds.stores r earlier rfl) hok with ⟨-, hempty, -⟩ | ⟨hchanged, -⟩
    · obtain ⟨hsaved, hinput, hdependencies⟩ := Plan.isEmpty_iff.mp hempty x hx
      refine ⟨hsaved, ?_, fun d hd => ⟨d.1, Path.same_refl _, ?_⟩⟩
      · rw [← hsteady _ rfl _ ⟨x, hx, _, mem_files_iff.mpr (.inl rfl), Path.same_refl _⟩]
        exact hinput
      · rw [← hsteady _ rfl _ ⟨x, hx, _, mem_files_iff.mpr (.inr ⟨d, hd, rfl⟩), Path.same_refl _⟩]
        exact (hdependencies d hd).symm
    · cases hidle.symm.trans hchanged
  | still _ _ ih => exact ih hsteady hruns

end Rested

namespace History

variable {path : Path} {top : Spot} {b : Backend} {st : Store} {r : Run} {earlier : List Run}
  {looks : World → Prop}

/-- **An update without buffers finds nothing to do** after a build or an update without buffers, if
the files of the stored units have had their times since: it plans no parse, asks nothing of the
front end and leaves the storage as it is. There is one exception, which is exactly that a unit is
mistimed. None is where all spellings of a path have one time. -/
theorem update_converges {e : Engine} {site : Site}
    (h : Rested path top b st site.storage (r :: earlier) looks)
    (hpath : e.config.dbPath = path) (hbackend : e.backend = b)
    (hsize : r.invocations.length < UInt64.size)
    (hsteady : r.Steady looks site.world.lastModified) :
    (((r.planAfter site.world ∅).reparse = []
        ∧ ∃ site', e.update site ∅ = (.ok { nothingChanged := true }, site')
          ∧ site'.storage = site.storage ∧ site'.requests = site.requests
          ∧ site'.calls = site.calls)
      ↔ ¬ r.Mistimed site.world.lastModified)
    ∧ ((∀ p q, r.Watches p → p.same q = true →
        site.world.lastModified p = site.world.lastModified q) →
      ¬ r.Mistimed site.world.lastModified) := by
  subst hpath hbackend
  have hempty := r.isEmpty_planAfter_iff (fun x hx => h.agrees hsize hsteady hx)
  have hhistory := h.history
  refine ⟨⟨fun hidle => ?_, fun hnone => ?_⟩, ?_⟩
  · exact hempty.mp (List.isEmpty_iff.mpr hidle.1)
  · obtain ⟨site', hok, hstorage, -, hrequests, hcalls⟩ := Engine.update_of_idle
      hhistory.holds.serves.opens (hhistory.holds.stores r earlier rfl) (hempty.mpr hnone)
    exact ⟨List.isEmpty_iff.mp (hempty.mpr hnone), site', hok, hstorage, hrequests, hcalls⟩
  · rintro hspelled ⟨x, hx, d, hd, q, hsame, -, hdiffer⟩
    have hwatched : r.Watches q := ⟨x, hx, d.1, Source.mem_files_iff.mpr (.inr ⟨d, hd, rfl⟩), hsame⟩
    exact hdiffer (hspelled q d.1 hwatched hsame)

/-- The unit with a header that `respelled` builds, and the times of its files as they were then. -/
def restingSite (s : Storage) : Site := { respelled.buildSite with storage := s }

theorem update_converges_respelled :
    let r := respelled.buildRun
    let site := restingSite respelled.built.2.storage
    Rested ⟨"/db"⟩ [] .memory respelled.opened.1 site.storage [r] r.Looks
      ∧ r.Steady r.Looks site.world.lastModified
      ∧ (∃ x ∈ r.saved.sources, x.dependencies.toList ≠ [])
      ∧ (r.planAfter site.world ∅).reparse = []
      ∧ ∃ site', (Engine.replaying respelled.first).update site ∅
            = (.ok { nothingChanged := true }, site')
          ∧ site'.storage = site.storage ∧ site'.requests = site.requests
          ∧ site'.calls = site.calls := by
  intro r site
  have hbuilt := Episode.built_of_succeeds succeeds_respelled
  obtain ⟨-, -, hhistory⟩ := Episode.history_build hbuilt
  have hrested : Rested ⟨"/db"⟩ [] .memory respelled.opened.1 site.storage [r] r.Looks :=
    .ran hhistory rfl
  have hsteady : r.Steady r.Looks site.world.lastModified :=
    fun w hw p _ => Run.lastModified_of_looks rfl rfl hw rfl p
  have hdepends : ∃ x ∈ r.saved.sources, x.dependencies.toList ≠ [] := by
    rw [Run.sources_saved]
    decide +kernel
  have hspelled : ∀ p q : Path, r.Watches p → p.same q = true →
      site.world.lastModified p = site.world.lastModified q :=
    fun p q _ hsame => World.lastModified_of_same rfl hsame
  obtain ⟨hconverges, hnone⟩ := update_converges (e := Engine.replaying respelled.first) hrested
    rfl rfl (by decide) hsteady
  exact ⟨hrested, hsteady, hdepends, hconverges.mpr (hnone hspelled)⟩

def slashedSite : Site :=
  let entries : List (Spot × Disk.Entry) :=
    [(["a.c"], .file ⟨#[]⟩ 1000 false), (["h.h"], .file ⟨#[]⟩ 2000 false)]
  { storage := { disk := { entries := SortedMap.ofList entries } } }

/-- The front end tells of the header twice, the second time as if it were a directory. -/
def slashedRecordings : List (Path × Recording) :=
  let included (p : Path) : Event :=
    .inclusion { includedFile := p, inclusionStack := [⟨⟨"/a.c"⟩, 1, 1⟩] }
  [(⟨"/a.c"⟩, { events := [included ⟨"/h.h"⟩, included ⟨"/h.h/"⟩] })]

def slashedUnits : List Invocation := [Invocation.forSource ⟨"/a.c"⟩]

/-- The unit is built and nothing changes: the run leaves the disk alone. The next update plans to
parse the unit again, and when it succeeds it does not find that nothing has changed. -/
theorem update_parses_unchanged :
    let built := Engine.replayed slashedRecordings slashedSite slashedUnits
    let r := Engine.replayedRun slashedRecordings slashedSite slashedUnits
    let site : Site := { storage := built.2.storage }
    (∃ summary, built.1 = .ok summary) ∧ r.ended.world.disk = slashedSite.storage.disk
      ∧ site.storage.disk = slashedSite.storage.disk
      ∧ History ⟨"/db"⟩ [] .memory
          (Engine.replayedStore slashedRecordings slashedSite slashedUnits).1 site.storage [r]
      ∧ (r.planAfter site.world ∅).reparse = slashedUnits
      ∧ ∀ summary site', (Engine.replaying slashedRecordings).update site ∅ = (.ok summary, site') →
        summary.nothingChanged = false := by
  intro built r site
  obtain ⟨summary, hbuilt⟩ : ∃ summary, built.1 = .ok summary :=
    Episode.exists_ok (by decide +kernel)
  have hhistory : History ⟨"/db"⟩ [] .memory _ site.storage [r] :=
    Engine.history_replayed hbuilt nofun
  have hdisk : site.storage.disk = slashedSite.storage.disk := by decide +kernel
  have hplan : (r.planAfter site.world ∅).reparse = slashedUnits := by
    have hworld : site.world = slashedSite.world := by
      unfold Site.world
      rw [hdisk]
      rfl
    rw [hworld]
    unfold Run.planAfter
    rw [Run.sources_saved]
    decide +kernel
  refine ⟨⟨summary, hbuilt⟩, by decide +kernel, hdisk, hhistory, hplan, fun summary site' hok => ?_⟩
  have hstores : Database.Stores _ site.storage (Database.loadedOf r.saved) r.saved.graph.entities :=
    hhistory.holds.stores r [] rfl
  have hopens : Store.open site.storage (Engine.replaying slashedRecordings).backend
      (Engine.replaying slashedRecordings).config.dbPath .readWrite = .ok (_, site.storage) :=
    hhistory.holds.serves.opens
  rcases Engine.update_eq_ok hopens hstores hok with ⟨-, hempty, -⟩ | ⟨hchanged, -⟩
  · have hempty : (r.planAfter site.world ∅).reparse.isEmpty = true := hempty
    rw [hplan] at hempty
    cases hempty
  · exact hchanged

end History

end SymbolIndex
