import SymbolIndex.Proofs.Edits
import SymbolIndex.Proofs.Interruption

/-!
# Updates against rebuilds

An update stores the records that a build of the same units would store exactly when no symbol
drifts (`History.update_eq_rebuild_iff`). `Turnover.Drifts` has the ways in which one can: the
simplest is a header that a unit does not include any more. The header has not changed, so what the
unit had told of it stays, while nobody tells it to a rebuild
(`History.update_keeps_headerDropped`).

`FileEvents` are files small enough for both to be computed: each has events of its own, and an
inclusion brings about those of the included file.
-/

namespace SymbolIndex

open List SortedMap

/-! ## Files that are read -/

namespace SortedMap

variable {κ υ ω : Type} [Ord κ] [Std.TransOrd κ]

theorem get?_ofList_map (l : List (κ × υ)) (f : υ → ω) (k : κ) :
    (ofList (l.map fun e => (e.1, f e.2))).get? k = ((ofList l).get? k).map f := by
  induction l using List.reverseRecOn with
  | nil => rfl
  | append_singleton l e ih =>
    unfold ofList at ih ⊢
    rw [map_append, foldl_append, foldl_append, map_singleton,
      foldl_cons, foldl_cons, foldl_nil, foldl_nil, get?_insert, get?_insert]
    split
    · rfl
    · exact ih

theorem exists_of_get?_ofList {l : List (κ × υ)} {k : κ} {v : υ}
    (h : (ofList l).get? k = some v) : ∃ e ∈ l, compare k e.1 = .eq ∧ e.2 = v := by
  induction l using List.reverseRecOn with
  | nil => simp [ofList, get?, findValue?, empty] at h
  | append_singleton l e ih =>
    unfold ofList at ih h
    rw [foldl_append, foldl_cons, foldl_nil, get?_insert] at h
    split at h
    · next heq => exact ⟨e, by simp, heq, Option.some.inj h⟩
    · obtain ⟨e', he', heq⟩ := ih h
      exact ⟨e', mem_append_left _ he', heq⟩

end SortedMap

/-- Files, each with the events that are read off it. -/
abbrev FileEvents := List (Path × List Event)

namespace FileEvents

def contents (files : FileEvents) (p : Path) : List Event :=
  ((SortedMap.ofList files).get? p).getD []

def expand (c : Path → List Event) : Event → List Event
  | .inclusion e => .inclusion e :: if e.inclusionStack.isEmpty then [] else c e.includedFile
  | event => [event]

/-- What a front end reads off a file and what it includes. -/
def read (c : Path → List Event) (q : ParseRequest) : List Event :=
  (c q.invocation.input).flatMap (expand c)

def liesBelow (dirs : List Path) : Event → Bool
  | .inclusion e => dirs.any (fun dir => e.includedFile.startsWith dir)
  | _ => false

def recordings (files : FileEvents) : List (Path × Recording) :=
  files.map fun f => (f.1, { events := f.2.flatMap (expand files.contents) })

variable {files files' : FileEvents}

theorem read_congr {c c' : Path → List Event} {q : ParseRequest}
    (hinput : c q.invocation.input = c' q.invocation.input)
    (hincluded : ∀ p, Includes (read c q) p → c p = c' p) : read c q = read c' q := by
  unfold read at hincluded ⊢
  rw [← hinput]
  refine flatMap_congr fun event hevent => ?_
  cases event with
  | inclusion e =>
    simp only [expand]
    split
    · rfl
    · next hstack =>
      rw [hincluded e.includedFile ⟨e, mem_flatMap.mpr ⟨_, hevent, mem_cons_self⟩,
        by simpa using hstack, rfl⟩]
  | _ => rfl

theorem events_replay (files : FileEvents) (disk : Disk) (q : ParseRequest) :
    (Frontend.replay (SortedMap.ofList files.recordings) disk q).events
      = read files.contents q := by
  show ((((SortedMap.ofList files.recordings).get? q.invocation.input).getD {}).events) = _
  have hget := get?_ofList_map files
    (fun es => ({ events := es.flatMap (expand files.contents) } : Recording)) q.invocation.input
  unfold recordings
  rw [hget]
  unfold read contents
  cases (SortedMap.ofList files).get? q.invocation.input <;> rfl

theorem contents_congr (files : FileEvents) {p q : Path} (h : p.same q = true) :
    files.contents p = files.contents q := by
  unfold contents
  rw [get?_congr _ (Path.compare_eq_iff_same.mpr h)]

theorem contents_eq (files : FileEvents) (p : Path) :
    files.contents p = [] ∨ ∃ f ∈ files, p.same f.1 = true ∧ files.contents p = f.2 := by
  unfold contents
  cases hget : (SortedMap.ofList files).get? p with
  | none => exact .inl rfl
  | some =>
    obtain ⟨f, hf, heq, rfl⟩ := exists_of_get?_ofList hget
    exact .inr ⟨f, hf, Path.compare_eq_iff_same.mp heq, rfl⟩

end FileEvents

section

variable (e : Engine) (site : Site) (unsaved : UnsavedFiles) (st : Store) (loaded : Database.Loaded)
  (m : Entities)

theorem Engine.setup_reachedRun :
    (e.reachedRun site unsaved st loaded m).setup = e.setupFor .dirty unsaved := rfl

theorem Engine.seen_reachedRun :
    (e.reachedRun site unsaved st loaded m).seen = site.world := rfl

end

namespace Episode

def ofFiles (is : List Invocation) (old new : FileEvents) (before after : List (Path × Stamp)) :
    Episode :=
  { invocations := is, first := old.recordings, before := before, second := new.recordings
    after := after }

def rebuildSite (p : Episode) : Site := { stamps := some (SortedMap.ofList p.after) }

/-- What a fresh build answers. -/
def rebuilt (p : Episode) : Except EngineError RunSummary × Site :=
  Engine.replayed p.second p.rebuildSite p.invocations

def rebuildRun (p : Episode) : Run := Engine.replayedRun p.second p.rebuildSite p.invocations

theorem invocations_buildRun (p : Episode) : p.buildRun.invocations = p.invocations := rfl

theorem invocations_rebuildRun (p : Episode) : p.rebuildRun.invocations = p.invocations := rfl

theorem setup_reachedRun (p : Episode) :
    p.reachedRun.setup = p.updater.setupFor .dirty ∅ :=
  p.updater.setup_reachedRun ..

theorem stamps_reachedRun (p : Episode) :
    p.reachedRun.seen.stamps = some (SortedMap.ofList p.after) := by
  unfold reachedRun
  rw [Engine.seen_reachedRun]
  rfl

theorem unfailing_of_all {r : Run}
    (h : (r.ended.jobs.toList.all fun e => e.2.state == .completeLocal) = true) : r.Unfailing := by
  intro id job hget
  obtain ⟨id', -, hmem⟩ := mem_of_get? hget
  have hstate : job.state = .completeLocal := eq_of_beq (all_eq_true.mp h _ hmem)
  rw [hstate]
  exact ⟨by decide, .inr rfl⟩

variable {is : List Invocation} {old new : FileEvents} {before after : List (Path × Stamp)}

/-- **An episode with files is an edit**, if what it changes gets another time and nothing fails. -/
theorem edited_ofFiles
    (hdated : ∀ f ∈ old ++ new,
      (ofFiles is old new before after).buildSite.world.lastModified f.1
        = (ofFiles is old new before after).rebuildSite.world.lastModified f.1 →
      old.contents f.1 = new.contents f.1)
    (hunits : ∀ i ∈ is, i.language.isHeader = false)
    (hown : ∀ f ∈ old, ∀ event ∈ f.2.flatMap (FileEvents.expand old.contents),
      FileEvents.liesBelow (Engine.replaying []).config.systemIncludes event = false)
    (hsize : is.length + 1 < UInt64.size) :
    let p := ofFiles is old new before after
    (∀ r ∈ [p.buildRun, p.reachedRun, p.rebuildRun],
      (r.ended.jobs.toList.all fun e => e.2.state == .completeLocal) = true) →
    (Graph.Consistent p.buildRun.contributions ∧ Graph.Consistent p.rebuildRun.contributions) →
    Edited FileEvents.read old.contents new.contents p.buildSite.world.lastModified
      p.buildRun p.reachedRun p.rebuildRun := by
  intro p hended hconsistent
  simp only [forall_mem_cons] at hended
  exact {
    reads := fun c c' q => FileEvents.read_congr
    found := fun s _ t _ request _ _ => FileEvents.events_replay old s.world.disk request
    again := by
      intro s _ t _ request _ _
      rw [p.setup_reachedRun]
      exact FileEvents.events_replay new s.world.disk request
    anew := fun s _ t _ request _ _ => FileEvents.events_replay new s.world.disk request
    steady := fun w hw q _ => Run.lastModified_of_looks rfl rfl hw rfl q
    spelled := fun q q' _ hsame =>
      ⟨World.lastModified_of_same rfl hsame,
        World.lastModified_of_same p.stamps_reachedRun hsame⟩
    dated := by
      intro q _ htime
      have hseen : p.reachedRun.seen.lastModified q = p.rebuildSite.world.lastModified q :=
        World.lastModified_congr p.stamps_reachedRun rfl q
      by_cases hnamed : ∃ f ∈ old ++ new, q.same f.1 = true
      · obtain ⟨f, hf, hsame⟩ := hnamed
        rw [old.contents_congr hsame, new.contents_congr hsame]
        refine hdated f hf ?_
        rw [← World.lastModified_of_same rfl hsame, ← World.lastModified_of_same rfl hsame]
        exact htime.trans hseen
      · have hnone : ∀ files : FileEvents, files ⊆ old ++ new → files.contents q = [] :=
          fun files hfiles => (files.contents_eq q).resolve_right fun ⟨f, hf, hsame, _⟩ =>
            hnamed ⟨f, hfiles hf, hsame⟩
        rw [hnone old (subset_append_left ..), hnone new (subset_append_right ..)]
    invocations := p.invocations_rebuildRun.trans p.invocations_buildRun.symm
    update := by
      rw [p.setup_reachedRun]
      rfl
    rebuild := rfl
    plain := by
      intro i hi hpre
      exact absurd (hunits i hi) (by simp [hpre.1])
    own := by
      rintro i - q ⟨e, he, -, rfl⟩ dir hdir
      have he : Event.inclusion e ∈ (old.contents i.input).flatMap
        (FileEvents.expand old.contents) := he
      rcases old.contents_eq i.input with hnil | ⟨f, hf, -, heq⟩
      · rw [hnil] at he
        cases he
      · rw [heq] at he
        exact Bool.eq_false_iff.mpr (any_eq_false.mp (hown f hf _ he) dir hdir)
    size := hsize
    unfailing := ⟨unfailing_of_all hended.1, unfailing_of_all hended.2.1,
      unfailing_of_all hended.2.2.1⟩
    consistent := hconsistent }

end Episode

/-! ### A header that is edited, and one that is dropped -/

namespace FileEvents

def function (name : String) (file : Path) (line : UInt32) : Cursor :=
  { usr := name, kind := .function, displayName := name, location := ⟨file, line, 1⟩ }

def declares (name : String) (file : Path) (line : UInt32) (isDefinition : Bool) : Event :=
  let cursor := function name file line
  .declaration { cursor := cursor, location := cursor.location, isDefinition := isDefinition }

def includes (file header : Path) : Event :=
  .inclusion { includedFile := header, inclusionStack := [⟨file, 1, 1⟩] }

def calls (name : String) (file : Path) (line : UInt32) : Event :=
  .reference { referenced := function name file line, location := ⟨file, line, 1⟩ }

def called (header : List Event) : FileEvents :=
  [(⟨"/a.c"⟩, [includes ⟨"/a.c"⟩ ⟨"/h.h"⟩, declares "main" ⟨"/a.c"⟩ 3 true, calls "f" ⟨"/a.c"⟩ 4]),
   (⟨"/b.c"⟩, [declares "g" ⟨"/b.c"⟩ 1 true, calls "f" ⟨"/b.c"⟩ 2]),
   (⟨"/h.h"⟩, header)]

def headed (included : List Event) (line : UInt32) : FileEvents :=
  [(⟨"/a.c"⟩, included ++ [declares "main" ⟨"/a.c"⟩ line true]),
   (⟨"/h.h"⟩, [declares "f" ⟨"/h.h"⟩ 1 false])]

end FileEvents

open FileEvents in
def Episode.movedInHeader : Episode :=
  .ofFiles [.forSource ⟨"/a.c"⟩, .forSource ⟨"/b.c"⟩]
    (called [declares "f" ⟨"/h.h"⟩ 1 false])
    (called [declares "f" ⟨"/h.h"⟩ 2 false, declares "k" ⟨"/h.h"⟩ 3 false])
    [(⟨"/a.c"⟩, { micros := 1000 }), (⟨"/b.c"⟩, { micros := 1000 }), (⟨"/h.h"⟩, { micros := 1000 })]
    [(⟨"/a.c"⟩, { micros := 1000 }), (⟨"/b.c"⟩, { micros := 1000 }), (⟨"/h.h"⟩, { micros := 2000 })]

open FileEvents in
def Episode.headerDropped : Episode :=
  .ofFiles [.forSource ⟨"/a.c"⟩] (headed [includes ⟨"/a.c"⟩ ⟨"/h.h"⟩] 3) (headed [] 2)
    [(⟨"/a.c"⟩, { micros := 1000 }), (⟨"/h.h"⟩, { micros := 1000 })]
    [(⟨"/a.c"⟩, { micros := 2000 }), (⟨"/h.h"⟩, { micros := 1000 })]

namespace Episode

theorem stores_of_succeeds {p : Episode} (h : p.succeeds = true)
    (hrebuilt : p.rebuilt.1.toOption.isSome = true) (hmoved : p.MovesNothing := by exact nofun) :
    Database.Stores p.opened.1 p.updated.2.storage (Database.loadedOf p.updateRun.saved)
        p.updateRun.saved.graph.entities
      ∧ History ⟨"/db"⟩ [] .memory
        (Engine.replayedStore p.second p.rebuildSite p.invocations).1 p.rebuilt.2.storage
        [p.rebuildRun] := by
  obtain ⟨-, -, hupdated⟩ := history h hmoved
  obtain ⟨b, hb⟩ := exists_ok hrebuilt
  exact ⟨hupdated.holds.stores _ _ rfl, Engine.history_replayed hb nofun⟩

end Episode

/-! ## Against a rebuild -/

def Entities.placedIn (t : FileTable) (m : Entities) : SortedMap Usr PlacedEntity :=
  m.mapValues (fun _ e => e.placedIn t)

namespace History

variable {path path' : Path} {top top' : Spot} {b b' : Backend} {st st' : Store}
  {s s' : Storage} {prev fresh r : Run}

theorem unsaved_build (h : History path top b st s [r]) : r.setup.unsaved = ∅ := by
  generalize hruns : [r] = runs at h
  induction h with
  | build =>
    rw [(List.cons.inj hruns).1]
    rfl
  | update => cases hruns
  | still _ _ ih => exact ih hruns

/-- **An update stores what a rebuild stores exactly when no symbol drifts.** After a build some
files are edited, and the index is updated or built again from the same units. The records that are
read back, with files by name, are then the same if and only if none of the ways is taken in which
the two can part. -/
theorem update_eq_rebuild_iff {α : Type} {answers : (Path → α) → ParseRequest → List Event}
    {old new : Path → α} {times : Path → UInt64} {e : Engine} {site site' : Site}
    {summary : RunSummary}
    (h : History e.config.dbPath top e.backend st site.storage [prev])
    (hok : e.update site ∅ = (.ok summary, site'))
    (hspared : Spared e.config.dbPath top e.backend st
      (Engine.forgotten site ∅ st (Database.loadedOf prev.saved) prev.saved.graph.entities)
      (e.reachedRun site ∅ st (Database.loadedOf prev.saved)
        prev.saved.graph.entities).relocation.disk)
    (hfresh : History path' top' b' st' s' [fresh])
    (hedited : Edited answers old new times prev (e.reachedRun site ∅ st
      (Database.loadedOf prev.saved) prev.saved.graph.entities) fresh) :
    ∃ loaded m loaded' m', Database.Stores st site'.storage loaded m
      ∧ Database.Stores st' s' loaded' m'
      ∧ (m.placedIn loaded.files = m'.placedIn loaded'.files
        ↔ ∀ usr, ¬(prev.turnover fresh (prev.planAfter site.world ∅)).Drifts usr) := by
  have hruns : Runs [prev] := h.holds.chain
  have hanew : Runs [fresh] := hfresh.holds.chain
  have hold := hedited.hears_build hruns (h.completed prev (by simp)) h.unsaved_build
  have hnew := hedited.hears_rebuild hanew (hfresh.completed fresh (by simp)) hfresh.unsaved_build
  have hcont : prev.Continues (e.reachedRun site ∅ st (Database.loadedOf prev.saved)
      prev.saved.graph.entities) := continues_updateRun e site ∅ prev _
  have hrebuilt := hfresh.holds.stores fresh [] rfl
  rcases Engine.update_eq_ok h.holds.serves.opens (h.holds.stores prev [] rfl) hok with
    ⟨-, hempty, hstorage⟩ | ⟨hchanged, -, emptied, hcommit, hcompleted, -⟩
  · rw [hstorage]
    refine ⟨_, _, _, _, h.holds.stores prev [] rfl, hrebuilt, ?_⟩
    exact (hedited.made_idle hold hnew hruns hanew hcont rfl hempty).eq_iff
  · obtain rfl : Engine.forgotten site ∅ st (Database.loadedOf prev.saved)
        prev.saved.graph.entities = emptied :=
      congrArg Prod.snd (Database.applyAll_of_commit hcommit)
    have hnext := h.update rfl rfl hok hchanged hcommit hspared
    have hagain := hedited.hears_update hold hruns hcont hcompleted rfl
    refine ⟨_, _, _, _, hnext.holds.stores _ [prev] rfl, hrebuilt, ?_⟩
    exact (hedited.made_update hold hnew hagain hruns hanew hcont).eq_iff

open FileEvents in
theorem update_eq_rebuild_iff_movedInHeader :
    let p := Episode.movedInHeader
    let st' := (Engine.replayedStore p.second p.rebuildSite p.invocations).1
    History ⟨"/db"⟩ [] .memory p.opened.1 p.updateSite.storage [p.buildRun]
      ∧ (∃ u, p.updated = (.ok u, p.updated.2))
      ∧ History ⟨"/db"⟩ [] .memory st' p.rebuilt.2.storage [p.rebuildRun]
      ∧ Edited read (called [declares "f" ⟨"/h.h"⟩ 1 false]).contents
          (called [declares "f" ⟨"/h.h"⟩ 2 false, declares "k" ⟨"/h.h"⟩ 3 false]).contents
          p.buildSite.world.lastModified p.buildRun p.reachedRun p.rebuildRun
      ∧ p.plan.reparse = [.forSource ⟨"/a.c"⟩]
      ∧ (∃ loaded m loaded' m', Database.Stores p.opened.1 p.updated.2.storage loaded m
        ∧ Database.Stores st' p.rebuilt.2.storage loaded' m'
        ∧ m.placedIn loaded.files = m'.placedIn loaded'.files)
      ∧ ∀ usr, ¬(p.buildRun.turnover p.rebuildRun p.plan).Drifts usr := by
  intro p st'
  have hsucceeds : p.succeeds = true := by decide +kernel
  have hbuilt := Episode.built_of_succeeds hsucceeds
  have hrebuilt : p.rebuilt.1.toOption.isSome = true := by decide +kernel
  obtain ⟨hstores, hfresh⟩ := Episode.stores_of_succeeds hsucceeds hrebuilt
  have hedited : Edited read (called [declares "f" ⟨"/h.h"⟩ 1 false]).contents
      (called [declares "f" ⟨"/h.h"⟩ 2 false, declares "k" ⟨"/h.h"⟩ 3 false]).contents
      p.buildSite.world.lastModified p.buildRun p.reachedRun p.rebuildRun :=
    Episode.edited_ofFiles (by decide +kernel) (by decide +kernel) (by decide +kernel)
      (by decide +kernel) (by decide +kernel) (by decide +kernel)
  obtain ⟨u, hu⟩ := Episode.exists_updated hsucceeds
  obtain ⟨loaded, m, loaded', m', hm, hm', hiff⟩ := update_eq_rebuild_iff
    (Episode.history_before hbuilt) hu (fun hb => absurd hb (by decide)) hfresh hedited
  have hequal : m.placedIn loaded.files = m'.placedIn loaded'.files := by
    obtain ⟨rfl, rfl⟩ := hm.unique hstores
    obtain ⟨rfl, rfl⟩ := hm'.unique (hfresh.holds.stores _ _ rfl)
    show p.updateRun.placed = p.rebuildRun.placed
    unfold Run.placed
    rw [Run.graph_saved, Run.graph_saved, Run.files_saved, Run.files_saved]
    decide +kernel
  refine ⟨Episode.history_before hbuilt, ⟨u, hu⟩, hfresh, hedited, ?_,
    ⟨loaded, m, loaded', m', hm, hm', hequal⟩, hiff.mp hequal⟩
  unfold Episode.plan Run.planAfter
  rw [Run.sources_saved]
  decide +kernel

open FileEvents in
/-- **An update does not store what a rebuild stores** when a unit does not include a header any
more: the header has not changed, so what was told of it stays, and nobody tells it. -/
theorem update_keeps_headerDropped :
    let p := Episode.headerDropped
    let st' := (Engine.replayedStore p.second p.rebuildSite p.invocations).1
    History ⟨"/db"⟩ [] .memory p.opened.1 p.updateSite.storage [p.buildRun]
      ∧ (∃ u, p.updated = (.ok u, p.updated.2))
      ∧ History ⟨"/db"⟩ [] .memory st' p.rebuilt.2.storage [p.rebuildRun]
      ∧ Edited read (headed [includes ⟨"/a.c"⟩ ⟨"/h.h"⟩] 3).contents (headed [] 2).contents
          p.buildSite.world.lastModified p.buildRun p.reachedRun p.rebuildRun
      ∧ ∃ loaded m loaded' m', Database.Stores p.opened.1 p.updated.2.storage loaded m
        ∧ Database.Stores st' p.rebuilt.2.storage loaded' m'
        ∧ ((m.placedIn loaded.files).get? "f").map PlacedEntity.declarations
          = some (SortedSet.ofList [(SourcePosition.mk ⟨"/h.h"⟩ 1 1).toPlace])
        ∧ (m'.placedIn loaded'.files).get? "f" = none := by
  intro p st'
  have hsucceeds : p.succeeds = true := by decide +kernel
  have hbuilt := Episode.built_of_succeeds hsucceeds
  have hrebuilt : p.rebuilt.1.toOption.isSome = true := by decide +kernel
  obtain ⟨hstores, hfresh⟩ := Episode.stores_of_succeeds hsucceeds hrebuilt
  have hedited : Edited read (headed [includes ⟨"/a.c"⟩ ⟨"/h.h"⟩] 3).contents
      (headed [] 2).contents p.buildSite.world.lastModified p.buildRun p.reachedRun
      p.rebuildRun :=
    Episode.edited_ofFiles (by decide +kernel) (by decide +kernel) (by decide +kernel)
      (by decide +kernel) (by decide +kernel) (by decide +kernel)
  refine ⟨Episode.history_before hbuilt, Episode.exists_updated hsucceeds, hfresh, hedited,
    _, _, _, _, hstores, hfresh.holds.stores _ _ rfl, ?_, ?_⟩
  · show (p.updateRun.placed.get? "f").map PlacedEntity.declarations = _
    unfold Run.placed
    rw [Run.graph_saved, Run.files_saved]
    decide +kernel
  · show p.rebuildRun.placed.get? "f" = none
    unfold Run.placed
    rw [Run.graph_saved, Run.files_saved]
    decide +kernel

end History

end SymbolIndex
