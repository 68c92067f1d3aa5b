import SymbolIndex.Plan
import SymbolIndex.Proofs.Persistence

/-!
# An index that is loaded is the one that was written

The parts of an index are written one by one: its units, its precompiled headers, its table of
files, its symbols. Each part has a key of its own, and no other part writes to that key, so it does
not matter in which order the parts are written, or how often. What is then loaded is equal to what
was written, down to the spelling of paths, and so is everything that is computed from it.

Of a table of files only one direction is stored. The other direction and the last number come back
because every table that is reached by numbering paths is sound.
-/

namespace SymbolIndex

/-- The tables that come about by numbering paths and by storing and loading. -/
inductive FileTable.Reached : FileTable → Prop where
  | new : Reached {}
  | intern {t t' : FileTable} {p : Path} {id : FileId} :
      Reached t → t.intern p = .ok (id, t') → Reached t'
  | reload {t : FileTable} : Reached t → Reached (ofMap t.toMap)

theorem FileTable.Reached.sound {t : FileTable} (h : t.Reached) : t.Sound := by
  induction h with
  | new => exact sound_empty
  | intern _ hintern ih => exact ih.intern hintern
  | reload _ ih =>
    rw [ih.ofMap_toMap]
    exact ih

namespace Database

variable {path : Path} {top : Spot} {b : Backend} {st : Store} {s s' : Storage} {loaded : Loaded}
  {m : Entities} {parts : List Part}

theorem exists_commit_of_volume (h : Store.Serves path top .memory st s) (ms : List Mutation) :
    ∃ s', commit st s ms = (.ok (), s') := by
  suffices hall : ∃ s', Mutation.applyAll st s ms = (.ok (), s') by
    obtain ⟨s', hall⟩ := hall
    exact ⟨s', by rw [commit, hall]⟩
  cases h with
  | volume hdb hlt =>
    -- no write looks at what is there, so the induction is over all storages
    clear hdb hlt
    induction ms generalizing s with
    | nil => exact ⟨s, rfl⟩
    | cons mutation _ ih =>
      cases mutation with
      | write | remove => exact ih

theorem invalidate_empty (h : Stores st s loaded m) (files : FileTable) :
    invalidate st s ∅ files = (.ok m, s) := by
  unfold invalidate
  rw [h.entities]
  rfl

/-- **An index that is written and loaded is the same index.** Its parts are written in any order,
each at least once, into a store of either kind that holds whatever it may. Every write into memory
succeeds. When the parts are written, the store can be opened again as it is; the units, the
precompiled headers and the table of files are loaded as they were; and forgetting no file answers
the symbols as they were. So an update plans the same work for the units that are loaded, whatever
the times of the files and whatever is known to have changed. -/
theorem reload_lossless (h : Store.Serves path top b st s) (hfiles : loaded.files.Reached)
    (hparts : ∀ part, part ∈ parts) :
    (b = .memory → ∃ s', commit st s (Part.writes loaded m parts) = (.ok (), s'))
      ∧ ∀ s', commit st s (Part.writes loaded m parts) = (.ok (), s') →
        Store.open s' b path .readWrite = .ok (st, s') ∧ load st s' = .ok loaded
          ∧ (∀ files, invalidate st s' ∅ files = (.ok m, s'))
          ∧ ∀ times changed, (load st s').map (fun again => Plan.make times again.sources changed)
              = .ok (Plan.make times loaded.sources changed) := by
  refine ⟨?_, fun s' hok => ?_⟩
  · rintro rfl
    exact exists_commit_of_volume h _
  · have hstores := stores_of_writes h hfiles.sound hparts hok
    have hserves := (Mutation.changes_applyAll h (applyAll_of_commit hok)).serves
    refine ⟨hserves.opens, hstores.load, invalidate_empty hstores, fun times changed => ?_⟩
    rw [hstores.load]
    rfl

def headedUnit : Loaded where
  sources := [{ invocation := .forSource ⟨"/a.cpp"⟩, lastModified := 0xFFFFFFFFFFFFFFFF,
                dependencies := SortedMap.ofList [(⟨"/inc/./h.h"⟩, 3)] }]
  pch := SortedMap.ofList [("h.h", { artifactPath := ⟨"/h.pch"⟩, originHeader := ⟨"/inc/h.h"⟩ })]
  files := { byName := SortedMap.ofList [(⟨"/a.cpp"⟩, ⟨1⟩), (⟨"/inc/./h.h"⟩, ⟨2⟩)]
             byId := SortedMap.ofList [(⟨1⟩, ⟨"/a.cpp"⟩), (⟨2⟩, ⟨"/inc/./h.h"⟩)]
             lastId := 2 }

def overriddenMethod : Entities :=
  SortedMap.ofList
    [("B::f", { symbolName := "f()", declarations := SortedSet.ofList [⟨⟨2⟩, 1, 1⟩]
                subs := SortedSet.ofList [⟨⟨1⟩, 4, 2⟩], cursorScope := ["B"] }),
     ("D::f", { symbolName := "f()", definition := some ⟨⟨1⟩, 4, 2⟩
                superLocation := some ⟨⟨2⟩, 1, 1⟩, overriddenUsr := some "B::f"
                cursorScope := ["\"D\"\n"] })]

def emptyVolume : Store × Storage :=
  ({ path := ⟨"/db"⟩, place := .volume 0 },
    { volumes := [∅], databases := SortedMap.ofList [(⟨"/db/"⟩, 0)] })

theorem reload_lossless_headedUnit :
    headedUnit.files.Reached
      ∧ ∃ s', commit emptyVolume.1 emptyVolume.2 (Part.writes headedUnit overriddenMethod
          [.entities, .pch, .files, .sources, .pch]) = (.ok (), s')
        ∧ load emptyVolume.1 s' = .ok headedUnit
        ∧ invalidate emptyVolume.1 s' ∅ {} = (.ok overriddenMethod, s') := by
  have hserves : Store.Serves ⟨"/db"⟩ [] .memory emptyVolume.1 emptyVolume.2 :=
    .volume (by decide) (by decide)
  have hreached : headedUnit.files.Reached := by
    have hfirst : FileTable.intern {} ⟨"/a.cpp"⟩
        = .ok (⟨1⟩, { byName := SortedMap.ofList [(⟨"/a.cpp"⟩, ⟨1⟩)]
                      byId := SortedMap.ofList [(⟨1⟩, ⟨"/a.cpp"⟩)], lastId := 1 }) := by
      decide
    have hsecond : FileTable.intern
        { byName := SortedMap.ofList [(⟨"/a.cpp"⟩, ⟨1⟩)]
          byId := SortedMap.ofList [(⟨1⟩, ⟨"/a.cpp"⟩)], lastId := 1 } ⟨"/inc/./h.h"⟩
        = .ok (⟨2⟩, headedUnit.files) := by
      decide
    exact .intern (.intern .new hfirst) hsecond
  have hparts : ∀ part, part ∈ [Part.entities, .pch, .files, .sources, .pch] :=
    fun part => by cases part <;> decide
  obtain ⟨hwritten, hagain⟩ := reload_lossless hserves hreached hparts
  obtain ⟨s', hcommit⟩ := hwritten rfl
  obtain ⟨-, hload, hinvalidate, -⟩ := hagain s' hcommit
  exact ⟨hreached, s', hcommit, hload, hinvalidate {}⟩

end Database

end SymbolIndex
