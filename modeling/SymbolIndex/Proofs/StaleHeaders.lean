import SymbolIndex.Proofs.DirtyFiles
import SymbolIndex.Proofs.Episode
import SymbolIndex.Proofs.TaskInvariants

/-!
# Precompiled headers that outlive an update

A precompiled header is stored under the key of its output, and the unit it was made from under its
signature: input, language and macros. An update drops the keys of the header units that it finds
stale. So a header is watched as long as its unit is stored, and no longer: when a header is
precompiled into two places, the second unit takes the place of the first, and nothing watches the
first key any more.

`madeBy` follows a key through the runs to the unit it was made from. `Runs.made` says that this
unit is stored or was displaced by one with another key, and `surviving_header` what that means for
the headers an update leaves in the table.
-/

namespace SymbolIndex

open List PchTable SortedMap

/-! ## Tables that are stored and loaded -/

namespace PchTable

variable {t : PchTable}

theorem origin?_eq_some {key : String} {o : Path} : t.origin? key = some o
      ↔ ∃ entry, t.slots.get? key = some (.ready entry) ∧ entry.originHeader = o := by
  unfold origin?
  split
  · next entry hentry => simp [hentry]
  · next hnone =>
    simp only [reduceCtorEq, false_iff, not_exists, not_and]
    exact fun entry hentry => absurd hentry (hnone entry)

theorem get?_toMap (t : PchTable) (key : String) (entry : PchEntry) :
    t.toMap.get? key = some entry ↔ t.slots.get? key = some (.ready entry) := by
  rw [← mem_toList_iff, ← mem_toList_iff]
  unfold toMap
  rw [toList_ofList_filterMap t.slots, mem_filterMap]
  · constructor
    · rintro ⟨⟨k, slot⟩, hmem, heq⟩
      cases slot with
      | building => cases heq
      | ready =>
        cases heq
        exact hmem
    · exact fun hmem => ⟨_, hmem, rfl⟩
  · rintro ⟨k, slot⟩ x hx
    cases slot with
    | building => cases hx
    | ready => rw [← Option.some.inj hx]

theorem origin?_ofMap_toMap (t : PchTable) (key : String) :
    (ofMap t.toMap).origin? key = t.origin? key := by
  have hslot : ∀ entry, (ofMap t.toMap).slots.get? key = some (.ready entry)
      ↔ t.slots.get? key = some (.ready entry) := by
    intro entry
    rw [← get?_toMap t key entry]
    unfold ofMap
    simp
  refine Option.ext (fun o => ?_)
  rw [origin?_eq_some, origin?_eq_some]
  simp only [hslot]

theorem get?_removeAll (keys : List String) (t : PchTable) (key : String) :
    (keys.foldl remove t).slots.get? key = if key ∈ keys then none else t.slots.get? key := by
  induction keys generalizing t with
  | nil => simp
  | cons k rest ih =>
    rw [foldl_cons, ih, remove, get?_erase]
    by_cases hk : key = k <;> by_cases hrest : key ∈ rest <;> simp [hk, hrest]

theorem origin?_removeAll (keys : List String) (t : PchTable) (key : String) :
    (keys.foldl remove t).origin? key = if key ∈ keys then none else t.origin? key := by
  unfold origin?
  rw [get?_removeAll]
  by_cases hkey : key ∈ keys <;> simp [hkey]

end PchTable

/-! ## Header units in a plan -/

/-- A unit is a header that is precompiled under a key. -/
structure Source.Makes (s : Source) (key : String) : Prop where
  header : s.invocation.language.isHeader = true
  key : s.invocation.headerKey? = some key

namespace Plan

variable {times : Path → UInt64} {changed : List Path} {sources : List Source} {key : String}
  {s : Source}

/-- A unit is found up to date when its turn comes after the units `before` it. -/
def Stays (times : Path → UInt64) (changed : List Path) (before : List Source) (s : Source) : Prop :=
  (isSourceDirty times (make times before changed).dirtyFiles s).1 = false

theorem stays_or_invalidated (hs : s ∈ sources) (hmakes : s.Makes key) :
    (s ∈ (make times sources changed).retained
        ∧ ∃ before after, sources = before ++ s :: after ∧ Stays times changed before s)
      ∨ key ∈ (make times sources changed).invalidatedPchKeys := by
  induction sources using List.reverseRecOn with
  | nil => cases hs
  | append_singleton sources s' ih =>
    rw [make_concat]
    unfold visit
    simp only
    rcases mem_append.mp hs with hs | hs
    · -- An earlier verdict is not taken back.
      rcases ih hs with ⟨hretained, before, after, hsplit, hstays⟩ | hkey
      · refine .inl ⟨?_, before, after ++ [s'], by simp [hsplit], hstays⟩
        split
        · exact hretained
        · exact mem_append_left _ hretained
      · refine .inr ?_
        split
        · simp only
          split
          · exact mem_append_left _ hkey
          · exact hkey
        · exact hkey
    · rw [mem_singleton] at hs
      subst hs
      cases hdirty : (isSourceDirty times (make times sources changed).dirtyFiles s).1 with
      | true =>
        refine .inr ?_
        simp only [if_true, hmakes.header, hmakes.key]
        exact mem_append_right _ (mem_singleton.mpr rfl)
      | false => exact .inl ⟨by simp, sources, [], rfl, hdirty⟩

/-- The input of a unit that was found up to date counts as changed only when a later unit is about
it too. -/
theorem exists_later_of_contains {before after : List Source}
    (hstays : Stays times changed before s)
    (h : SortedMap.contains (make times (before ++ s :: after) changed).dirtyFiles s.input = true) :
    ∃ s' ∈ after, s.input.same s'.input = true ∨ s'.Outdated times s.input := by
  obtain ⟨-, hup, hquiet⟩ := isSourceDirty_false hstays
  induction after using List.reverseRecOn with
  | nil =>
    rw [make_concat] at h
    rcases contains_visit_iff.mp h with hbefore | ⟨hdirty, -⟩ | ⟨-, d, hd, htime, -⟩
    · rw [hquiet s.input (by simp [Source.files])] at hbefore
      cases hbefore
    · rw [hstays] at hdirty
      cases hdirty
    · exact absurd (hup.2 d hd) htime
  | append_singleton _ s' ih =>
    rw [← cons_append, ← append_assoc, make_concat] at h
    rcases contains_visit_iff.mp h with hearlier | ⟨-, hsame⟩ | ⟨-, hout⟩
    · obtain ⟨s'', hs'', habout⟩ := ih hearlier
      exact ⟨s'', mem_append_left _ hs'', habout⟩
    · exact ⟨s', by simp, .inl hsame⟩
    · exact ⟨s', by simp, .inr hout⟩

theorem exists_of_mem_reparse {i : Invocation} (h : i ∈ (make times sources changed).reparse) :
    ∃ before s after, sources = before ++ s :: after ∧ ¬ Stays times changed before s
      ∧ s.invocation = i := by
  induction sources using List.reverseRecOn with
  | nil => simp [make] at h
  | append_singleton sources s ih =>
    rw [make_concat, mem_reparse_visit_iff] at h
    rcases h with h | ⟨hdirty, rfl⟩
    · obtain ⟨before, s', after, rfl, hrest⟩ := ih h
      exact ⟨before, s', after ++ [s], by simp, hrest⟩
    · exact ⟨sources, s, [], rfl, by simp [Stays, hdirty], rfl⟩

variable (h : key ∈ (make times sources changed).invalidatedPchKeys)

include h

theorem exists_of_mem_invalidated :
    ∃ i ∈ (make times sources changed).reparse, i.language.isHeader = true
      ∧ i.headerKey? = some key := by
  induction sources using List.reverseRecOn with
  | nil => simp [make] at h
  | append_singleton sources s ih =>
    have hearlier : key ∈ (make times sources changed).invalidatedPchKeys →
        ∃ i ∈ (make times (sources ++ [s]) changed).reparse, i.language.isHeader = true
          ∧ i.headerKey? = some key := by
      intro hkey
      obtain ⟨i, hi, hrest⟩ := ih hkey
      exact ⟨i, by rw [make_concat, mem_reparse_visit_iff]; exact .inl hi, hrest⟩
    rw [make_concat] at h
    unfold visit at h
    simp only at h
    split at h
    · next hdirty =>
      simp only at h
      split at h
      · next hheader =>
        rcases mem_append.mp h with h | h
        · exact hearlier h
        · refine ⟨s.invocation, ?_, hheader, Option.mem_toList.mp h⟩
          rw [make_concat, mem_reparse_visit_iff]
          exact .inr ⟨hdirty, rfl⟩
      · exact hearlier h
    · exact hearlier h

theorem exists_makes_of_invalidated :
    ∃ s ∈ sources, s.Makes key := by
  obtain ⟨i, hi, hheader, hkey⟩ := exists_of_mem_invalidated h
  obtain ⟨before, s, after, rfl, -, rfl⟩ := exists_of_mem_reparse hi
  exact ⟨s, by simp, hheader, hkey⟩

end Plan

variable {ls : List Landing} {key : String}

/-! ## The unit behind a key -/

/-- The unit that was last precompiled under a key, the last run first. -/
def madeBy : List Run → String → Option Source
  | [], _ => none
  | r :: earlier, key =>
    match Trace.lastLanding? r.landings key with
    | some l => some l.unit.source
    | none => madeBy earlier key

/-- A unit of this signature was precompiled under another key. -/
def Displaced (runs : List Run) (key : String) (s : Source) : Prop :=
  ∃ r ∈ runs, ∃ l ∈ r.landings, s.Same l.unit.source ∧ ∃ key', l.key? = some key' ∧ key' ≠ key

theorem Source.Same.isHeader {a b : Source} (h : a.Same b)
    (ha : a.invocation.language.isHeader = true) : b.invocation.language.isHeader = true := by
  unfold Source.Same Signature.same at h
  simp only [Bool.and_eq_true, beq_iff_eq] at h
  have hlanguage : a.invocation.language = b.invocation.language := h.1.2
  rwa [← hlanguage]

theorem Trace.lastLanding?_eq_some {l : Landing} (h : Trace.lastLanding? ls key = some l) :
    l.key? = some key ∧ ∃ front back, ls = front ++ l :: back ∧ ∀ l' ∈ back, l'.key? ≠ some key := by
  unfold Trace.lastLanding? at h
  obtain ⟨hkey, before, after, hsplit, hbefore⟩ := find?_eq_some_iff_append.mp h
  refine ⟨by simpa using hkey, after.reverse, before.reverse, ?_, fun l' hl' => ?_⟩
  · rw [← reverse_reverse ls, hsplit]
    simp
  · have := hbefore l' (mem_reverse.mp hl')
    simpa using this

theorem Trace.lastLanding?_eq_none (h : Trace.lastLanding? ls key = none) :
    ∀ l ∈ ls, l.key? ≠ some key := by
  intro l hl hkey
  unfold Trace.lastLanding? at h
  have := find?_eq_none.mp h l (mem_reverse.mpr hl)
  exact this (by simp [hkey])

namespace Run

variable {r : Run} {key : String} {s : Source}

theorem origin?_saved (r : Run) (key : String) : r.saved.pch.origin? key
      = if key ∈ r.relocation.report.dropped then none else r.ended.state.pch.origin? key := by
  rw [r.pch_saved]
  exact (r.ended.state.pch.loses_relocateAll r.disk r.db).origin key

theorem mem_sources_saved : s ∈ r.saved.sources ↔ r.start.Keeps r.units s := by
  obtain ⟨i, hall, -, -, hsources⟩ := r.exists_integrated
  rw [hsources]
  exact IndexState.mem_sources_integrateAll hall s

/-- A header unit that other units come after is kept unless one of them has its signature, and then
that one has another key. -/
theorem same_or_displaced (hsize : r.invocations.length < UInt64.size)
    (hheader : s.invocation.language.isHeader = true) {back : List Landing}
    (hback : ∀ l ∈ back, l ∈ r.landings ∧ l.key? ≠ some key) :
    (∀ v ∈ back.map Landing.unit, ¬ s.Same v.source) ∨ Displaced [r] key s := by
  by_cases hsame : ∃ l ∈ back, s.Same l.unit.source
  · obtain ⟨l, hl, hsame⟩ := hsame
    obtain ⟨hmem, hother⟩ := hback l hl
    obtain ⟨hown, hiff, -⟩ := r.trace.landed_own hsize hmem
    have hlanded := hsame.isHeader hheader
    rw [hown, hiff] at hlanded
    obtain ⟨key', hkey'⟩ := Option.isSome_iff_exists.mp hlanded
    exact .inr ⟨r, by simp, l, hmem, hsame, key', hkey', fun heq => hother (heq ▸ hkey')⟩
  · refine .inl (fun v hv hsame' => hsame ?_)
    obtain ⟨l, hl, rfl⟩ := mem_map.mp hv
    exact ⟨l, hl, hsame'⟩

/-- A key that is ready after a run was landed in it, and its unit is stored or displaced; or it was
ready before, and a unit that was stored before is stored still or displaced. -/
theorem made_or_kept (hsize : r.invocations.length < UInt64.size) {o : Path}
    (ho : r.saved.pch.origin? key = some o) :
    (∃ l, Trace.lastLanding? r.landings key = some l ∧ l.unit.source.Makes key
        ∧ l.unit.source.input = o
        ∧ (l.unit.source ∈ r.saved.sources ∨ Displaced [r] key l.unit.source))
      ∨ (Trace.lastLanding? r.landings key = none ∧ r.start.pch.origin? key = some o
        ∧ ∀ s ∈ r.start.sources, s.Makes key → s ∈ r.saved.sources ∨ Displaced [r] key s) := by
  have hended : r.ended.state.pch.origin? key = some o := by
    rw [r.origin?_saved] at ho
    split at ho
    · cases ho
    · exact ho
  have hready := r.trace.ready key o hended
  cases hlast : Trace.lastLanding? r.landings key with
  | some l =>
    rw [hlast] at hready
    obtain ⟨hkey, front, back, hsplit, hback⟩ := Trace.lastLanding?_eq_some hlast
    have hmem : l ∈ r.landings := by rw [hsplit]; simp
    obtain ⟨hown, hiff, hown_key⟩ := r.trace.landed_own hsize hmem
    have hheader : l.unit.source.invocation.language.isHeader = true := by
      rw [hown, hiff, hkey]
      rfl
    refine .inl ⟨l, rfl, ⟨hheader, by rw [hown]; exact hown_key key hkey⟩, ?_, ?_⟩
    · have hready : o = l.job.invocation.input := hready
      rw [hready, ← hown]
      rfl
    · refine (r.same_or_displaced hsize hheader (fun l' hl' => ⟨?_, hback l' hl'⟩)).imp_left ?_
      · rw [hsplit]
        exact mem_append_right _ (mem_cons_of_mem _ hl')
      · intro hnone
        refine mem_sources_saved.mpr (.inl ⟨front.map Landing.unit, l.unit, _, ?_, rfl, hnone⟩)
        unfold units
        rw [hsplit, map_append, map_cons]
  | none =>
    rw [hlast] at hready
    refine .inr ⟨rfl, hready, fun s hs hmakes => ?_⟩
    have hother := Trace.lastLanding?_eq_none hlast
    refine (r.same_or_displaced hsize hmakes.header (fun l hl => ⟨hl, hother l hl⟩)).imp_left ?_
    exact fun hnone => mem_sources_saved.mpr (.inr ⟨hs, hnone⟩)

end Run

theorem Displaced.mono {runs runs' : List Run} {s : Source} (h : Displaced runs key s)
    (hsub : runs ⊆ runs') : Displaced runs' key s := by
  obtain ⟨r, hr, hrest⟩ := h
  exact ⟨r, hsub hr, hrest⟩

theorem Engine.origin?_retainedState (i : IndexState) (plan : Plan) (m : Entities) (key : String) :
    (retainedState (Database.loadedOf i) plan m).pch.origin? key
      = if key ∈ plan.invalidatedPchKeys then none else i.pch.origin? key := by
  show (plan.invalidatedPchKeys.foldl PchTable.remove (PchTable.ofMap i.pch.toMap)).origin? key = _
  rw [origin?_removeAll, origin?_ofMap_toMap]

/-- **A header in a database was made from a unit that is stored or displaced.** -/
theorem Runs.made {r : Run} {earlier : List Run} (h : Runs (r :: earlier))
    (hsize : ∀ r' ∈ r :: earlier, r'.invocations.length < UInt64.size) {o : Path}
    (ho : r.saved.pch.origin? key = some o) :
    ∃ s, madeBy (r :: earlier) key = some s ∧ s.Makes key ∧ s.input = o
      ∧ (s ∈ r.saved.sources ∨ Displaced (r :: earlier) key s) := by
  generalize hruns : r :: earlier = runs at h hsize
  induction h generalizing r earlier with
  | build hstart =>
    obtain ⟨rfl, rfl⟩ := List.cons.inj hruns
    rcases r.made_or_kept (hsize r (by simp)) ho with ⟨l, hl, hmakes, hinput, hkept⟩ | ⟨-, hnone, -⟩
    · exact ⟨l.unit.source, by simp [madeBy, hl], hmakes, hinput, hkept⟩
    · rw [hstart] at hnone
      exact absurd hnone (by simp [origin?_eq_some])
  | @update _ prev before _ hcont ih =>
    obtain ⟨rfl, rfl⟩ := List.cons.inj hruns
    rcases r.made_or_kept (hsize r (by simp)) ho with ⟨l, hl, hmakes, hinput, hkept⟩ | ⟨hl, ho', hkept⟩
    · exact ⟨l.unit.source, by simp [madeBy, hl], hmakes, hinput,
        hkept.imp_right (Displaced.mono · (by simp))⟩
    · rw [hcont.start, Engine.origin?_retainedState] at ho'
      split at ho'
      · exact absurd ho' (by simp)
      · next hleft =>
        obtain ⟨s, hmade, hmakes, hinput, hstored⟩ :=
          ih ho' rfl (fun r' hr' => hsize r' (mem_cons_of_mem _ hr'))
        refine ⟨s, by rw [madeBy, hl]; exact hmade, hmakes, hinput, ?_⟩
        rcases hstored with hstored | hdisplaced
        · -- The update has left the key alone, so it keeps the unit.
          rcases Plan.stays_or_invalidated hstored hmakes with ⟨hretained, -⟩ | hdropped
          · have hstart : s ∈ r.start.sources := by
              rw [hcont.start]
              exact hretained
            exact (hkept s hstart hmakes).imp_right (Displaced.mono · (by simp))
          · exact absurd hdropped hleft
        · exact .inr (hdisplaced.mono (subset_cons_self _ _))

/-! ## What an update leaves -/

/-- The unit of a header is stored, and no unit after it is about the header in another way: none
has it as its input, and those that include it have recorded what the unit itself has. -/
structure Watched (sources : List Source) (s : Source) : Prop where
  stored : s ∈ sources
  alone : ∀ before after, sources = before ++ s :: after → ∀ s' ∈ after,
    s.input.same s'.input = false
      ∧ ∀ d ∈ s'.dependencies.toList, s.input.same d.1 = true → d = (s.input, s.lastModified)

namespace History

variable {path : Path} {top : Spot} {b : Backend} {st : Store} {s : Storage} {r : Run}
  {earlier : List Run}

/-- **A header that an update leaves in the table is fresh if its unit watches over it.**

Every header that is left was made from a unit that is stored and up to date, or that was displaced.
If the unit is watched, its header does not count as changed and no file of it has another time than
when it was made. If no unit is stored for a key, its header is left whatever has changed. -/
theorem surviving_header (h : History path top b st s (r :: earlier))
    (hsize : ∀ r' ∈ r :: earlier, r'.invocations.length < UInt64.size) :
    Database.load st s = .ok (Database.loadedOf r.saved)
      ∧ ∀ (times : Path → UInt64) (changed : List Path) (m : Entities) (key : String) (o : Path),
        (Engine.retainedState (Database.loadedOf r.saved)
            (Plan.make times r.saved.sources changed) m).pch.origin? key = some o →
        ∃ src, madeBy (r :: earlier) key = some src ∧ src.Makes key ∧ src.input = o
          ∧ ((src ∈ r.saved.sources ∧ src.UpToDate times) ∨ Displaced (r :: earlier) key src)
          ∧ (Watched r.saved.sources src →
              SortedMap.contains (Plan.make times r.saved.sources changed).dirtyFiles o = false
                ∧ src.UpToDate times)
          ∧ ((∀ src' ∈ r.saved.sources, ¬ src'.Makes key) → ∀ times' changed' m',
              (Engine.retainedState (Database.loadedOf r.saved)
                (Plan.make times' r.saved.sources changed') m').pch.origin? key = some o) := by
  refine ⟨(h.holds.stores r earlier rfl).load, fun times changed m key o ho => ?_⟩
  rw [Engine.origin?_retainedState] at ho
  split at ho
  · cases ho
  next hleft =>
  obtain ⟨src, hmade, hmakes, rfl, hstored⟩ := h.holds.chain.made hsize ho
  -- A stored unit was looked at, and since its key is left it was found up to date.
  have hstays : src ∈ r.saved.sources → ∃ before after,
      r.saved.sources = before ++ src :: after ∧ Plan.Stays times changed before src := by
    intro hmem
    rcases Plan.stays_or_invalidated hmem hmakes with ⟨-, hstays⟩ | hdropped
    · exact hstays
    · exact absurd hdropped hleft
  have hfresh : src ∈ r.saved.sources → src.UpToDate times := by
    intro hmem
    obtain ⟨before, after, -, hclean⟩ := hstays hmem
    exact (Plan.isSourceDirty_false hclean).2.1
  refine ⟨src, hmade, hmakes, rfl, hstored.imp_left (fun hmem => ⟨hmem, hfresh hmem⟩),
    fun hwatched => ⟨?_, hfresh hwatched.stored⟩, fun hnone times' changed' m' => ?_⟩
  · obtain ⟨before, after, hsplit, hclean⟩ := hstays hwatched.stored
    by_contra hdirty
    rw [Bool.not_eq_false, hsplit] at hdirty
    obtain ⟨src', hsrc', habout⟩ := Plan.exists_later_of_contains hclean hdirty
    obtain ⟨hinput, hdependencies⟩ := hwatched.alone before after hsplit src' hsrc'
    rcases habout with hsame | ⟨d, hd, htime, hsame⟩
    · rw [hinput] at hsame
      cases hsame
    · have hupToDate := (hfresh hwatched.stored).1
      rw [hdependencies d hd hsame] at htime
      exact htime hupToDate
  · have hkept : key ∉ (Plan.make times' r.saved.sources changed').invalidatedPchKeys := by
      intro hdropped
      obtain ⟨src', hsrc', hmakes'⟩ := Plan.exists_makes_of_invalidated hdropped
      exact hnone src' hsrc' hmakes'
    rw [Engine.origin?_retainedState, if_neg hkept]
    exact ho

def precompiledTwice : Episode :=
  let into (output : String) : Invocation :=
    { directory := ⟨"/"⟩, compiler := "gcc", input := ⟨"/src/h.h"⟩, output := some ⟨output⟩
      language := .cHeader, arguments := ["-x", "c-header"] }
  { invocations := [into "/b/one.gch", into "/b/two.gch"]
    first := [(⟨"/src/h.h"⟩, { events := [] })]
    before := [(⟨"/src/h.h"⟩, { micros := 1000 })]
    second := [(⟨"/src/h.h"⟩, { events := [] })]
    after := [(⟨"/src/h.h"⟩, { micros := 2000 })] }

-- The build is run through once for everything that is read off it.
theorem built_precompiledTwice : precompiledTwice.built.1.toOption.isSome = true
      ∧ precompiledTwice.buildRun.relocation.report.dropped = []
      ∧ (∀ key ∈ ["/b/one", "/b/two"],
        precompiledTwice.buildRun.ended.state.pch.origin? key = some ⟨"/src/h.h"⟩)
      ∧ precompiledTwice.buildRun.saved.sources
        = (madeBy [precompiledTwice.buildRun] "/b/two").toList
      ∧ "/b/two" ∉ (Plan.make precompiledTwice.buildSite.world.lastModified
        precompiledTwice.buildRun.saved.sources []).invalidatedPchKeys
      ∧ "/b/one" ∉ precompiledTwice.plan.invalidatedPchKeys
      ∧ SortedMap.contains precompiledTwice.plan.dirtyFiles ⟨"/src/h.h"⟩ = true
      ∧ (madeBy [precompiledTwice.buildRun] "/b/one").any (fun src =>
        precompiledTwice.updateSite.world.lastModified src.input != src.lastModified) = true := by
  decide +kernel

theorem origin?_precompiledTwice {plan : Plan} (hkey : key ∈ ["/b/one", "/b/two"])
    (hleft : key ∉ plan.invalidatedPchKeys) :
    (Engine.retainedState (Database.loadedOf precompiledTwice.buildRun.saved) plan ∅).pch.origin? key
      = some ⟨"/src/h.h"⟩ := by
  obtain ⟨-, hdropped, horigin, -⟩ := built_precompiledTwice
  rw [Engine.origin?_retainedState, if_neg hleft, Run.origin?_saved, hdropped]
  simpa using horigin key hkey

/-- The second of the two headers is watched, and fresh as long as its file has its time. -/
theorem surviving_header_second :
    let r := precompiledTwice.buildRun
    let times := precompiledTwice.buildSite.world.lastModified
    let plan := Plan.make times r.saved.sources []
    History ⟨"/db"⟩ [] .memory precompiledTwice.opened.1 precompiledTwice.built.2.storage [r]
      ∧ (∀ r' ∈ [r], r'.invocations.length < UInt64.size)
      ∧ (Engine.retainedState (Database.loadedOf r.saved) plan ∅).pch.origin? "/b/two"
        = some ⟨"/src/h.h"⟩
      ∧ ∃ src, madeBy [r] "/b/two" = some src ∧ Watched r.saved.sources src
        ∧ SortedMap.contains plan.dirtyFiles ⟨"/src/h.h"⟩ = false ∧ src.UpToDate times := by
  obtain ⟨hbuilt, -, -, hall, hkept, -⟩ := built_precompiledTwice
  have hleft := origin?_precompiledTwice (by simp) hkept
  intro r times plan
  obtain ⟨-, -, h⟩ := Episode.history_build hbuilt
  have hsize : ∀ r' ∈ [r], r'.invocations.length < UInt64.size := by decide
  obtain ⟨src, hmade, -, -, -, hfresh, -⟩ :=
    (surviving_header h hsize).2 times [] ∅ "/b/two" ⟨"/src/h.h"⟩ hleft
  have hsources : r.saved.sources = [src] := by
    rw [show r.saved.sources = _ from hall, show madeBy [r] "/b/two" = some src from hmade]
    rfl
  have hwatched : Watched r.saved.sources src := by
    rw [hsources]
    refine ⟨by simp, fun before after hsplit s' hs' => ?_⟩
    have hlength := congrArg List.length hsplit
    simp only [List.length_append, List.length_cons, List.length_nil] at hlength
    rw [List.length_eq_zero_iff.mp (show after.length = 0 by omega)] at hs'
    cases hs'
  exact ⟨h, hsize, hleft, src, hmade, hwatched, hfresh hwatched⟩

/-- The first of the two headers is left in the table though its origin counts as changed and has
another time than when the header was made. -/
theorem update_leaves_stale_header :
    let r := precompiledTwice.buildRun
    (∃ summary, precompiledTwice.built.1 = .ok summary)
      ∧ History ⟨"/db"⟩ [] .memory precompiledTwice.opened.1 precompiledTwice.built.2.storage [r]
      ∧ (Engine.retainedState (Database.loadedOf r.saved) precompiledTwice.plan ∅).pch.origin? "/b/one"
        = some ⟨"/src/h.h"⟩
      ∧ SortedMap.contains precompiledTwice.plan.dirtyFiles ⟨"/src/h.h"⟩ = true
      ∧ ∃ src, madeBy [r] "/b/one" = some src
        ∧ ¬ src.UpToDate precompiledTwice.updateSite.world.lastModified := by
  intro r
  obtain ⟨hsome, -, -, -, -, hkept, hdirty, hmade⟩ := built_precompiledTwice
  obtain ⟨summary, hbuilt, h⟩ := Episode.history_build hsome
  obtain ⟨src, hsrc, htime⟩ := (Option.any_eq_true _ _).mp hmade
  refine ⟨⟨summary, hbuilt⟩, h, origin?_precompiledTwice (by simp) hkept, hdirty, src, hsrc, ?_⟩
  exact fun hup => absurd hup.1 (by simpa using htime)

end History

end SymbolIndex
