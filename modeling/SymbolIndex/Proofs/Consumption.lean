import SymbolIndex.Proofs.UnitReports

/-!
# What a parse takes of the headers that are ready

A parse begins with the precompiled headers that stand for the headers its unit includes: those that
are ready and whose artifacts are there (`Scheduler.uses`). Each of them is named to the front end
(`arguments_beginParse`), and the unit watches what it was made from: it depends on the file, or
counts as made from a buffer, which is parsed anew every time. Events do not change that
(`Watches.handleAll`), so it holds of the source that comes of the parse.
-/

namespace SymbolIndex

open List

namespace PchTable

variable {disk : Disk} {t t' : PchTable} {key : String}

/-- The header of a key that is ready and on disk. -/
def usable (t : PchTable) (disk : Disk) (key : String) : Option PchEntry :=
  (t.lookupForInclude disk key).1

theorem usable_eq_some {entry : PchEntry} : t.usable disk key = some entry
      ↔ t.slots.get? key = some (.ready entry) ∧ disk.isFile entry.artifactPath = true := by
  unfold usable lookupForInclude
  cases hslot : t.slots.get? key with
  | none => simp
  | some slot =>
    cases slot with
    | building => simp
    | ready other =>
      by_cases hfile : disk.isFile other.artifactPath = true
      · simp only [hfile, if_true, Option.some.injEq, Pch.Slot.ready.injEq]
        exact ⟨fun heq => ⟨heq, heq ▸ hfile⟩, fun h => h.1⟩
      · simp only [hfile, Bool.false_eq_true, if_false, reduceCtorEq, Option.some.injEq,
          Pch.Slot.ready.injEq, false_iff, not_and]
        rintro rfl
        exact hfile

theorem Thins.usable (h : Thins disk t t') (key : String) :
    t'.usable disk key = t.usable disk key := by
  refine Option.ext fun entry => ?_
  rw [usable_eq_some, usable_eq_some]
  rcases h.slots key with hsame | ⟨hnone, old, hready, hgone⟩
  · rw [hsame]
  · rw [hnone, hready]
    simp only [reduceCtorEq, false_and, Option.some.injEq, Pch.Slot.ready.injEq, false_iff, not_and]
    rintro rfl
    simp [hgone]

end PchTable

/-! ## Watching a file -/

namespace UnitIndexer

variable {u u' : UnitIndexer} {times : FileTimes} {p : Path}

/-- A unit depends on a file, or counts as made from a buffer. -/
def Watches (p : Path) (u : UnitIndexer) : Prop :=
  u.contribution.fromUnsaved = true ∨ u.contribution.dependencies.contains p = true

theorem Watches.takes {b : Bool} {ps : List Path} (h : u.Watches p) (htakes : Takes times u b ps u') :
    u'.Watches p := by
  cases hkind : u'.contribution.fromUnsaved with
  | true => exact .inl hkind
  | false =>
    have hcontains := h.resolve_left (by simp [htakes.saved hkind])
    refine .inr ?_
    rw [htakes.recorded hkind, contains_depending]
    exact .inl hcontains

theorem Takes.watches {b : Bool} {ps : List Path} (h : Takes times u b ps u') (hp : p ∈ ps) :
    u'.Watches p := by
  cases hkind : u'.contribution.fromUnsaved with
  | true => exact .inl hkind
  | false =>
    refine .inr ?_
    rw [h.recorded hkind, contains_depending]
    exact .inr ⟨p, hp, Path.same_refl p⟩

/-- **No event makes a unit stop watching a file.** -/
theorem Watches.handleAll (h : u.Watches p) (times : FileTimes) (es : List Event) :
    (u.handleAll times es).1.Watches p := by
  obtain ⟨taken, -, -, htakes⟩ := takes_handleAll times u es
  exact h.takes htakes

end UnitIndexer

/-- A unit that was parsed depends on a file, or counts as made from a buffer. -/
def Source.Watches (p : Path) (x : Source) : Prop :=
  x.fromUnsavedFile = true ∨ x.dependencies.contains p = true

namespace Scheduler

variable {setup : RunSetup} {s : Scheduler} {i : Invocation} {key : String} {entry : PchEntry}

/-- The headers that a parse is given, with their keys. -/
def uses (setup : RunSetup) (s : Scheduler) (i : Invocation) : List (String × PchEntry) :=
  if setup.config.flags.disablePch then []
  else i.includedHeaderKeys.filterMap (fun key =>
    (s.state.pch.usable s.world.disk key).map (fun entry => (key, entry)))

theorem mem_uses : (key, entry) ∈ uses setup s i ↔ setup.config.flags.disablePch = false
      ∧ key ∈ i.includedHeaderKeys ∧ s.state.pch.slots.get? key = some (.ready entry)
      ∧ s.world.disk.isFile entry.artifactPath = true := by
  unfold uses
  split
  · next hdisabled => simp [hdisabled]
  · next henabled =>
    simp only [mem_filterMap, Option.map_eq_some_iff, Prod.mk.injEq, ← PchTable.usable_eq_some,
      Bool.not_eq_true _ ▸ henabled, true_and]
    constructor
    · rintro ⟨key', hkey, entry', hentry, rfl, rfl⟩
      exact ⟨hkey, hentry⟩
    · rintro ⟨hkey, hentry⟩
      exact ⟨key, hkey, entry, hentry, rfl, rfl⟩

/-- What stands on the command line for a precompiled header. -/
def pchArguments (entry : PchEntry) : List String := ["-include-pch", entry.artifactPath.text]

theorem useHeaders_eq (disk : Disk) (keys : List String) (acc : PchUse × PchTable) :
    (keys.foldl (useHeader disk) acc).1.arguments
        = acc.1.arguments ++ (keys.filterMap (acc.2.usable disk)).flatMap pchArguments
      ∧ (keys.foldl (useHeader disk) acc).1.originHeaders
        = acc.1.originHeaders ++ (keys.filterMap (acc.2.usable disk)).map PchEntry.originHeader := by
  induction keys generalizing acc with
  | nil => simp
  | cons key _ ih =>
    -- What was dropped on the way was not usable before.
    have hthins : acc.2.Thins disk (useHeader disk acc key).2 := thins_useHeaders disk [key] acc
    have hrest := ih (useHeader disk acc key)
    rw [funext hthins.usable] at hrest
    rw [foldl_cons, hrest.1, hrest.2]
    have husable : acc.2.usable disk key = (acc.2.lookupForInclude disk key).1 := rfl
    unfold useHeader
    simp only
    split
    · next table heq =>
      rw [heq] at husable
      simp [husable]
    · next entry table heq =>
      rw [heq] at husable
      simp [husable, pchArguments]

theorem preparePchUse_eq (setup : RunSetup) (s : Scheduler) (i : Invocation) :
    (preparePchUse setup s i).1.arguments = (uses setup s i).flatMap (fun use => pchArguments use.2)
      ∧ (preparePchUse setup s i).1.originHeaders
        = (uses setup s i).map (fun use => use.2.originHeader) := by
  unfold preparePchUse uses
  split
  · exact ⟨rfl, rfl⟩
  · obtain ⟨harguments, horigins⟩ :=
      useHeaders_eq s.world.disk i.includedHeaderKeys ({}, s.state.pch)
    have hkeyed : (i.includedHeaderKeys.filterMap (fun key =>
        (s.state.pch.usable s.world.disk key).map (fun entry => (key, entry)))).map Prod.snd
        = i.includedHeaderKeys.filterMap (s.state.pch.usable s.world.disk) := by
      rw [map_filterMap]
      simp [Function.comp_def]
    simp only [harguments, horigins, ← hkeyed, flatMap_map, map_map]
    exact ⟨rfl, rfl⟩

/-- **The front end is told of every header that is used.** -/
theorem arguments_beginParse (setup : RunSetup) (s : Scheduler) (i : Invocation) :
    (beginParse setup s i).1.arguments = setup.config.frontendArguments i
      ++ (uses setup s i).flatMap (fun use => pchArguments use.2) := by
  rw [← (preparePchUse_eq setup s i).1]
  rfl

theorem infix_arguments (h : (key, entry) ∈ uses setup s i) :
    pchArguments entry <:+: (beginParse setup s i).1.arguments := by
  rw [arguments_beginParse]
  obtain ⟨before, after, hsplit⟩ := append_of_mem h
  rw [hsplit]
  refine ⟨setup.config.frontendArguments i ++ before.flatMap (fun use => pchArguments use.2),
    after.flatMap (fun use => pchArguments use.2), ?_⟩
  simp

/-- **A unit watches what the headers it uses were made from.** -/
theorem watches_beginParse (h : (key, entry) ∈ uses setup s i) :
    (beginParse setup s i).2.1.Watches entry.originHeader := by
  have horigin : entry.originHeader ∈ (preparePchUse setup s i).1.originHeaders := by
    rw [(preparePchUse_eq setup s i).2]
    exact mem_map.mpr ⟨(key, entry), h, rfl⟩
  unfold beginParse
  simp only
  split
  · exact .inl rfl
  · exact (UnitIndexer.takes_addDependencies _ _ _).watches horigin

theorem watches_runFrontend {errand : Errand} {request : ParseRequest} {indexer : UnitIndexer}
    {p : Path} (h : indexer.Watches p) {unit : ParsedUnit}
    (hunit : (runFrontend setup s errand request indexer).2 = .ok unit) : unit.source.Watches p := by
  obtain ⟨u, hall, -, hsource⟩ := runFrontend_eq_ok hunit
  have hevents := h.handleAll (s.world.after setup.frontend request).lastModified
    (setup.frontend s.world.disk request).events
  rw [hall] at hevents
  rw [hsource]
  exact hevents

end Scheduler

end SymbolIndex
