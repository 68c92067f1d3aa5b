import SymbolIndex.Proofs.Events
import SymbolIndex.World

/-!
# What a unit depends on

Of its events only the inclusions count, and of these only that they are there: one that names a
buffer makes the unit one of buffers, without any dependency, and otherwise the files that count are
recorded with their times (`UnitIndexer.Takes`). So the order does not matter, with one exception.
A file may be included under two spellings, and when they have different times, that of the last one
stands (`UnitIndexer.dependencies_exact`, `UnitIndexer.last_spelling_stands`).
-/

namespace SymbolIndex

open List

namespace Path

variable {p q : Path}

theorem same_trans {r : Path} (h : p.same q = true) (h' : q.same r = true) : p.same r = true := by
  unfold same at h h' ⊢
  rw [beq_iff_eq] at h h' ⊢
  exact h.trans h'

theorem same_symm (h : p.same q = true) : q.same p = true := by
  unfold same at h ⊢
  rw [beq_iff_eq] at h ⊢
  exact h.symm

theorem same_refl (p : Path) : p.same p = true := by
  unfold same
  rw [beq_iff_eq]

end Path

/-- The events of a unit report a file as included; an event without a stack is about the input. -/
def Includes (es : List Event) (p : Path) : Prop :=
  ∃ e : Inclusion, .inclusion e ∈ es ∧ e.inclusionStack ≠ [] ∧ e.includedFile = p

namespace UnitIndexer

variable {u u' u₁ : UnitIndexer} {times : FileTimes} {e : Event} {es es' : List Event} {p : Path}

/-! ## Recording -/

/-- Record files with their times; of several spellings of one file the last one's time stands. -/
def depending (times : FileTimes) (deps : SortedMap Path UInt64) (ps : List Path) :
    SortedMap Path UInt64 :=
  ps.foldl (fun m p => m.insert p (times p)) deps

theorem get?_depending (times : FileTimes) (ps : List Path) (deps : SortedMap Path UInt64)
    (p : Path) : (depending times deps ps).get? p
      = ((ps.reverse.find? (fun q => p.same q)).map times).or (deps.get? p) := by
  induction ps generalizing deps with
  | nil => rfl
  | cons q rest ih =>
    rw [depending, foldl_cons, ← depending, ih, SortedMap.get?_insert, reverse_cons, find?_append]
    cases rest.reverse.find? (fun q => p.same q) with
    | some => rfl
    | none => by_cases hsame : p.same q = true <;> simp [Path.compare_eq_iff_same, hsame]

theorem contains_depending {ps : List Path} {deps : SortedMap Path UInt64} :
    (depending times deps ps).contains p = true
      ↔ deps.contains p = true ∨ ∃ q ∈ ps, p.same q = true := by
  unfold SortedMap.contains
  rw [get?_depending, Option.isSome_or, Option.isSome_map, Bool.or_eq_true, find?_isSome]
  simp only [mem_reverse]
  exact or_comm

/-- A unit takes in dependencies, or a buffer and then none. -/
structure Takes (times : FileTimes) (u : UnitIndexer) (buffer : Bool) (ps : List Path)
    (u' : UnitIndexer) : Prop where
  context : u'.context = u.context
  unsaved : u'.contribution.fromUnsaved = (u.contribution.fromUnsaved || buffer)
  recorded : u'.contribution.fromUnsaved = false →
    u'.contribution.dependencies = depending times u.contribution.dependencies ps
  dropped : (u.contribution.fromUnsaved = true → u.contribution.dependencies = ∅) →
    u'.contribution.fromUnsaved = true → u'.contribution.dependencies = ∅

theorem Takes.refl (times : FileTimes) (u : UnitIndexer) : Takes times u false [] u :=
  ⟨rfl, by simp, fun _ => rfl, id⟩

theorem Takes.saved {b : Bool} {ps : List Path} (h : Takes times u b ps u')
    (hsaved : u'.contribution.fromUnsaved = false) : u.contribution.fromUnsaved = false :=
  (Bool.or_eq_false_iff.mp (h.unsaved.symm.trans hsaved)).1

theorem Takes.trans {b b' : Bool} {ps ps' : List Path} (h : Takes times u b ps u₁)
    (h' : Takes times u₁ b' ps' u') : Takes times u (b || b') (ps ++ ps') u' := by
  refine ⟨h'.context.trans h.context, ?_, fun hsaved => ?_, fun hnone => h'.dropped (h.dropped hnone)⟩
  · rw [h'.unsaved, h.unsaved, Bool.or_assoc]
  · rw [h'.recorded hsaved, h.recorded (h'.saved hsaved)]
    exact foldl_append.symm

theorem takes_addDependency (times : FileTimes) (u : UnitIndexer) (p : Path) :
    Takes times u false [p] (u.addDependency times p) := by
  unfold addDependency
  cases hsaved : u.contribution.fromUnsaved <;> constructor <;>
    simp [hsaved, recordDependency, depending]

theorem takes_addDependencies (times : FileTimes) (ps : List Path) (u : UnitIndexer) :
    Takes times u false ps (ps.foldl (addDependency times) u) := by
  induction ps generalizing u with
  | nil => exact .refl times u
  | cons p _ ih => exact (u.takes_addDependency times p).trans (ih _)

theorem takes_markUnsaved (times : FileTimes) (u : UnitIndexer) (ps : List Path) :
    Takes times u true ps u.markUnsaved := by
  constructor <;> simp [markUnsaved]

/-! ## Events -/

end UnitIndexer

namespace UnitContext

/-- The dependency that an event brings. -/
def counted? (context : UnitContext) : Event → Option Path
  | .inclusion e =>
    if e.inclusionStack.isEmpty || !(UnitIndexer.start context).isDependency e.includedFile then none
    else some e.includedFile
  | _ => none

/-- Whether an event includes a buffer. -/
def buffers (context : UnitContext) : Event → Bool
  | .inclusion e => !e.inclusionStack.isEmpty && context.unsavedPaths.contains e.includedFile
  | _ => false

end UnitContext

namespace UnitIndexer

variable {u u' : UnitIndexer} {times : FileTimes} {e : Event} {p : Path}

/-- **One event.** -/
theorem takes_handle (hok : u.handle times e = .ok u') :
    Takes times u (u.context.buffers e) (u.context.counted? e).toList u' := by
  cases e with
  | inclusion e =>
    cases hok
    have hcounts : (start u.context).isDependency = u.isDependency := rfl
    unfold onInclusion UnitContext.buffers UnitContext.counted?
    simp only [hcounts]
    cases hsaved : u.contribution.fromUnsaved <;> cases hstack : e.inclusionStack.isEmpty <;>
      cases hpath : u.context.unsavedPaths.contains e.includedFile <;>
      cases hcounts : u.isDependency e.includedFile <;>
      constructor <;>
      simp [hsaved, depending, markUnsaved, note, recordDependency]
  | _ =>
    have hmoored := moored_handle hok (fun _ h => by cases h)
    refine ⟨hmoored.context, ?_, fun _ => hmoored.dependencies, ?_⟩
    · simp [hmoored.saved, UnitContext.buffers]
    · rw [hmoored.saved, hmoored.dependencies]
      exact id

/-- **All events**, up to the first that fails. -/
theorem takes_handleAll (times : FileTimes) (u : UnitIndexer) (es : List Event) :
    ∃ taken, taken <+: es ∧ ((u.handleAll times es).2 = none → taken = es)
      ∧ Takes times u (taken.any u.context.buffers) (taken.filterMap u.context.counted?)
        (u.handleAll times es).1 := by
  induction es generalizing u with
  | nil => exact ⟨[], prefix_rfl, fun _ => rfl, .refl times u⟩
  | cons e _ ih =>
    unfold handleAll
    split
    · next u₁ hone =>
      obtain ⟨taken, hprefix, hall, htakes⟩ := ih u₁
      have htakes₁ := takes_handle hone
      rw [htakes₁.context] at htakes
      refine ⟨e :: taken, cons_prefix_cons.mpr ⟨rfl, hprefix⟩, fun hnone => by rw [hall hnone], ?_⟩
      have hcounted : (e :: taken).filterMap u.context.counted?
          = (u.context.counted? e).toList ++ taken.filterMap u.context.counted? := by
        cases hc : u.context.counted? e <;> simp [hc]
      rw [any_cons, hcounted]
      exact htakes₁.trans htakes
    · exact ⟨[], nil_prefix, nofun, .refl times u⟩

theorem any_buffers_eq_false {context : UnitContext} (h : context.unsavedPaths = ∅)
    (es : List Event) : es.any context.buffers = false := by
  rw [any_eq_false]
  rintro (e | e | e | e) - <;> simp [UnitContext.buffers, h, SortedMap.contains_empty]

/-! ## Whole units -/

/-- What is asked of a unit before its events. -/
inductive Request where
  | depend (path : Path)
  | unsaved
deriving DecidableEq

namespace Request

def path? : Request → Option Path
  | .depend path => some path
  | .unsaved => none

def apply (times : FileTimes) (u : UnitIndexer) : Request → UnitIndexer
  | .depend path => u.addDependency times path
  | .unsaved => u.markUnsaved

theorem takes_applyAll (times : FileTimes) (requests : List Request) (u : UnitIndexer) :
    Takes times u (requests.contains .unsaved) (requests.filterMap path?)
      (requests.foldl (apply times) u) := by
  induction requests generalizing u with
  | nil => exact .refl times u
  | cons r _ ih =>
    cases r with
    | depend p => exact (u.takes_addDependency times p).trans (ih _)
    | unsaved => exact (u.takes_markUnsaved times []).trans (ih _)

end Request

/-- The unit is made from a buffer. -/
def Buffered (context : UnitContext) (requests : List Request) (events : List Event) : Prop :=
  context.unsavedPaths.contains context.input = true ∨ .unsaved ∈ requests
    ∨ ∃ p, Includes events p ∧ context.unsavedPaths.contains p = true

/-- The path is to be a dependency of the unit. -/
def Depends (context : UnitContext) (requests : List Request) (events : List Event) (p : Path) :
    Prop :=
  .depend p ∈ requests ∨ (Includes events p ∧ p.same context.input = false
    ∧ (context.flags.systemHeaderDependencies = true
      ∨ ∀ dir ∈ context.systemIncludes, p.startsWith dir = false))

/-- What the unit tells after requests and events. -/
def finished? (times : FileTimes) (context : UnitContext) (requests : List Request)
    (events : List Event) : Option Contribution :=
  match (requests.foldl (Request.apply times) (start context)).handleAll times events with
  | (u, none) => some u.contribution
  | (_, some _) => none

section Finished

variable {context : UnitContext} {requests : List Request} {events : List Event} {c : Contribution}

theorem takes_finished (h : finished? times context requests events = some c) :
    ∃ u, u.contribution = c ∧ Takes times (start context)
      (requests.contains .unsaved || events.any context.buffers)
      (requests.filterMap Request.path? ++ events.filterMap context.counted?) u := by
  have hasked := Request.takes_applyAll times requests (start context)
  obtain ⟨taken, -, hall, htakes⟩ := takes_handleAll times
    (requests.foldl (Request.apply times) (start context)) events
  unfold finished? at h
  split at h
  · next u hdone =>
    rw [hdone] at hall htakes
    rw [hall rfl, hasked.context] at htakes
    exact ⟨u, Option.some.inj h, hasked.trans htakes⟩
  · cases h

theorem isDependency_start : (start context).isDependency p = true ↔ p.same context.input = false
    ∧ (context.flags.systemHeaderDependencies = true
      ∨ ∀ dir ∈ context.systemIncludes, p.startsWith dir = false) := by
  unfold isDependency isSystemHeader start
  simp only [Bool.and_eq_true, Bool.or_eq_true, Bool.not_eq_true', any_eq_false, Bool.not_eq_true]

theorem mem_counted : p ∈ events.filterMap context.counted?
    ↔ Includes events p ∧ (start context).isDependency p = true := by
  rw [mem_filterMap]
  constructor
  · rintro ⟨e, he, hcounts⟩
    cases e with
    | inclusion e =>
      simp only [UnitContext.counted?, Bool.or_eq_true, Bool.not_eq_true',
        List.isEmpty_iff] at hcounts
      split at hcounts
      · cases hcounts
      · next hskip =>
        cases hcounts
        obtain ⟨hstack, hcounts⟩ := not_or.mp hskip
        exact ⟨⟨e, he, hstack, rfl⟩, by simpa using hcounts⟩
    | _ => simp [UnitContext.counted?] at hcounts
  · rintro ⟨⟨e, he, hstack, rfl⟩, hcounts⟩
    exact ⟨_, he, by simp [UnitContext.counted?, hstack, hcounts]⟩

theorem mooring_finished (h : finished? times context requests events = some c)
    (hspelled : ∀ p q, Depends context requests events p → Depends context requests events q →
      p.same q = true → times p = times q) :
    (c.fromUnsaved = true ↔ Buffered context requests events)
      ∧ (c.fromUnsaved = true → c.dependencies = ∅)
      ∧ (c.fromUnsaved = false → ∀ p t, c.dependencies.get? p = some t
        ↔ ∃ q, Depends context requests events q ∧ p.same q = true ∧ times q = t) := by
  obtain ⟨u, rfl, htakes⟩ := takes_finished h
  refine ⟨?_, htakes.dropped fun _ => rfl, fun hsaved p t => ?_⟩
  · rw [htakes.unsaved, Bool.or_eq_true, Bool.or_eq_true, contains_iff_mem]
    refine or_congr_right (or_congr_right ?_)
    rw [any_eq_true]
    constructor
    · rintro ⟨e, he, hbuffers⟩
      cases e with
      | inclusion e =>
        simp [UnitContext.buffers] at hbuffers
        exact ⟨_, ⟨e, he, hbuffers.1, rfl⟩, hbuffers.2⟩
      | _ => simp [UnitContext.buffers] at hbuffers
    · rintro ⟨p, ⟨e, he, hstack, rfl⟩, hpath⟩
      exact ⟨_, he, by simp [UnitContext.buffers, hstack, hpath]⟩
  · have hmem : ∀ q, q ∈ (requests.filterMap Request.path? ++ events.filterMap context.counted?)
        ↔ Depends context requests events q := by
      intro q
      rw [mem_append, mem_counted, isDependency_start, mem_filterMap]
      refine or_congr_left ⟨?_, fun hq => ⟨_, hq, rfl⟩⟩
      rintro ⟨r, hr, hq⟩
      cases r with
      | depend => obtain rfl := Option.some.inj hq; exact hr
      | unsaved => simp [Request.path?] at hq
    rw [htakes.recorded hsaved, get?_depending]
    simp only [← hmem] at hspelled ⊢
    rw [show (start context).contribution.dependencies.get? p = none from rfl, Option.or_none,
      Option.map_eq_some_iff]
    constructor
    · rintro ⟨q, hq, rfl⟩
      exact ⟨q, mem_reverse.mp (mem_of_find?_eq_some hq), find?_some hq, rfl⟩
    · rintro ⟨q, hq, hsame, rfl⟩
      obtain ⟨q', hq'⟩ := Option.isSome_iff_exists.mp
        (find?_isSome.mpr ⟨q, mem_reverse.mpr hq, hsame⟩)
      refine ⟨q', hq', hspelled q' q (mem_reverse.mp (mem_of_find?_eq_some hq')) hq ?_⟩
      exact Path.same_trans (Path.same_symm (find?_some hq')) hsame

/-- **What a unit depends on is told by the set of its events**, whatever is asked of it before and
in whatever order they come, as long as no file has different times under the names it is included
by. A unit counts as one of buffers when one of its files is a buffer or when it is marked so, and
then depends on nothing. Otherwise it depends on the files it is told to depend on, and on those
included files that are not its input and no system headers, with the times that they have. -/
theorem dependencies_exact (h : finished? times context requests events = some c)
    (hspelled : ∀ p q, Depends context requests events p → Depends context requests events q →
      p.same q = true → times p = times q) :
    (c.fromUnsaved = true ↔ Buffered context requests events)
      ∧ (c.fromUnsaved = true → c.dependencies = ∅)
      ∧ (c.fromUnsaved = false → ∀ p t, c.dependencies.get? p = some t
        ↔ ∃ q, Depends context requests events q ∧ p.same q = true ∧ times q = t)
      ∧ ∀ events' c', finished? times context requests events' = some c' →
        (∀ i, .inclusion i ∈ events' ↔ .inclusion i ∈ events) →
        c'.fromUnsaved = c.fromUnsaved ∧ ∀ p, c'.dependencies.get? p = c.dependencies.get? p := by
  obtain ⟨hunsaved, hnone, hdepends⟩ := mooring_finished h hspelled
  refine ⟨hunsaved, hnone, hdepends, fun events' c' h' hsame => ?_⟩
  have hincludes : Includes events' = Includes events := by
    funext p
    unfold Includes
    simp only [hsame]
  have hbuffered : Buffered context requests events' = Buffered context requests events := by
    unfold Buffered
    rw [hincludes]
  have hfiles : Depends context requests events' = Depends context requests events := by
    unfold Depends
    rw [hincludes]
  obtain ⟨hunsaved', hnone', hdepends'⟩ := mooring_finished h' (by rwa [hfiles])
  have hkind : c'.fromUnsaved = c.fromUnsaved := by
    rw [Bool.eq_iff_iff, hunsaved', hunsaved, hbuffered]
  refine ⟨hkind, fun p => ?_⟩
  cases hc : c.fromUnsaved with
  | true => rw [hnone' (hkind.trans hc), hnone hc]
  | false =>
    refine Option.ext fun t => ?_
    rw [hdepends' (hkind.trans hc), hdepends hc, hfiles]

end Finished

def spelledTwice (first second : String) : List Event :=
  [first, second].map fun p =>
    .inclusion { includedFile := ⟨p⟩, inclusionStack := [⟨⟨"/a.c"⟩, 1, 1⟩] }

theorem dependencies_exact_spelledTwice :
    ∃ c, finished? (fun _ => 3) { input := ⟨"/a.c"⟩ } [] (spelledTwice "/h.h" "//h.h") = some c
      ∧ c.dependencies.get? ⟨"/h.h"⟩ = some 3
      ∧ ∀ c', finished? (fun _ => 3) { input := ⟨"/a.c"⟩ } [] (spelledTwice "//h.h" "/h.h") = some c' →
        c'.fromUnsaved = c.fromUnsaved ∧ ∀ p, c'.dependencies.get? p = c.dependencies.get? p := by
  obtain ⟨c, hc⟩ : ∃ c, finished? (fun _ => 3) { input := ⟨"/a.c"⟩ } []
      (spelledTwice "/h.h" "//h.h") = some c := Option.isSome_iff_exists.mp (by decide)
  obtain ⟨hunsaved, -, hdepends, hsame⟩ := dependencies_exact hc (fun _ _ _ _ _ => rfl)
  have hsaved : c.fromUnsaved = false := by
    rw [← Bool.not_eq_true, hunsaved]
    simp [Buffered, SortedMap.contains_empty]
  refine ⟨c, hc, (hdepends hsaved _ _).mpr ⟨⟨"/h.h"⟩, .inr ⟨?_, by decide, .inr (by simp)⟩,
    Path.same_refl _, rfl⟩, fun c' hc' => hsame _ c' hc' fun i => ?_⟩
  · exact ⟨_, List.mem_cons_self, by simp, rfl⟩
  · simp [spelledTwice, or_comm]

/-- On a disk a file has no time under the name of a directory, so the order of the two decides. -/
theorem last_spelling_stands :
    let w : World := { disk := { entries := SortedMap.ofList [(["h.h"], .file ⟨#[]⟩ 2000 false)] } }
    let context : UnitContext := { input := ⟨"/a.c"⟩ }
    w.lastModified ⟨"/h.h"⟩ = 2
      ∧ (finished? w.lastModified context [] (spelledTwice "/h.h" "/h.h/")).map
        (fun c => c.dependencies.get? ⟨"/h.h"⟩) = some (some 0)
      ∧ (finished? w.lastModified context [] (spelledTwice "/h.h/" "/h.h")).map
        (fun c => c.dependencies.get? ⟨"/h.h"⟩) = some (some 2) := by
  decide +kernel

end UnitIndexer

end SymbolIndex
