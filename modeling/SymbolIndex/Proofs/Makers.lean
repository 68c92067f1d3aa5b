import SymbolIndex.Proofs.Consumption
import SymbolIndex.Proofs.LostUnits

/-!
# The unit behind a header

A plan goes through the stored units in their order, and a unit that it finds stale makes its input
count as changed for the units after it. So a header that has changed reaches a unit that was parsed
with it if the unit of the header is stored before that one, and if that one watches the header:
`Founded` says so of all stored units.

That order lasts only as long as the unit of a header stays where it is. `Coherent` says that the
headers that are ready are those of the stored units, one for one. A header lands only under a key
that is not ready, so it never takes the place of another unit that makes one
(`Coherent.not_same`), and a plan that finds the unit of a header stale drops its key with it.
-/

namespace SymbolIndex

open List Plan Source

/-! ## The order of a plan -/

namespace Plan

variable {times : Path → UInt64} {changed : List Path} {sources before : List Source} {s : Source}

theorem mem_reparse_of_not_stays (h : ¬ Stays times changed before s) (after : List Source) :
    s.invocation ∈ (make times (before ++ s :: after) changed).reparse := by
  induction after using List.reverseRecOn with
  | nil =>
    rw [make_concat, mem_reparse_visit_iff]
    exact .inr ⟨Bool.not_eq_false _ ▸ h, rfl⟩
  | append_singleton _ _ ih =>
    rw [← cons_append, ← append_assoc, make_concat, mem_reparse_visit_iff]
    exact .inl ih

theorem contains_of_not_stays (h : ¬ Stays times changed before s) (after : List Source) :
    SortedMap.contains (make times (before ++ s :: after) changed).dirtyFiles s.input = true := by
  induction after using List.reverseRecOn with
  | nil =>
    rw [make_concat, contains_visit_iff]
    exact .inr (.inl ⟨Bool.not_eq_false _ ▸ h, Path.same_refl _⟩)
  | append_singleton _ _ ih =>
    rw [← cons_append, ← append_assoc, make_concat, contains_visit_iff]
    exact .inl ih

theorem mem_retained_of_stays (h : Stays times changed before s) (after : List Source) :
    s ∈ (make times (before ++ s :: after) changed).retained := by
  unfold Stays at h
  induction after using List.reverseRecOn with
  | nil =>
    rw [make_concat]
    simp [visit, h]
  | append_singleton _ _ ih =>
    rw [← cons_append, ← append_assoc, make_concat]
    unfold visit
    simp only
    split
    · exact ih
    · exact mem_append_left _ ih

theorem exists_of_retained_eq {before' after' : List Source}
    (h : (make times sources changed).retained = before' ++ s :: after') :
    ∃ before after, sources = before ++ s :: after ∧ Stays times changed before s
      ∧ (make times before changed).retained = before' := by
  induction sources using List.reverseRecOn generalizing after' with
  | nil => simp [make] at h
  | append_singleton sources s' ih =>
    have hearlier : ∀ {rest}, (make times sources changed).retained = before' ++ s :: rest →
        ∃ before after, sources ++ [s'] = before ++ s :: after ∧ Stays times changed before s
          ∧ (make times before changed).retained = before' := by
      intro rest hrest
      obtain ⟨before, after, rfl, hstays⟩ := ih hrest
      exact ⟨before, after ++ [s'], by simp, hstays⟩
    rw [make_concat] at h
    cases hdirty : (isSourceDirty times (make times sources changed).dirtyFiles s').1 with
    | true => exact hearlier (by simpa [visit, hdirty] using h)
    | false =>
      replace h : (make times sources changed).retained ++ [s'] = before' ++ s :: after' := by
        simpa [visit, hdirty] using h
      rcases eq_nil_or_concat after' with rfl | ⟨rest, last, rfl⟩
      · obtain ⟨hbefore, hlast⟩ := append_inj' h rfl
        obtain rfl := singleton_inj.mp hlast
        exact ⟨sources, [], rfl, hdirty, hbefore⟩
      · rw [concat_eq_append, ← cons_append, ← append_assoc] at h
        exact hearlier (append_inj' h rfl).1

theorem not_stays_of_watches {p : Path}
    (hdirty : SortedMap.contains (make times before changed).dirtyFiles p = true)
    (hwatches : s.Watches p) : ¬ Stays times changed before s := by
  intro hstays
  obtain ⟨hsaved, -, hquiet⟩ := isSourceDirty_false hstays
  rcases hwatches with hunsaved | hcontains
  · cases hsaved.symm.trans hunsaved
  · obtain ⟨v, hget⟩ := SortedMap.contains_iff.mp hcontains
    obtain ⟨q, hsame, hq⟩ := SortedMap.mem_of_get? hget
    have hfile := hquiet q (mem_files_iff.mpr (.inr ⟨_, hq, rfl⟩))
    rw [← SortedMap.contains_congr _ hsame, hdirty] at hfile
    cases hfile

end Plan

variable {x : Source}

/-! ## Headers and the units that make them -/

/-- Headers of one signature have one key. -/
def OneKey (is : List Invocation) : Prop :=
  ∀ i ∈ is, ∀ j ∈ is, i.language.isHeader = true → i.signature.same j.signature = true →
    i.headerKey? = j.headerKey?

/-- The headers that are ready are those of the stored units, and no two units make the same. -/
structure Coherent (known : List Invocation) (sources : List Source) (table : PchTable) : Prop where
  apart : Apart sources
  known : ∀ x ∈ sources, x.invocation ∈ known
  made : ∀ key o, table.origin? key = some o → ∃ x ∈ sources, x.Makes key ∧ x.input = o
  ready : ∀ x ∈ sources, ∀ key, x.Makes key → table.origin? key = some x.input
  alone : ∀ x ∈ sources, ∀ y ∈ sources, ∀ key, x.Makes key → y.Makes key → x = y

theorem Source.mem_landIn {sources : List Source} {y : Source} :
    y ∈ x.landIn sources ↔ y = x ∨ (y ∈ sources ∧ ¬ y.Same x) := by
  unfold landIn Same
  simp only [mem_append, mem_filter, mem_singleton, Bool.not_eq_true', Bool.not_eq_true]
  exact Or.comm

/-- What a table of headers is once a unit has landed. -/
inductive Source.Joins (x : Source) (t t' : PchTable) : Prop where
  | unit : x.invocation.language.isHeader = false → (∀ key, t'.origin? key = t.origin? key) →
      Source.Joins x t t'
  | header {key : String} : x.Makes key → t.origin? key = none →
      (∀ key', t'.origin? key' = if key' = key then some x.input else t.origin? key') →
      Source.Joins x t t'

theorem Source.Makes.key_eq {key key' : String} (h : x.Makes key) (h' : x.Makes key') :
    key = key' :=
  Option.some.inj (h.key.symm.trans h'.key)

namespace Coherent

variable {known : List Invocation} {sources : List Source} {table table' : PchTable}
  {x y : Source} {key : String}

theorem empty (known : List Invocation) : Coherent known [] {} where
  apart := List.Pairwise.nil
  known := by simp
  made := by simp [PchTable.origin?_eq_some]
  ready := by simp
  alone := by simp

variable (h : Coherent known sources table)

include h

theorem congr (hsame : ∀ key, table'.origin? key = table.origin? key) :
    Coherent known sources table' where
  apart := h.apart
  known := h.known
  made := fun key o ho => h.made key o (hsame key ▸ ho)
  ready := fun x hx key hmakes => (hsame key).trans (h.ready x hx key hmakes)
  alone := h.alone

section

variable (hkeys : OneKey known) (hknown : x.invocation ∈ known) (hjoins : x.Joins table table')

include hkeys hknown hjoins

/-- **What lands does not take the place of a unit that makes a header.** A header that did would
have the key of that unit, which is ready. -/
theorem not_same (hy : y ∈ sources)
    (hmakes : y.Makes key) : ¬ y.Same x := by
  intro hsame
  have hheader := hsame.isHeader hmakes.header
  cases hjoins with
  | unit hunit => cases hheader.symm.trans hunit
  | @header key' hmakes' hnone _ =>
    have hkey := hkeys _ (h.known y hy) _ hknown hmakes.header hsame
    have hready := h.ready y hy key' ⟨hmakes.header, hkey.trans hmakes'.key⟩
    cases hnone.symm.trans hready

theorem land :
    Coherent known (x.landIn sources) table' := by
  have hstay : ∀ {y key}, y ∈ sources → y.Makes key → y ∈ x.landIn sources := fun hy hmakes =>
      mem_landIn.mpr (.inr ⟨hy, h.not_same hkeys hknown hjoins hy hmakes⟩)
  have hall : ∀ {y}, y ∈ x.landIn sources → y = x ∨ y ∈ sources :=
    fun hy => (mem_landIn.mp hy).imp_right And.left
  have hself : x ∈ x.landIn sources := mem_landIn.mpr (.inl rfl)
  have hapart := h.apart.landIn x
  have hknown' : ∀ y ∈ x.landIn sources, y.invocation ∈ known := by
    intro y hy
    rcases hall hy with rfl | hy
    · exact hknown
    · exact h.known y hy
  cases hjoins with
  | unit hunit hsame =>
    have hold : ∀ {y key}, y ∈ x.landIn sources → y.Makes key → y ∈ sources := by
      intro y key hy hmakes
      rcases hall hy with rfl | hy
      · cases hmakes.header.symm.trans hunit
      · exact hy
    refine ⟨hapart, hknown', fun key o ho => ?_, fun y hy key hmakes => ?_,
      fun y hy z hz key hmakes hmakes' => ?_⟩
    · obtain ⟨y, hy, hmakes, hinput⟩ := h.made key o (hsame key ▸ ho)
      exact ⟨y, hstay hy hmakes, hmakes, hinput⟩
    · exact (hsame key).trans (h.ready y (hold hy hmakes) key hmakes)
    · exact h.alone y (hold hy hmakes) z (hold hz hmakes') key hmakes hmakes'
  | @header key hmakes hnone hsame =>
    -- Nothing else makes what was not ready.
    have hother : ∀ y ∈ sources, ¬ y.Makes key := by
      intro y hy hmakes'
      cases hnone.symm.trans (h.ready y hy key hmakes')
    refine ⟨hapart, hknown', fun key' o ho => ?_, fun y hy key' hmakes' => ?_,
      fun y hy z hz key' hmakes' hmakes'' => ?_⟩
    · rw [hsame] at ho
      split at ho
      · next heq => exact ⟨x, hself, heq ▸ hmakes, Option.some.inj ho⟩
      · obtain ⟨y, hy, hmakes', hinput⟩ := h.made key' o ho
        exact ⟨y, hstay hy hmakes', hmakes', hinput⟩
    · rw [hsame]
      rcases hall hy with rfl | hy
      · rw [if_pos (hmakes'.key_eq hmakes)]
      · rw [if_neg (fun heq : key' = key => hother y hy (heq ▸ hmakes'))]
        exact h.ready y hy key' hmakes'
    · rcases hall hy with rfl | hold <;> rcases hall hz with rfl | hold'
      · rfl
      · exact absurd (hmakes'.key_eq hmakes ▸ hmakes'') (hother z hold')
      · exact absurd (hmakes''.key_eq hmakes ▸ hmakes') (hother y hold)
      · exact h.alone y hold z hold' key' hmakes' hmakes''

end

/-- **A plan keeps headers and units together.** -/
theorem retained {times : Path → UInt64} {changed : List Path}
    (htable : ∀ key, table'.origin? key
      = if key ∈ (Plan.make times sources changed).invalidatedPchKeys then none
        else table.origin? key) :
    Coherent known (Plan.make times sources changed).retained table' := by
  obtain ⟨hapart, -, hiff, hsub, -⟩ := retained_or_reparse times changed h.apart
  refine ⟨hapart, fun x hx => h.known x (hsub x hx), fun key o ho => ?_,
    fun x hx key hmakes => ?_, fun x hx y hy => h.alone x (hsub x hx) y (hsub y hy)⟩
  · rw [htable] at ho
    split at ho
    · cases ho
    · next hleft =>
      obtain ⟨x, hx, hmakes, hinput⟩ := h.made key o ho
      exact ⟨x, ((stays_or_invalidated hx hmakes).resolve_right hleft).1, hmakes, hinput⟩
  · rw [htable, if_neg]
    · exact h.ready x (hsub x hx) key hmakes
    · -- The unit that makes the key is retained, and the only one.
      intro hdropped
      obtain ⟨i, hi, hheader, hkey⟩ := exists_of_mem_invalidated hdropped
      obtain ⟨before, y, after, hsplit, -, rfl⟩ := exists_of_mem_reparse hi
      obtain rfl := h.alone x (hsub x hx) y (by rw [hsplit]; simp) key hmakes ⟨hheader, hkey⟩
      exact (hiff x (hsub x hx)).mp hx hi

end Coherent

/-! ## What units were parsed with -/

/-- What the last parse of a unit used, given all units that have landed and what each was parsed
with. -/
def lastUses (parses : List (Source × List (String × PchEntry))) (x : Source) :
    List (String × PchEntry) :=
  ((parses.reverse.find? (fun p => p.1.invocation.signature.same x.invocation.signature)).map
    Prod.snd).getD []

theorem lastUses_concat (parses : List (Source × List (String × PchEntry)))
    (p : Source × List (String × PchEntry)) (x : Source) :
    lastUses (parses ++ [p]) x = if p.1.invocation.signature.same x.invocation.signature then p.2
        else lastUses parses x := by
  unfold lastUses
  rw [reverse_append, reverse_singleton, singleton_append, find?_cons]
  split <;> simp_all

/-- A stored unit makes the header that is used. -/
def HasMaker (sources : List Source) (use : String × PchEntry) : Prop :=
  ∃ x ∈ sources, x.Makes use.1 ∧ x.input = use.2.originHeader

/-- Whatever a unit was parsed with, the unit that has made it is stored before, and the unit
watches its input. -/
def Founded (sources : List Source) (parses : List (Source × List (String × PchEntry))) : Prop :=
  ∀ before x after, sources = before ++ x :: after → ∀ use ∈ lastUses parses x,
    HasMaker before use ∧ x.Watches use.2.originHeader

namespace Founded

variable {sources : List Source} {parses : List (Source × List (String × PchEntry))}
  {times : Path → UInt64} {changed : List Path}

/-- **A unit is not found up to date when one of the headers it was parsed with is not.** -/
theorem not_stays (h : Founded sources parses) {before between after : List Source} {y : Source}
    (hsplit : sources = before ++ x :: between ++ y :: after) {use : String × PchEntry}
    (huse : use ∈ lastUses parses y) (hinput : x.input = use.2.originHeader)
    (hdirty : ¬ Plan.Stays times changed before x) :
    ¬ Plan.Stays times changed (before ++ x :: between) y := by
  have hwatches := (h _ y after hsplit use huse).2
  exact not_stays_of_watches (contains_of_not_stays hdirty between) (hinput ▸ hwatches)

theorem retained (h : Founded sources parses) :
    Founded (Plan.make times sources changed).retained parses := by
  intro before' y after' hretained use huse
  obtain ⟨before, after, hsplit, hstays, rfl⟩ := exists_of_retained_eq hretained
  obtain ⟨⟨x, hx, hmakes, hinput⟩, hwatches⟩ := h before y after hsplit use huse
  refine ⟨⟨x, ?_, hmakes, hinput⟩, hwatches⟩
  obtain ⟨front, back, rfl⟩ := append_of_mem hx
  by_cases hclean : Plan.Stays times changed front x
  · exact mem_retained_of_stays hclean back
  · exact absurd hstays (h.not_stays hsplit huse hinput hclean)

/-- **A unit lands after the units of the headers that it was parsed with.** -/
theorem land (h : Founded sources parses) {uses : List (String × PchEntry)}
    (hkept : ∀ y ∈ sources, ∀ key, y.Makes key → ¬ y.Same x)
    (huses : ∀ use ∈ uses, HasMaker sources use ∧ x.Watches use.2.originHeader) :
    Founded (x.landIn sources) (parses ++ [(x, uses)]) := by
  intro before y after hsplit use huse
  rw [lastUses_concat] at huse
  unfold Source.landIn at hsplit
  rcases eq_nil_or_concat after with rfl | ⟨rest, last, rfl⟩
  · obtain ⟨rfl, hlast⟩ := append_inj' hsplit rfl
    obtain rfl := singleton_inj.mp hlast
    have hself : x.invocation.signature.same x.invocation.signature = true := Signature.same_refl _
    rw [if_pos hself] at huse
    obtain ⟨⟨z, hz, hmakes, hinput⟩, hwatches⟩ := huses use huse
    refine ⟨⟨z, mem_filter.mpr ⟨hz, ?_⟩, hmakes, hinput⟩, hwatches⟩
    simpa [Source.Same] using hkept z hz _ hmakes
  · rw [concat_eq_append, ← cons_append, ← append_assoc] at hsplit
    obtain ⟨before₀, rest₀, hsources, hbefore, hrest⟩ :=
      filter_eq_append_iff.mp (append_inj' hsplit rfl).1
    obtain ⟨skipped, after₀, rfl, hskipped, hy, -⟩ := filter_eq_cons_iff.mp hrest
    rw [if_neg] at huse
    · obtain ⟨⟨z, hz, hmakes, hinput⟩, hwatches⟩ :=
        h (before₀ ++ skipped) y after₀ (by rw [hsources, append_assoc]) use huse
      refine ⟨⟨z, ?_, hmakes, hinput⟩, hwatches⟩
      have hleft : ¬ z.Same x := by
        refine hkept z ?_ _ hmakes
        rw [hsources, ← append_assoc]
        exact mem_append_left _ hz
      rw [← hbefore, mem_filter]
      refine ⟨(mem_append.mp hz).resolve_right fun hz => hskipped z hz ?_, ?_⟩ <;>
        simpa [Source.Same] using hleft
    · intro hsame
      have hback : y.invocation.signature.same x.invocation.signature = true :=
        Source.Same.symm hsame
      simp [hback] at hy

end Founded

end SymbolIndex
