import SymbolIndex.Proofs.Pruning
import SymbolIndex.Proofs.Reload

/-!
# Forgetting files in parts

Forgetting some files and then others leaves what forgetting all of them at once leaves. For a
record this is so because each of its parts is pruned by a rule that looks at the files alone; that
the overridden method goes with its place makes no difference, since the place is gone by then. A
record that the first part leaves empty would be empty after both. In the store the keys of the
files are removed, and with them, in a directory, those that share a file name.
-/

namespace SymbolIndex

open SortedMap SortedSet

/-! ## One record -/

namespace SortedSet

variable {κ : Type u} [Ord κ]

theorem isEmpty_iff_members {s : SortedSet κ} : s.isEmpty = true ↔ ∀ k, k ∉ s.members := by
  unfold SortedMap.isEmpty members SortedMap.keys
  rw [List.isEmpty_iff, ← List.eq_nil_iff_forall_not_mem, List.map_eq_nil_iff]

theorem restrict_restrict [Std.TransOrd κ] [Std.LawfulEqOrd κ] (s : SortedSet κ)
    (keep keep' : κ → Bool) :
    (s.restrict keep).restrict keep' = s.restrict (fun k => keep k && keep' k) :=
  ext_contains fun k => by simp only [contains_restrict, Bool.and_assoc]

theorem size_restrict_le (s : SortedSet κ) (keep : κ → Bool) : (s.restrict keep).size ≤ s.size :=
  List.length_filter_le ..

theorem restrict_eq_of_size {s : SortedSet κ} {keep : κ → Bool}
    (h : (s.restrict keep).size = s.size) : s.restrict keep = s := by
  obtain ⟨entries, hsorted⟩ := s
  have hentries := List.filter_sublist.eq_of_length h
  unfold restrict SortedMap.filter
  simp only [hentries]

end SortedSet

namespace Entity

variable {e : Entity} {ids ids' all : SortedSet FileId}

theorem pruneFiles_pruneFiles (hall : ∀ id, all.contains id = (ids.contains id || ids'.contains id))
    (e : Entity) : (e.pruneFiles ids).pruneFiles ids' = e.pruneFiles all := by
  have hstays : ∀ l : Location,
      (!all.contains l.file) = (!ids.contains l.file && !ids'.contains l.file) := by
    intro l
    rw [hall, Bool.not_or]
  unfold pruneFiles
  simp only [restrict_restrict, Option.filter_filter, hstays, mk.injEq, true_and, and_true]
  cases e.superLocation with
  | none => simp
  | some l => cases hl : ids.contains l.file <;> cases ids'.contains l.file <;> simp [hl]

theorem prunedBy_iff (ids : SortedSet FileId) (e : Entity) :
    e.prunedBy ids = true ↔ e.pruneFiles ids ≠ e := by
  unfold prunedBy
  rw [decide_eq_true_iff, not_iff_not]
  refine ⟨fun hcount => ?_, fun hsame => by rw [hsame]⟩
  -- no part grows, so when the sum stays every part does
  have hopt : ∀ o : Option Location, ∀ keep : Location → Bool,
      (if (o.filter keep).isSome then 1 else 0) ≤ (if o.isSome then 1 else 0)
        ∧ ((if (o.filter keep).isSome then 1 else 0) = (if o.isSome then 1 else 0) →
          o.filter keep = o ∧ o.all keep = true) := by
    intro o keep
    cases o with
    | none => simp
    | some l => cases hl : keep l <;> simp [Option.filter, hl]
  unfold pruneFiles locationCount at *
  simp only at hcount ⊢
  generalize hkeep : (fun l : Location => !ids.contains l.file) = keep at hcount ⊢
  have hdef := hopt e.definition keep
  have hsuper := hopt e.superLocation keep
  have hdecl := e.declarations.size_restrict_le keep
  have hextra := e.extraDeclarations.size_restrict_le keep
  have hrefs := e.references.size_restrict_le keep
  have hsubs := e.subs.size_restrict_le keep
  rw [(hdef.2 (by omega)).1, (hsuper.2 (by omega)).1, (hsuper.2 (by omega)).2,
    restrict_eq_of_size (s := e.declarations) (by omega),
    restrict_eq_of_size (s := e.extraDeclarations) (by omega),
    restrict_eq_of_size (s := e.references) (by omega),
    restrict_eq_of_size (s := e.subs) (by omega)]
  rfl

theorem overriddenUsr_pruneFiles (e : Entity) (ids : SortedSet FileId) :
    (e.pruneFiles ids).overriddenUsr
      = if (e.pruneFiles ids).superLocation = e.superLocation then e.overriddenUsr else none := by
  cases hs : e.superLocation with
  | none => simp [pruneFiles, hs]
  | some l => cases hl : ids.contains l.file <;> simp [pruneFiles, hs, hl, Option.filter]

/-- A record has a place in a role, or as the definition of a method that overrides it. -/
def Lists (e : Entity) (l : Location) : Option Role → Prop
  | some role => e.At role l
  | none => e.subs.contains l = true

theorem lists_pruneFiles {l : Location} {kind : Option Role} :
    (e.pruneFiles ids).Lists l kind ↔ e.Lists l kind ∧ ids.contains l.file = false := by
  cases kind with
  | some => exact at_pruneFiles
  | none => simp [Lists, pruneFiles]

end Entity

/-! ## All records -/

namespace Entities

variable {m : Entities} {ids ids' all : SortedSet FileId} {usr : Usr} {e : Entity}

theorem pruneFiles_pruneFiles (hall : ∀ id, all.contains id = (ids.contains id || ids'.contains id))
    (m : Entities) : (m.pruneFiles ids).pruneFiles ids' = m.pruneFiles all := by
  refine ext_get? fun usr => Option.ext fun e => ?_
  rw [get?_pruneFiles, get?_pruneFiles]
  refine and_congr_left fun hfull => ⟨?_, ?_⟩
  · rintro ⟨e₁, h₁, rfl⟩
    obtain ⟨⟨e₀, h₀, rfl⟩, -⟩ := get?_pruneFiles.mp h₁
    exact ⟨e₀, h₀, (Entity.pruneFiles_pruneFiles hall e₀).symm⟩
  · rintro ⟨e₀, h₀, rfl⟩
    rw [← Entity.pruneFiles_pruneFiles hall] at hfull ⊢
    refine ⟨_, get?_pruneFiles.mpr ⟨⟨e₀, h₀, rfl⟩, ?_⟩, rfl⟩
    -- what is empty has nothing to lose
    rw [← Bool.not_eq_true] at hfull ⊢
    exact fun hempty => hfull (Entity.isEmpty_iff.mpr fun l hl =>
      Entity.isEmpty_iff.mp hempty l (Entity.mem_ownLocations_pruneFiles.mp hl).1)

/-- What is left of records when some files count as changed. -/
structure Forgets (files : FileTable) (dirty : SortedSet Path) (m left : Entities) : Prop where
  /-- A record that is kept has lost its places in those files, the method with the place where it
  is, and nothing else. -/
  record : ∀ usr e', left.get? usr = some e' → ∃ e, m.get? usr = some e ∧ e'.naming = e.naming
    ∧ (∀ l kind, e'.Lists l kind ↔ e.Lists l kind ∧ ¬files.LiesIn dirty l)
    ∧ e'.overriddenUsr = if e'.superLocation = e.superLocation then e.overriddenUsr else none
  kept : dirty.isEmpty = false → ∀ usr, left.contains usr = true
    ↔ ∃ e l, m.get? usr = some e ∧ l ∈ e.ownLocations ∧ ¬files.LiesIn dirty l
  all : dirty.isEmpty = true → left = m

end Entities

namespace Database

variable {path : Path} {top : Spot} {b : Backend} {st : Store} {s s' : Storage} {m kept : Entities}
  {dirty A B U : SortedSet Path}

theorem forgets_invalidation (m : Entities) (dirty : SortedSet Path) (files : FileTable) :
    Entities.Forgets files dirty m (invalidation m dirty files).2 := by
  unfold invalidation
  cases hdirty : dirty.isEmpty with
  | true =>
    have houtside : ∀ l, ¬files.LiesIn dirty l := fun l ⟨p, hp, _⟩ =>
      isEmpty_iff_members.mp hdirty p hp
    exact ⟨fun usr e he => ⟨e, he, rfl, by simp [houtside], by simp⟩, by simp [hdirty], by simp⟩
  | false =>
    simp only [Bool.false_eq_true, if_false]
    have hids : ∀ l : Location, SortedMap.contains
        (SortedSet.ofList (dirty.members.filterMap files.id?)) l.file = false
          ↔ ¬files.LiesIn dirty l := by
      intro l
      rw [← Run.Continues.contains_numbers, Bool.not_eq_true]
    refine ⟨fun usr e' he' => ?_, fun _ usr => ?_, by simp [hdirty]⟩
    · obtain ⟨⟨e, he, rfl⟩, -⟩ := Entities.get?_pruneFiles.mp he'
      exact ⟨e, he, rfl, fun l kind => by rw [Entity.lists_pruneFiles, hids],
        e.overriddenUsr_pruneFiles _⟩
    · rw [contains_iff]
      constructor
      · rintro ⟨e', he'⟩
        obtain ⟨⟨e, he, rfl⟩, hfull⟩ := Entities.get?_pruneFiles.mp he'
        rw [← Bool.not_eq_true, Entity.isEmpty_iff] at hfull
        push Not at hfull
        obtain ⟨l, hl⟩ := hfull
        rw [Entity.mem_ownLocations_pruneFiles, hids] at hl
        exact ⟨e, l, he, hl⟩
      · rintro ⟨e, l, he, hl, houtside⟩
        refine ⟨_, Entities.get?_pruneFiles.mpr ⟨⟨e, he, rfl⟩, ?_⟩⟩
        rw [← Bool.not_eq_true, Entity.isEmpty_iff]
        exact fun hnone => hnone l (Entity.mem_ownLocations_pruneFiles.mpr ⟨hl, (hids l).mpr houtside⟩)

section Union

variable (hunion : ∀ p, p ∈ U.members ↔ p ∈ A.members ∨ p ∈ B.members)
include hunion

theorem isEmpty_union : U.isEmpty = (A.isEmpty && B.isEmpty) := by
  rw [Bool.eq_iff_iff, Bool.and_eq_true]
  simp only [isEmpty_iff_members, hunion, not_or, forall_and]

theorem invalidation_invalidation (m : Entities) (files : FileTable) :
    (invalidation (invalidation m A files).2 B files).2 = (invalidation m U files).2 := by
  have hids : ∀ id, SortedMap.contains (SortedSet.ofList (U.members.filterMap files.id?)) id
      = (SortedMap.contains (SortedSet.ofList (A.members.filterMap files.id?)) id
        || SortedMap.contains (SortedSet.ofList (B.members.filterMap files.id?)) id) := by
    intro id
    rw [Bool.eq_iff_iff, Bool.or_eq_true]
    simp only [contains_ofList, List.mem_filterMap, hunion, or_and_right, exists_or]
  have hnone : ∀ {dirty : SortedSet Path}, dirty.isEmpty = true → ∀ id, SortedMap.contains
      (SortedSet.ofList (dirty.members.filterMap files.id?)) id = false := by
    intro dirty hdirty id
    rw [← Bool.not_eq_true, contains_ofList]
    rintro ⟨_, hmem, -⟩
    obtain ⟨p, hp, -⟩ := List.mem_filterMap.mp hmem
    exact isEmpty_iff_members.mp hdirty p hp
  unfold invalidation
  rw [isEmpty_union hunion]
  cases hA : A.isEmpty <;> cases hB : B.isEmpty <;>
    simp only [Bool.false_and, Bool.true_and, Bool.false_eq_true, if_true, if_false]
  · exact Entities.pruneFiles_pruneFiles hids m
  · refine congrArg m.pruneFiles (ext_contains fun id => ?_)
    rw [hids, hnone hB, Bool.or_false]
  · refine congrArg m.pruneFiles (ext_contains fun id => ?_)
    rw [hids, hnone hA, Bool.false_or]

end Union

/-! ## The store -/

theorem read_of_remove (h : Store.Serves path top b st s) {keys : List String} {key : String}
    (hok : (Mutation.remove keys).apply st s = (.ok (), s'))
    (hkey : ¬Store.Apart b (fun k => k ∈ keys) key) : st.read s' key = .ok none := by
  simp only [Mutation.apply] at hok
  split at hok
  · next hremove =>
    cases hok
    obtain ⟨hchanges, hgone⟩ := h.invalidate hremove
    unfold Store.Apart at hkey
    push Not at hkey
    obtain ⟨k, hk, hshared⟩ := hkey
    rw [← hgone k hk]
    by_cases heq : key = k
    · rw [heq]
    · obtain ⟨rfl, hname⟩ := hshared heq
      cases hchanges.serves
      unfold Store.read Store.valuePath
      rw [hname]
  · cases hok

theorem applyAll_pair {m₁ m₂ : Mutation} (h : Mutation.applyAll st s [m₁, m₂] = (.ok (), s')) :
    ∃ s₁, m₁.apply st s = (.ok (), s₁) ∧ m₂.apply st s₁ = (.ok (), s') := by
  simp only [Mutation.applyAll] at h
  split at h
  · next s₁ h₁ =>
    split at h
    · next h₂ => exact ⟨s₁, h₁, h₂.trans h⟩
    · cases h
  · cases h

/-- A key that an invalidation leaves alone. -/
def Spares (b : Backend) (dirty : SortedSet Path) (key : String) : Prop :=
  Store.Apart b (fun k => k ∈ dirty.members.map DbKey.symbols) key

/-- What an invalidation leaves in a database. -/
structure Cleared (b : Backend) (st : Store) (s s' : Storage) (dirty : SortedSet Path)
    (kept : Entities) : Prop where
  entities : st.read s' DbKey.entities = if dirty.isEmpty then st.read s DbKey.entities
    else .ok (some kept.encode.render.toUTF8)
  gone : ∀ key, key ≠ DbKey.entities → ¬Spares b dirty key → st.read s' key = .ok none
  others : ∀ key, key ≠ DbKey.entities → Spares b dirty key → st.read s' key = st.read s key

theorem invalidate_spec {files : FileTable} (h : Store.Serves path top b st s)
    (hstored : readValue st s DbKey.entities ∅ Entities.decode? = .ok m)
    (hok : invalidate st s dirty files = (.ok kept, s')) :
    kept = (invalidation m dirty files).2 ∧ Store.Serves path top b st s'
      ∧ readValue st s' DbKey.entities ∅ Entities.decode? = .ok kept ∧ Cleared b st s s' dirty kept := by
  unfold invalidate at hok
  rw [hstored] at hok
  simp only at hok
  split at hok
  · next s₁ hcommit =>
    obtain ⟨hkept, rfl⟩ := Prod.mk.inj hok
    cases hkept
    have hall := applyAll_of_commit hcommit
    have hserves := (Mutation.changes_applyAll h hall).serves
    refine ⟨rfl, hserves, ?_⟩
    cases hdirty : dirty.isEmpty with
    | true =>
      simp only [invalidation, hdirty, if_true] at hall ⊢
      cases hall
      refine ⟨hstored, by simp [hdirty], fun key _ hshared => ?_, fun _ _ _ => rfl⟩
      refine absurd (fun k hk => ?_) hshared
      obtain ⟨p, hp, -⟩ := List.mem_map.mp hk
      exact absurd hp (isEmpty_iff_members.mp hdirty p)
    | false =>
      simp only [invalidation, hdirty, Bool.false_eq_true, if_false] at hall ⊢
      obtain ⟨s₂, hremove, hwrite⟩ := applyAll_pair hall
      have hserves₂ := (Mutation.changes_apply h hremove).serves
      have hread := Mutation.valueAt_apply hserves₂ hwrite DbKey.entities
        (Mutation.apart_of_plain b plain_entities _)
      rw [Mutation.effect_write, if_pos rfl] at hread
      have hkept : ∀ key, key ≠ DbKey.entities → st.read s₁ key = st.read s₂ key := fun key hkey =>
        (Mutation.changes_apply hserves₂ hwrite).others key fun k hk => by
          obtain rfl : k = DbKey.entities := hk
          exact ⟨hkey, fun _ => (Store.fileNameFor_ne plain_entities (Ne.symm hkey)).symm⟩
      refine ⟨?_, by simp [hdirty, Store.read_of_valueAt hread], fun key hkey hshared => ?_, fun key hkey hapart => ?_⟩
      · exact readValue_of_valueAt Entities.faithful (by decide) hread
      · rw [hkept key hkey, read_of_remove h hremove hshared]
      · rw [hkept key hkey, (Mutation.changes_apply h hremove).others key hapart]
  · cases hok

theorem exists_invalidate (h : Store.Serves path top .memory st s)
    (hstored : readValue st s DbKey.entities ∅ Entities.decode? = .ok m) (dirty : SortedSet Path)
    (files : FileTable) : ∃ kept s', invalidate st s dirty files = (.ok kept, s') := by
  obtain ⟨s', hcommit⟩ := exists_commit_of_volume h (invalidation m dirty files).1
  refine ⟨(invalidation m dirty files).2, s', ?_⟩
  unfold invalidate
  rw [hstored]
  simp only [hcommit]

/-- **Files can be forgotten in parts.** Whatever symbols a database holds and wherever it is, when
it forgets some files it answers the symbols that it holds then: the records that have a place of
their own outside of those files, without their places in them. When it forgets some files and then
others, the answer and what is found under each key are the same as when it forgets all of them at
once. In memory that never fails. And the count of its places tells whether a record changes. -/
theorem invalidate_composes (h : Store.Serves path top b st s)
    (hstored : readValue st s DbKey.entities ∅ Entities.decode? = .ok m) (files : FileTable)
    (hunion : ∀ p, p ∈ U.members ↔ p ∈ A.members ∨ p ∈ B.members) :
    (∀ dirty kept s', invalidate st s dirty files = (.ok kept, s') →
        readValue st s' DbKey.entities ∅ Entities.decode? = .ok kept
          ∧ Entities.Forgets files dirty m kept)
      ∧ (∀ {first s₁ second s₂ once s₃}, invalidate st s A files = (.ok first, s₁) →
        invalidate st s₁ B files = (.ok second, s₂) → invalidate st s U files = (.ok once, s₃) →
        second = once ∧ ∀ key, st.read s₂ key = st.read s₃ key)
      ∧ (b = .memory → ∃ first s₁ second s₂ once s₃, invalidate st s A files = (.ok first, s₁)
        ∧ invalidate st s₁ B files = (.ok second, s₂) ∧ invalidate st s U files = (.ok once, s₃))
      ∧ ∀ ids e, Entity.prunedBy ids e = true ↔ e.pruneFiles ids ≠ e := by
  refine ⟨fun dirty kept s' hok => ?_, fun hfirst hsecond honce => ?_, ?_, Entity.prunedBy_iff⟩
  · obtain ⟨rfl, -, hread, -⟩ := invalidate_spec h hstored hok
    exact ⟨hread, forgets_invalidation m dirty files⟩
  · obtain ⟨rfl, hserves, hstored₁, hA⟩ := invalidate_spec h hstored hfirst
    obtain ⟨rfl, -, -, hB⟩ := invalidate_spec hserves hstored₁ hsecond
    obtain ⟨rfl, -, -, hU⟩ := invalidate_spec h hstored honce
    have hsame := invalidation_invalidation hunion m files
    refine ⟨hsame, fun key => ?_⟩
    by_cases hkey : key = DbKey.entities
    · subst hkey
      rw [hB.entities, hA.entities, hU.entities, isEmpty_union hunion, hsame]
      cases hemptyB : B.isEmpty with
      | false => simp
      | true =>
        have hnone := (forgets_invalidation (invalidation m A files).2 B files).all hemptyB
        rw [← hnone, hsame]
        simp
    · have hspares : Spares b U key ↔ Spares b A key ∧ Spares b B key := by
        unfold Spares Store.Apart
        simp only [List.mem_map, hunion, or_and_right, exists_or, or_imp, forall_and]
        exact and_and_and_comm
      by_cases hsparesB : Spares b B key
      · by_cases hsparesA : Spares b A key
        · rw [hB.others key hkey hsparesB, hA.others key hkey hsparesA,
            hU.others key hkey (hspares.mpr ⟨hsparesA, hsparesB⟩)]
        · rw [hB.others key hkey hsparesB, hA.gone key hkey hsparesA,
            hU.gone key hkey fun hall => hsparesA (hspares.mp hall).1]
      · rw [hB.gone key hkey hsparesB, hU.gone key hkey fun hall => hsparesB (hspares.mp hall).2]
  · rintro rfl
    obtain ⟨first, s₁, hfirst⟩ := exists_invalidate h hstored A files
    obtain ⟨-, hserves, hstored₁, -⟩ := invalidate_spec h hstored hfirst
    obtain ⟨second, s₂, hsecond⟩ := exists_invalidate hserves hstored₁ B files
    obtain ⟨once, s₃, honce⟩ := exists_invalidate h hstored U files
    exact ⟨first, s₁, second, s₂, once, s₃, hfirst, hsecond, honce⟩

/-- What is left without the header: the method that is declared there only is gone, and so is what
the method that overrides it says of it. -/
def headless : Entities :=
  SortedMap.ofList [("D::f", { symbolName := "f()", definition := some ⟨⟨1⟩, 4, 2⟩
                               cursorScope := ["\"D\"\n"] })]

theorem invalidate_composes_headless : ∃ s first s₁ s₂ s₃,
      readValue emptyVolume.1 s DbKey.entities ∅ Entities.decode? = .ok overriddenMethod
        ∧ invalidate emptyVolume.1 s (SortedSet.ofList [⟨"/inc/h.h"⟩]) headedUnit.files
          = (.ok first, s₁)
        ∧ invalidate emptyVolume.1 s₁ (SortedSet.ofList [⟨"/x"⟩]) headedUnit.files
          = (.ok headless, s₂)
        ∧ invalidate emptyVolume.1 s (SortedSet.ofList [⟨"/inc/h.h"⟩, ⟨"/x"⟩]) headedUnit.files
          = (.ok headless, s₃)
        ∧ ∀ key, emptyVolume.1.read s₂ key = emptyVolume.1.read s₃ key := by
  have hempty : Store.Serves ⟨"/db"⟩ [] .memory emptyVolume.1 emptyVolume.2 :=
    .volume (by decide) (by decide)
  obtain ⟨s, hwrite⟩ := exists_commit_of_volume hempty
    (Part.writes headedUnit overriddenMethod [.entities])
  have hstored : readValue emptyVolume.1 s DbKey.entities ∅ Entities.decode? = .ok overriddenMethod :=
    readValue_of_valueAt Entities.faithful (by decide)
      (valueAt_of_writes hempty hwrite (List.mem_cons_self : Part.entities ∈ _))
  have hserves := (Mutation.changes_applyAll hempty (applyAll_of_commit hwrite)).serves
  obtain ⟨-, hcomposes, hdone, -⟩ := invalidate_composes hserves hstored headedUnit.files
    (A := SortedSet.ofList [⟨"/inc/h.h"⟩]) (B := SortedSet.ofList [⟨"/x"⟩])
    (U := SortedSet.ofList [⟨"/inc/h.h"⟩, ⟨"/x"⟩]) (fun p => by
      show p ∈ [_, _] ↔ p ∈ [_] ∨ p ∈ [_]
      simp)
  obtain ⟨first, s₁, second, s₂, once, s₃, hfirst, hsecond, honce⟩ := hdone rfl
  obtain ⟨rfl, hreads⟩ := hcomposes hfirst hsecond honce
  have hheadless : second = headless := (invalidate_spec hserves hstored honce).1.trans (by decide)
  subst hheadless
  exact ⟨s, first, s₁, s₂, s₃, hstored, hfirst, hsecond, honce, hreads⟩

end Database

end SymbolIndex
