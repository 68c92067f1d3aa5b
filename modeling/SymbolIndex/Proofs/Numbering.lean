import SymbolIndex.Proofs.Merge
import Mathlib.Data.List.Nodup
import Mathlib.Data.List.Perm.Subperm

/-!
# The numbers of a table

A table that grew from the empty one numbers its paths from one on without a gap. So it runs out of
numbers only when its paths do not fit, whatever the order in which they came: a run that numbers
paths of a table that exists has room for all of them.
-/

namespace SymbolIndex.FileTable

open SortedMap

/-- What every table keeps to: the two directions agree, no number is greater than the last, and
the last is the number of a path unless none was handed out. -/
structure Sound (t : FileTable) : Prop where
  named : ∀ p id, (p, id) ∈ t.byName.toList ↔ t.byId.get? id = some p
  bounded : ∀ p id, (p, id) ∈ t.byName.toList → id.val ≤ t.lastId
  last : t.lastId = 0 ∨ ∃ p, (p, ⟨t.lastId⟩) ∈ t.byName.toList

theorem sound_empty : Sound {} where
  named := by simp [SortedMap.toList, SortedMap.get?, EmptyCollection.emptyCollection,
    SortedMap.empty, SortedMap.findValue?]
  bounded := by simp [SortedMap.toList, EmptyCollection.emptyCollection, SortedMap.empty]
  last := .inl rfl

variable {t t' room : FileTable} {p q : Path} {id : FileId}

theorem Sound.intern (h : t.Sound) (hi : t.intern p = .ok (id, t')) : t'.Sound := by
  rcases intern_cases hi with ⟨-, rfl⟩ | ⟨hnone, hsucc, rfl⟩
  · exact h
  · have hnew : ∀ q, (q, id) ∉ t.byName.toList := by
      intro q hq
      have := UInt32.le_iff_toNat_le.mp (h.bounded q _ hq)
      omega
    have hmem := mem_toList_insert_of_new (v := id) (contains_eq_false_iff.mpr hnone)
    refine ⟨fun q i => ?_, fun q i hq => ?_, .inr ⟨p, ?_⟩⟩
    · simp only [hmem, get?_insert, Std.compare_eq_iff_eq]
      by_cases hid : i = id
      · subst hid
        simp [hnew q, eq_comm]
      · simp [hid, h.named]
    · rcases (hmem ..).mp hq with hq | hq
      · have := UInt32.le_iff_toNat_le.mp (h.bounded q i hq)
        refine UInt32.le_iff_toNat_le.mpr ?_
        show i.val.toNat ≤ id.val.toNat
        omega
      · cases hq
        exact UInt32.le_iff_toNat_le.mpr (Nat.le_refl _)
    · exact (hmem ..).mpr (.inr rfl)

/-! ## Reading a number back -/

theorem Sound.path?_of_id? (h : t.Sound) (hid : t.id? p = some id) :
    (t.path? id).map Path.components = some p.components := by
  obtain ⟨q, hc, hmem⟩ := mem_of_get? hid
  have hq : t.path? id = some q := (h.named q id).mp hmem
  rw [hq, Option.map_some, Path.compare_eq_iff.mp hc]

theorem Sound.components_eq (h : t.Sound) (hp : t.id? p = some id) (hq : t.id? q = some id) :
    p.components = q.components := by
  have hp' := h.path?_of_id? hp
  rw [h.path?_of_id? hq] at hp'
  exact (Option.some.inj hp').symm

theorem id?_congr (t : FileTable) (h : p.components = q.components) :
    t.id? p = t.id? q := SortedMap.get?_congr _ (Path.compare_eq_iff.mpr h)

theorem Knows.congr {p q : SourcePosition} (h : p.path.components = q.path.components)
    (hp : t.Knows p) : t.Knows q := by
  unfold Knows at hp ⊢
  rwa [← id?_congr t h]

/-! ## Room for more -/

/-- The numbers of files go from one to the last. -/
structure Numbered (t : FileTable) : Prop extends Sound t where
  size : t.byName.size = t.lastId.toNat
  positive : ∀ p, t.id? p ≠ some ⟨0⟩

theorem numbered_empty : Numbered {} where
  toSound := sound_empty
  size := rfl
  positive := fun _ => by simp [id?]

theorem Numbered.intern (h : t.Numbered) (hi : t.intern p = .ok (id, t')) : t'.Numbered := by
  have hsound := h.toSound.intern hi
  rcases intern_cases hi with ⟨-, rfl⟩ | ⟨hnone, hsucc, rfl⟩
  · exact h
  · refine ⟨hsound, ?_, fun q hq => ?_⟩
    · have hnew : t.byName.contains p = false := contains_eq_false_iff.mpr hnone
      simp only [size_insert, hnew, Bool.false_eq_true, if_false]
      rw [hsucc, h.size]
    · unfold id? at hq
      rw [get?_insert] at hq
      split at hq
      · obtain rfl := Option.some.inj hq
        cases hsucc
      · exact h.positive q hq

def Within (t u : FileTable) : Prop := ∀ p, (t.id? p).isSome = true → (u.id? p).isSome = true

theorem nodup_components (m : SortedMap Path υ) : (m.keys.map Path.components).Nodup := by
  unfold SortedMap.keys
  rw [List.map_map]
  refine List.pairwise_map.mpr (m.sorted.imp ?_)
  intro a b hlt heq
  rw [Path.compare_eq_iff.mpr heq] at hlt
  cases hlt

theorem Within.size_le {u : FileTable} (h : t.Within u) : t.byName.size ≤ u.byName.size := by
  have hsub : t.byName.keys.map Path.components ⊆ u.byName.keys.map Path.components := by
    intro c hc
    obtain ⟨p, hp, rfl⟩ := List.mem_map.mp hc
    obtain ⟨id, hmem⟩ := mem_keys_iff.mp hp
    have hsome := h p (by unfold id?; rw [get?_of_mem hmem]; rfl)
    obtain ⟨id', hid'⟩ := Option.isSome_iff_exists.mp hsome
    obtain ⟨q, hpq, hq⟩ := mem_of_get? hid'
    exact List.mem_map.mpr ⟨q, mem_keys_iff.mpr ⟨id', hq⟩, (Path.compare_eq_iff.mp hpq).symm⟩
  have hle := ((nodup_components t.byName).subperm hsub).length_le
  simpa [SortedMap.keys, SortedMap.size] using hle

/-- A table of files within one that has room for all. -/
structure Fitting (room t : FileTable) : Prop extends Numbered t where
  within : t.Within room

/-- A path of the larger table has or gets a number, and the table still fits. -/
theorem Fitting.intern (h : Fitting room t) (hroom : room.Numbered)
    (hp : (room.id? p).isSome = true) : ∃ id t', t.intern p = .ok (id, t') ∧ Fitting room t' := by
  cases hid : t.id? p with
  | some id => exact ⟨id, t, intern_of_known hid, h⟩
  | none =>
    have hnew : t.byName.contains p = false := contains_eq_false_iff.mpr hid
    -- with the path added the table would still be within the larger one
    have hadded : ∀ id lastId byId, Within ⟨t.byName.insert p id, byId, lastId⟩ room := by
      intro id lastId byId q hq
      unfold id? at hq
      rw [get?_insert] at hq
      split at hq
      · next hc =>
        rw [id?_congr room (Path.compare_eq_iff.mp hc)]
        exact hp
      · exact h.within q hq
    have hlt : t.lastId.toNat < room.lastId.toNat := by
      have hle := (hadded ⟨0⟩ 0 ∅).size_le
      simp only [size_insert, hnew, Bool.false_eq_true, if_false] at hle
      have hsize := h.size
      have hroom := hroom.size
      omega
    have hlast : checkedSucc t.lastId = .ok (t.lastId + 1) := by
      unfold checkedSucc
      rw [if_neg]
      intro heq
      have := room.lastId.toNat_lt
      rw [heq] at hlt
      simp only [UInt32.reduceToNat] at hlt
      omega
    have hintern : t.intern p = .ok (⟨t.lastId + 1⟩,
        ⟨t.byName.insert p ⟨t.lastId + 1⟩, t.byId.insert ⟨t.lastId + 1⟩ p, t.lastId + 1⟩) := by
      unfold FileTable.intern
      unfold id? at hid
      rw [hid]
      exact bind_eq_ok_iff.mpr ⟨_, hlast, rfl⟩
    exact ⟨_, _, hintern, h.toNumbered.intern hintern, hadded _ _ _⟩

theorem Fitting.location (h : Fitting room t) (hroom : room.Numbered) {p : SourcePosition}
    (hp : room.Knows p) : ∃ l t', t.location p = .ok (l, t') ∧ Fitting room t' := by
  obtain ⟨id, t', hi, hfit⟩ := h.intern hroom (p := p.path) (Option.isSome_iff_exists.mpr hp)
  exact ⟨_, t', bind_eq_ok_iff.mpr ⟨_, hi, rfl⟩, hfit⟩

/-! ## Tables that grow by numbering paths -/

inductive Grows (t : FileTable) : FileTable → Prop where
  | refl : Grows t t
  | intern {t₁ t₂ : FileTable} {p : Path} {id : FileId} (h : Grows t t₁)
      (hi : t₁.intern p = .ok (id, t₂)) : Grows t t₂

namespace Grows

variable {t t' t'' : FileTable} {g g' : Graph}

theorem trans (h : Grows t t') (h' : Grows t' t'') : Grows t t'' := by
  induction h' with
  | refl => exact h
  | intern _ hi ih => exact ih.intern hi

theorem numbered (h : Grows t t') (ht : t.Numbered) : t'.Numbered := by
  induction h with
  | refl => exact ht
  | intern _ hi ih => exact ih.intern hi

theorem of_location {p : SourcePosition} {l : Location} (h : t.location p = .ok (l, t')) :
    Grows t t' := by
  obtain ⟨⟨id, t₁⟩, hi, h⟩ := bind_eq_ok_iff.mp h
  cases h
  exact Grows.refl.intern hi

theorem of_applyOp {op : EntityOp} (h : g.applyOp t op = .ok (g', t')) : Grows t t' := by
  cases op with
  | declare =>
    rw [Graph.applyOp_declare] at h
    obtain ⟨⟨l, t₁⟩, hl, h⟩ := bind_eq_ok_iff.mp h
    refine (of_location hl).trans ?_
    unfold Graph.storeOverride at h
    split at h
    · obtain ⟨⟨s, t₂⟩, hs, h⟩ := bind_eq_ok_iff.mp h
      cases h
      exact of_location hs
    · cases h
      exact .refl
  | extraDeclaration =>
    obtain ⟨⟨l, t₁⟩, hl, h⟩ := bind_eq_ok_iff.mp h
    cases h
    exact of_location hl
  | synthesize =>
    obtain ⟨⟨l, t₁⟩, hl, h⟩ := bind_eq_ok_iff.mp h
    simp only at h
    split at h <;> obtain ⟨-, rfl⟩ := Prod.mk.inj (Except.ok.inj h) <;> exact of_location hl

theorem of_merge {c : Contribution} (h : g.merge t c = .ok (g', t')) : Grows t t' :=
  Graph.merge_keeps (P := fun _ u => Grows t u) h .refl
    (fun _ hgrows hone => hgrows.trans (of_applyOp hone))
    (fun _ hgrows hone => hgrows.trans (of_location hone))

theorem of_mergeAll {cs : List Contribution} (h : g.mergeAll t cs = .ok (g', t')) : Grows t t' := by
  induction cs generalizing g t with
  | nil =>
    cases h
    exact .refl
  | cons _ _ ih =>
    obtain ⟨⟨g₁, t₁⟩, h₁, h⟩ := bind_eq_ok_iff.mp h
    exact (of_merge h₁).trans (ih h)

end Grows

end SymbolIndex.FileTable
