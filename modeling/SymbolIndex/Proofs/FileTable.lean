import SymbolIndex.Proofs.Order
import SymbolIndex.Proofs.SortedMap
import SymbolIndex.Symbol.FileTable

/-!
# Numbers that stay

A file table only grows, and a path that has a number keeps it. So a place that was stored at any
time of a run can be read off the table at its end: `place` gives the stored form of a position in
a table that knows its path, and growing the table does not change it.
-/

namespace SymbolIndex

open SortedMap

theorem bind_eq_ok_iff {ε : Type u} {α β : Type v} {x : Except ε α} {f : α → Except ε β} {b : β} :
    (x >>= f) = .ok b ↔ ∃ a, x = .ok a ∧ f a = .ok b := by
  cases x with
  | error =>
    exact ⟨fun h => absurd h (by simp [bind, Except.bind]), fun ⟨_, h, _⟩ => absurd h (by simp)⟩
  | ok a => exact ⟨fun h => ⟨a, rfl, h⟩, fun ⟨_, h, hf⟩ => Except.ok.inj h ▸ hf⟩

namespace FileTable

/-- Every number that was given stays. -/
def Extends (t t' : FileTable) : Prop := ∀ p id, t.id? p = some id → t'.id? p = some id

theorem Extends.refl (t : FileTable) : t.Extends t := fun _ _ h => h

variable {t t' : FileTable} {p : SourcePosition} {id : FileId}

theorem Extends.trans {t'' : FileTable} (h : t.Extends t') (h' : t'.Extends t'') :
    t.Extends t'' := fun p id hp => h' p id (h p id hp)

/-- The file of a position has a number. -/
def Knows (t : FileTable) (p : SourcePosition) : Prop := ∃ id, t.id? p.path = some id

theorem Knows.mono (h : t.Extends t') (hp : t.Knows p) : t'.Knows p := by
  obtain ⟨id, hid⟩ := hp
  exact ⟨id, h _ _ hid⟩

/-- A position, with the number of its file. -/
def place (t : FileTable) (p : SourcePosition) : Location :=
  { file := (t.id? p.path).getD ⟨0⟩, line := p.line, column := p.column }

theorem place_mono (h : t.Extends t') (hp : t.Knows p) : t'.place p = t.place p := by
  obtain ⟨id, hid⟩ := hp
  unfold place
  rw [hid, h _ _ hid]

/-! ## Numbering a path -/

theorem intern_of_known {p : Path} (h : t.id? p = some id) : t.intern p = .ok (id, t) := by
  unfold intern
  unfold id? at h
  rw [h]

theorem toNat_of_checkedSucc {n m : UInt32} (h : checkedSucc n = .ok m) :
    m.toNat = n.toNat + 1 := by
  unfold checkedSucc at h
  split at h
  · cases h
  · next hne =>
    cases h
    have hlast : n.toNat ≠ 4294967295 := fun heq => hne (UInt32.toNat_inj.mp heq)
    have := n.toNat_lt
    rw [UInt32.toNat_add]
    exact Nat.mod_eq_of_lt (by simp; omega)

theorem intern_cases {p : Path} (h : t.intern p = .ok (id, t')) :
    t.id? p = some id ∧ t' = t
      ∨ t.id? p = none ∧ id.val.toNat = t.lastId.toNat + 1
        ∧ t' = ⟨t.byName.insert p id, t.byId.insert id p, id.val⟩ := by
  unfold intern at h
  split at h
  · next hknown =>
    cases h
    exact .inl ⟨hknown, rfl⟩
  · next hnone =>
    obtain ⟨last, hlast, h⟩ := bind_eq_ok_iff.mp h
    cases h
    exact .inr ⟨hnone, toNat_of_checkedSucc hlast, rfl⟩

theorem intern_spec {p : Path} (h : t.intern p = .ok (id, t')) :
    t.Extends t' ∧ t'.id? p = some id := by
  rcases intern_cases h with ⟨hid, rfl⟩ | ⟨hnone, -, rfl⟩
  · exact ⟨.refl t', hid⟩
  · refine ⟨fun q id' hq => ?_, ?_⟩
    · unfold id? at hnone hq ⊢
      rw [get?_insert, if_neg, hq]
      intro hc
      rw [get?_congr _ hc, hnone] at hq
      cases hq
    · unfold id?
      rw [get?_insert, if_pos Std.ReflCmp.compare_self]

theorem location_of_known (h : t.Knows p) : t.location p = .ok (t.place p, t) := by
  obtain ⟨id, hid⟩ := h
  unfold location place
  rw [intern_of_known hid, hid]
  rfl

theorem location_spec {l : Location} (h : t.location p = .ok (l, t')) :
    t.Extends t' ∧ t'.Knows p ∧ t'.place p = l := by
  obtain ⟨⟨id, t₁⟩, hi, h⟩ := bind_eq_ok_iff.mp h
  cases h
  obtain ⟨hext, hid⟩ := intern_spec hi
  refine ⟨hext, ⟨id, hid⟩, ?_⟩
  unfold place
  rw [hid]
  rfl

end FileTable

end SymbolIndex
