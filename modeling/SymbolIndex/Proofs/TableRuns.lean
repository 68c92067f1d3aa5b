import SymbolIndex.Proofs.StoredForm
import Mathlib.Algebra.Group.Nat.Defs

/-!
# Runs of a file table

A table is stored as the map from its paths to their numbers. The inverse map and the last number
are made from it again, and nothing is lost (`FileTable.run_laws`): not for a table that started
with paths of one number either, where the last path in order is found by the number. A new path
gets a number that no path has, so where it stands in that order does not matter.
-/

namespace SymbolIndex

namespace FileTable

open SortedMap

variable {start t t' : FileTable} {p q : Path} {id : FileId}

/-! ## One step -/

theorem intern_eq_overflow_iff :
    t.intern p = .error .overflow ↔ t.id? p = none ∧ t.lastId.toNat = 2 ^ 32 - 1 := by
  unfold intern id? checkedSucc
  cases t.byName.get? p with
  | some => simp
  | none =>
    have hmax : t.lastId = 0xFFFFFFFF ↔ t.lastId.toNat = 2 ^ 32 - 1 := UInt32.toNat_inj.symm
    rw [← hmax]
    dsimp only
    split
    · next hlast => exact ⟨fun _ => ⟨rfl, hlast⟩, fun _ => rfl⟩
    · next hlast => exact ⟨(fun h => by cases h), fun h => absurd h.2 hlast⟩

theorem intern_of_location {p : SourcePosition} {l : Location} (h : t.location p = .ok (l, t')) :
    t.intern p.path = .ok (l.file, t') := by
  obtain ⟨⟨id, t₁⟩, hi, h⟩ := bind_eq_ok_iff.mp h
  cases h
  exact hi

/-! ## Reloading -/

theorem get?_foldl_congr (l : List (Path × FileId)) {m m' : SortedMap FileId Path}
    (h : m.get? id = m'.get? id) :
    (l.foldl (fun m e => m.insert e.2 e.1) m).get? id
      = (l.foldl (fun m e => m.insert e.2 e.1) m').get? id := by
  induction l generalizing m m' with
  | nil => exact h
  | cons e l ih =>
    refine ih ?_
    rw [get?_insert, get?_insert, h]

theorem ofMap_eq (m : SortedMap Path FileId) :
    ofMap m = ⟨m, m.toList.foldl (fun m e => m.insert e.2 e.1) ∅,
      m.toList.foldl (fun n e => max n e.2.val) 0⟩ := by
  unfold ofMap
  rw [foldl_enter]
  exact congrArg (FileTable.mk · _ _) (ofList_toList m)

/-- The inverse map and the last number are those that the map gives. -/
structure Kept (t : FileTable) : Prop where
  byId : t.byName.toList.foldl (fun m e => m.insert e.2 e.1) ∅ = t.byId
  lastId : t.byName.toList.foldl (fun n e => max n e.2.val) 0 = t.lastId

theorem kept_ofMap (m : SortedMap Path FileId) : (ofMap m).Kept := by
  rw [ofMap_eq]
  exact ⟨rfl, rfl⟩

theorem Kept.ofMap_toMap_eq (h : t.Kept) : ofMap t.toMap = t := by
  rw [toMap, ofMap_eq, h.byId, h.lastId]

theorem Kept.le_lastId (h : t.Kept) (hmem : (p, id) ∈ t.byName.toList) : id.val ≤ t.lastId := by
  rw [← h.lastId]
  exact le_foldl_max _ _ _ (.inr ⟨_, hmem, rfl⟩)

theorem Kept.mem_of_path? (h : t.Kept) (hpath : t.path? id = some p) :
    ∃ q, (q, id) ∈ t.byName.toList := by
  by_contra hnone
  rw [path?, ← h.byId, get?_foldl_insert_of_not_mem _ _ _ (fun q hq => hnone ⟨q, hq⟩),
    get?_empty] at hpath
  cases hpath

/-- A new path has the greatest number, which no other path has. -/
theorem Kept.insert (h : t.Kept) (hnew : t.id? p = none)
    (hid : id.val.toNat = t.lastId.toNat + 1) :
    Kept ⟨t.byName.insert p id, t.byId.insert id p, id.val⟩ := by
  have hmem := mem_toList_insert_of_new (v := id) (contains_eq_false_iff.mpr hnew)
  have hlt : ∀ q i, (q, i) ∈ t.byName.toList → i.val.toNat < id.val.toNat := by
    intro q i hq
    have := UInt32.le_iff_toNat_le.mp (h.le_lastId hq)
    omega
  constructor
  · refine ext_get? fun i => ?_
    rw [get?_insert]
    by_cases hi : i = id
    · subst hi
      rw [if_pos (by simp)]
      refine get?_foldl_insert_swap _ _ _ _ (fun q hq => ?_) (.inr ((hmem _).mpr (.inr rfl)))
      rcases (hmem _).mp hq with hq | hq
      · exact absurd (hlt q i hq) (Nat.lt_irrefl _)
      · exact congrArg Prod.fst hq
    · -- the new binding stands between others, and none of those with this number is touched
      rw [if_neg (by simpa using hi), ← h.byId]
      obtain ⟨before, after, hold, hinsert⟩ := exists_toList_insert id hnew
      dsimp only
      rw [hold, hinsert, List.foldl_append, List.foldl_append, List.foldl_cons]
      refine get?_foldl_congr after ?_
      rw [get?_insert, if_neg (by simpa using hi)]
  · -- the last number is the new one, whatever came before it in the order of paths
    refine UInt32.le_antisymm (foldl_max_le _ _ _ ?_ fun e he => ?_)
      (le_foldl_max _ _ _ (.inr ⟨_, (hmem _).mpr (.inr rfl), rfl⟩))
    · exact UInt32.le_iff_toNat_le.mpr (Nat.zero_le _)
    · rcases (hmem _).mp he with he | rfl
      · exact UInt32.le_iff_toNat_le.mpr (Nat.le_of_lt (hlt e.1 e.2 he))
      · exact UInt32.le_refl _

theorem Kept.intern (h : t.Kept) (hi : t.intern p = .ok (id, t')) : t'.Kept := by
  rcases intern_cases hi with ⟨-, rfl⟩ | ⟨hnew, hid, rfl⟩
  · exact h
  · exact h.insert hnew hid

/-! ## Tables that started empty -/

/-- Every number up to the last is that of a file. -/
structure Gapless (t : FileTable) : Prop extends Numbered t where
  filled : ∀ n : UInt32, 0 < n.toNat → n ≤ t.lastId → (t.path? ⟨n⟩).isSome = true

theorem gapless_empty : Gapless {} where
  toNumbered := numbered_empty
  filled := by
    intro n hpos hle
    have hzero := UInt32.le_iff_toNat_le.mp hle
    exact absurd hpos (Nat.not_lt.mpr hzero)

theorem Gapless.intern (h : t.Gapless) (hi : t.intern p = .ok (id, t')) : t'.Gapless := by
  refine ⟨h.toNumbered.intern hi, ?_⟩
  rcases intern_cases hi with ⟨-, rfl⟩ | ⟨-, hid, rfl⟩
  · exact h.filled
  · intro n hpos hle
    have hle := UInt32.le_iff_toNat_le.mp hle
    show ((t.byId.insert id p).get? ⟨n⟩).isSome = true
    rw [get?_insert]
    split
    · rfl
    · next hne =>
      refine h.filled n hpos (UInt32.le_iff_toNat_le.mpr ?_)
      have hn : n.toNat ≠ id.val.toNat := by
        intro heq
        exact hne (by simp [UInt32.toNat_inj.mp heq])
      simp only at hle
      omega

theorem Gapless.isSome_path?_iff (h : t.Gapless) (id : FileId) :
    (t.path? id).isSome = true ↔ 1 ≤ id.val.toNat ∧ id.val.toNat ≤ t.size := by
  unfold size
  rw [h.size]
  constructor
  · intro hsome
    obtain ⟨p, hp⟩ := Option.isSome_iff_exists.mp hsome
    have hmem := (h.named p id).mpr hp
    refine ⟨Nat.one_le_iff_ne_zero.mpr fun hzero => ?_,
      UInt32.le_iff_toNat_le.mp (h.bounded _ _ hmem)⟩
    have hid : id = ⟨0⟩ := congrArg FileId.mk (UInt32.toNat_inj.mp hzero)
    exact h.positive p (hid ▸ get?_of_mem hmem)
  · exact fun ⟨hpos, hle⟩ => h.filled id.val hpos (UInt32.le_iff_toNat_le.mpr hle)

theorem Sound.id?_eq_some_iff (h : t.Sound) :
    t.id? p = some id ↔ ∃ q, t.path? id = some q ∧ q.components = p.components := by
  constructor
  · intro hid
    obtain ⟨q, hq, hc⟩ := Option.map_eq_some_iff.mp (h.path?_of_id? hid)
    exact ⟨q, hq, hc⟩
  · rintro ⟨q, hq, hc⟩
    rw [← id?_congr t hc]
    exact get?_of_mem ((h.named q id).mpr hq)

/-! ## Whole runs -/

/-- What can be made of a table of files. -/
inductive Steps (start : FileTable) : FileTable → Prop where
  | refl : Steps start start
  | intern {t t' : FileTable} {p : Path} {id : FileId} :
      Steps start t → t.intern p = .ok (id, t') → Steps start t'
  | location {t t' : FileTable} {p : SourcePosition} {l : Location} :
      Steps start t → t.location p = .ok (l, t') → Steps start t'
  | reload {t : FileTable} : Steps start t → Steps start (ofMap t.toMap)

theorem Steps.kept (h : Steps start t) (hstart : start.Kept) : t.Kept := by
  induction h with
  | refl => exact hstart
  | intern _ hi ih => exact ih.intern hi
  | location _ hl ih => exact ih.intern (intern_of_location hl)
  | reload => exact kept_ofMap _

theorem Steps.gapless (h : Steps {} t) : t.Gapless := by
  induction h with
  | refl => exact gapless_empty
  | intern _ hi ih => exact ih.intern hi
  | location _ hl ih => exact ih.intern (intern_of_location hl)
  | reload _ ih =>
    rw [ih.ofMap_toMap]
    exact ih

/-- **A table is given back by its stored form, numbers what is new and keeps all else.** That holds
in every run, whatever the numbers of the table it started with. From the empty table on paths and
numbers belong to each other one to one, without a gap. -/
theorem run_laws (hstart : start = {} ∨ ∃ m, start = ofMap m) (h : Steps start t) :
    ofMap t.toMap = t
    ∧ (∀ p q id, t.id? p = some id → q.components = p.components → t.intern q = .ok (id, t))
    ∧ (∀ p, t.id? p = none → t.lastId.toNat ≠ 2 ^ 32 - 1 → ∃ id t', t.intern p = .ok (id, t')
        ∧ (∀ q i, t.id? q = some i ∨ t.path? i = some q → i.val < id.val)
        ∧ (∀ q, t'.id? q = if q.components = p.components then some id else t.id? q)
        ∧ ∀ i, t'.path? i = if i = id then some p else t.path? i)
    ∧ (∀ p, t.intern p = .error .overflow ↔ t.id? p = none ∧ t.lastId.toNat = 2 ^ 32 - 1)
    ∧ (start = {} →
        (∀ p id, t.id? p = some id ↔ ∃ q, t.path? id = some q ∧ q.components = p.components)
        ∧ (∀ id, (t.path? id).isSome = true ↔ 1 ≤ id.val.toNat ∧ id.val.toNat ≤ t.size)
        ∧ ∀ p, t.intern p = .error .overflow → t.size = 2 ^ 32 - 1) := by
  have hkept : t.Kept := by
    refine h.kept ?_
    rcases hstart with rfl | ⟨m, rfl⟩
    · exact ⟨rfl, rfl⟩
    · exact kept_ofMap m
  refine ⟨hkept.ofMap_toMap_eq, fun p q id hp hq => ?_, fun p hnew hroom => ?_,
    fun _ => intern_eq_overflow_iff, ?_⟩
  · exact intern_of_known ((id?_congr t hq).trans hp)
  · cases hi : t.intern p with
    | error => exact absurd (intern_eq_overflow_iff.mp hi).2 hroom
    | ok r =>
      have hok : t.intern p = .ok (r.1, r.2) := hi
      obtain ⟨hknown, -⟩ | ⟨-, hid, ht'⟩ := intern_cases hok
      · rw [hnew] at hknown
        cases hknown
      refine ⟨r.1, r.2, rfl, fun q i hi => UInt32.lt_iff_toNat_lt.mpr ?_, fun q => ?_, fun i => ?_⟩
      · obtain ⟨q, hq⟩ : ∃ q, (q, i) ∈ t.byName.toList := by
          rcases hi with hi | hi
          · obtain ⟨q, -, hq⟩ := mem_of_get? hi
            exact ⟨q, hq⟩
          · exact hkept.mem_of_path? hi
        have := UInt32.le_iff_toNat_le.mp (hkept.le_lastId hq)
        omega
      · rw [ht', id?, get?_insert]
        simp only [Path.compare_eq_iff]
        rfl
      · rw [ht', path?, get?_insert]
        simp only [Std.LawfulEqOrd.compare_eq_iff_eq]
        rfl
  · rintro rfl
    have hgapless := h.gapless
    refine ⟨fun _ _ => hgapless.id?_eq_some_iff, hgapless.isSome_path?_iff, fun p hfull => ?_⟩
    exact hgapless.size.trans (intern_eq_overflow_iff.mp hfull).2

/-- Two paths share a number, a third has none that was ever handed out, and a new path, spelled
with a dot, comes before all of them. -/
theorem run_laws_shared :
    let m := SortedMap.ofList [(⟨"/b"⟩, ⟨0⟩), (⟨"/c"⟩, ⟨3⟩), (⟨"/d"⟩, ⟨3⟩)]
    ∃ t, Steps (ofMap m) t ∧ t.id? ⟨"/a/x"⟩ = some ⟨4⟩ ∧ t.path? ⟨3⟩ = some ⟨"/d"⟩
      ∧ ofMap t.toMap = t ∧ t.intern ⟨"/a/x"⟩ = .ok (⟨4⟩, t) := by
  intro m
  obtain ⟨l, t, ht⟩ : ∃ l t, (ofMap m).location ⟨⟨"/a/./x"⟩, 1, 1⟩ = .ok (l, t) := ⟨_, _, rfl⟩
  have hrun : Steps (ofMap m) t := .location .refl ht
  obtain ⟨hreload, hknown, -⟩ := run_laws (.inr ⟨m, rfl⟩) hrun
  have hid : t.id? ⟨"/a/./x"⟩ = some ⟨4⟩ := by cases ht; decide
  have hlast : t.path? ⟨3⟩ = some ⟨"/d"⟩ := by cases ht; decide
  have hsame : (⟨"/a/x"⟩ : Path).components = (⟨"/a/./x"⟩ : Path).components := by decide
  exact ⟨t, hrun, (id?_congr t hsame).trans hid, hlast, hreload, hknown _ _ _ hid hsame⟩

end FileTable

end SymbolIndex
