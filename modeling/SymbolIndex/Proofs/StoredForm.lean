import SymbolIndex.Database
import SymbolIndex.Proofs.Numbering
import SymbolIndex.Proofs.Rendering

/-!
# Values and their stored forms

Each kind of value that a database keeps is read back from its document as it was. A stored form is
`Faithful` when that holds and the document itself is read back from its text; faithful forms of
parts make faithful forms of lists, sets, maps and records. A file table is stored as the map from
paths to numbers, and that map gives the table back.
-/

namespace SymbolIndex

open Json List Option SortedMap SymbolIndex.Path

namespace Json

variable {depth n : Nat} {encode : α → Json} {decode? : Json → Option α}

theorem Fits.mono {depth' : Nat} {j : Json} (h : Fits depth j) (hle : depth ≤ depth') :
    Fits depth' j := by
  induction h generalizing depth' with
  | null => exact .null
  | bool value => exact .bool value
  | int hlow hhigh => exact .int hlow hhigh
  | str text => exact .str text
  | arr _ ih =>
    obtain ⟨d, rfl⟩ : ∃ d, depth' = d + 1 := ⟨depth' - 1, by omega⟩
    exact .arr (fun j hj => ih j hj (by omega))
  | obj _ ih =>
    obtain ⟨d, rfl⟩ : ∃ d, depth' = d + 1 := ⟨depth' - 1, by omega⟩
    exact .obj (fun m hm => ih m hm (by omega))

/-- What is written is read back. -/
structure Faithful (depth : Nat) (encode : α → Json) (decode? : Json → Option α) : Prop where
  fits : ∀ a, Fits depth (encode a)
  reads : ∀ a, decode? (encode a) = some a

theorem Faithful.readBytes? (h : Faithful depth encode decode?) (hdepth : depth ≤ maxDepth)
    (a : α) : (Json.readBytes? (encode a).render.toUTF8).bind decode? = some a := by
  rw [((h.fits a).mono hdepth).readBytes?]
  exact h.reads a

/-! ## Plain values -/

theorem faithful_str : Faithful 0 Json.str Json.str? := ⟨.str, fun _ => rfl⟩

theorem faithful_bool : Faithful 0 Json.bool Json.bool? := ⟨.bool, fun _ => rfl⟩

theorem fits_ofNat (h : n < UInt64.size) (depth : Nat) : Fits depth (.int n) := by
  refine .int (by omega) ?_
  have : (n : Int) < (UInt64.size : Nat) := Int.ofNat_lt.mpr h
  exact this

theorem natBelow?_ofNat {bound : Nat} (h : n < bound) :
    Json.natBelow? bound (.int (n : Int)) = some n := by
  show (if n < bound then some n else none) = some n
  rw [if_pos h]

theorem faithful_uint32 : Faithful 0 ofUInt32 uint32? where
  fits := fun n => fits_ofNat (Nat.lt_trans n.toNat_lt (by decide)) 0
  reads := fun n => by
    unfold ofUInt32 uint32?
    rw [natBelow?_ofNat n.toNat_lt, map_some, UInt32.ofNat_toNat]

theorem faithful_uint64 : Faithful 0 ofUInt64 uint64? where
  fits := fun n => fits_ofNat n.toNat_lt 0
  reads := fun n => by
    unfold ofUInt64 uint64?
    rw [natBelow?_ofNat n.toNat_lt, map_some, UInt64.ofNat_toNat]

theorem reads_optional (h : Faithful depth encode decode?) (hnull : ∀ a, encode a ≠ .null)
    (o : Option α) : optional decode? (some (ofOption encode o)) = some o := by
  cases o with
  | none => rfl
  | some a =>
    show nullable decode? (encode a) = some (some a)
    have hread := h.reads a
    have hne := hnull a
    unfold nullable
    split
    · next heq => exact absurd heq hne
    · rw [hread]
      rfl

theorem fits_ofOption (h : Faithful depth encode decode?) (o : Option α) :
    Fits depth (ofOption encode o) := by
  cases o with
  | none => exact .null
  | some a => exact h.fits a

/-! ## Collections -/

section Collections

variable {depth : Nat} {encode : α → Json} {decode? : Json → Option α}

theorem mapM_encode (h : Faithful depth encode decode?) (l : List α) :
    (l.map encode).mapM decode? = some l := by
  induction l with
  | nil => rfl
  | cons a _ ih => simp [h.reads a, ih]

theorem Faithful.list (h : Faithful depth encode decode?) :
    Faithful (depth + 1) (ofList encode) (list? decode?) where
  fits := fun l => .arr (fun j hj => by
    obtain ⟨a, -, rfl⟩ := mem_map.mp hj
    exact h.fits a)
  reads := mapM_encode h

theorem Faithful.set [Ord α] [Std.TransOrd α] (h : Faithful depth encode decode?) :
    Faithful (depth + 1) (ofSet encode) (set? decode?) where
  fits := fun s => h.list.fits s.members
  reads := fun s => by
    show (list? decode? (ofList encode s.members)).map _ = _
    rw [h.list.reads, map_some, SortedSet.ofList_members]

theorem Faithful.map [Ord κ] [Std.TransOrd κ] {keyText : κ → String} {key : String → κ}
    (hkey : ∀ k, key (keyText k) = k) (h : Faithful depth encode decode?) :
    Faithful (depth + 1) (ofMap keyText encode) (map? key decode?) where
  fits := fun m => .obj (fun e he => by
    obtain ⟨b, -, rfl⟩ := mem_map.mp he
    exact h.fits b.2)
  reads := fun m => by
    have hall : ∀ l : List (κ × α), (l.map (fun e => (keyText e.1, encode e.2))).mapM
          (fun e => (decode? e.2).map (fun v => (key e.1, v))) = some l := by
      intro l
      induction l with
      | nil => rfl
      | cons e _ ih => simp [h.reads e.2, hkey, ih]
    show Option.map SortedMap.ofList _ = _
    rw [hall, map_some, ofList_toList]

end Collections

end Json

/-! ## Records -/

theorem Path.faithful : Json.Faithful 0 Path.encode Path.decode? :=
  ⟨fun p => .str p.text, fun _ => rfl⟩

theorem Path.faithful_map {depth : Nat} {encode : α → Json} {decode? : Json → Option α}
    (h : Json.Faithful depth encode decode?) :
    Json.Faithful (depth + 1) (Json.ofMap Path.text encode) (Json.map? Path.mk decode?) :=
  h.map (fun _ => rfl)

theorem FileId.faithful : Json.Faithful 0 FileId.encode FileId.decode? where
  fits := fun id => faithful_uint32.fits id.val
  reads := fun id => by
    unfold FileId.encode FileId.decode?
    rw [faithful_uint32.reads]
    rfl

theorem Location.faithful : Json.Faithful 1 Location.encode Location.decode? where
  fits := fun l => .obj (by
    simp only [forall_mem_cons]
    exact ⟨FileId.faithful.fits _, faithful_uint32.fits _, faithful_uint32.fits _, nofun⟩)
  reads := fun l => by
    unfold Location.encode Location.decode?
    simp [Json.record?, Json.uniqueMember?, Json.required, FileId.faithful.reads,
      faithful_uint32.reads]

theorem Language.faithful : Json.Faithful 0 Language.encode Language.decode? where
  fits := fun l => .str l.name
  reads := fun l => by cases l <;> rfl

theorem Invocation.faithful : Json.Faithful 2 Invocation.encode Invocation.decode? where
  fits := fun i => .obj (by
    simp only [forall_mem_cons]
    exact ⟨.str _, .str _, .str _, (fits_ofOption Path.faithful _).mono (by omega), .str _,
      faithful_str.list.fits _, nofun⟩)
  reads := fun i => by
    unfold Invocation.encode Invocation.decode?
    simp [Json.record?, Json.uniqueMember?, Json.required, Path.faithful.reads,
      faithful_str.reads, Language.faithful.reads, faithful_str.list.reads,
      reads_optional Path.faithful (by simp [Path.encode])]

theorem Source.faithful : Json.Faithful 3 Source.encode Source.decode? where
  fits := fun s => .obj (by
    simp only [forall_mem_cons]
    exact ⟨Invocation.faithful.fits _, (faithful_uint64.fits _).mono (by omega),
      ((faithful_map faithful_uint64).fits _).mono (by omega), .bool _, nofun⟩)
  reads := fun s => by
    unfold Source.encode Source.decode?
    simp [Json.record?, Json.uniqueMember?, Json.required, Invocation.faithful.reads,
      faithful_uint64.reads, faithful_bool.reads,
      (faithful_map faithful_uint64).reads]

theorem PchEntry.faithful : Json.Faithful 1 PchEntry.encode PchEntry.decode? where
  fits := fun e => .obj (by
    simp only [forall_mem_cons]
    exact ⟨.str _, .str _, nofun⟩)
  reads := fun e => by
    unfold PchEntry.encode PchEntry.decode?
    simp [Json.record?, Json.uniqueMember?, Json.required, Path.faithful.reads]

theorem Entity.faithful : Json.Faithful 3 Entity.encode Entity.decode? where
  fits := fun e => .obj (by
    have hset := Location.faithful.set
    intro m hm
    simp only [mem_append, mem_cons, not_mem_nil, or_false] at hm
    rcases hm with ((rfl | rfl | rfl | rfl | rfl | rfl) | hm) | (rfl | rfl)
    · exact .str _
    · exact (fits_ofOption Location.faithful _).mono (by omega)
    · exact hset.fits _
    · exact hset.fits _
    · exact hset.fits _
    · exact (fits_ofOption Location.faithful _).mono (by omega)
    · split at hm
      · cases hm
      · obtain rfl := mem_singleton.mp hm
        exact .str _
    · exact hset.fits _
    · exact (faithful_str.list.fits _).mono (by omega))
  reads := fun e => by
    have hoption := fun o => reads_optional Location.faithful (by simp [Location.encode]) o
    unfold Entity.encode Entity.decode?
    cases hover : e.overriddenUsr with
    | none =>
      simp [Json.record?, Json.uniqueMember?, Json.required, Entity.fieldNames, hoption,
        Location.faithful.set.reads, faithful_str.reads, faithful_str.list.reads]
      show some ({ e with overriddenUsr := none } : Entity) = some e
      rw [← hover]
    | some usr =>
      simp [Json.record?, Json.uniqueMember?, Json.required, Entity.fieldNames, hoption,
        Location.faithful.set.reads, faithful_str.reads, faithful_str.list.reads]
      show some ({ e with overriddenUsr := some usr } : Entity) = some e
      rw [← hover]

theorem Entities.faithful : Json.Faithful 4 Entities.encode Entities.decode? :=
  Entity.faithful.map (fun _ => rfl)

/-! ## File tables -/

namespace FileTable

variable {t : FileTable}

section

variable (l : List (Path × FileId))

theorem foldl_enter (t : FileTable) :
    l.foldl
        (fun t e =>
          { byName := t.byName.insert e.1 e.2
            byId := t.byId.insert e.2 e.1
            lastId := max t.lastId e.2.val }) t
      = { byName := l.foldl (fun m e => m.insert e.1 e.2) t.byName
          byId := l.foldl (fun m e => m.insert e.2 e.1) t.byId
          lastId := l.foldl (fun n e => max n e.2.val) t.lastId } := by
  induction l generalizing t with
  | nil => rfl
  | cons _ _ ih => simp only [foldl_cons, ih]

theorem get?_foldl_insert_swap (m : SortedMap FileId Path) (id : FileId)
    (p : Path) (hp : ∀ q, (q, id) ∈ l → q = p) (h : m.get? id = some p ∨ (p, id) ∈ l) :
    (l.foldl (fun m e => m.insert e.2 e.1) m).get? id = some p := by
  induction l generalizing m with
  | nil => exact h.elim (fun h => h) (fun h => absurd h (by simp))
  | cons e _ ih =>
    refine ih _ (fun q hq => hp q (mem_cons_of_mem _ hq)) ?_
    rw [get?_insert]
    simp only [Std.compare_eq_iff_eq]
    by_cases hid : id = e.2
    · subst hid
      exact .inl (by rw [if_pos rfl, hp e.1 (mem_cons_self ..)])
    · rw [if_neg hid]
      refine h.imp_right (fun h => ?_)
      rcases mem_cons.mp h with rfl | h
      · exact absurd rfl hid
      · exact h

theorem get?_foldl_insert_of_not_mem (m : SortedMap FileId Path)
    (id : FileId) (h : ∀ q, (q, id) ∉ l) :
    (l.foldl (fun m e => m.insert e.2 e.1) m).get? id = m.get? id := by
  induction l generalizing m with
  | nil => rfl
  | cons e _ ih =>
    have hid : id ≠ e.2 := by
      rintro rfl
      exact h e.1 (mem_cons_self ..)
    rw [foldl_cons, ih _ (fun q hq => h q (mem_cons_of_mem _ hq)), get?_insert,
      if_neg (by simpa using hid)]

theorem foldl_max_le (n b : UInt32) (hn : n ≤ b)
    (h : ∀ e ∈ l, e.2.val ≤ b) : l.foldl (fun n e => max n e.2.val) n ≤ b := by
  induction l generalizing n with
  | nil => exact hn
  | cons e _ ih =>
    refine ih _ ?_ (fun e' he' => h e' (mem_cons_of_mem _ he'))
    show (if n ≤ e.2.val then e.2.val else n) ≤ b
    split
    · exact h e (mem_cons_self ..)
    · exact hn

theorem le_foldl_max (n b : UInt32)
    (h : b ≤ n ∨ ∃ e ∈ l, e.2.val = b) : b ≤ l.foldl (fun n e => max n e.2.val) n := by
  induction l generalizing n with
  | nil => exact h.elim id (fun ⟨_, he, _⟩ => absurd he (by simp))
  | cons e _ ih =>
    refine ih _ ?_
    rcases h with h | ⟨e', he', rfl⟩
    · refine .inl ?_
      show b ≤ if n ≤ e.2.val then e.2.val else n
      split
      · next hle => exact UInt32.le_trans h hle
      · exact h
    · rcases mem_cons.mp he' with rfl | he'
      · refine .inl ?_
        show e'.2.val ≤ if n ≤ e'.2.val then e'.2.val else n
        split
        · exact UInt32.le_refl _
        · next hnot => exact (UInt32.le_total _ _).resolve_left hnot
      · exact .inr ⟨e', he', rfl⟩

end

/-- **A table is given back by the map under which it is stored.** -/
theorem Sound.ofMap_toMap (h : t.Sound) : ofMap t.toMap = t := by
  have hname : t.byName.toList.foldl (fun m e => m.insert e.1 e.2) ∅ = t.byName :=
    ofList_toList t.byName
  have hid : t.byName.toList.foldl (fun m e => m.insert e.2 e.1) ∅ = t.byId := by
    refine ext_get? (fun id => ?_)
    cases hget : t.byId.get? id with
    | some p =>
      refine get?_foldl_insert_swap _ _ _ _ (fun q hq => ?_) (.inr ((h.named p id).mpr hget))
      rw [h.named, hget] at hq
      exact (some.inj hq).symm
    | none =>
      rw [get?_foldl_insert_of_not_mem _ _ _ (fun q hq => ?_), get?_empty]
      rw [h.named, hget] at hq
      cases hq
  have hlast : t.byName.toList.foldl (fun n e => max n e.2.val) 0 = t.lastId := by
    refine UInt32.le_antisymm (foldl_max_le _ _ _ ?_ (fun e he => h.bounded e.1 e.2 he))
      (le_foldl_max _ _ _ ?_)
    · exact UInt32.le_iff_toNat_le.mpr (Nat.zero_le _)
    · rcases h.last with hzero | ⟨p, hp⟩
      · exact .inl (by rw [hzero]; exact UInt32.le_iff_toNat_le.mpr (Nat.le_refl _))
      · exact .inr ⟨_, hp, rfl⟩
  unfold ofMap toMap
  rw [foldl_enter]
  show ({ byName := _, byId := _, lastId := _ } : FileTable) = _
  rw [hname, hid, hlast]

theorem fits_encode (t : FileTable) : Json.Fits 1 t.encode :=
  (faithful_map FileId.faithful).fits t.byName

theorem Sound.decode?_encode (h : t.Sound) : decode? t.encode = some t := by
  have hmap := (faithful_map FileId.faithful).reads t.byName
  unfold decode? encode toMap
  rw [hmap, map_some]
  exact congrArg some h.ofMap_toMap

end FileTable

end SymbolIndex
