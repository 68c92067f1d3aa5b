import SymbolIndex.Data.SortedMap

/-!
# What a map answers

A map is looked at through `get?`. Every operation has one equation that says what `get?` answers
after it, so no later proof opens the list of bindings. Keys may be equal in the order and written
differently; the equations therefore speak of `compare`, and only the last section, where two maps
that answer alike are the same map, needs keys that are equal when the order says so.
-/

namespace SymbolIndex.SortedMap

variable {κ : Type u} {υ : Type v} [Ord κ] {m : SortedMap κ υ}

/-! ## Looking up -/

variable {k k' : κ} {v : υ} {l : List (κ × υ)} {e : κ × υ}

theorem findValue?_congr [Std.TransOrd κ] (h : compare k k' = .eq) (l : List (κ × υ)) :
    findValue? k l = findValue? k' l := by
  induction l with
  | nil => rfl
  | cons _ _ ih =>
    simp only [findValue?]
    rw [ih, Std.TransCmp.congr_left h]

theorem get?_congr [Std.TransOrd κ] (m : SortedMap κ υ) (h : compare k k' = .eq) :
    m.get? k = m.get? k' :=
  findValue?_congr h m.entries

theorem contains_congr [Std.TransOrd κ] (m : SortedMap κ υ) (h : compare k k' = .eq) :
    m.contains k = m.contains k' := by
  unfold contains
  rw [get?_congr m h]

@[simp] theorem get?_empty (k : κ) : (∅ : SortedMap κ υ).get? k = none := rfl

@[simp] theorem contains_empty (k : κ) : (∅ : SortedMap κ υ).contains k = false := rfl

theorem contains_iff : m.contains k = true ↔ ∃ v, m.get? k = some v := Option.isSome_iff_exists

theorem contains_eq_false_iff : m.contains k = false ↔ m.get? k = none := by
  unfold contains
  cases m.get? k <;> simp

theorem mem_of_findValue? (h : findValue? k l = some v) :
    ∃ k', compare k k' = .eq ∧ (k', v) ∈ l := by
  induction l with
  | nil => simp [findValue?] at h
  | cons head _ ih =>
    simp only [findValue?] at h
    split at h
    · next heq =>
      obtain rfl : head.2 = v := Option.some.inj h
      exact ⟨head.1, heq, List.mem_cons_self⟩
    · obtain ⟨k', hk', hmem⟩ := ih h
      exact ⟨k', hk', List.mem_cons_of_mem _ hmem⟩

theorem mem_of_get? (h : m.get? k = some v) : ∃ k', compare k k' = .eq ∧ (k', v) ∈ m.toList :=
  mem_of_findValue? h

theorem findValue?_of_mem [Std.TransOrd κ] (hs : l.Pairwise (fun a b => compare a.1 b.1 = .lt))
    (h : e ∈ l) : findValue? e.1 l = some e.2 := by
  induction l with
  | nil => cases h
  | cons head _ ih =>
    obtain ⟨hhead, hrest⟩ := List.pairwise_cons.mp hs
    simp only [findValue?]
    rcases List.mem_cons.mp h with rfl | h
    · rw [if_pos Std.ReflCmp.compare_self]
    · rw [if_neg, ih hrest h]
      -- the head is smaller than every key behind it
      rw [Std.OrientedCmp.gt_of_lt (hhead e h)]
      decide

theorem get?_of_mem [Std.TransOrd κ] (h : e ∈ m.toList) : m.get? e.1 = some e.2 :=
  findValue?_of_mem m.sorted h

theorem contains_of_mem [Std.TransOrd κ] (h : e ∈ m.toList) : m.contains e.1 = true :=
  contains_iff.mpr ⟨e.2, get?_of_mem h⟩

theorem mem_keys_iff : k ∈ m.keys ↔ ∃ v, (k, v) ∈ m.toList := by
  unfold keys toList
  simp

/-! ## Binding a key -/

theorem findValue?_insertEntry [Std.TransOrd κ] (k k' : κ) (v : υ) (l : List (κ × υ)) :
    findValue? k' (insertEntry k v l) = if compare k' k = .eq then some v else findValue? k' l := by
  induction l with
  | nil => simp [insertEntry, findValue?]
  | cons head _ ih =>
    obtain ⟨k₀, v₀⟩ := head
    unfold insertEntry
    split
    · simp only [findValue?]
    · next heq =>
      -- the binding of an equal key is replaced in its place
      simp only [findValue?]
      rw [Std.TransCmp.congr_right heq]
      split <;> rfl
    · next hgt =>
      simp only [findValue?]
      rw [ih]
      by_cases h₀ : compare k' k₀ = .eq
      · rw [if_pos h₀, if_pos h₀, if_neg]
        intro hk
        have : compare k k₀ = .eq := Std.TransCmp.eq_trans (Std.OrientedCmp.eq_symm hk) h₀
        rw [this] at hgt
        cases hgt
      · rw [if_neg h₀, if_neg h₀]

@[simp] theorem get?_insert [Std.TransOrd κ] (m : SortedMap κ υ) (k k' : κ) (v : υ) :
    (m.insert k v).get? k' = if compare k' k = .eq then some v else m.get? k' :=
  findValue?_insertEntry k k' v m.entries

theorem get?_insert_self [Std.TransOrd κ] (m : SortedMap κ υ) (k : κ) (v : υ) :
    (m.insert k v).get? k = some v := by
  rw [get?_insert, if_pos Std.ReflCmp.compare_self]

@[simp] theorem contains_insert [Std.TransOrd κ] (m : SortedMap κ υ) (k k' : κ) (v : υ) :
    (m.insert k v).contains k' = (compare k' k == .eq || m.contains k') := by
  unfold contains
  rw [get?_insert]
  cases h : compare k' k <;> simp

theorem get?_insertIfNew [Std.TransOrd κ] (m : SortedMap κ υ) (k k' : κ) (v : υ) :
    (m.insertIfNew k v).get? k'
      = if compare k' k = .eq then some ((m.get? k').getD v) else m.get? k' := by
  unfold insertIfNew
  by_cases hc : m.contains k = true
  · rw [if_pos hc]
    split
    · next heq =>
      obtain ⟨w, hw⟩ := contains_iff.mp hc
      rw [get?_congr m heq, hw]
      rfl
    · rfl
  · rw [if_neg hc, get?_insert]
    split
    · next heq =>
      have hnone : m.get? k = none := contains_eq_false_iff.mp (by simpa using hc)
      rw [get?_congr m heq, hnone]
      rfl
    · rfl

theorem get?_modify [Std.TransOrd κ] (m : SortedMap κ υ) (k k' : κ) (f : υ → υ) :
    (m.modify k f).get? k' = if compare k' k = .eq then (m.get? k').map f else m.get? k' := by
  unfold modify
  cases hk : m.get? k with
  | none =>
    show m.get? k' = _
    split
    · next heq => rw [get?_congr m heq, hk]; rfl
    · rfl
  | some v =>
    show (m.insert k (f v)).get? k' = _
    rw [get?_insert]
    split
    · next heq => rw [get?_congr m heq, hk]; rfl
    · rfl

/-! ## Removing and mapping -/

theorem get?_erase [Std.TransOrd κ] (m : SortedMap κ υ) (k k' : κ) :
    (m.erase k).get? k' = if compare k' k = .eq then none else m.get? k' := by
  have key : ∀ l : List (κ × υ), findValue? k' (l.filter (fun e => compare k e.1 != .eq))
        = if compare k' k = .eq then none else findValue? k' l := by
    intro l
    induction l with
    | nil => simp [findValue?]
    | cons head _ ih =>
      rw [List.filter_cons]
      by_cases hhead : compare k head.1 = .eq
      · rw [if_neg (by simp [hhead]), ih]
        simp only [findValue?]
        rw [← Std.TransCmp.congr_right hhead]
        split <;> rfl
      · rw [if_pos (by simpa using hhead)]
        simp only [findValue?]
        rw [ih]
        by_cases h₀ : compare k' head.1 = .eq
        · rw [if_pos h₀, if_pos h₀, if_neg]
          intro hk
          exact hhead (Std.TransCmp.eq_trans (Std.OrientedCmp.eq_symm hk) h₀)
        · rw [if_neg h₀, if_neg h₀]
  exact key m.entries

@[simp] theorem contains_mapValues (m : SortedMap κ υ) (f : κ → υ → ω) (k : κ) :
    (m.mapValues f).contains k = m.contains k := by
  have key : ∀ l : List (κ × υ),
      (findValue? k (l.map (fun e => (e.1, f e.1 e.2)))).isSome = (findValue? k l).isSome := by
    intro l
    induction l with
    | nil => rfl
    | cons _ _ ih =>
      simp only [List.map_cons, findValue?]
      split
      · rfl
      · exact ih
  exact key m.entries

theorem findValue?_eq_none_of_head (h : ∀ e ∈ l, compare k e.1 = .lt) : findValue? k l = none := by
  induction l with
  | nil => rfl
  | cons head _ ih =>
    simp only [findValue?]
    rw [if_neg, ih (fun e he => h e (List.mem_cons_of_mem _ he))]
    rw [h head List.mem_cons_self]
    decide

/-! ## The number of bindings -/

theorem countP_insertEntry [Std.TransOrd κ] (p : υ → Bool) (k : κ) (v : υ)
    (hl : l.Pairwise (fun a b => compare a.1 b.1 = .lt)) :
    ((insertEntry k v l).map Prod.snd).countP p + ((findValue? k l).any p).toNat
      = (l.map Prod.snd).countP p + (p v).toNat := by
  induction l with
  | nil => cases hp : p v <;> simp [insertEntry, findValue?, hp]
  | cons head rest ih =>
    obtain ⟨k', v'⟩ := head
    obtain ⟨hhead, hrest⟩ := List.pairwise_cons.mp hl
    simp only [insertEntry, findValue?]
    split
    · next hk =>
      have hnone : findValue? k rest = none :=
        findValue?_eq_none_of_head (fun e he => Std.TransCmp.lt_trans hk (hhead e he))
      cases hp : p v <;> simp [hk, hnone, hp, List.countP_cons]
    · next hk =>
      cases hp : p v <;> cases hp' : p v' <;> simp [hk, hp, hp']
    · next hk =>
      have hcount := ih hrest
      simp only [hk, reduceCtorEq, if_false, List.map_cons, List.countP_cons]
      omega

theorem length_insertEntry [Std.TransOrd κ] (k : κ) (v : υ)
    (hl : l.Pairwise (fun a b => compare a.1 b.1 = .lt)) :
    (insertEntry k v l).length = if (findValue? k l).isSome then l.length else l.length + 1 := by
  have hcount := countP_insertEntry (fun _ => true) k v hl
  rw [List.countP_true, List.length_map, List.length_map] at hcount
  cases hfound : findValue? k l <;> simp_all

theorem size_insert [Std.TransOrd κ] (m : SortedMap κ υ) (k : κ) (v : υ) :
    (m.insert k v).size = if m.contains k then m.size else m.size + 1 :=
  length_insertEntry k v m.sorted

theorem size_modify [Std.TransOrd κ] (m : SortedMap κ υ) (k : κ) (f : υ → υ) :
    (m.modify k f).size = m.size := by
  unfold modify
  cases hk : m.get? k with
  | none => rfl
  | some v =>
    simp only
    rw [size_insert, if_pos (contains_iff.mpr ⟨v, hk⟩)]

/-! ## Maps from their bindings -/

theorem insertEntry_of_last [Std.TransOrd κ] (h : ∀ e ∈ l, compare e.1 k = .lt) :
    insertEntry k v l = l ++ [(k, v)] := by
  induction l with
  | nil => rfl
  | cons e _ ih =>
    have hgt : compare k e.1 = .gt := Std.OrientedCmp.gt_of_lt (h e (List.mem_cons_self ..))
    rw [insertEntry, hgt, ih (fun e' he' => h e' (List.mem_cons_of_mem _ he'))]
    rfl

theorem entries_foldl_insert [Std.TransOrd κ] (l : List (κ × υ)) (m : SortedMap κ υ)
    (h : (m.entries ++ l).Pairwise (fun a b => compare a.1 b.1 = .lt)) :
    (l.foldl (fun m e => m.insert e.1 e.2) m).entries = m.entries ++ l := by
  induction l generalizing m with
  | nil => simp
  | cons e _ ih =>
    have hlast : (m.insert e.1 e.2).entries = m.entries ++ [e] := insertEntry_of_last (fun e' he' =>
        (List.pairwise_append.mp h).2.2 e' he' e (List.mem_cons_self ..))
    rw [List.foldl_cons, ih, hlast, List.append_assoc, List.singleton_append]
    rwa [hlast, List.append_assoc, List.singleton_append]

/-- A new key stands somewhere between the bindings there were. -/
theorem exists_toList_insert [Std.TransOrd κ] (v : υ) (h : m.get? k = none) :
    ∃ before after, m.toList = before ++ after
      ∧ (m.insert k v).toList = before ++ (k, v) :: after := by
  have hlist : ∀ l : List (κ × υ), findValue? k l = none →
      ∃ before after, l = before ++ after ∧ insertEntry k v l = before ++ (k, v) :: after := by
    intro l
    induction l with
    | nil => exact fun _ => ⟨[], [], rfl, rfl⟩
    | cons e l ih =>
      intro hnone
      simp only [findValue?] at hnone
      split at hnone
      · cases hnone
      · next hne =>
        obtain ⟨before, after, rfl, hinsert⟩ := ih hnone
        simp only [insertEntry]
        split
        · exact ⟨[], _, rfl, rfl⟩
        · next heq => exact absurd heq hne
        · exact ⟨e :: before, after, rfl, by rw [hinsert]; rfl⟩
  exact hlist m.toList h

theorem mem_toList_insert_of_new [Std.TransOrd κ] (h : m.contains k = false) (e : κ × υ) :
    e ∈ (m.insert k v).toList ↔ e ∈ m.toList ∨ e = (k, v) := by
  obtain ⟨before, after, hold, hinsert⟩ := exists_toList_insert v (contains_eq_false_iff.mp h)
  rw [hold, hinsert, List.mem_append, List.mem_append, List.mem_cons]
  rw [or_comm (a := e = (k, v)), or_assoc]

theorem ext_entries {m' : SortedMap κ υ} (h : m.entries = m'.entries) : m = m' := by
  cases m
  cases m'
  cases h
  rfl

theorem ofList_toList [Std.TransOrd κ] (m : SortedMap κ υ) : ofList m.toList = m :=
  ext_entries (entries_foldl_insert m.entries empty m.sorted)

theorem collect_toList [Std.TransOrd κ] (m : SortedMap κ υ) : collect m.toList = m := by
  have hlist : ∀ l : List (κ × υ), l.Pairwise (fun a b => compare a.1 b.1 = .lt) →
      (collect l).entries = l := by
    intro l hl
    induction l with
    | nil => rfl
    | cons e rest ih =>
      obtain ⟨hhead, hrest⟩ := List.pairwise_cons.mp hl
      have hnew : (collect rest).contains e.1 = false := by
        rw [contains_eq_false_iff]
        unfold get?
        rw [ih hrest]
        exact findValue?_eq_none_of_head hhead
      show (insertIfNew (collect rest) e.1 e.2).entries = e :: rest
      unfold insertIfNew
      rw [hnew, if_neg (by simp)]
      show insertEntry e.1 e.2 (collect rest).entries = e :: rest
      rw [ih hrest]
      cases rest with
      | nil => rfl
      | cons e' => simp [insertEntry, hhead e' List.mem_cons_self]
  exact ext_entries (hlist m.entries m.sorted)

theorem toList_ofList_filterMap [Std.TransOrd κ] (m : SortedMap κ υ) {f : κ × υ → Option (κ × ω)}
    (hf : ∀ e x, f e = some x → x.1 = e.1) :
    (ofList (m.toList.filterMap f)).toList = m.toList.filterMap f := by
  refine entries_foldl_insert _ empty ?_
  refine List.Pairwise.filterMap f (fun a b hlt x hx y hy => ?_) m.sorted
  rw [hf a x hx, hf b y hy]
  exact hlt

/-! ## Keys that are equal when the order says so -/

@[simp] theorem get?_mapValues [Std.LawfulEqOrd κ] (m : SortedMap κ υ) (f : κ → υ → ω) (k : κ) :
    (m.mapValues f).get? k = (m.get? k).map (f k) := by
  have key : ∀ l : List (κ × υ),
      findValue? k (l.map (fun e => (e.1, f e.1 e.2))) = (findValue? k l).map (f k) := by
    intro l
    induction l with
    | nil => rfl
    | cons _ _ ih =>
      simp only [List.map_cons, findValue?]
      split
      · next heq => rw [Std.LawfulEqCmp.eq_of_compare heq]; rfl
      · exact ih
  exact key m.entries

section Lawful

variable [Std.TransOrd κ] [Std.LawfulEqOrd κ]

theorem mem_toList_iff : (k, v) ∈ m.toList ↔ m.get? k = some v := by
  refine ⟨get?_of_mem, fun h => ?_⟩
  obtain ⟨k', hk', hmem⟩ := mem_of_get? h
  rwa [Std.LawfulEqCmp.eq_of_compare hk']

@[simp] theorem get?_filter (m : SortedMap κ υ) (keep : κ → υ → Bool) (k : κ) :
    (m.filter keep).get? k = (m.get? k).filter (keep k) := by
  cases h : (m.filter keep).get? k with
  | some =>
    obtain ⟨hmem, hkeep⟩ := List.mem_filter.mp (mem_toList_iff.mpr h)
    rw [mem_toList_iff.mp hmem]
    exact (Option.filter_eq_some_iff.mpr ⟨rfl, hkeep⟩).symm
  | none =>
    cases hm : m.get? k with
    | none => rfl
    | some v =>
      by_cases hkeep : keep k v = true
      · have hmem : (k, v) ∈ (m.filter keep).toList :=
          List.mem_filter.mpr ⟨mem_toList_iff.mpr hm, hkeep⟩
        rw [mem_toList_iff.mp hmem] at h
        cases h
      · simp [Option.filter, hkeep]

theorem entries_eq_of_findValue? {l' : List (κ × υ)}
    (hl : l.Pairwise (fun a b => compare a.1 b.1 = .lt))
    (hl' : l'.Pairwise (fun a b => compare a.1 b.1 = .lt))
    (h : ∀ k, findValue? k l = findValue? k l') : l = l' := by
  induction l generalizing l' with
  | nil =>
    cases l' with
    | nil => rfl
    | cons head =>
      have := h head.1
      simp [findValue?] at this
  | cons head rest ih =>
    cases l' with
    | nil =>
      have := h head.1
      simp [findValue?] at this
    | cons head' rest' =>
      obtain ⟨hhead, hrest⟩ := List.pairwise_cons.mp hl
      obtain ⟨hhead', hrest'⟩ := List.pairwise_cons.mp hl'
      -- the least key of each list is found in the other, so neither can be the smaller
      have hkey : head.1 = head'.1 := by
        have h₁ : findValue? head.1 (head' :: rest') = some head.2 := by
          rw [← h]; exact findValue?_of_mem hl List.mem_cons_self
        have h₂ : findValue? head'.1 (head :: rest) = some head'.2 := by
          rw [h]; exact findValue?_of_mem hl' List.mem_cons_self
        cases hc : compare head.1 head'.1 with
        | eq => exact Std.LawfulEqCmp.eq_of_compare hc
        | lt =>
          rw [findValue?_eq_none_of_head] at h₁
          · cases h₁
          · intro e he
            rcases List.mem_cons.mp he with rfl | he
            · exact hc
            · exact Std.TransCmp.lt_trans hc (hhead' e he)
        | gt =>
          have hc' := Std.OrientedCmp.lt_of_gt hc
          rw [findValue?_eq_none_of_head] at h₂
          · cases h₂
          · intro e he
            rcases List.mem_cons.mp he with rfl | he
            · exact hc'
            · exact Std.TransCmp.lt_trans hc' (hhead e he)
      have hval : head.2 = head'.2 := by
        have := h head.1
        simp only [findValue?, ← hkey, Std.ReflCmp.compare_self, if_true] at this
        exact Option.some.inj this
      have htail : rest = rest' := by
        refine ih hrest hrest' (fun k => ?_)
        have hk := h k
        simp only [findValue?, ← hkey] at hk
        by_cases hc : compare k head.1 = .eq
        · obtain rfl := Std.LawfulEqCmp.eq_of_compare hc
          rw [findValue?_eq_none_of_head hhead,
            findValue?_eq_none_of_head (fun e he => hkey ▸ hhead' e he)]
        · rwa [if_neg hc, if_neg hc] at hk
      rw [htail, show head = head' from Prod.ext hkey hval]

theorem ext_get? {m' : SortedMap κ υ} (h : ∀ k, m.get? k = m'.get? k) : m = m' := by
  obtain ⟨l, hl⟩ := m
  obtain ⟨l', hl'⟩ := m'
  have : l = l' := entries_eq_of_findValue? hl hl' h
  subst this
  rfl

end Lawful

end SymbolIndex.SortedMap

namespace SymbolIndex.SortedSet

variable {κ : Type u} [Ord κ]

/-! ## Sets -/

@[simp] theorem contains_add [Std.TransOrd κ] (s : SortedSet κ) (k k' : κ) :
    SortedMap.contains (s.add k) k' = (compare k' k == .eq || SortedMap.contains s k') :=
  SortedMap.contains_insert s k k' ()

theorem contains_addAll [Std.TransOrd κ] (l : List κ) (s : SortedSet κ) (k : κ) :
    SortedMap.contains (s.addAll l) k = true
      ↔ SortedMap.contains s k = true ∨ ∃ x ∈ l, compare k x = .eq := by
  unfold addAll
  induction l generalizing s with
  | nil => simp
  | cons _ _ ih =>
    rw [List.foldl_cons, ih, contains_add]
    simp only [Bool.or_eq_true, beq_iff_eq, List.mem_cons, exists_eq_or_imp]
    exact ⟨fun h => h.elim (fun h => h.elim (.inr ∘ .inl) .inl) (.inr ∘ .inr),
      fun h => h.elim (.inl ∘ .inr) (fun h => h.elim (.inl ∘ .inl) .inr)⟩

theorem ofList_members [Std.TransOrd κ] (s : SortedSet κ) : ofList s.members = s := by
  have h := SortedMap.ofList_toList s
  unfold SortedMap.ofList SortedMap.toList at h
  unfold ofList addAll add members SortedMap.keys
  rwa [List.foldl_map]

theorem contains_ofList [Std.TransOrd κ] (l : List κ) (k : κ) :
    SortedMap.contains (ofList l) k = true ↔ ∃ x ∈ l, compare k x = .eq := by
  unfold ofList
  rw [contains_addAll]
  exact ⟨fun h => h.elim (fun h => absurd h (by simp [SortedMap.empty, SortedMap.contains,
    SortedMap.get?, SortedMap.findValue?])) id, .inr⟩

theorem contains_collect [Std.TransOrd κ] (l : List κ) (k : κ) :
    SortedMap.contains (collect l) k = true ↔ ∃ x ∈ l, compare k x = .eq := by
  induction l with
  | nil => exact ⟨fun h => absurd h (by simp [collect, SortedMap.empty, SortedMap.contains,
      SortedMap.get?, SortedMap.findValue?]), fun ⟨_, hx, _⟩ => absurd hx (by simp)⟩
  | cons x rest ih =>
    show SortedMap.contains (SortedSet.add (collect rest) x) k = true ↔ _
    rw [contains_add]
    simp only [Bool.or_eq_true, beq_iff_eq, List.mem_cons, exists_eq_or_imp]
    rw [ih]

@[simp] theorem contains_erase [Std.TransOrd κ] (s : SortedSet κ) (k k' : κ) :
    SortedMap.contains (SortedMap.erase s k) k'
      = (!(compare k' k == .eq) && SortedMap.contains s k') := by
  unfold SortedMap.contains
  rw [SortedMap.get?_erase]
  cases compare k' k <;> simp

theorem isEmpty_iff [Std.TransOrd κ] {s : SortedSet κ} :
    SortedMap.isEmpty s = true ↔ ∀ k, SortedMap.contains s k = false := by
  unfold SortedMap.isEmpty
  rw [List.isEmpty_iff]
  constructor
  · intro h k
    unfold SortedMap.contains SortedMap.get?
    rw [h]
    rfl
  · intro h
    refine List.eq_nil_iff_forall_not_mem.mpr (fun e he => ?_)
    have := SortedMap.contains_of_mem (m := s) he
    rw [h] at this
    cases this

section Lawful

variable [Std.TransOrd κ] [Std.LawfulEqOrd κ] {s : SortedSet κ}

@[simp] theorem contains_restrict (s : SortedSet κ) (keep : κ → Bool) (k : κ) :
    SortedMap.contains (s.restrict keep) k = (SortedMap.contains s k && keep k) := by
  unfold SortedMap.contains restrict
  rw [SortedMap.get?_filter]
  cases s.get? k <;> simp [Option.filter]
  cases keep k <;> rfl

theorem mem_members_iff {k : κ} : k ∈ s.members ↔ SortedMap.contains s k = true := by
  unfold members
  rw [SortedMap.mem_keys_iff, SortedMap.contains_iff]
  exact exists_congr (fun _ => SortedMap.mem_toList_iff)

theorem ext_contains {t : SortedSet κ} (h : ∀ k, SortedMap.contains s k = SortedMap.contains t k) :
    s = t := by
  refine SortedMap.ext_get? (fun k => ?_)
  have hk := h k
  unfold SortedMap.contains at hk
  cases hs : s.get? k <;> cases ht : t.get? k <;> simp_all

end Lawful

end SymbolIndex.SortedSet
