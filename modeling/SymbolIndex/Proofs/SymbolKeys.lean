import SymbolIndex.Proofs.Episode
import SymbolIndex.Proofs.Reconcile
import SymbolIndex.Proofs.Record

/-!
# The keys of the symbols of files

For each file that has symbols the database keeps the set of these symbols under a key of its own.
An update does not sweep these keys: it removes those of the files that count as changed and writes
those of the files that have symbols afterwards. The first are spelled as the changed files are, the
second as the file table spells them, and keys are compared letter by letter.

`keyValue` computes what is under a key after some runs, and `valueAt_symbols` says that it is there.
A key is left over when its file has lost its symbols in a run and the run did not remove the key.
That happens in one way only: the file counts as changed under another spelling (`misspelled`).
-/

namespace SymbolIndex

open List SortedMap SortedSet
open DbKey (symbols)

open Database

/-! ## The symbols of a file -/

namespace Entities

/-- A symbol has a place in a file. -/
def InFile (m : Entities) (id : FileId) (usr : Usr) : Prop :=
  ∃ e, m.get? usr = some e ∧ ∃ l ∈ e.ownLocations, l.file = id

theorem contains_files (e : Entity) (id : FileId) :
    e.files.contains id = true ↔ ∃ l ∈ e.ownLocations, l.file = id := by
  unfold Entity.files
  rw [contains_ofList]
  simp only [Std.compare_eq_iff_eq, mem_map]
  constructor
  · rintro ⟨id', ⟨l, hl, rfl⟩, rfl⟩
    exact ⟨l, hl, rfl⟩
  · rintro ⟨l, hl, rfl⟩
    exact ⟨_, ⟨l, hl, rfl⟩, rfl⟩

def enter (acc : SortedMap FileId (SortedSet Usr)) (p : FileId × Usr) :
    SortedMap FileId (SortedSet Usr) :=
  acc.insert p.1 (((acc.get? p.1).getD ∅).add p.2)

def places (m : Entities) : List (FileId × Usr) :=
  m.toList.flatMap (fun e => e.2.files.members.map (fun file => (file, e.1)))

theorem symbolsByFile_eq (m : Entities) : m.symbolsByFile = m.places.foldl enter ∅ := by
  unfold symbolsByFile places
  rw [foldl_flatMap]
  congr 1
  funext acc e
  rw [foldl_map]
  rfl

theorem mem_places {m : Entities} {id : FileId} {usr : Usr} :
    (id, usr) ∈ m.places ↔ m.InFile id usr := by
  unfold places InFile
  simp only [mem_flatMap, mem_map, Prod.mk.injEq]
  constructor
  · rintro ⟨⟨usr', e⟩, he, file, hfile, rfl, rfl⟩
    refine ⟨e, mem_toList_iff.mp he, ?_⟩
    exact (contains_files e file).mp (mem_members_iff.mp hfile)
  · rintro ⟨e, he, hplace⟩
    refine ⟨(usr, e), mem_toList_iff.mpr he, id, ?_, rfl, rfl⟩
    exact mem_members_iff.mpr ((contains_files e id).mpr hplace)

theorem get?_enter (ps : List (FileId × Usr)) (acc : SortedMap FileId (SortedSet Usr))
    (id : FileId) :
    ((ps.foldl enter acc).get? id = none ↔ acc.get? id = none ∧ ∀ usr, (id, usr) ∉ ps)
      ∧ ∀ usr, (((ps.foldl enter acc).get? id).getD ∅).contains usr = true
        ↔ ((acc.get? id).getD ∅).contains usr = true ∨ (id, usr) ∈ ps := by
  induction ps generalizing acc with
  | nil => simp
  | cons p _ ih =>
    obtain ⟨hnone, hcontains⟩ := ih (enter acc p)
    rw [foldl_cons]
    have hget : (enter acc p).get? id
        = if id = p.1 then some (((acc.get? p.1).getD ∅).add p.2) else acc.get? id := by
      unfold enter
      simp only [get?_insert, Std.compare_eq_iff_eq]
    rw [hget] at hnone hcontains
    by_cases hid : id = p.1
    · subst hid
      simp only [if_true] at hnone hcontains
      refine ⟨⟨fun h => absurd (hnone.mp h).1 (by simp), fun h => ?_⟩, fun usr => ?_⟩
      · exact absurd mem_cons_self (h.2 p.2)
      · rw [hcontains usr]
        simp only [Option.getD_some, contains_add, Bool.or_eq_true, beq_iff_eq,
          Std.compare_eq_iff_eq, mem_cons, Prod.ext_iff, true_and]
        constructor
        · rintro ((h | h) | h)
          · exact .inr (.inl h)
          · exact .inl h
          · exact .inr (.inr h)
        · rintro (h | h | h)
          · exact .inl (.inr h)
          · exact .inl (.inl h)
          · exact .inr h
    · simp only [if_neg hid] at hnone hcontains
      have hne : ∀ usr, (id, usr) ≠ p := fun usr heq => hid (congrArg Prod.fst heq)
      simp only [mem_cons, hne, false_or]
      exact ⟨hnone, hcontains⟩

/-- **The symbols of each file**: a file has an entry when a symbol has a place of its own in it,
and the entry is the set of these symbols. -/
theorem get?_symbolsByFile (m : Entities) (id : FileId) :
    (m.symbolsByFile.get? id = none ↔ ∀ usr, ¬ m.InFile id usr)
      ∧ ∀ us, m.symbolsByFile.get? id = some us → ∀ usr, us.contains usr = true ↔ m.InFile id usr := by
  obtain ⟨hnone, hcontains⟩ := get?_enter m.places ∅ id
  rw [← symbolsByFile_eq] at hnone hcontains
  simp only [mem_places, get?_empty, true_and, Option.getD_none,
    contains_empty, Bool.false_eq_true, false_or] at hnone hcontains
  refine ⟨hnone, fun us hus usr => ?_⟩
  rw [← hcontains usr, hus]
  rfl

end Entities

/-! ## What is under a key -/

def symbolBytes (us : SortedSet Usr) : ByteArray := (Json.ofSet .str us).render.toUTF8

namespace IndexState

variable {state : IndexState} {p : Path}

/-- The symbols that have a place in a file, by its path. -/
def symbolsAt (state : IndexState) (p : Path) : Option (SortedSet Usr) :=
  (state.files.id? p).bind (fun id =>
    if state.files.path? id = some p then
      Entities.symbolsByFile state.graph.entities |>.get? id
    else none)

theorem symbolsAt_eq_some (h : state.files.Sound) {us : SortedSet Usr} : state.symbolsAt p = some us
      ↔ ∃ id, state.files.path? id = some p
        ∧ (Entities.symbolsByFile state.graph.entities).get? id = some us := by
  unfold symbolsAt
  constructor
  · intro hus
    obtain ⟨id, -, hus⟩ := Option.bind_eq_some_iff.mp hus
    split at hus
    · next hpath => exact ⟨id, hpath, hus⟩
    · cases hus
  · rintro ⟨id, hpath, hus⟩
    have hid : state.files.id? p = some id := get?_of_mem ((h.named p id).mpr hpath)
    rw [hid, Option.bind_some, if_pos hpath]
    exact hus

/-- **A file is listed when it has symbols**, under the one spelling of the file table. -/
theorem symbolsAt_isSome (h : state.files.Sound) : (state.symbolsAt p).isSome = true
      ↔ ∃ id usr, state.files.path? id = some p ∧ Entities.InFile state.graph.entities id usr := by
  constructor
  · intro hsome
    obtain ⟨us, hus⟩ := Option.isSome_iff_exists.mp hsome
    obtain ⟨id, hpath, hget⟩ := (symbolsAt_eq_some h).mp hus
    have hplaced : ¬ ∀ usr, ¬ Entities.InFile state.graph.entities id usr := by
      rw [← (Entities.get?_symbolsByFile _ id).1, hget]
      simp
    obtain ⟨usr, husr⟩ := Classical.not_forall.mp hplaced
    exact ⟨id, usr, hpath, Classical.not_not.mp husr⟩
  · rintro ⟨id, usr, hpath, husr⟩
    cases hget : (Entities.symbolsByFile state.graph.entities).get? id with
    | none => exact absurd husr ((Entities.get?_symbolsByFile _ id).1.mp hget usr)
    | some us => exact Option.isSome_iff_exists.mpr ⟨us, (symbolsAt_eq_some h).mpr ⟨id, hpath, hget⟩⟩

end IndexState

/-- What is under the key of a path after runs, the last run first. -/
def keyValue : List Run → Path → Option ByteArray
  | [], _ => none
  | r :: earlier, p =>
    ((r.saved.symbolsAt p).map symbolBytes).or
      (if p ∈ r.dirty.members then none else keyValue earlier p)

/-- A path is known to one of the runs. -/
def Mentions (runs : List Run) (p : Path) : Prop :=
  ∃ r ∈ runs, p ∈ r.dirty.members ∨ ∃ id, r.saved.files.path? id = some p

/-- Where values are files, the keys of some paths have files of their own: the digests in their
names differ. -/
def Separate (b : Backend) (K : Path → Prop) : Prop :=
  b = .filesystem → ∀ p q, K p → K q →
    Store.fileNameFor (symbols p) = Store.fileNameFor (symbols q) → p = q

section Keys

variable {path : Path} {top : Spot} {b : Backend} {st : Store} {s s' : Storage} {K : Path → Prop}
  {p : Path} {changed : String → Prop} {state : IndexState}

theorem apart_symbols (h : ∀ k, changed k → Store.Plain k) (p : Path) :
    Store.Apart b changed (symbols p) := by
  intro k hk
  have hne := symbols_ne_of_plain (h k hk) p
  exact ⟨fun heq => hne heq.symm, fun _ heq => Store.fileNameFor_ne (h k hk) hne heq.symm⟩

theorem Separate.apart (h : Separate b K) (hp : K p)
    (hchanged : ∀ k, changed k → ∃ q, K q ∧ q ≠ p ∧ k = symbols q) :
    Store.Apart b changed (symbols p) := by
  intro k hk
  obtain ⟨q, hq, hne, rfl⟩ := hchanged k hk
  refine ⟨fun heq => hne (symbols_inj.mp heq).symm, fun hb heq => ?_⟩
  exact hne (h hb p q hp hq heq).symm

theorem foldl_effect_symbolWrites (hsound : state.files.Sound) (value : Option ByteArray) :
    (Database.symbolWrites state.graph.entities state.files).foldl
        (Mutation.effect (symbols p)) value
      = ((state.symbolsAt p).map symbolBytes).or value := by
  have hwrites : ∀ m ∈ Database.symbolWrites state.graph.entities state.files,
      m.Touches (symbols p) → ∃ us, state.symbolsAt p = some us
        ∧ m = .write (symbols p) (.ofSet .str us) := by
    intro m hm htouches
    obtain ⟨id, us, q, hget, hpath, rfl⟩ := mem_symbolWrites.mp hm
    obtain rfl : p = q := symbols_inj.mp htouches
    exact ⟨us, (IndexState.symbolsAt_eq_some hsound).mpr ⟨id, hpath, hget⟩, rfl⟩
  cases hus : state.symbolsAt p with
  | none =>
    refine Mutation.foldl_effect_of_not_touches (fun m hm htouches => ?_) value
    obtain ⟨us, hsome, -⟩ := hwrites m hm htouches
    rw [hus] at hsome
    cases hsome
  | some us =>
    refine Mutation.foldl_effect_of_writes (fun m hm htouches => ?_) ?_ value
    · obtain ⟨us', hsome, rfl⟩ := hwrites m hm htouches
      rw [hus] at hsome
      rw [Option.some.inj hsome]
    · obtain ⟨id, hpath, hget⟩ := (IndexState.symbolsAt_eq_some hsound).mp hus
      exact ⟨_, mem_symbolWrites.mpr ⟨id, us, p, hget, hpath, rfl⟩, rfl⟩

theorem touches_saveMutations {m : Mutation} (hm : m ∈ Database.saveMutations state) :
    m ∈ Database.symbolWrites state.graph.entities state.files
      ∨ ∀ k, m.Touches k → Store.Plain k := by
  rw [saveMutations_eq] at hm
  simp only [mem_cons, List.mem_append, not_mem_nil, or_false] at hm
  rcases hm with rfl | hm | rfl | rfl | rfl
  · exact .inr (fun k hk => by rw [show k = _ from hk]; exact plain_filesByName)
  · exact .inl hm
  · exact .inr (fun k hk => by rw [show k = _ from hk]; exact plain_entities)
  · exact .inr (fun k hk => by rw [show k = _ from hk]; exact plain_sources)
  · exact .inr (fun k hk => by rw [show k = _ from hk]; exact plain_pch)

theorem not_touches_symbols {k : String} {j : Json} (hk : Store.Plain k) (p : Path) :
    ¬ (Mutation.write k j).Touches (symbols p) :=
  fun htouches => symbols_ne_of_plain hk p htouches.symm

theorem plain_of_listing {key : String} (h : Run.Listing key) : Store.Plain key := by
  rcases h with rfl | rfl <;> decide

/-- **A run writes the key of a file that has symbols, and leaves all others alone.** -/
theorem valueAt_of_writes {r : Run} (hsound : r.saved.files.Sound) (hsep : Separate b K)
    (hK : ∀ id q, r.saved.files.path? id = some q → K q) (hp : K p)
    (hready : Store.Changes path top b st (fun _ => False) s (r.readied s))
    (hwrites : r.Writes st s s') :
    st.valueAt s' (symbols p)
      = ((r.saved.symbolsAt p).map symbolBytes).or (st.valueAt s (symbols p)) := by
  obtain ⟨stored, hcommit, hlater⟩ := hwrites
  have hall := applyAll_of_commit hcommit
  have hlisting := hlater path top b (Mutation.changes_applyAll hready.serves hall).serves
  have hafter : st.valueAt s' (symbols p) = st.valueAt stored (symbols p) := by
    unfold Store.valueAt
    rw [hlisting.others _ (apart_symbols (fun _ => plain_of_listing) p)]
  have hbefore : st.valueAt (r.readied s) (symbols p) = st.valueAt s (symbols p) := by
    unfold Store.valueAt
    rw [hready.others _ (fun _ => False.elim)]
  have hapart : ∀ m ∈ Database.saveMutations r.saved,
      Store.Apart b (m.Others (symbols p)) (symbols p) := by
    intro m hm
    rcases touches_saveMutations hm with hm | hplain
    · obtain ⟨id, us, q, -, hpath, rfl⟩ := mem_symbolWrites.mp hm
      refine hsep.apart hp (fun k hk => ⟨q, hK id q hpath, ?_, hk.1⟩)
      rintro rfl
      exact hk.2 hk.1
    · exact apart_symbols (fun k hk => hplain k hk.1) p
  -- The mutations before and after the symbols of files are about plain keys.
  rw [hafter, Mutation.valueAt_applyAll hready.serves hall _ hapart, hbefore,
    saveMutations_eq, foldl_cons, foldl_append, Mutation.effect_of_not_touches,
    foldl_effect_symbolWrites hsound, Mutation.foldl_effect_of_not_touches]
  · intro m hm
    simp only [mem_cons, not_mem_nil, or_false] at hm
    rcases hm with rfl | rfl | rfl
    · exact not_touches_symbols plain_entities p
    · exact not_touches_symbols plain_sources p
    · exact not_touches_symbols plain_pch p
  · exact not_touches_symbols plain_filesByName p

/-- **An update removes the keys of the files that count as changed**, spelled as they are. -/
theorem valueAt_of_invalidation {m : Entities} {dirty : SortedSet Path} {files : FileTable}
    (hsep : Separate b K) (hK : ∀ q ∈ dirty.members, K q) (hp : K p)
    (hserves : Store.Serves path top b st s)
    (hcommit : Database.commit st s (Database.invalidation m dirty files).1 = (.ok (), s')) :
    st.valueAt s' (symbols p)
      = if p ∈ dirty.members then none else st.valueAt s (symbols p) := by
  have hall := applyAll_of_commit hcommit
  unfold Database.invalidation at hall
  split at hall
  · next hempty =>
    have hnone : p ∉ dirty.members := by
      unfold SortedSet.members SortedMap.keys
      rw [List.isEmpty_iff.mp hempty]
      simp
    cases hall
    rw [if_neg hnone]
  · rw [Mutation.valueAt_applyAll hserves hall]
    · simp only [foldl_cons, foldl_nil]
      rw [Mutation.effect_of_not_touches (not_touches_symbols plain_entities p)]
      simp only [Mutation.effect_remove, mem_map, symbols_inj, exists_eq_right]
    · intro mutation hmem
      simp only [mem_cons, not_mem_nil, or_false] at hmem
      rcases hmem with rfl | rfl
      · refine hsep.apart hp (fun k hk => ?_)
        obtain ⟨hk, hne⟩ := hk
        obtain ⟨q, hq, rfl⟩ := mem_map.mp hk
        exact ⟨q, hK q hq, fun heq => hne (by rw [heq]), rfl⟩
      · refine apart_symbols (fun k hk => ?_) p
        rw [show k = _ from hk.1]
        exact plain_entities

/-- **What is under the key of a file after any history.** -/
theorem History.valueAt_symbols {runs : List Run} (h : History path top b st s runs)
    (hsep : Separate b K) (hK : ∀ p, Mentions runs p → K p) (hp : K p) :
    st.valueAt s (symbols p) = keyValue runs p := by
  refine h.induct (motive := fun st s runs => (∀ p, Mentions runs p → K p) →
    st.valueAt s (symbols p) = keyValue runs p) ?_ ?_ ?_ hK
  · intro st made s' r hstart hdirty _ hempty hready hwrites hK
    have hsound := (Runs.build hstart hdirty).numbered.toSound
    rw [valueAt_of_writes hsound hsep (fun id q hq => hK q ⟨r, by simp, .inr ⟨id, hq⟩⟩) hp hready
      hwrites, hempty _ (symbols_ne_empty p)]
    show _ = Option.or _ (if _ then none else none)
    rw [ite_self]
  · intro st s emptied s' prev r earlier hholds ih hcont hcommit hready hwrites hK
    have hsound := (Runs.update hholds.chain hcont).numbered.toSound
    rw [valueAt_of_writes hsound hsep (fun id q hq => hK q ⟨r, by simp, .inr ⟨id, hq⟩⟩) hp hready
      hwrites, valueAt_of_invalidation hsep (fun q hq => hK q ⟨r, by simp, .inl hq⟩) hp
      hholds.serves hcommit, ih (fun q hq => ?_)]
    · rfl
    · obtain ⟨r', hr', hq⟩ := hq
      exact hK q ⟨r', mem_cons_of_mem _ hr', hq⟩
  · intro st s s' runs ih hchanges hK
    rw [← ih hK]
    unfold Store.valueAt
    rw [hchanges.others _ (fun _ => False.elim)]

end Keys

/-! ## Places that stay -/

namespace Entity

variable {e : Entity} {l : Location}

theorem mem_ownLocations :
    l ∈ e.ownLocations ↔ e.definition = some l ∨ e.declarations.contains l = true
      ∨ e.extraDeclarations.contains l = true ∨ e.references.contains l = true := by
  unfold ownLocations
  simp only [List.mem_append, Option.mem_toList, mem_members_iff, or_assoc]

theorem mem_ownLocations_pruneFiles {ids : SortedSet FileId} :
    l ∈ (e.pruneFiles ids).ownLocations ↔ l ∈ e.ownLocations ∧ ids.contains l.file = false := by
  rw [mem_ownLocations, mem_ownLocations]
  unfold pruneFiles
  simp only [Option.filter_eq_some_iff, contains_restrict, Bool.and_eq_true, Bool.not_eq_true']
  tauto

theorem isEmpty_iff : e.isEmpty = true ↔ ∀ l, l ∉ e.ownLocations := by
  unfold isEmpty
  simp only [Bool.and_eq_true, Option.isNone_iff_eq_none, SortedSet.isEmpty_iff, mem_ownLocations,
    not_or, Option.eq_none_iff_forall_ne_some, ← Bool.not_eq_true, forall_and, and_assoc]

theorem mem_ownLocations_applyTo (h : l ∈ e.ownLocations) (place : SourcePosition → Location)
    (op : EntityOp) : l ∈ (op.applyTo place e).ownLocations := by
  rw [mem_ownLocations] at h ⊢
  cases op with
  | declare _ _ _ location d =>
    have hdeclared : e.definition = some l ∨ e.declarations.contains l = true →
        (e.declareAt (place location) d).definition = some l
          ∨ (e.declareAt (place location) d).declarations.contains l = true := by
      unfold declareAt setDefinition addDeclaration
      cases d <;> cases hd : e.definition <;> grind [contains_add, contains_erase]
    rw [applyTo_declare]
    rcases h with h | h | h | h
    · exact (hdeclared (.inl h)).imp_right .inl
    · exact (hdeclared (.inr h)).imp_right .inl
    · exact .inr (.inr (.inl h))
    · exact .inr (.inr (.inr h))
  | extraDeclaration =>
    simp only [EntityOp.applyTo, contains_add, Bool.or_eq_true]
    tauto
  | synthesize => exact h

theorem mem_ownLocations_applyAll (h : l ∈ e.ownLocations) (place : SourcePosition → Location)
    (ops : List EntityOp) : l ∈ (e.applyAll place ops).ownLocations := by
  induction ops generalizing e with
  | nil => exact h
  | cons op _ ih => exact ih (mem_ownLocations_applyTo h place op)

theorem mem_ownLocations_reconciled (h : l ∈ e.ownLocations) (g : Graph) (usr : Usr) :
    l ∈ (g.reconciled usr e).ownLocations := by
  rw [mem_ownLocations] at h ⊢
  unfold Graph.reconciled
  simp only [contains_addAll]
  tauto

end Entity

/-- **Pruning takes away the places in some files, and with them the symbols that have no other.** -/
theorem Entities.inFile_pruneFiles {m : Entities} {ids : SortedSet FileId} {id : FileId}
    {usr : Usr} :
    (m.pruneFiles ids).InFile id usr ↔ m.InFile id usr ∧ ids.contains id = false := by
  unfold InFile pruneFiles
  simp only [get?_filter, get?_mapValues, Option.filter_eq_some_iff,
    Option.map_eq_some_iff, Bool.not_eq_true', ← Bool.not_eq_true (Entity.isEmpty _),
    Entity.isEmpty_iff]
  constructor
  · rintro ⟨e', ⟨⟨e, hget, rfl⟩, -⟩, l, hl, rfl⟩
    obtain ⟨hl, hids⟩ := Entity.mem_ownLocations_pruneFiles.mp hl
    exact ⟨⟨e, hget, l, hl, rfl⟩, hids⟩
  · rintro ⟨⟨e, hget, l, hl, rfl⟩, hids⟩
    have hkept := Entity.mem_ownLocations_pruneFiles.mpr ⟨hl, hids⟩
    exact ⟨_, ⟨⟨e, hget, rfl⟩, fun hall => hall l hkept⟩, l, hkept, rfl⟩

namespace Run

theorem inFile_saved (r : Run) {id : FileId} {usr : Usr}
    (h : Entities.InFile r.start.graph.entities id usr) :
    Entities.InFile r.saved.graph.entities id usr := by
  obtain ⟨e, hget, l, hl, hfile⟩ := h
  obtain ⟨i, hall, hgraph, -⟩ := r.exists_integrated
  have hrecord := ((IndexState.integrateAll_spec hall).2 i.files (.refl _)).1 usr
  rw [hget, EntityOp.actAll_some] at hrecord
  have hsaved : r.saved.graph.entities.get? usr
      = (i.graph.entities.get? usr).map (i.graph.reconciled usr) := by
    rw [hgraph]
    exact Graph.get?_reconcile _ usr
  rw [hrecord, Option.map_some] at hsaved
  exact ⟨_, hsaved, l, Entity.mem_ownLocations_reconciled
    (Entity.mem_ownLocations_applyAll hl _ _) _ _, hfile⟩

end Run

variable {p : Path} {r : Run} {earlier runs : List Run}

theorem FileTable.Grows.path? {t t' : FileTable} (h : t.Grows t') (ht : t.Numbered) {id : FileId}
    (hp : t.path? id = some p) : t'.path? id = some p := by
  induction h with
  | refl => exact hp
  | @intern t₁ t₂ q id' hgrows hone ih =>
    have hnumbered := hgrows.numbered ht
    refine ((hnumbered.intern hone).named p id).mp ?_
    have hmem := (hnumbered.named p id).mpr ih
    rcases FileTable.intern_cases hone with ⟨-, rfl⟩ | ⟨hnone, -, rfl⟩
    · exact hmem
    · exact (mem_toList_insert_of_new (contains_eq_false_iff.mpr hnone) ..).mpr (.inl hmem)

/-! ## Keys that are left over -/

/-- The key of a file without symbols is still there: an earlier run has left it, and the last one
did not remove it. -/
def LeftOver : List Run → Path → Prop
  | [], _ => False
  | r :: earlier, p =>
    r.saved.symbolsAt p = none ∧ p ∉ r.dirty.members ∧ (keyValue earlier p).isSome = true

/-- A file counts as changed in a run under another spelling than that of its key. -/
def Misspelled (r : Run) (p : Path) : Prop :=
  ∃ d ∈ r.dirty.members, d.components = p.components ∧ d ≠ p

theorem keyValue_isSome : (keyValue (r :: earlier) p).isSome = true
      ↔ (r.saved.symbolsAt p).isSome = true ∨ LeftOver (r :: earlier) p := by
  unfold keyValue LeftOver
  cases hus : r.saved.symbolsAt p with
  | some => simp
  | none => by_cases hp : p ∈ r.dirty.members <;> simp [hus, hp]

theorem contains_dirty_of_lost {prev : Run} (h : Runs (prev :: earlier)) (hcont : prev.Continues r)
    (hbefore : (prev.saved.symbolsAt p).isSome = true) (hafter : r.saved.symbolsAt p = none) :
    ∃ d ∈ r.dirty.members, d.components = p.components := by
  have hnumbered := h.numbered
  have hnumbered' := (Runs.update h hcont).numbered
  obtain ⟨id, usr, hpath, hplaced⟩ := (IndexState.symbolsAt_isSome hnumbered.toSound).mp hbefore
  refine Classical.byContradiction (fun hnot => ?_)
  have hfiles := hcont.files
  have hstart : Entities.InFile r.start.graph.entities id usr := by
    rw [hcont.start]
    show Entities.InFile (Database.invalidation _ _ _).2 id usr
    unfold Database.invalidation
    split
    · exact hplaced
    · refine Entities.inFile_pruneFiles.mpr ⟨hplaced, ?_⟩
      rw [← Bool.not_eq_true, contains_ofList]
      rintro ⟨id', hid', heq⟩
      obtain rfl : id = id' := Std.compare_eq_iff_eq.mp heq
      obtain ⟨d, hd, hid⟩ := mem_filterMap.mp hid'
      refine hnot ⟨d, hd, ?_⟩
      have hspelled := hnumbered.toSound.path?_of_id? hid
      rw [hpath] at hspelled
      exact (Option.some.inj hspelled).symm
  have hpath' : r.saved.files.path? id = some p := by
    refine r.grows_files.path? ?_ ?_
    · rw [hfiles]; exact hnumbered
    · rw [hfiles]; exact hpath
  have hsome := (IndexState.symbolsAt_isSome hnumbered'.toSound).mpr
    ⟨id, usr, hpath', r.inFile_saved hstart⟩
  rw [hafter] at hsome
  cases hsome

/-- **A key is left over only when its file was changed under another spelling.** -/
theorem misspelled_of_leftOver (h : Runs runs) (hp : LeftOver runs p) :
    ∃ r ∈ runs, Misspelled r p := by
  induction h with
  | build => exact absurd hp.2.2 (by simp [keyValue])
  | @update r prev earlier hprev hcont ih =>
    obtain ⟨hnone, hnot, hsome⟩ := hp
    rcases keyValue_isSome.mp hsome with hlisted | hleft
    · obtain ⟨d, hd, hsame⟩ := contains_dirty_of_lost hprev hcont hlisted hnone
      exact ⟨r, mem_cons_self, d, hd, hsame, fun heq => hnot (heq ▸ hd)⟩
    · obtain ⟨r', hr', hmisspelled⟩ := ih hleft
      exact ⟨r', mem_cons_of_mem _ hr', hmisspelled⟩

theorem mentions_of_keyValue (h : Runs runs) (hp : (keyValue runs p).isSome = true) :
    Mentions runs p := by
  have hlisted : ∀ {r : Run} {earlier : List Run}, Runs (r :: earlier) →
      (r.saved.symbolsAt p).isSome = true → Mentions (r :: earlier) p := by
    intro r earlier hruns hsome
    obtain ⟨id, -, hpath, -⟩ := (IndexState.symbolsAt_isSome hruns.numbered.toSound).mp hsome
    exact ⟨r, mem_cons_self, .inr ⟨id, hpath⟩⟩
  induction h with
  | build hstart hdirty =>
    rcases keyValue_isSome.mp hp with hsome | hleft
    · exact hlisted (.build hstart hdirty) hsome
    · exact absurd hleft.2.2 (by simp [keyValue])
  | update hprev hcont ih =>
    rcases keyValue_isSome.mp hp with hsome | hleft
    · exact hlisted (.update hprev hcont) hsome
    · obtain ⟨r', hr', hmention⟩ := ih hleft.2.2
      exact ⟨r', mem_cons_of_mem _ hr', hmention⟩

/-! ## Which keys there are -/

/-- Of the paths in `K` those have a key that are the spelling of a file with symbols, and the value
of the key is the set of these symbols. -/
structure KeysExact (st : Store) (s : Storage) (state : IndexState) (K : Path → Prop) : Prop where
  keys : ∀ p, K p → ((st.valueAt s (symbols p)).isSome = true
    ↔ ∃ id usr, state.files.path? id = some p ∧ Entities.InFile state.graph.entities id usr)
  values : ∀ p id, K p → state.files.path? id = some p →
    (∃ usr, Entities.InFile state.graph.entities id usr) →
    ∃ us, Database.readValue st s (symbols p) ∅ (Json.set? Json.str?) = .ok us
      ∧ ∀ usr, us.contains usr = true ↔ Entities.InFile state.graph.entities id usr

namespace History

variable {path : Path} {top : Spot} {b : Backend} {st : Store} {s : Storage} {K : Path → Prop}
  {r : Run} {earlier : List Run}

theorem readValue_symbols (h : History path top b st s (r :: earlier)) (hsep : Separate b K)
    (hK : ∀ p, Mentions (r :: earlier) p → K p) (hp : K p) {id : FileId}
    (hpath : r.saved.files.path? id = some p)
    (hplaced : ∃ usr, Entities.InFile r.saved.graph.entities id usr) :
    ∃ us, Database.readValue st s (symbols p) ∅ (Json.set? Json.str?) = .ok us
      ∧ ∀ usr, us.contains usr = true ↔ Entities.InFile r.saved.graph.entities id usr := by
  have hsound := h.holds.chain.numbered.toSound
  obtain ⟨hnone, hsome⟩ := Entities.get?_symbolsByFile r.saved.graph.entities id
  cases hget : (Entities.symbolsByFile r.saved.graph.entities).get? id with
  | none =>
    obtain ⟨usr, husr⟩ := hplaced
    exact absurd husr (hnone.mp hget usr)
  | some us =>
    refine ⟨us, ?_, hsome us hget⟩
    have hat := (IndexState.symbolsAt_eq_some hsound).mpr ⟨id, hpath, hget⟩
    have hvalue := h.valueAt_symbols hsep hK hp
    unfold keyValue at hvalue
    rw [hat, Option.map_some, Option.some_or] at hvalue
    exact readValue_of_valueAt Json.faithful_str.set (by decide) hvalue

/-- **The keys of files are exact unless one is left over.** After any history, on either kind of
store, the database holds what the last run has written; every file with symbols has its key, and
under it exactly these symbols; and there are other keys only when one was left over. A key is left
over only by a run in which its file counts as changed under another spelling. -/
theorem symbols_exact_iff (h : History path top b st s (r :: earlier)) (hsep : Separate b K)
    (hK : ∀ p, Mentions (r :: earlier) p → K p) :
    Database.Stores st s (Database.loadedOf r.saved) r.saved.graph.entities
      ∧ (KeysExact st s r.saved K ↔ ∀ p, ¬ LeftOver (r :: earlier) p)
      ∧ ∀ p, LeftOver (r :: earlier) p → ∃ r' ∈ r :: earlier, Misspelled r' p := by
  have hruns := h.holds.chain
  have hsound := hruns.numbered.toSound
  -- A key is there when its file has symbols or when it is left over.
  have hkeys : ∀ p, K p → ((st.valueAt s (DbKey.symbols p)).isSome = true
      ↔ (∃ id usr, r.saved.files.path? id = some p
          ∧ Entities.InFile r.saved.graph.entities id usr) ∨ LeftOver (r :: earlier) p) := by
    intro p hp
    rw [h.valueAt_symbols hsep hK hp, keyValue_isSome, IndexState.symbolsAt_isSome hsound]
  refine ⟨h.holds.stores r earlier rfl, ⟨fun hexact p hleft => ?_, fun hnone => ?_⟩,
    fun p => misspelled_of_leftOver hruns⟩
  · have hp : K p := hK p (mentions_of_keyValue hruns (keyValue_isSome.mpr (.inr hleft)))
    have hlisted := (hexact.keys p hp).mp ((hkeys p hp).mpr (.inr hleft))
    rw [← IndexState.symbolsAt_isSome hsound, hleft.1] at hlisted
    cases hlisted
  · refine ⟨fun p hp => ?_, fun p id hp hpath hplaced => ?_⟩
    · rw [hkeys p hp]
      exact ⟨fun hor => hor.resolve_right (hnone p), .inl⟩
    · exact h.readValue_symbols hsep hK hp hpath hplaced

/-- A unit that includes a header. The front end tells of a definition in the header, which it spells
otherwise there; then the definition is taken out and the header gets a new time. -/
def respelled : Episode :=
  let position (p : Path) : SourcePosition := ⟨p, 1, 1⟩
  let included : Event := .inclusion
    { includedFile := ⟨"/src/h.h"⟩, inclusionStack := [position ⟨"/src/a.c"⟩] }
  let defined : Event := .declaration
    { cursor := { usr := "f", kind := .function, displayName := "f"
                  location := position ⟨"/src//h.h"⟩, semanticParents := [] }
      location := position ⟨"/src//h.h"⟩, isDefinition := true, semanticContainer := none
      overridden := [], childReferences := [] }
  { invocations := [Invocation.forSource ⟨"/src/a.c"⟩]
    first := [(⟨"/src/a.c"⟩, { events := [included, defined] })]
    before := [(⟨"/src/a.c"⟩, { micros := 1000 }), (⟨"/src/h.h"⟩, { micros := 1000 })]
    second := [(⟨"/src/a.c"⟩, { events := [included] })]
    after := [(⟨"/src/a.c"⟩, { micros := 1000 }), (⟨"/src/h.h"⟩, { micros := 2000 })] }

theorem succeeds_respelled : respelled.succeeds = true := by decide +kernel

theorem symbols_exact_iff_respelled :
    History ⟨"/db"⟩ [] .memory respelled.opened.1 respelled.updated.2.storage
        [respelled.updateRun, respelled.buildRun]
      ∧ Separate .memory (fun _ => True)
      ∧ Database.Stores respelled.opened.1 respelled.updated.2.storage
          (Database.loadedOf respelled.updateRun.saved) respelled.updateRun.saved.graph.entities
      ∧ (KeysExact respelled.opened.1 respelled.updated.2.storage respelled.updateRun.saved
            (fun _ => True)
          ↔ ∀ p, ¬ LeftOver [respelled.updateRun, respelled.buildRun] p)
      ∧ ∀ p, LeftOver [respelled.updateRun, respelled.buildRun] p →
          ∃ r ∈ [respelled.updateRun, respelled.buildRun], Misspelled r p := by
  obtain ⟨-, -, h⟩ := Episode.history succeeds_respelled
  have hsep : Separate .memory (fun _ => True) := fun hb => absurd hb (by decide)
  exact ⟨h, hsep, symbols_exact_iff h hsep (fun _ _ => trivial)⟩

/-- The key of the header is left over: both runs succeed, and the database still has the key though
no symbol that is stored has a place in the header. -/
theorem update_leaves_key : (∃ b, respelled.built.1 = .ok b) ∧ (∃ u, respelled.updated.1 = .ok u)
      ∧ ∃ loaded m, Database.Stores respelled.opened.1 respelled.updated.2.storage loaded m
        ∧ loaded.files.path? ⟨1⟩ = some ⟨"/src//h.h"⟩ ∧ (∀ usr, ¬ Entities.InFile m ⟨1⟩ usr)
        ∧ (respelled.opened.1.valueAt respelled.updated.2.storage
            (DbKey.symbols ⟨"/src//h.h"⟩)).isSome = true := by
  obtain ⟨hbuilt, ⟨u, hu, -⟩, h⟩ := Episode.history succeeds_respelled
  have hnone : (Entities.symbolsByFile respelled.updateRun.saved.graph.entities).get? ⟨1⟩ = none := by
    decide +kernel
  have hkey : (keyValue [respelled.updateRun, respelled.buildRun] ⟨"/src//h.h"⟩).isSome = true := by
    decide +kernel
  refine ⟨hbuilt, ⟨u, hu⟩, _, _, h.holds.stores _ _ rfl, ?_,
    (Entities.get?_symbolsByFile _ ⟨1⟩).1.mp hnone, ?_⟩
  · rw [files_loadedOf]
    decide +kernel
  · rw [h.valueAt_symbols (K := fun _ => True) (fun hb => absurd hb (by decide)) (fun _ _ => trivial) trivial]
    exact hkey

end History

end SymbolIndex
