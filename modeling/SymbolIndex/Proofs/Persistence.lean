import SymbolIndex.Proofs.StoreLaws
import SymbolIndex.Proofs.StoredForm

/-!
# What a run leaves in its database

Every change to a database is a list of mutations. Seen from one key, a list of mutations that all
succeed turns the value that was there into another, and no other key has a say in it: `effect` is
what a mutation does to the value of a key. So the index that was written is the index that is
loaded, and for the symbols of a file it is enough to look for the mutations of its key.
-/

namespace SymbolIndex

open List Store

namespace Store

/-- What is stored under a key. -/
def valueAt (st : Store) (s : Storage) (key : String) : Option ByteArray :=
  (st.read s key).toOption.join

theorem read_of_valueAt {st : Store} {s : Storage} {key : String} {value : ByteArray}
    (h : st.valueAt s key = some value) : st.read s key = .ok (some value) := by
  unfold valueAt at h
  cases hread : st.read s key with
  | error => simp [hread, Except.toOption] at h
  | ok =>
    simp only [hread, Except.toOption, Option.join_some] at h
    rw [h]

theorem valueAt_of_read {st : Store} {s : Storage} {key : String} {value : Option ByteArray}
    (h : st.read s key = .ok value) : st.valueAt s key = value := by
  unfold valueAt
  simp [h, Except.toOption]

end Store

namespace Mutation

/-- A mutation is about a key. -/
def Touches (m : Mutation) (key : String) : Prop :=
  match m with
  | .write k _ => key = k
  | .remove ks => key ∈ ks

/-- What a mutation makes of a value. -/
def effect (key : String) (value : Option ByteArray) (m : Mutation) : Option ByteArray :=
  match m with
  | .write k j => if key = k then some j.render.toUTF8 else value
  | .remove ks => if key ∈ ks then none else value

@[simp] theorem effect_write (key k : String) (value : Option ByteArray) (j : Json) :
    (write k j).effect key value = if key = k then some j.render.toUTF8 else value := rfl

@[simp] theorem effect_remove (key : String) (value : Option ByteArray) (ks : List String) :
    (remove ks).effect key value = if key ∈ ks then none else value := rfl

theorem effect_of_not_touches {m : Mutation} {key : String} (h : ¬ m.Touches key)
    (value : Option ByteArray) : m.effect key value = value := by
  cases m with
  | write | remove => exact if_neg h

def Others (m : Mutation) (key : String) (k : String) : Prop := m.Touches k ∧ k ≠ key

section Laws

variable {path : Path} {top : Spot} {b : Backend} {st : Store} {s s' : Storage}

theorem changes_apply {m : Mutation} (h : Store.Serves path top b st s)
    (hok : m.apply st s = (.ok (), s')) : Store.Changes path top b st m.Touches s s' := by
  cases m with
  | write =>
    simp only [apply] at hok
    split at hok
    · next s₁ hwrite =>
      cases hok
      exact (h.write hwrite).1
    · cases hok
  | remove =>
    simp only [apply] at hok
    split at hok
    · next n s₁ hremove =>
      cases hok
      exact (h.invalidate hremove).1
    · cases hok

theorem changes_applyAll {ms : List Mutation} (h : Store.Serves path top b st s)
    (hok : applyAll st s ms = (.ok (), s')) :
    Store.Changes path top b st (fun k => ∃ m ∈ ms, m.Touches k) s s' := by
  induction ms generalizing s with
  | nil =>
    cases hok
    exact .refl h
  | cons m _ ih =>
    unfold applyAll at hok
    split at hok
    · next s₁ hone =>
      have hchanges := changes_apply h hone
      refine (hchanges.mono fun k hk => ⟨m, mem_cons_self, hk⟩).trans ?_
      refine (ih hchanges.serves hok).mono fun k hk => ?_
      obtain ⟨m', hm', hk⟩ := hk
      exact ⟨m', mem_cons_of_mem _ hm', hk⟩
    · cases hok

/-- **A mutation does to the value of a key what it says.** -/
theorem valueAt_apply {m : Mutation} (h : Store.Serves path top b st s)
    (hok : m.apply st s = (.ok (), s')) (key : String) (hkey : Store.Apart b (m.Others key) key) :
    st.valueAt s' key = m.effect key (st.valueAt s key) := by
  by_cases htouches : m.Touches key
  · cases m with
    | write k =>
      obtain rfl : key = k := htouches
      simp only [apply] at hok
      split at hok
      · next s₁ hwrite =>
        cases hok
        rw [effect_write, if_pos rfl]
        exact valueAt_of_read (h.write hwrite).2
      · cases hok
    | remove ks =>
      have hmem : key ∈ ks := htouches
      simp only [apply] at hok
      split at hok
      · next n s₁ hremove =>
        cases hok
        rw [effect_remove, if_pos hmem]
        exact valueAt_of_read ((h.invalidate hremove).2 key hmem)
      · cases hok
  · -- A key that the mutation is not about is apart from all of its keys.
    have hapart : Store.Apart b m.Touches key :=
      fun k hk => hkey k ⟨hk, fun heq => htouches (heq ▸ hk)⟩
    rw [effect_of_not_touches htouches]
    unfold Store.valueAt
    rw [(changes_apply h hok).others key hapart]

theorem valueAt_applyAll {ms : List Mutation} (h : Store.Serves path top b st s)
    (hok : applyAll st s ms = (.ok (), s')) (key : String)
    (hkey : ∀ m ∈ ms, Store.Apart b (m.Others key) key) :
    st.valueAt s' key = ms.foldl (effect key) (st.valueAt s key) := by
  induction ms generalizing s with
  | nil =>
    cases hok
    rfl
  | cons m _ ih =>
    unfold applyAll at hok
    split at hok
    · next s₁ hone =>
      rw [ih (changes_apply h hone).serves hok (fun m' hm' => hkey m' (mem_cons_of_mem _ hm')),
        foldl_cons, valueAt_apply h hone key (hkey m mem_cons_self)]
    · cases hok

end Laws

theorem foldl_effect_of_not_touches {ms : List Mutation} {key : String}
    (h : ∀ m ∈ ms, ¬ m.Touches key) (value : Option ByteArray) :
    ms.foldl (effect key) value = value := by
  induction ms generalizing value with
  | nil => rfl
  | cons m _ ih =>
    rw [foldl_cons, effect_of_not_touches (h m mem_cons_self)]
    exact ih (fun m' hm' => h m' (mem_cons_of_mem _ hm')) value

theorem foldl_effect_of_writes {ms : List Mutation} {key : String} {j : Json}
    (hall : ∀ m ∈ ms, m.Touches key → m = .write key j) (hsome : ∃ m ∈ ms, m.Touches key)
    (value : Option ByteArray) : ms.foldl (effect key) value = some j.render.toUTF8 := by
  induction ms generalizing value with
  | nil => simp at hsome
  | cons m rest ih =>
    rw [foldl_cons]
    by_cases hrest : ∃ m' ∈ rest, m'.Touches key
    · exact ih (fun m' hm' => hall m' (mem_cons_of_mem _ hm')) hrest _
    · have hnone : ∀ m' ∈ rest, ¬ m'.Touches key := fun m' hm' h => hrest ⟨m', hm', h⟩
      have hm : m.Touches key := by
        obtain ⟨m', hm', htouches⟩ := hsome
        rcases mem_cons.mp hm' with rfl | hm'
        · exact htouches
        · exact absurd htouches (hnone m' hm')
      rw [foldl_effect_of_not_touches hnone, hall m mem_cons_self hm, effect_write, if_pos rfl]

theorem apart_of_plain (b : Backend) {key : String} (h : Store.Plain key) (m : Mutation) :
    Store.Apart b (m.Others key) key :=
  Store.apart_of_plain h (fun hk => hk.2 rfl)

end Mutation

namespace Database

variable {path : Path} {top : Spot} {b : Backend} {st : Store} {s s' : Storage}

theorem applyAll_of_commit {ms : List Mutation} (hok : commit st s ms = (.ok (), s')) :
    Mutation.applyAll st s ms = (.ok (), s') := by
  unfold commit at hok
  split at hok
  · next s₁ hall =>
    cases hok
    exact hall
  · cases hok

theorem readValue_of_valueAt {key : String} {default value : α} {depth : Nat} {encode : α → Json}
    {decode? : Json → Option α} (hform : Json.Faithful depth encode decode?)
    (hdepth : depth ≤ Json.maxDepth) (h : st.valueAt s key = some (encode value).render.toUTF8) :
    readValue st s key default decode? = .ok value := by
  unfold readValue
  rw [read_of_valueAt h]
  simp only [hform.readBytes? hdepth]

/-! ## The keys of an index -/

theorem plain_sources : Store.Plain DbKey.sources := by decide
theorem plain_pch : Store.Plain DbKey.pch := by decide
theorem plain_filesByName : Store.Plain DbKey.filesByName := by decide
theorem plain_entities : Store.Plain DbKey.entities := by decide

theorem symbols_ne_of_plain {key : String} (h : Store.Plain key) (p : Path) :
    key ≠ DbKey.symbols p := by
  rintro rfl
  refine not_mem_of_plain h (c := ':') (by decide) ?_
  unfold DbKey.symbols
  rw [String.toList_append]
  exact mem_append_left _ (by decide)

theorem symbols_ne_empty (p : Path) : DbKey.symbols p ≠ "" := by
  intro heq
  exact symbols_ne_of_plain (by decide) p heq.symm

theorem symbols_inj {p q : Path} : DbKey.symbols p = DbKey.symbols q ↔ p = q := by
  refine ⟨fun h => ?_, fun h => by rw [h]⟩
  have hlist := congrArg String.toList h
  simp only [DbKey.symbols, String.toList_append] at hlist
  have htext : p.text = q.text := String.toList_inj.mp (append_cancel_left hlist)
  cases p with
  | mk => exact congrArg Path.mk htext

/-! ## Writing and loading -/

/-- What a database holds of an index, the symbols of files apart. -/
structure Stores (st : Store) (s : Storage) (loaded : Loaded) (m : Entities) : Prop where
  load : Database.load st s = .ok loaded
  entities : readValue st s DbKey.entities ∅ Entities.decode? = .ok m

/-- The keys of the parts of an index. -/
def indexKeys : List String := [DbKey.sources, DbKey.pch, DbKey.filesByName, DbKey.entities]

theorem plain_of_mem_indexKeys : ∀ key ∈ indexKeys, Store.Plain key := by decide

theorem Stores.unique {loaded loaded' : Loaded} {m m' : Entities} (h : Stores st s loaded m)
    (h' : Stores st s loaded' m') : loaded = loaded' ∧ m = m' :=
  ⟨Except.ok.inj (h.load.symm.trans h'.load), Except.ok.inj (h.entities.symm.trans h'.entities)⟩

/-- What is loaded when a state was saved. -/
def loadedOf (state : IndexState) : Loaded :=
  { sources := state.sources, pch := state.pch.toMap, files := state.files }

@[simp] theorem sources_loadedOf (state : IndexState) :
    (loadedOf state).sources = state.sources := rfl

@[simp] theorem files_loadedOf (state : IndexState) : (loadedOf state).files = state.files := rfl

def symbolWrites (m : Entities) (files : FileTable) : List Mutation :=
  m.symbolsByFile.toList.filterMap (fun e =>
    (files.path? e.1).map (fun p => .write (DbKey.symbols p) (.ofSet .str e.2)))

theorem saveMutations_eq (state : IndexState) : saveMutations state = fileTableMutation state.files
      :: (symbolWrites state.graph.entities state.files
        ++ [.write DbKey.entities (Entities.encode state.graph.entities),
          sourcesMutation state.sources, pchMutation state.pch.toMap]) := by
  simp [saveMutations, entitiesMutations, symbolWrites]

theorem mem_symbolWrites {m : Entities} {files : FileTable} {mutation : Mutation} :
    mutation ∈ symbolWrites m files ↔ ∃ id us p, m.symbolsByFile.get? id = some us
      ∧ files.path? id = some p ∧ mutation = .write (DbKey.symbols p) (.ofSet .str us) := by
  unfold symbolWrites
  simp only [mem_filterMap, Option.map_eq_some_iff]
  constructor
  · rintro ⟨⟨id, us⟩, he, p, hp, rfl⟩
    exact ⟨id, us, p, SortedMap.mem_toList_iff.mp he, hp, rfl⟩
  · rintro ⟨id, us, p, he, hp, rfl⟩
    exact ⟨(id, us), SortedMap.mem_toList_iff.mpr he, p, hp, rfl⟩

theorem not_touches_symbolWrites {m : Entities} {files : FileTable} {key : String}
    (h : Store.Plain key) {mutation : Mutation} (hmem : mutation ∈ symbolWrites m files) :
    ¬ mutation.Touches key := by
  obtain ⟨id, us, p, -, -, rfl⟩ := mem_symbolWrites.mp hmem
  exact symbols_ne_of_plain h p

/-! ## Writing part by part -/

/-- A part of an index that is stored under a key of its own. -/
inductive Part where
  | sources
  | pch
  | files
  | entities
deriving DecidableEq

namespace Part

variable (loaded : Loaded) (m : Entities)

def key : Part → String
  | sources => DbKey.sources
  | pch => DbKey.pch
  | files => DbKey.filesByName
  | entities => DbKey.entities

def document : Part → Json
  | sources => .ofList Source.encode loaded.sources
  | pch => .ofMap id PchEntry.encode loaded.pch
  | files => loaded.files.encode
  | entities => Entities.encode m

def mutations : Part → List Mutation
  | sources => [sourcesMutation loaded.sources]
  | pch => [pchMutation loaded.pch]
  | files => [fileTableMutation loaded.files]
  | entities => entitiesMutations m loaded.files

def writes (parts : List Part) : List Mutation := parts.flatMap (mutations loaded m)

theorem plain_key (part : Part) : Store.Plain part.key := by
  cases part <;> decide

theorem write_mem_mutations (part : Part) :
    .write part.key (part.document loaded m) ∈ part.mutations loaded m := by
  cases part with
  | entities => exact mem_append_right _ mem_cons_self
  | _ => exact mem_cons_self

theorem key_inj {part other : Part} (h : part.key = other.key) : part = other := by
  cases part <;> cases other <;> first | rfl | exact absurd h (by decide)

theorem mem_indexKeys (part : Part) : part.key ∈ indexKeys := by
  cases part <;> decide

theorem eq_write_of_touches {part other : Part} {mutation : Mutation}
    (hmem : mutation ∈ other.mutations loaded m) (htouches : mutation.Touches part.key) :
    mutation = .write part.key (part.document loaded m) := by
  -- a part is its own only writer, as the keys of different parts differ
  have hwrite : ∀ {key : String} {j : Json}, mutation = .write key j →
      (key = other.key ∧ j = other.document loaded m) →
      mutation = .write part.key (part.document loaded m) := by
    rintro key j rfl ⟨rfl, rfl⟩
    rw [key_inj htouches]
  cases other with
  | entities =>
    rcases mem_append.mp hmem with hsymbols | hmem
    · exact absurd htouches (not_touches_symbolWrites part.plain_key hsymbols)
    · exact hwrite (mem_singleton.mp hmem) ⟨rfl, rfl⟩
  | _ => exact hwrite (mem_singleton.mp hmem) ⟨rfl, rfl⟩

variable {loaded m}

def Reads (st : Store) (s : Storage) (loaded : Loaded) (m : Entities) : Part → Prop
  | sources => readValue st s DbKey.sources [] (Json.list? Source.decode?) = .ok loaded.sources
  | pch => readValue st s DbKey.pch ∅ (Json.map? id PchEntry.decode?) = .ok loaded.pch
  | files => readValue st s DbKey.filesByName {} FileTable.decode? = .ok loaded.files
  | entities => readValue st s DbKey.entities ∅ Entities.decode? = .ok m

theorem Reads.congr {part : Part} (h : part.Reads st s loaded m)
    (hread : st.read s' part.key = st.read s part.key) : part.Reads st s' loaded m := by
  cases part <;> simp only [key] at hread <;> simp only [Reads, readValue] at h ⊢ <;> rwa [hread]

theorem reads_of_valueAt {part : Part}
    (hfiles : part = .files → FileTable.decode? loaded.files.encode = some loaded.files)
    (h : st.valueAt s part.key = some (part.document loaded m).render.toUTF8) :
    part.Reads st s loaded m := by
  cases part with
  | sources => exact readValue_of_valueAt Source.faithful.list (by decide) h
  | pch => exact readValue_of_valueAt (PchEntry.faithful.map (fun _ => rfl)) (by decide) h
  | entities => exact readValue_of_valueAt Entities.faithful (by decide) h
  | files =>
    have hform : Json.Fits Json.maxDepth loaded.files.encode :=
      loaded.files.fits_encode.mono (by decide)
    have hread := read_of_valueAt h
    simp only [key, document] at hread
    simp only [Reads, readValue, hread, hform.readBytes?, Option.bind_some, hfiles rfl]

end Part

section Parts

variable {loaded : Loaded} {m : Entities} {parts : List Part}

theorem stores_iff : Stores st s loaded m ↔ ∀ part : Part, part.Reads st s loaded m := by
  constructor
  · rintro ⟨hload, hentities⟩ part
    unfold Database.load at hload
    obtain ⟨sources, hsources, hload⟩ := bind_eq_ok_iff.mp hload
    obtain ⟨pch, hpch, hload⟩ := bind_eq_ok_iff.mp hload
    obtain ⟨files, hfiles, hload⟩ := bind_eq_ok_iff.mp hload
    cases hload
    cases part <;> assumption
  · intro h
    refine ⟨?_, h .entities⟩
    unfold Database.load
    rw [h .sources, h .pch, h .files]
    rfl

theorem Stores.changes {changed : String → Prop} (h : Stores st s loaded m)
    (hchanges : Store.Changes path top b st changed s s')
    (hindex : ∀ key ∈ indexKeys, ¬ changed key) : Stores st s' loaded m := by
  refine stores_iff.mpr fun part => (stores_iff.mp h part).congr ?_
  exact hchanges.others _ (Store.apart_of_plain part.plain_key (hindex _ part.mem_indexKeys))

theorem valueAt_of_writes (h : Store.Serves path top b st s)
    (hok : commit st s (Part.writes loaded m parts) = (.ok (), s')) {part : Part}
    (hpart : part ∈ parts) :
    st.valueAt s' part.key = some (part.document loaded m).render.toUTF8 := by
  rw [Mutation.valueAt_applyAll h (applyAll_of_commit hok) part.key
    (fun mutation _ => mutation.apart_of_plain b part.plain_key)]
  refine Mutation.foldl_effect_of_writes (fun mutation hmem htouches => ?_) ?_ _
  · obtain ⟨other, -, hmem⟩ := mem_flatMap.mp hmem
    exact Part.eq_write_of_touches loaded m hmem htouches
  · exact ⟨_, mem_flatMap.mpr ⟨part, hpart, part.write_mem_mutations loaded m⟩, rfl⟩

/-- **What is written part by part is loaded.** -/
theorem stores_of_writes (h : Store.Serves path top b st s) (hfiles : loaded.files.Sound)
    (hparts : ∀ part, part ∈ parts) (hok : commit st s (Part.writes loaded m parts) = (.ok (), s')) :
    Stores st s' loaded m :=
  stores_iff.mpr fun part =>
    part.reads_of_valueAt (fun _ => hfiles.decode?_encode) (valueAt_of_writes h hok (hparts part))

end Parts

variable {state : IndexState} (h : Store.Serves path top b st s)

include h

theorem valueAt_of_save (hok : commit st s (saveMutations state) = (.ok (), s')) (part : Part) :
    st.valueAt s' part.key
      = some (part.document (loadedOf state) state.graph.entities).render.toUTF8 := by
  have hwrites : saveMutations state = Part.writes (loadedOf state) state.graph.entities
      [.files, .entities, .sources, .pch] := by
    simp [saveMutations, Part.writes, Part.mutations, loadedOf]
  rw [hwrites] at hok
  exact valueAt_of_writes h hok (by cases part <;> decide)

/-- **What is saved is loaded.** -/
theorem stores_of_save (hsound : state.files.Sound)
    (hok : commit st s (saveMutations state) = (.ok (), s')) :
    Stores st s' (loadedOf state) state.graph.entities :=
  stores_iff.mpr fun part =>
    part.reads_of_valueAt (fun _ => hsound.decode?_encode) (valueAt_of_save h hok part)

end Database

end SymbolIndex
