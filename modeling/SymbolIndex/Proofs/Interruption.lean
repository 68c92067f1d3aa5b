import SymbolIndex.Proofs.UpdateFrame

/-!
# Updates that are interrupted

An update changes its database by one mutation after the other, and may be stopped after any of
them: by a crash, or because the next one fails. `Engine.updateUpTo` is what it leaves then.

The records are pruned first, the file table is written before any record that needs its new
numbers, and the list of units comes after all records. So whatever is found in the database, its
places have numbers, and as long as the list of units is the old one the next update does everything
again (`Engine.update_interrupted`).
-/

namespace SymbolIndex

open Database FileTable List Mutation
open Database (Loaded)

/-! ## Mutations that may fail -/

section Failing

variable {path : Path} {top : Spot} {b : Backend} {st : Store} {s s' : Storage}

namespace Mutation

theorem apply_write (st : Store) (s : Storage) (key : String) (j : Json) :
    (∃ s', (write key j).apply st s = (.ok (), s'))
      ∨ ∃ e, (write key j).apply st s = (.error e, s) := by
  simp only [apply]
  split
  · next s' hwrite => exact .inl ⟨s', rfl⟩
  · next e hwrite => exact .inr ⟨e, rfl⟩

theorem changes_attempt (h : Store.Serves path top b st s) (m : Mutation) :
    Store.Changes path top b st m.Touches s (m.apply st s).2 := by
  cases m with
  | write key j =>
    rcases apply_write st s key j with ⟨s', hok⟩ | ⟨e, hfail⟩
    · rw [hok]
      exact changes_apply h hok
    · rw [hfail]
      exact .refl h
  | remove keys =>
    have hchanges := h.changes_invalidate keys
    simp only [apply]
    split
    · next n s₁ hremove =>
      rw [hremove] at hchanges
      exact hchanges
    · next e s₁ hremove =>
      rw [hremove] at hchanges
      exact hchanges

/-! ## Lists of mutations that are cut -/

variable {C : Storage → Prop}

variable {m : Mutation} {rest ms : List Mutation} {I : Storage → Prop}

theorem cut_cons (hstop : C s) (hattempt : C (m.apply st s).2)
    (hgo : ∀ s', m.apply st s = (.ok (), s') → ∀ k, C (applyAll st s' (rest.take k)).2) (k : Nat) :
    C (applyAll st s ((m :: rest).take k)).2 := by
  cases k with
  | zero => exact hstop
  | succ k =>
    rw [take_succ_cons, applyAll]
    split
    · next s' hok => exact hgo s' hok k
    · next e s' hfail =>
      rw [hfail] at hattempt
      exact hattempt

theorem cut_write {key : String} {j : Json} (hstop : C s)
    (hgo : ∀ s', (write key j).apply st s = (.ok (), s') →
      ∀ k, C (applyAll st s' (rest.take k)).2) (k : Nat) :
    C (applyAll st s ((write key j :: rest).take k)).2 := by
  refine cut_cons hstop ?_ hgo k
  rcases apply_write st s key j with ⟨s', hok⟩ | ⟨e, hfail⟩
  · rw [hok]
    exact hgo s' hok 0
  · rw [hfail]
    exact hstop

theorem cut_append (hs : I s) (hkeep : ∀ m ∈ ms, ∀ s, I s → I (m.apply st s).2)
    (hstop : ∀ s, I s → C s) (hgo : ∀ s, I s → ∀ k, C (applyAll st s (rest.take k)).2) (k : Nat) :
    C (applyAll st s ((ms ++ rest).take k)).2 := by
  induction ms generalizing s k with
  | nil => exact hgo s hs k
  | cons m _ ih =>
    have hattempt := hkeep m mem_cons_self s hs
    refine cut_cons (hstop s hs) (hstop _ hattempt) (fun s' hok k => ?_) k
    rw [hok] at hattempt
    exact ih hattempt (fun m' hm' => hkeep m' (mem_cons_of_mem _ hm')) k

end Mutation

end Failing

/-! ## What a database holds while an index is written -/

theorem FileTable.byName_ofMap_toMap (t : FileTable) : (ofMap t.toMap).byName = t.byName := by
  unfold ofMap toMap
  rw [foldl_enter]
  exact SortedMap.ofList_toList t.byName

theorem FileTable.encode_ofMap_toMap (t : FileTable) : (ofMap t.toMap).encode = t.encode := by
  have hname := t.byName_ofMap_toMap
  unfold encode
  unfold toMap at hname ⊢
  rw [hname]

theorem FileTable.decode?_encode (t : FileTable) : decode? t.encode = some (ofMap t.toMap) := by
  have hmap := (Path.faithful_map FileId.faithful).reads t.byName
  unfold decode? encode toMap
  rw [hmap, Option.map_some]

namespace Database

variable {path : Path} {top : Spot} {b : Backend} {st : Store} {s s' : Storage} {loaded : Loaded}
  {m : Entities}

structure Keeps (path : Path) (top : Spot) (b : Backend) (st : Store) (loaded : Loaded)
    (m : Entities) (s : Storage) : Prop where
  serves : Store.Serves path top b st s
  stores : Stores st s loaded m

namespace Keeps

variable {mutation : Mutation} {m' : Entities} {files : FileTable} {loaded' : Loaded}
  (h : Keeps path top b st loaded m s)

include h

theorem attempt (hindex : ∀ key ∈ indexKeys, ¬ mutation.Touches key) :
    Keeps path top b st loaded m (mutation.apply st s).2 :=
  have hchanges := changes_attempt h.serves mutation
  ⟨hchanges.serves, h.stores.changes hchanges hindex⟩

theorem attempt_symbolWrites (hmutation : mutation ∈ symbolWrites m' files) :
    Keeps path top b st loaded m (mutation.apply st s).2 :=
  h.attempt fun key hkey => not_touches_symbolWrites (plain_of_mem_indexKeys key hkey) hmutation

theorem write (part : Part)
    (hok : (Mutation.write part.key (part.document loaded' m')).apply st s = (.ok (), s'))
    (hfiles : part = .files → FileTable.decode? loaded'.files.encode = some loaded'.files)
    (hothers : ∀ other ≠ part, other.Reads st s loaded m → other.Reads st s loaded' m') :
    Keeps path top b st loaded' m' s' := by
  have hchanges := changes_apply h.serves hok
  refine ⟨hchanges.serves, stores_iff.mpr fun other => ?_⟩
  by_cases hother : other = part
  · subst hother
    refine other.reads_of_valueAt hfiles ?_
    rw [valueAt_apply h.serves hok _ (Mutation.apart_of_plain b other.plain_key _),
      effect_write, if_pos rfl]
  · refine (hothers other hother (stores_iff.mp h.stores other)).congr (hchanges.others _ ?_)
    exact Store.apart_of_plain other.plain_key fun hkey => hother (Part.key_inj hkey)

theorem writeFiles (hok : (fileTableMutation files).apply st s = (.ok (), s')) :
    Keeps path top b st { loaded with files := .ofMap files.toMap } m s' := by
  rw [fileTableMutation, ← files.encode_ofMap_toMap] at hok
  refine h.write .files hok (fun _ => ?_) fun other hother hreads => ?_
  · simp only [files.encode_ofMap_toMap, files.decode?_encode]
  · cases other <;> first | exact hreads | exact absurd rfl hother

theorem writeEntities (hok : (Mutation.write DbKey.entities m'.encode).apply st s = (.ok (), s')) :
    Keeps path top b st loaded m' s' := by
  refine h.write .entities hok nofun fun other hother hreads => ?_
  cases other <;> first | exact hreads | exact absurd rfl hother

theorem writeSources {sources : List Source}
    (hok : (sourcesMutation sources).apply st s = (.ok (), s')) :
    Keeps path top b st { loaded with sources := sources } m s' := by
  refine h.write .sources hok nofun fun other hother hreads => ?_
  cases other <;> first | exact hreads | exact absurd rfl hother

theorem writePch {pch : SortedMap String PchEntry}
    (hok : (pchMutation pch).apply st s = (.ok (), s')) :
    Keeps path top b st { loaded with pch := pch } m s' := by
  refine h.write .pch hok nofun fun other hother hreads => ?_
  cases other <;> first | exact hreads | exact absurd rfl hother

end Keeps

/-- What is stored while a run is saved, part after part. -/
inductive Midway (loaded : Loaded) (m : Entities) (state : IndexState) :
    Loaded → Entities → Prop where
  | untouched : Midway loaded m state loaded m
  | numbered : Midway loaded m state { loaded with files := .ofMap state.files.toMap } m
  | recorded : Midway loaded m state
      { loaded with files := .ofMap state.files.toMap } state.graph.entities
  | listed : Midway loaded m state
      { loaded with files := .ofMap state.files.toMap, sources := state.sources }
      state.graph.entities
  | complete : Midway loaded m state
      { files := .ofMap state.files.toMap, sources := state.sources, pch := state.pch.toMap }
      state.graph.entities

/-- The database keeps one of some indexes. -/
def KeepsOne (path : Path) (top : Spot) (b : Backend) (st : Store)
    (found : Loaded → Entities → Prop) (s : Storage) : Prop :=
  ∃ loaded m, found loaded m ∧ Keeps path top b st loaded m s

/-- **Wherever the writing of an index is cut**, the database holds one of these. -/
theorem keepsOne_of_cut_save (h : Keeps path top b st loaded m s) (state : IndexState) (k : Nat) :
    KeepsOne path top b st (Midway loaded m state)
      (applyAll st s ((saveMutations state).take k)).2 := by
  rw [saveMutations_eq]
  refine cut_write ⟨_, _, .untouched, h⟩ (fun s hok k => ?_) k
  refine cut_append (I := Keeps path top b st _ m) (h.writeFiles hok)
    (fun _ hmutation _ h => h.attempt_symbolWrites hmutation)
    (fun s h => ⟨_, _, .numbered, h⟩) (fun s h k => ?_) k
  refine cut_write ⟨_, _, .numbered, h⟩ (fun s hok k => ?_) k
  have h := h.writeEntities hok
  refine cut_write ⟨_, _, .recorded, h⟩ (fun s hok k => ?_) k
  have h := h.writeSources hok
  refine cut_write ⟨_, _, .listed, h⟩ (fun s hok k => ?_) k
  rw [take_nil]
  exact ⟨_, _, .complete, h.writePch hok⟩

theorem keeps_of_save (h : Store.Serves path top b st s) {state : IndexState}
    (hok : commit st s (saveMutations state) = (.ok (), s')) :
    Keeps path top b st
      { files := .ofMap state.files.toMap, sources := state.sources, pch := state.pch.toMap }
      state.graph.entities s' := by
  refine ⟨(changes_applyAll h (applyAll_of_commit hok)).serves,
    stores_iff.mpr fun part => part.reads_of_valueAt (fun _ => ?_) ?_⟩
  · simp only [state.files.encode_ofMap_toMap, state.files.decode?_encode]
  · have hvalue := valueAt_of_save h hok part
    cases part with
    | files =>
      rw [Part.document, state.files.encode_ofMap_toMap]
      exact hvalue
    | _ => exact hvalue

theorem keepsOne_of_cut_invalidation (h : Keeps path top b st loaded m s) (dirty : SortedSet Path)
    (files : FileTable) (k : Nat) :
    KeepsOne path top b st
      (fun loaded' m' => loaded' = loaded ∧ (m' = m ∨ m' = (invalidation m dirty files).2))
      (applyAll st s ((invalidation m dirty files).1.take k)).2 := by
  unfold invalidation
  split
  · rw [take_nil]
    exact ⟨loaded, m, ⟨rfl, .inl rfl⟩, h⟩
  · have hsymbols : ∀ key ∈ indexKeys,
        ¬ (Mutation.remove (dirty.members.map DbKey.symbols)).Touches key := by
      intro key hkey htouches
      obtain ⟨p, -, hp⟩ := mem_map.mp htouches
      exact symbols_ne_of_plain (plain_of_mem_indexKeys key hkey) p hp.symm
    have hattempt := h.attempt hsymbols
    refine cut_cons ⟨loaded, m, ⟨rfl, .inl rfl⟩, h⟩ ⟨loaded, m, ⟨rfl, .inl rfl⟩, hattempt⟩
      (fun s hok k => ?_) k
    rw [hok] at hattempt
    refine cut_write ⟨loaded, m, ⟨rfl, .inl rfl⟩, hattempt⟩ (fun s hok k => ?_) k
    rw [take_nil]
    exact ⟨loaded, _, ⟨rfl, .inr rfl⟩, hattempt.writeEntities hok⟩

end Database

variable {l : Location}

/-! ## Places and their numbers -/

def Entity.Holds (e : Entity) (l : Location) : Prop :=
  (∃ role, e.At role l) ∨ e.subs.contains l = true

def Entities.Located (t : FileTable) (m : Entities) : Prop :=
  ∀ usr e l, m.get? usr = some e → e.Holds l → t.Numbers l

theorem FileTable.Numbers.congr {t t' : FileTable} (h : t.Numbers l) (hname : t'.byName = t.byName)
    :
    t'.Numbers l := by
  obtain ⟨p, hp⟩ := h
  refine ⟨p, ?_⟩
  unfold FileTable.id? at hp ⊢
  rw [hname]
  exact hp

theorem Entity.holds_of_pruneFiles {e : Entity} {ids : SortedSet FileId}
    (h : (e.pruneFiles ids).Holds l) : e.Holds l := by
  rcases h with ⟨role, hat⟩ | hsub
  · exact .inl ⟨role, (at_pruneFiles.mp hat).1⟩
  · refine .inr ?_
    have hsub : (e.subs.restrict (fun l => !ids.contains l.file)).contains l = true := hsub
    rw [SortedSet.contains_restrict, Bool.and_eq_true] at hsub
    exact hsub.1

namespace Entities.Located

variable {t t' : FileTable} {m : Entities}

theorem mono (h : m.Located t) (hext : t.Extends t') : m.Located t' :=
  fun usr e l hget hholds => (h usr e l hget hholds).mono hext

theorem congr (h : m.Located t) (hname : t'.byName = t.byName) : m.Located t' :=
  fun usr e l hget hholds => (h usr e l hget hholds).congr hname

theorem invalidation (h : m.Located t) (dirty : SortedSet Path) (files : FileTable) :
    Entities.Located t (Database.invalidation m dirty files).2 := by
  unfold Database.invalidation
  split
  · exact h
  · intro usr e l hget hholds
    obtain ⟨⟨e₀, he₀, rfl⟩, -⟩ := Entities.get?_pruneFiles.mp hget
    exact h usr e₀ l he₀ (Entity.holds_of_pruneFiles hholds)

end Entities.Located

theorem Graph.Located.entities_reconcile {t : FileTable} {g : Graph} (h : g.Located t) :
    Entities.Located t g.reconcile.1.entities := by
  intro usr e l hget hholds
  rcases hholds with ⟨role, hat⟩ | hsub
  · exact h.reconcile usr e role l hget hat
  · rw [get?_reconcile] at hget
    obtain ⟨e₀, -, rfl⟩ := Option.map_eq_some_iff.mp hget
    have hsub : (SortedSet.ofList (g.overriders usr)).contains l = true := hsub
    obtain ⟨l', hl', heq⟩ := SortedSet.contains_ofList .. |>.mp hsub
    obtain rfl : l = l' := Std.compare_eq_iff_eq.mp heq
    obtain ⟨usr', hover⟩ := mem_overriders.mp hl'
    obtain ⟨e', he', hoverride⟩ := Option.map_eq_some_iff.mp hover
    exact h.stored usr' e' .definition l he' (Prod.mk.inj hoverride).2

/-- **What a run saves has numbers**, if what it starts from has. -/
theorem Run.located_saved {r : Run} (h : Entities.Located r.start.files r.start.graph.entities)
    (hpending : r.start.graph.pending = ∅) :
    Entities.Located r.saved.files r.saved.graph.entities := by
  have hstart : r.start.graph.Located r.start.files :=
    ⟨fun usr e role l hget hat => h usr e l hget (.inl ⟨role, hat⟩),
      fun l ref hget => absurd hget (by rw [hpending]; simp)⟩
  obtain ⟨i, hall, hgraph, hfiles, -⟩ := r.exists_integrated
  rw [hgraph, hfiles]
  exact (hstart.integrateAll hall).entities_reconcile

/-! ## Updates -/

/-- What a run leaves that is stopped once it has made `k` changes to its database. -/
def Run.savedUpTo (r : Run) (st : Store) (s : Storage) (k : Nat) : Storage :=
  if r.setup.canStart then
    match r.ended.waitForCompletion.1 with
    | .error _ => { s with disk := r.ended.world.disk }
    | .ok _ => (applyAll st (r.readied s) ((Database.saveMutations r.saved).take k)).2
  else s

namespace Engine

/-- What an update leaves that is stopped after `k` steps, or before that because one of them fails.
Each mutation is a step, and so is the run between those that forget and those that save. -/
def updateUpTo (e : Engine) (site : Site) (unsaved : UnsavedFiles) (k : Nat) : Storage :=
  match Store.open site.storage e.backend e.config.dbPath .readWrite with
  | .error _ => site.storage
  | .ok (st, s) =>
    let site := { site with storage := s }
    match Database.load st s with
    | .error _ => s
    | .ok loaded =>
      if (Plan.make site.world.lastModified loaded.sources unsaved.keys).isEmpty then s
      else
        match Database.readValue st s DbKey.entities ∅ Entities.decode? with
        | .error _ => s
        | .ok m =>
          let forgets := (forgets site unsaved loaded m).1
          match applyAll st s (forgets.take k) with
          | (.error _, s) => s
          | (.ok (), s) =>
            if k ≤ forgets.length then s
            else (e.updateRun site unsaved st loaded m s).savedUpTo st s (k - forgets.length - 1)

section Upto

variable {path : Path} {top : Spot} {b : Backend} {st : Store} {dirty : SortedSet Path}

variable {s s' : Storage} {files : FileTable} {m : Entities}

private def moved (st : Store) (site : Site) (f : Finished) : Storage :=
  { site.storage with disk := (f.state.pch.relocateAll site.storage.disk st.path).disk }

theorem changes_save (e : Engine) (site : Site) (f : Finished)
    (hserves : Store.Serves path top b st (applyAll st (moved st site f)
      (Database.saveMutations (savedState f site.storage.disk st.path))).2) :
    Store.Changes path top b st (fun _ => False) (applyAll st (moved st site f)
        (Database.saveMutations (savedState f site.storage.disk st.path))).2
      (e.save st site none f).2.storage := by
  rw [← commit_snd] at hserves ⊢
  unfold save
  simp only
  split <;> next hcommit =>
    have hstored : (Database.commit st (moved st site f)
        (Database.saveMutations (savedState f site.storage.disk st.path))).2 = _ :=
      congrArg Prod.snd hcommit
    rw [hstored] at hserves ⊢
    first | exact .refl hserves | exact changes_closing hserves _ e.scratch f.errors

end Upto

section Cut

variable {top : Spot} {st : Store} {e : Engine} {site : Site} {unsaved : UnsavedFiles}
  {loaded : Loaded} {m : Entities} {path : Path} {b : Backend} {r : Run} {s : Storage}

open Database (Keeps KeepsOne Midway)

theorem updateUpTo_of_stores
    (hopen : Store.open site.storage e.backend e.config.dbPath .readWrite = .ok (st, site.storage))
    (hstores : Database.Stores st site.storage loaded m) (unsaved : UnsavedFiles) (k : Nat) :
    e.updateUpTo site unsaved k =
      if (Plan.make site.world.lastModified loaded.sources unsaved.keys).isEmpty then site.storage
      else
        match applyAll st site.storage ((forgets site unsaved loaded m).1.take k) with
        | (.error _, s) => s
        | (.ok (), s) =>
          if k ≤ (forgets site unsaved loaded m).1.length then s
          else (e.updateRun site unsaved st loaded m s).savedUpTo st s
            (k - (forgets site unsaved loaded m).1.length - 1) := by
  unfold updateUpTo
  rw [hopen]
  simp only [hstores.load, hstores.entities]

/-- What may be found after an update was interrupted. -/
def Found (e : Engine) (site : Site) (unsaved : UnsavedFiles) (st : Store)
    (loaded : Loaded) (m : Entities) (loaded' : Loaded) (m' : Entities) : Prop :=
  ∃ m₀, (m₀ = m ∨ m₀ = (forgets site unsaved loaded m).2)
    ∧ Midway loaded m₀ (e.reachedRun site unsaved st loaded m).saved loaded' m'

theorem keepsOne_savedUpTo (h : Keeps path top b st loaded m s)
    (hended : Spared path top b st s r.ended.world.disk)
    (hmoved : Spared path top b st s r.relocation.disk) (k : Nat) :
    KeepsOne path top b st (Midway loaded m r.saved) (r.savedUpTo st s k) := by
  have hspared : ∀ disk, Spared path top b st s disk →
      Keeps path top b st loaded m { s with disk := disk } := by
    intro disk hdisk
    have hchanges := hdisk.changes h.serves
    exact ⟨hchanges.serves, h.stores.changes hchanges fun _ _ => id⟩
  unfold Run.savedUpTo
  split
  · split
    · exact ⟨_, _, .untouched, hspared _ hended⟩
    · exact keepsOne_of_cut_save (hspared _ hmoved) r.saved k
  · exact ⟨_, _, .untouched, h⟩

/-- Neither the run of an update nor what is done with its artifacts touches the database. -/
def Spares (e : Engine) (top : Spot) (site : Site) (unsaved : UnsavedFiles) (st : Store)
    (loaded : Loaded) (m : Entities) : Prop :=
  let r := e.reachedRun site unsaved st loaded m
  Spared e.config.dbPath top e.backend st (forgotten site unsaved st loaded m) r.ended.world.disk
    ∧ Spared e.config.dbPath top e.backend st (forgotten site unsaved st loaded m)
      r.relocation.disk

/-- **Wherever an update is stopped**, its database holds one of the indexes on its way. -/
theorem keepsOne_updateUpTo (h : Keeps e.config.dbPath top e.backend st loaded m site.storage)
    (hspares : e.Spares top site unsaved st loaded m) (k : Nat) :
    KeepsOne e.config.dbPath top e.backend st (e.Found site unsaved st loaded m)
      (e.updateUpTo site unsaved k) := by
  rw [updateUpTo_of_stores h.serves.opens h.stores]
  split
  · exact ⟨loaded, m, ⟨m, .inl rfl, .untouched⟩, h⟩
  · obtain ⟨loaded', m', ⟨rfl, hm⟩, hkeeps⟩ := keepsOne_of_cut_invalidation h
      (Plan.make site.world.lastModified loaded.sources unsaved.keys).dirtyFiles loaded.files k
    change Keeps _ _ _ _ _ _
      (applyAll st site.storage ((forgets site unsaved loaded' m).1.take k)).2 at hkeeps
    split
    · next err s hall =>
      rw [hall] at hkeeps
      exact ⟨loaded', m', ⟨m', hm, .untouched⟩, hkeeps⟩
    · next s hall =>
      rw [hall] at hkeeps
      split
      · exact ⟨loaded', m', ⟨m', hm, .untouched⟩, hkeeps⟩
      · next hlong =>
        -- everything is forgotten, so this is the run of an update that is not stopped
        rw [take_of_length_le (Nat.le_of_not_le hlong)] at hall
        obtain rfl : forgotten site unsaved st loaded' m = s := congrArg Prod.snd hall
        obtain ⟨hended, hmoved⟩ := hspares
        obtain ⟨loaded'', m'', hmidway, hkeeps'⟩ := keepsOne_savedUpTo hkeeps hended hmoved
          (k - (forgets site unsaved loaded' m).1.length - 1)
        exact ⟨loaded'', m'', ⟨m', hm, hmidway⟩, hkeeps'⟩

theorem changes_savedUpTo {site₂ : Site} {ran : Except EngineError Finished × Site}
    (hsetup : e.setupFor .dirty unsaved = r.setup) (hschedule : e.schedule = r.schedule)
    (hdb : r.db = st.path) (hdisk : r.disk = r.ended.world.disk)
    (hran : e.run site₂ .dirty unsaved r.start r.invocations = ran) (hworld : site₂.world = r.world)
    (hstorage : site₂.storage = s) {k : Nat} (hk : (Database.saveMutations r.saved).length ≤ k)
    (hserves : Store.Serves path top b st (r.savedUpTo st s k)) :
    Store.Changes path top b st (fun _ => False) (r.savedUpTo st s k) (e.concluded st ran).2 := by
  obtain ⟨answer, site₃⟩ := ran
  have hcases := run_cases hran hworld hstorage
    (show e.schedule.ended (e.setupFor .dirty unsaved) _ _ _ = r.ended by
      rw [hsetup, hschedule]
      rfl)
  rw [hsetup] at hcases
  unfold Run.savedUpTo at hserves ⊢
  rcases hcases with ⟨hstart, hleft, err, rfl⟩ | ⟨hstart, hleft, hcases⟩
  · rw [hstart, ← hleft, if_neg Bool.false_ne_true] at hserves ⊢
    exact .refl hserves
  · rw [hstart, if_pos rfl] at hserves ⊢
    rcases hcases with ⟨failure, err, hwait, rfl⟩ | ⟨stats, f, hwait, rfl, hstate⟩
    · rw [hwait] at hserves ⊢
      simp only [← hleft] at hserves ⊢
      exact .refl hserves
    · have hsaved : savedState f site₃.storage.disk st.path = r.saved := by
        unfold savedState Run.saved Run.relocation
        rw [hstate, hleft, hdb, hdisk]
      have hmoved : moved st site₃ f = r.readied s := by
        unfold moved Run.readied Run.relocation
        rw [hstate, hleft, hdb, hdisk]
      rw [hwait] at hserves ⊢
      simp only [take_of_length_le hk] at hserves ⊢
      rw [← hsaved, ← hmoved] at hserves ⊢
      exact changes_save e site₃ f hserves

/-- **An update that is not stopped** leaves the values that its steps leave. -/
theorem changes_updateUpTo (h : Keeps e.config.dbPath top e.backend st loaded m site.storage)
    (hspares : e.Spares top site unsaved st loaded m) :
    ∃ n, ∀ k, n ≤ k → Store.Changes e.config.dbPath top e.backend st (fun _ => False)
      (e.updateUpTo site unsaved k) (e.update site unsaved).2.storage := by
  refine ⟨(forgets site unsaved loaded m).1.length + 1
    + (Database.saveMutations (e.reachedRun site unsaved st loaded m).saved).length, fun k hk => ?_⟩
  obtain ⟨_, _, -, hkeeps⟩ := keepsOne_updateUpTo h hspares k
  have hserves := hkeeps.serves
  have hsteps := updateUpTo_of_stores h.serves.opens h.stores unsaved k
  rw [take_of_length_le (by omega)] at hsteps
  have hupdates := updates h.serves.opens h.stores unsaved
  generalize e.update site unsaved = result at hupdates ⊢
  cases hupdates with
  | idle hempty hleft =>
    rw [if_pos hempty] at hsteps
    rw [hsteps, hleft]
    exact .refl h.serves
  | stuck hstale hfailed =>
    rw [hstale, if_neg Bool.false_ne_true] at hsteps
    unfold Database.commit at hfailed
    split at hfailed
    · cases hfailed
    · next hall =>
      rw [show applyAll st site.storage (forgets site unsaved loaded m).1 = _ from hall]
        at hsteps
      rw [hsteps] at hserves ⊢
      rw [← (Prod.mk.inj hfailed).2]
      exact .refl hserves
  | @ran _ _ site' _ hstale hcommit hconcluded hstorage hstamps =>
    have hall : applyAll st site.storage (forgets site unsaved loaded m).1 = _ :=
      applyAll_of_commit hcommit
    obtain rfl : forgotten site unsaved st loaded m = _ := congrArg Prod.snd hall
    rw [hstale, if_neg Bool.false_ne_true, hall] at hsteps
    simp only at hsteps
    rw [if_neg (by omega)] at hsteps
    rw [hsteps] at hserves ⊢
    have hleft : _ = site'.storage := congrArg Prod.snd hconcluded
    simp only [← hleft]
    have hlong : (Database.saveMutations (e.reachedRun site unsaved st loaded m).saved).length
        ≤ k - (forgets site unsaved loaded m).1.length - 1 := by omega
    refine changes_savedUpTo rfl rfl rfl rfl rfl ?_ hstorage hlong hserves
    unfold Site.world
    rw [hstorage, hstamps]
    rfl

theorem keeps_of_update {site' : Site} {summary : RunSummary}
    (h : Keeps e.config.dbPath top e.backend st loaded m site.storage)
    (hspares : e.Spares top site unsaved st loaded m)
    (hok : e.update site unsaved = (.ok summary, site'))
    (hchanged : summary.nothingChanged = false) :
    let new := (e.reachedRun site unsaved st loaded m).saved
    Keeps e.config.dbPath top e.backend st
      { files := .ofMap new.files.toMap, sources := new.sources, pch := new.pch.toMap }
      new.graph.entities site'.storage := by
  rcases update_eq_ok h.serves.opens h.stores hok with
    ⟨hidle, -⟩ | ⟨-, -, emptied, hcommit, -, stored, hstored, hlater⟩
  · rw [hchanged] at hidle
    cases hidle
  · have hall := applyAll_of_commit hcommit
    obtain rfl : forgotten site unsaved st loaded m = emptied := congrArg Prod.snd hall
    -- what is forgotten leaves an index of some records
    obtain ⟨loaded', m', -, hkeeps⟩ := keepsOne_of_cut_invalidation h
      (Plan.make site.world.lastModified loaded.sources unsaved.keys).dirtyFiles loaded.files
      (forgets site unsaved loaded m).1.length
    change Keeps _ _ _ _ _ _ (applyAll st site.storage
      ((forgets site unsaved loaded m).1.take (forgets site unsaved loaded m).1.length)).2 at hkeeps
    rw [take_length] at hkeeps
    have hmoved := hspares.2.changes hkeeps.serves
    have hnew := keeps_of_save hmoved.serves hstored
    have hchanges := hlater _ _ _ hnew.serves
    refine ⟨hchanges.serves, hnew.stores.changes hchanges ?_⟩
    unfold Run.Listing
    decide

theorem located_of_found {loaded' : Loaded} {m' : Entities} (hlocated : m.Located loaded.files)
    (hfound : e.Found site unsaved st loaded m loaded' m') : m'.Located loaded'.files := by
  obtain ⟨m₀, hm₀, hmidway⟩ := hfound
  have hkept : Entities.Located loaded.files (forgets site unsaved loaded m).2 :=
    hlocated.invalidation _ _
  have hleft : m₀.Located loaded.files := by
    rcases hm₀ with rfl | rfl
    · exact hlocated
    · exact hkept
  have hsaved := Run.located_saved (r := e.reachedRun site unsaved st loaded m) hkept rfl
  have hgrows := (e.reachedRun site unsaved st loaded m).grows_files
  have hname := byName_ofMap_toMap (e.reachedRun site unsaved st loaded m).saved.files
  cases hmidway with
  | untouched => exact hleft
  | numbered => exact (hleft.mono (IndexState.extends_of_grows hgrows)).congr hname
  | recorded | listed | complete => exact hsaved.congr hname

/-- **An update that is interrupted.** However an update of a database in which all places have
numbers is stopped, all places have numbers, and the list of units is the old one, so that the next
update has the same to do, or all of the new index is there. -/
theorem update_interrupted (hserves : Store.Serves e.config.dbPath top e.backend st site.storage)
    (hstores : Database.Stores st site.storage loaded m) (hlocated : m.Located loaded.files)
    (hspares : e.Spares top site unsaved st loaded m) :
    let new := (e.reachedRun site unsaved st loaded m).saved
    (∀ k, ∃ loaded' m', Database.Stores st (e.updateUpTo site unsaved k) loaded' m'
        ∧ m'.Located loaded'.files
        ∧ ((loaded'.sources = loaded.sources
            ∧ Plan.make site.world.lastModified loaded'.sources unsaved.keys
              = Plan.make site.world.lastModified loaded.sources unsaved.keys)
          ∨ (loaded'.sources = new.sources ∧ m' = new.graph.entities
            ∧ loaded'.files.byName = new.files.byName)))
      ∧ (∃ n, ∀ k, n ≤ k → Store.Changes e.config.dbPath top e.backend st (fun _ => False)
        (e.updateUpTo site unsaved k) (e.update site unsaved).2.storage)
      ∧ ∀ summary site', e.update site unsaved = (.ok summary, site') →
        summary.nothingChanged = false → ∃ loaded',
          Database.Stores st site'.storage loaded' new.graph.entities
            ∧ loaded'.sources = new.sources ∧ loaded'.files.byName = new.files.byName := by
  intro new
  have hkeeps : Keeps e.config.dbPath top e.backend st loaded m site.storage := ⟨hserves, hstores⟩
  have hname := FileTable.byName_ofMap_toMap new.files
  refine ⟨fun k => ?_, changes_updateUpTo hkeeps hspares, fun summary site' hok hchanged => ?_⟩
  · obtain ⟨loaded', m', hfound, hleft⟩ := keepsOne_updateUpTo hkeeps hspares k
    refine ⟨loaded', m', hleft.stores, located_of_found hlocated hfound, ?_⟩
    obtain ⟨m₀, -, hmidway⟩ := hfound
    cases hmidway with
    | untouched | numbered | recorded => exact .inl ⟨rfl, rfl⟩
    | listed | complete => exact .inr ⟨rfl, rfl, hname⟩
  · exact ⟨_, (keeps_of_update hkeeps hspares hok hchanged).stores, rfl, hname⟩

end Cut

open History (outlying built_outlying)

/-- An update that has something to forget and something to save. -/
theorem update_interrupted_outlying :
    let e := Engine.replaying outlying.second
    let loaded := Database.loadedOf outlying.buildRun.saved
    let m : Entities := outlying.buildRun.saved.graph.entities
    let times := outlying.updateSite.world.lastModified
    let new := (e.reachedRun outlying.updateSite ∅ outlying.opened.1 loaded m).saved
    m.Located loaded.files ∧ (Plan.make times loaded.sources []).isEmpty = false
      ∧ ∀ k, ∃ loaded' m',
        Database.Stores outlying.opened.1 (e.updateUpTo outlying.updateSite ∅ k) loaded' m'
          ∧ m'.Located loaded'.files
          ∧ ((loaded'.sources = loaded.sources
              ∧ Plan.make times loaded'.sources [] = Plan.make times loaded.sources [])
            ∨ (loaded'.sources = new.sources ∧ m' = new.graph.entities
              ∧ loaded'.files.byName = new.files.byName)) := by
  have hholds := (Episode.history_before built_outlying).holds
  have hlocated : Entities.Located outlying.buildRun.saved.files
      outlying.buildRun.saved.graph.entities := by
    refine Run.located_saved (fun usr e l hget => ?_) rfl
    rw [show outlying.buildRun.start.graph.entities = ∅ from rfl, SortedMap.get?_empty] at hget
    cases hget
  refine ⟨hlocated, ?_, ?_⟩
  · rw [Database.sources_loadedOf, Run.sources_saved]
    decide
  · exact (update_interrupted hholds.serves (hholds.stores _ _ rfl) hlocated
      ⟨fun hdirectory => absurd hdirectory (by decide),
        fun hdirectory => absurd hdirectory (by decide)⟩).1

end Engine

end SymbolIndex
