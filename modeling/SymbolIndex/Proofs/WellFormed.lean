import SymbolIndex.Proofs.Events
import SymbolIndex.Proofs.Interruption
import SymbolIndex.Proofs.Reload

/-!
# Records are well formed

Whatever is done to an index, its records keep to four rules: the definition of a symbol is none of
its declarations, an overridden method is known together with its place, a record has at least one
place of its symbol, and the file of every place has its number from the table of files.

Each rule needs something of the others. Merging keeps the second rule because a front end that
names an overridden method gives its place, and because a record that has none yet has neither.
Reconciling derives the overriding methods from definitions, which have numbers. Forgetting files
drops an overridden method with its place, and the records that have no place left. The database
holds records that kept to the rules when they were written, under numbers of a table that the
present one has grown from, wherever the writing was cut.
-/

namespace SymbolIndex

open FileTable IndexState List

/-! ## What events make -/

/-- A place goes with the method that is overridden. -/
def EntityOp.Paired : EntityOp → Prop
  | .declare _ _ _ _ _ base overridden => base.isSome = overridden.isSome
  | _ => True

namespace UnitIndexer

/-- A unit as it comes from events, dependencies and buffers. -/
inductive Told : UnitIndexer → Prop where
  | start (context : UnitContext) : Told (start context)
  | dependency {u : UnitIndexer} (times : FileTimes) (path : Path) :
      Told u → Told (u.addDependency times path)
  | unsaved {u : UnitIndexer} : Told u → Told u.markUnsaved
  | event {u u' : UnitIndexer} {times : FileTimes} {e : Event} :
      Told u → u.handle times e = .ok u' → Told u'

/-- All operations of a unit name overridden methods with their places. -/
def Paired (u : UnitIndexer) : Prop := ∀ op ∈ u.contribution.ops, op.Paired

variable {u u' : UnitIndexer}

theorem Paired.congr (h : u.Paired) (hops : u'.contribution.ops = u.contribution.ops) :
    u'.Paired := by
  unfold Paired
  rw [hops]
  exact h

theorem paired_declareOp (e : Declaration) : (declareOp e).Paired := by
  simp [declareOp, EntityOp.Paired]

theorem paired_extraDeclarationOp {e : Declaration} {op : EntityOp}
    (h : extraDeclarationOp e = .ok (some op)) : op.Paired := by
  unfold extraDeclarationOp at h
  split at h
  · cases h
  · split at h
    · cases h
      trivial
    · split at h
      · obtain ⟨column, -, h⟩ := bind_eq_ok_iff.mp h
        cases h
        trivial
      · cases h

theorem paired_refer {t : SymbolReport} (h : ∀ op ∈ t.1, op.Paired) (e : Reference) :
    ∀ op ∈ (t.refer e).1, op.Paired := by
  unfold SymbolReport.refer
  split
  · exact h
  · intro op hop
    simp only at hop
    split at hop
    · rcases mem_append.mp hop with hop | hop
      · exact h op hop
      · obtain rfl := mem_singleton.mp hop
        trivial
    · exact h op hop

/-- **One event** brings operations that name overridden methods with their places. -/
theorem Paired.handle (h : u.Paired) {times : FileTimes} {e : Event}
    (hok : u.handle times e = .ok u') : u'.Paired := by
  have htell := u.symbolReport_handle times e
  rw [hok] at htell
  cases e with
  | inclusion | diagnostic => exact h.congr (congrArg Prod.fst (Except.ok.inj htell))
  | reference e =>
    unfold Paired
    rw [show u'.contribution.ops = (u.symbolReport.refer e).1 from
      congrArg Prod.fst (Except.ok.inj htell)]
    exact paired_refer (t := u.symbolReport) h e
  | declaration e =>
    simp only [Event.tell] at htell
    cases hextra : extraDeclarationOp e with
    | error =>
      rw [hextra] at htell
      simp [Except.map] at htell
    | ok extra =>
      rw [hextra] at htell
      have hpushed : ∀ op ∈ u.contribution.ops ++ declareOp e :: extra.toList, op.Paired := by
        intro op hop
        rcases mem_append.mp hop with hop | hop
        · exact h op hop
        · rcases mem_cons.mp hop with rfl | hop
          · exact paired_declareOp e
          · exact paired_extraDeclarationOp (hextra.trans (by rw [Option.mem_toList.mp hop]))
      unfold Paired
      rw [show u'.contribution.ops = (u.symbolReport.declare e extra).1 from
        congrArg Prod.fst (Except.ok.inj htell)]
      unfold SymbolReport.declare
      split
      · -- a child reference is taken in like any other
        exact List.foldlRecOn (motive := fun t : SymbolReport => ∀ op ∈ t.1, op.Paired)
          e.childReferences SymbolReport.refer hpushed (fun t ht r _ => paired_refer ht r)
      · exact hpushed

theorem Told.paired (h : u.Told) : u.Paired := by
  induction h with
  | start => exact fun op hop => absurd hop (by simp [UnitIndexer.start])
  | dependency _ _ _ ih =>
    refine ih.congr ?_
    unfold addDependency
    split <;> rfl
  | unsaved _ ih => exact ih.congr rfl
  | event _ hok ih => exact ih.handle hok

theorem Told.handleAll (h : u.Told) (times : FileTimes) (es : List Event) :
    (u.handleAll times es).1.Told :=
  handleAll_keeps h es fun hu hok => hu.event hok

end UnitIndexer

/-! ## One record -/

/-- No definition is listed as a declaration, and a place goes with a method. -/
structure Entity.WellFormed (e : Entity) : Prop where
  declared : ∀ l, e.definition = some l → e.declarations.contains l = false
  paired : e.superLocation.isSome = e.overriddenUsr.isSome
  placed : e.isEmpty = false

namespace Entity

variable {e : Entity}

theorem WellFormed.proper (h : e.WellFormed) : e.Proper where
  declared := h.declared
  overridden := fun hnone => by
    have hpaired := h.paired
    rw [hnone] at hpaired
    exact Option.isNone_iff_eq_none.mp (by simpa using hpaired.symm)

theorem WellFormed.exists_mem_ownLocations (h : e.WellFormed) : ∃ l, l ∈ e.ownLocations := by
  refine Classical.byContradiction fun hnone => ?_
  have hempty := isEmpty_iff.mpr fun l hl => hnone ⟨l, hl⟩
  rw [h.placed] at hempty
  cases hempty

theorem isEmpty_eq_false_of_at (role : Role) (l : Location) (hrole : role ≠ .base)
    (h : e.At role l) : e.isEmpty = false := by
  rw [← Bool.not_eq_true, isEmpty_iff]
  exact fun hnone => hnone l (mem_ownLocations_of_at h hrole)

section

variable (place : SourcePosition → Location)

theorem isEmpty_applyTo (op : EntityOp)
    (hsynthesize : ∀ usr name definition scope, op = .synthesize usr name definition scope →
      e.isEmpty = false) : (op.applyTo place e).isEmpty = false := by
  cases op with
  | declare _ _ _ location d =>
    -- what is not the definition is declared, unless it is the definition already
    have hat : (∃ l, (e.declareAt (place location) d).definition = some l)
        ∨ (e.declareAt (place location) d).declarations.contains (place location) = true := by
      unfold declareAt setDefinition addDeclaration
      cases d with
      | true =>
        refine .inl ?_
        cases hdef : e.definition <;> simp [hdef]
      | false =>
        by_cases hdef : e.definition = some (place location)
        · exact .inl ⟨place location, by simp [hdef]⟩
        · exact .inr (by simp [hdef, SortedSet.contains_add])
    rcases hat with ⟨l, hdef⟩ | hdecl
    · refine isEmpty_eq_false_of_at .definition l (by decide) ?_
      rw [applyTo_declare]
      exact hdef
    · refine isEmpty_eq_false_of_at .declaration (place location) (by decide) ?_
      rw [applyTo_declare]
      exact hdecl
  | extraDeclaration _ location =>
    exact isEmpty_eq_false_of_at .extra (place location) (by decide)
      ((contains_extra_applyTo place _ e _).mpr (.inr rfl))
  | synthesize => exact hsynthesize _ _ _ _ rfl

theorem paired_applyTo {op : EntityOp} (hop : op.Paired)
    (h : e.superLocation.isSome = e.overriddenUsr.isSome) :
    (op.applyTo place e).superLocation.isSome = (op.applyTo place e).overriddenUsr.isSome := by
  cases op with
  | declare _ _ _ _ _ base overridden =>
    have hop : base.isSome = overridden.isSome := hop
    rw [applyTo_declare]
    unfold overrideOnce
    cases hsuper : e.superLocation <;> cases base <;> simp_all
  | extraDeclaration | synthesize => exact h

/-- **One operation** keeps a record well formed, and makes a well-formed one where there was
none. -/
theorem wellFormed_act {op : EntityOp} (hop : op.Paired)
    {start : Option Entity} (hstart : ∀ e₀, start = some e₀ → e₀.WellFormed)
    (h : op.act place start = some e) : e.WellFormed := by
  cases h
  cases start with
  | some e₀ =>
    have hwell := hstart e₀ rfl
    exact ⟨(hwell.proper.applyTo place op).declared, paired_applyTo place hop hwell.paired,
      isEmpty_applyTo place op fun _ _ _ _ _ => hwell.placed⟩
  | none =>
    have hproper : (op.seed place).Proper := by
      cases op with
      | synthesize => exact ⟨fun _ _ => rfl, fun _ => rfl⟩
      | _ => exact proper_empty
    refine ⟨(hproper.applyTo place op).declared, paired_applyTo place hop (by cases op <;> rfl),
      isEmpty_applyTo place op ?_⟩
    rintro usr name definition scope rfl
    rfl

end

theorem WellFormed.reconciled (h : e.WellFormed) (g : Graph) (usr : Usr) :
    (g.reconciled usr e).WellFormed where
  declared := h.declared
  paired := h.paired
  placed := by
    obtain ⟨l, hl⟩ := h.exists_mem_ownLocations
    rw [← Bool.not_eq_true, isEmpty_iff]
    exact fun hnone => hnone l (mem_ownLocations_reconciled hl g usr)

theorem WellFormed.pruneFiles (h : e.WellFormed) {ids : SortedSet FileId}
    (hleft : (e.pruneFiles ids).isEmpty = false) : (e.pruneFiles ids).WellFormed where
  declared := by
    intro l hl
    have hdef : e.definition = some l := ((@at_pruneFiles e .definition l ids).mp hl).1
    have hnot := h.declared l hdef
    rw [← Bool.not_eq_true] at hnot ⊢
    exact fun hdecl => hnot ((@at_pruneFiles e .declaration l ids).mp hdecl).1
  paired := by
    have hpaired := h.paired
    unfold Entity.pruneFiles
    simp only
    cases hsuper : e.superLocation with
    | none => simpa [hsuper] using hpaired
    | some l =>
      rw [hsuper] at hpaired
      cases hstays : ids.contains l.file <;> simp [Option.filter, hstays, ← hpaired]
  placed := hleft

end Entity

/-! ## All records of an index -/

/-- Every record is well formed and lies in known files. -/
structure Entities.WellFormed (t : FileTable) (m : Entities) : Prop where
  record : ∀ usr e, m.get? usr = some e → e.WellFormed
  located : m.Located t

namespace Entities.WellFormed

variable {t t' : FileTable} {m : Entities}

theorem empty (t : FileTable) : WellFormed t ∅ :=
  ⟨fun usr e h => absurd h (by simp), fun usr e l h => absurd h (by simp)⟩

theorem mono (h : m.WellFormed t) (hext : t.Extends t') : m.WellFormed t' :=
  ⟨h.record, h.located.mono hext⟩

theorem invalidation (h : m.WellFormed t) (dirty : SortedSet Path) (files : FileTable) :
    WellFormed t (Database.invalidation m dirty files).2 := by
  refine ⟨fun usr e hget => ?_, h.located.invalidation dirty files⟩
  unfold Database.invalidation at hget
  split at hget
  · exact h.record usr e hget
  · obtain ⟨⟨e₀, he₀, rfl⟩, hleft⟩ := Entities.get?_pruneFiles.mp hget
    exact (h.record usr e₀ he₀).pruneFiles hleft

end Entities.WellFormed

/-- All that is stored is well formed, and what waits lies in known files. -/
structure Graph.WellFormed (t : FileTable) (g : Graph) : Prop where
  stored : Entities.WellFormed t g.entities
  waiting : ∀ l r, g.pending.get? l = some r → t.Numbers l

namespace Graph.WellFormed

variable {g g' : Graph} {t t' : FileTable}

theorem located (h : g.WellFormed t) : g.Located t :=
  ⟨fun usr e role l hget hat => h.stored.located usr e l hget (.inl ⟨role, hat⟩), h.waiting⟩

theorem mono (h : g.WellFormed t) (hext : t.Extends t') : g.WellFormed t' :=
  ⟨h.stored.mono hext, fun l r hget => (h.waiting l r hget).mono hext⟩

theorem of_entities {m : Entities} (h : m.WellFormed t) : WellFormed t { entities := m } :=
  ⟨h, fun l r hget => absurd hget (by simp)⟩

/-- **Merging one operation.** -/
theorem applyOp {op : EntityOp} (h : g.WellFormed t) (hop : op.Paired)
    (hok : g.applyOp t op = .ok (g', t')) : g'.WellFormed t' := by
  obtain ⟨hext, -, hget⟩ := applyOp_spec hok
  have hlocated := h.located.applyOp hok
  -- the record of the symbol that the operation names is made by it; the others stay
  have hrecord : ∀ usr e, g'.entities.get? usr = some e →
      op.act t'.place (g.entities.get? usr) = some e ∨ g.entities.get? usr = some e := by
    intro usr e he
    rw [hget t' (.refl t') usr] at he
    split at he
    · exact .inl he
    · exact .inr he
  refine ⟨⟨fun usr e he => ?_, fun usr e l he hholds => ?_⟩, hlocated.waiting⟩
  · rcases hrecord usr e he with hact | hsame
    · exact Entity.wellFormed_act t'.place hop (h.stored.record usr) hact
    · exact h.stored.record usr e hsame
  · rcases hholds with ⟨role, hat⟩ | hsub
    · exact hlocated.stored usr e role l he hat
    · -- no operation touches the overriding methods
      suffices hbefore : ∃ e₀, g.entities.get? usr = some e₀ ∧ e₀.subs.contains l = true by
        obtain ⟨e₀, he₀, hsub⟩ := hbefore
        exact (h.stored.located usr e₀ l he₀ (.inr hsub)).mono hext
      rcases hrecord usr e he with hact | hsame
      · cases hact
        rw [Entity.subs_applyTo] at hsub
        cases hstart : g.entities.get? usr with
        | some e₀ =>
          rw [hstart] at hsub
          exact ⟨e₀, rfl, hsub⟩
        | none =>
          rw [hstart] at hsub
          cases op <;> simp [EntityOp.seed] at hsub
      · exact ⟨e, hsame, hsub⟩

theorem merge {c : Contribution} (h : g.WellFormed t) (hops : ∀ op ∈ c.ops, op.Paired)
    (hok : g.merge t c = .ok (g', t')) : g'.WellFormed t' := by
  refine merge_keeps (P := fun g t => g.WellFormed t) hok h
    (fun hop h => h.applyOp (hops _ hop)) (fun ref h hl => ⟨?_, (h.located.enter hl ref).waiting⟩)
  exact h.stored.mono (location_spec hl).1

/-- **Reconciling.** -/
theorem reconcile (h : g.WellFormed t) : g.reconcile.1.WellFormed t := by
  refine ⟨⟨fun usr e hget => ?_, h.located.entities_reconcile⟩, ?_⟩
  · rw [get?_reconcile] at hget
    obtain ⟨e₀, he₀, rfl⟩ := Option.map_eq_some_iff.mp hget
    exact (h.stored.record usr e₀ he₀).reconciled g usr
  · rw [pending_reconcile]
    exact h.waiting

theorem clearPending (h : g.WellFormed t) : g.clearPending.WellFormed t := .of_entities h.stored

end Graph.WellFormed

/-! ## Everything that can happen to an index -/

namespace Database

variable {path : Path} {top : Spot} {b : Backend} {st : Store} {state state' : IndexState}
  {s s' : Storage} {loaded : Loaded} {m : Entities}

/-- An index and the database beside it, from an empty index and an empty database on. -/
inductive Lived (path : Path) (top : Spot) (b : Backend) (st : Store) :
    IndexState → Storage → Prop where
  | start {s : Storage} : Keeps path top b st {} ∅ s → Lived path top b st {} s
  | integrate {state state' : IndexState} {s : Storage} {u : UnitIndexer} {source : Source}
      {visited : SortedSet FileId} : Lived path top b st state s → u.Told →
      state.integrate u.contribution source = .ok (visited, state') → Lived path top b st state' s
  | reconcile {state : IndexState} {s : Storage} : Lived path top b st state s →
      Lived path top b st { state with graph := state.graph.reconcile.1 } s
  | clearPending {state : IndexState} {s : Storage} : Lived path top b st state s →
      Lived path top b st { state with graph := state.graph.clearPending } s
  | save {state : IndexState} {s : Storage} (k : Nat) : Lived path top b st state s →
      Lived path top b st state (Mutation.applyAll st s ((saveMutations state).take k)).2
  | reload {state : IndexState} {s : Storage} {loaded : Loaded} {m : Entities} (pch : PchTable)
      (sources : List Source) : Lived path top b st state s → Stores st s loaded m →
      Lived path top b st { files := loaded.files, graph := { entities := m }, pch, sources } s
  /-- Files are forgotten, looked up in any table, and the index goes on with what is left. -/
  | invalidate {state : IndexState} {s s' : Storage} {m : Entities} (dirty : SortedSet Path)
      (files : FileTable) : Lived path top b st state s →
      invalidate st s dirty files = (.ok m, s') →
      Lived path top b st { state with graph := { entities := m } } s'

/-- What is kept, in the index and in the database: the database holds well-formed records under
numbers of an earlier table. -/
structure Kept (path : Path) (top : Spot) (b : Backend) (st : Store) (state : IndexState)
    (s : Storage) : Prop where
  graph : state.graph.WellFormed state.files
  numbered : state.files.Numbered
  stored : KeepsOne path top b st (fun loaded m => m.WellFormed loaded.files
    ∧ loaded.files.Numbered ∧ loaded.files.Extends state.files) s

namespace Kept

theorem start (h : Keeps path top b st {} ∅ s) : Kept path top b st {} s where
  graph := .of_entities (.empty _)
  numbered := numbered_empty
  stored := ⟨{}, ∅, ⟨.empty _, numbered_empty, .refl _⟩, h⟩

variable (h : Kept path top b st state s)

include h

theorem integrate {u : UnitIndexer} {source : Source} {visited : SortedSet FileId} (hu : u.Told)
    (hok : state.integrate u.contribution source = .ok (visited, state')) :
    Kept path top b st state' s := by
  obtain ⟨graph, files, files', hmerge, hintern, rfl⟩ := integrate_eq_ok hok
  have hinterned := grows_internAll hintern
  have hgrows := (FileTable.Grows.of_merge hmerge).trans hinterned
  obtain ⟨loaded, m, ⟨hm, hnumbered, hext⟩, hkeeps⟩ := h.stored
  refine ⟨?_, hgrows.numbered h.numbered, loaded, m, ⟨hm, hnumbered, ?_⟩, hkeeps⟩
  · exact (h.graph.merge hu.paired hmerge).mono (extends_of_grows hinterned)
  · exact hext.trans (extends_of_grows hgrows)

theorem withGraph {g : Graph} (hg : g.WellFormed state.files) :
    Kept path top b st { state with graph := g } s := ⟨hg, h.numbered, h.stored⟩

theorem save (k : Nat) :
    Kept path top b st state (Mutation.applyAll st s ((saveMutations state).take k)).2 := by
  obtain ⟨loaded, m, ⟨hm, hnumbered, hext⟩, hkeeps⟩ := h.stored
  obtain ⟨loaded', m', hmidway, hkeeps'⟩ := keepsOne_of_cut_save hkeeps state k
  have hfiles : FileTable.ofMap state.files.toMap = state.files := h.numbered.toSound.ofMap_toMap
  refine ⟨h.graph, h.numbered, loaded', m', ?_, hkeeps'⟩
  -- the table is written first, so the records that are found are never newer than the table
  cases hmidway with
  | untouched => exact ⟨hm, hnumbered, hext⟩
  | numbered =>
    rw [hfiles]
    exact ⟨hm.mono hext, h.numbered, .refl _⟩
  | recorded | listed | complete =>
    rw [hfiles]
    exact ⟨h.graph.stored, h.numbered, .refl _⟩

theorem reload (hstores : Stores st s loaded m) (pch : PchTable) (sources : List Source) :
    Kept path top b st { files := loaded.files, graph := { entities := m }, pch, sources } s := by
  obtain ⟨loaded', m', ⟨hm, hnumbered, -⟩, hkeeps⟩ := h.stored
  obtain ⟨rfl, rfl⟩ := hstores.unique hkeeps.stores
  exact ⟨.of_entities hm, hnumbered, loaded, m, ⟨hm, hnumbered, .refl _⟩, hkeeps⟩

theorem invalidate {dirty : SortedSet Path} {files : FileTable}
    (hok : Database.invalidate st s dirty files = (.ok m, s')) :
    Kept path top b st { state with graph := { entities := m } } s' := by
  obtain ⟨loaded, m₀, ⟨hm₀, hnumbered, hext⟩, hkeeps⟩ := h.stored
  have hleft := hm₀.invalidation dirty files
  have hcut := keepsOne_of_cut_invalidation hkeeps dirty files (invalidation m₀ dirty files).1.length
  rw [take_length] at hcut
  unfold Database.invalidate at hok
  simp only [hkeeps.stores.entities] at hok
  split at hok
  · next s₁ hcommit =>
    obtain ⟨hm, rfl⟩ := Prod.mk.inj hok
    cases hm
    rw [applyAll_of_commit hcommit] at hcut
    obtain ⟨loaded', m', ⟨rfl, hfound⟩, hkeeps'⟩ := hcut
    refine ⟨.of_entities (hleft.mono hext), h.numbered, loaded', m', ⟨?_, hnumbered, hext⟩, hkeeps'⟩
    rcases hfound with rfl | rfl
    · exact hm₀
    · exact hleft
  · cases hok

end Kept

theorem invalidate_of_commit {st : Store} {s s' : Storage} {loaded : Loaded} {m : Entities}
    {dirty : SortedSet Path} {files : FileTable} (hstores : Stores st s loaded m)
    (h : commit st s (invalidation m dirty files).1 = (.ok (), s')) :
    invalidate st s dirty files = (.ok (invalidation m dirty files).2, s') := by
  unfold invalidate
  simp only [hstores.entities, h]

/-- **Everything that can happen** keeps records well formed. -/
theorem Lived.kept (h : Lived path top b st state s) : Kept path top b st state s := by
  induction h with
  | start hkeeps => exact .start hkeeps
  | integrate _ hu hok ih => exact ih.integrate hu hok
  | reconcile _ ih => exact ih.withGraph ih.graph.reconcile
  | clearPending _ ih => exact ih.withGraph ih.graph.clearPending
  | save k _ ih => exact ih.save k
  | reload pch sources _ hstores ih => exact ih.reload hstores pch sources
  | invalidate _ _ _ hok ih => exact ih.invalidate hok

/-- **The rules of the records of an index.** Whatever is done to an index that was empty, and to
its database: merging what front ends tell, reconciling, forgetting the waiting references, saving,
also when it is cut, loading, forgetting files. The definition of a symbol is none of its
declarations; an overridden method is known exactly when its place is; there is a definition, a
declaration, a constructor place or a reference; and the file of every place that is held, those of
the overridden and of the overriding methods included, is a file of the table. -/
theorem records_wellFormed (h : Lived path top b st state s) {usr : Usr} {e : Entity}
    (hget : state.graph.entities.get? usr = some e) :
    (∀ l, e.definition = some l → e.declarations.contains l = false)
      ∧ (e.superLocation.isSome ↔ e.overriddenUsr.isSome)
      ∧ (∃ l, e.definition = some l ∨ e.declarations.contains l ∨ e.extraDeclarations.contains l
        ∨ e.references.contains l)
      ∧ ∀ l, (e.definition = some l ∨ e.declarations.contains l ∨ e.extraDeclarations.contains l
          ∨ e.references.contains l ∨ e.superLocation = some l ∨ e.subs.contains l) →
        ∃ p, state.files.path? l.file = some p := by
  have hkept := h.kept
  have hwell := hkept.graph.stored.record usr e hget
  refine ⟨hwell.declared, by rw [hwell.paired], ?_, fun l hl => ?_⟩
  · obtain ⟨l, hl⟩ := hwell.exists_mem_ownLocations
    exact ⟨l, Entity.mem_ownLocations.mp hl⟩
  · have hholds : e.Holds l := by
      rcases hl with hl | hl | hl | hl | hl | hl
      · exact .inl ⟨.definition, hl⟩
      · exact .inl ⟨.declaration, hl⟩
      · exact .inl ⟨.extra, hl⟩
      · exact .inl ⟨.reference, hl⟩
      · exact .inl ⟨.base, hl⟩
      · exact .inr hl
    obtain ⟨p, hp⟩ := hkept.graph.stored.located usr e l hget hholds
    obtain ⟨q, hq, -⟩ := Option.map_eq_some_iff.mp (hkept.numbered.path?_of_id? hp)
    exact ⟨q, hq⟩

def overridingUnit : UnitIndexer :=
  let base : Cursor :=
    { usr := "B::f", kind := .instanceMethod, displayName := "f", location := ⟨⟨"/b.h"⟩, 2, 3⟩ }
  let method : Cursor :=
    { usr := "D::f", kind := .instanceMethod, displayName := "f", location := ⟨⟨"/d.cpp"⟩, 4, 3⟩ }
  ((UnitIndexer.start { input := ⟨"/d.cpp"⟩ }).handleAll (fun _ => 1)
    [.inclusion { includedFile := ⟨"/b.h"⟩, inclusionStack := [⟨⟨"/d.cpp"⟩, 1, 1⟩] },
     .declaration { cursor := base, location := base.location },
     .declaration { cursor := method, location := method.location, isDefinition := true
                    overridden := [base] },
     .reference { referenced := base, location := ⟨⟨"/d.cpp"⟩, 5, 3⟩ }]).1

def overridingIndex : IndexState :=
  ((({} : IndexState).integrate overridingUnit.contribution
    { invocation := .forSource ⟨"/d.cpp"⟩, lastModified := 1 }).toOption.getD default).2

/-- The index is saved, loaded, and the header forgotten. The overridden method keeps its record for
the sake of its use, and the method that overrides it is found through the table. -/
theorem records_wellFormed_overridden : ∃ state s, Lived ⟨"/db"⟩ [] .memory emptyVolume.1 state s
      ∧ state.graph.entities.get? "B::f" = some
        { symbolName := "f", references := SortedSet.ofList [⟨⟨2⟩, 5, 3⟩]
          subs := SortedSet.ofList [⟨⟨2⟩, 4, 3⟩] }
      ∧ ∃ p, state.files.path? ⟨2⟩ = some p := by
  have hkeeps : Keeps ⟨"/db"⟩ [] .memory emptyVolume.1 {} ∅ emptyVolume.2 :=
    ⟨.volume (by decide) (by decide), ⟨rfl, rfl⟩⟩
  have htold : overridingUnit.Told := .handleAll (.start _) _ _
  have hintegrate : ∃ visited, IndexState.integrate {} overridingUnit.contribution
      { invocation := .forSource ⟨"/d.cpp"⟩, lastModified := 1 } = .ok (visited, overridingIndex) :=
    ⟨_, rfl⟩
  obtain ⟨visited, hintegrate⟩ := hintegrate
  have hindex := ((Lived.start hkeeps).integrate htold hintegrate).reconcile
  obtain ⟨s, hcommit⟩ := exists_commit_of_volume hkeeps.serves
    (saveMutations { overridingIndex with graph := overridingIndex.graph.reconcile.1 })
  have hsaved := hindex.save (saveMutations
    { overridingIndex with graph := overridingIndex.graph.reconcile.1 }).length
  rw [List.take_length, applyAll_of_commit hcommit] at hsaved
  have hkept := keeps_of_save hkeeps.serves hcommit
  have hloaded := hsaved.reload {} [] hkept.stores
  obtain ⟨s', hforget⟩ := exists_commit_of_volume hkept.serves
    (invalidation overridingIndex.graph.reconcile.1.entities
      (SortedSet.ofList [⟨"/b.h"⟩]) overridingIndex.files).1
  have hforgotten := hloaded.invalidate _ _ (invalidate_of_commit hkept.stores hforget)
  have hget : (invalidation overridingIndex.graph.reconcile.1.entities
      (SortedSet.ofList [⟨"/b.h"⟩]) overridingIndex.files).2.get? "B::f" = some
        { symbolName := "f", references := SortedSet.ofList [⟨⟨2⟩, 5, 3⟩]
          subs := SortedSet.ofList [⟨⟨2⟩, 4, 3⟩] } := by
    decide
  exact ⟨_, s', hforgotten, hget,
    (records_wellFormed hforgotten hget).2.2.2 ⟨⟨2⟩, 4, 3⟩ (by decide)⟩

end Database

end SymbolIndex
