import SymbolIndex.Proofs.MergeOrder
import SymbolIndex.Proofs.Provenance

/-!
# What a run makes of the records

A run starts from the records that are left, applies the operations of its units to them, and
attaches the references that its units report. `Composed` says what comes of it, symbol by symbol
and part by part, with files by name: so what two runs have stored can be compared although they
number files in their own ways. `Runs.composed` says that every run does this.
-/

namespace SymbolIndex

open EntityOp Option SortedSet SymbolIndex.Graph

/-! ## Places that can be told apart -/

namespace FileTable

variable {t : FileTable} {l l' : Location}

theorem Sound.placedIn_inj (h : t.Sound) (hl : t.Numbers l) (hl' : t.Numbers l')
    (heq : l.placedIn t = l'.placedIn t) : l = l' := by
  obtain ⟨p, hp⟩ := hl
  obtain ⟨q, hq⟩ := hl'
  obtain ⟨hfile, hline, hcolumn⟩ := Place.mk.inj heq
  rw [h.path?_of_id? hp, h.path?_of_id? hq] at hfile
  have hid := t.id?_congr (some.inj hfile)
  rw [hp, hq] at hid
  obtain ⟨file, line, column⟩ := l
  obtain ⟨file', line', column'⟩ := l'
  simp_all

theorem Numbered.knows_of_numbers (h : t.Numbered) {p : SourcePosition}
    (hp : t.Numbers (t.place p)) : t.Knows p := by
  obtain ⟨q, hq⟩ := hp
  cases hid : t.id? p.path with
  | some id => exact ⟨id, hid⟩
  | none =>
    unfold place at hq
    rw [hid] at hq
    exact absurd hq (h.positive q)

end FileTable

/-! ## Records with their files by name -/

namespace PlacedEntity

def naming (e : PlacedEntity) : String × List String := (e.symbolName, e.cursorScope)

/-- What a record overrides, and where. -/
def overriding (e : PlacedEntity) : Option (Place × Option Usr) :=
  e.superLocation.map (fun y => (y, e.overriddenUsr))

/-- What operations make of a record, part by part. References and overriding methods are not for
operations to add. -/
structure Grown (e₀ : PlacedEntity) (ops : List EntityOp) (e : PlacedEntity) : Prop where
  naming : e.naming = (ops.filterMap EntityOp.naming?).foldl Entity.settle e₀.naming
  definition : e.definition = e₀.definition.or (ops.findSome? EntityOp.definedAt?)
  declarations : ∀ y, SortedMap.contains e.declarations y = true
    ↔ (SortedMap.contains e₀.declarations y = true ∨ ∃ op ∈ ops, op.declaredAt? = some y)
      ∧ e.definition ≠ some y
  extra : ∀ y, SortedMap.contains e.extraDeclarations y = true
    ↔ SortedMap.contains e₀.extraDeclarations y = true ∨ ∃ op ∈ ops, op.extraAt? = some y
  overriding : e.overriding = e₀.overriding.or (ops.findSome? EntityOp.overriddenAt?)
  overridden : e.superLocation = none → e.overriddenUsr = none

end PlacedEntity

namespace Entity

variable {t : FileTable} {ops : List EntityOp} {e : Entity}

theorem overriding_placedIn (t : FileTable) (e : Entity) :
    (e.placedIn t).overriding = e.overriding.map (Prod.map (Location.placedIn t) id) := by
  unfold PlacedEntity.overriding overriding placedIn
  cases e.superLocation <;> rfl

theorem findSome?_override?_placed (ht : t.Numbered)
    (h : ∀ o, ops.findSome? (EntityOp.override? t.place) = some o → t.Numbers o.1) :
    (ops.findSome? (EntityOp.override? t.place)).map (Prod.map (Location.placedIn t) id)
      = ops.findSome? EntityOp.overriddenAt? := by
  induction ops with
  | nil => rfl
  | cons op _ ih =>
    cases op with
    | extraDeclaration | synthesize => exact ih h
    | declare _ _ _ _ _ base overriddenUsr =>
      cases base with
      | none => exact ih h
      | some base =>
        have hbase := ht.knows_of_numbers (h _ rfl)
        show some (Prod.map (Location.placedIn t) id (t.place base, overriddenUsr)) = _
        rw [Prod.map_apply, ht.placedIn_place hbase]
        rfl

theorem exists_placed_iff {P : Location → Prop} {f : EntityOp → Option Location}
    {k : EntityOp → Option Place} (hf : ∀ op ∈ ops, (f op).map (Location.placedIn t) = k op)
    (y : Place) :
    (∃ l, (P l ∨ ∃ op ∈ ops, f op = some l) ∧ l.placedIn t = y)
      ↔ (∃ l, P l ∧ l.placedIn t = y) ∨ ∃ op ∈ ops, k op = some y := by
  constructor
  · rintro ⟨l, hl | ⟨op, hop, hl⟩, rfl⟩
    · exact .inl ⟨l, hl, rfl⟩
    · refine .inr ⟨op, hop, ?_⟩
      rw [← hf op hop, hl]
      rfl
  · rintro (⟨l, hl, rfl⟩ | ⟨op, hop, hy⟩)
    · exact ⟨l, .inl hl, rfl⟩
    · rw [← hf op hop] at hy
      obtain ⟨l, hl, rfl⟩ := map_eq_some_iff.mp hy
      exact ⟨l, .inr ⟨op, hop, hl⟩, rfl⟩

/-- **What operations make of a record**, read by file. -/
theorem grown (ht : t.Numbered) (he : e.Proper) (hat : ∀ role l, e.At role l → t.Numbers l)
    (hops : ∀ op ∈ ops, t.Knows op.position)
    (hbase : ∀ l, (e.applyAll t.place ops).superLocation = some l → t.Numbers l) :
    (e.placedIn t).Grown ops ((e.applyAll t.place ops).placedIn t) := by
  have hnumbers : ∀ role l, role ≠ .base → (e.applyAll t.place ops).At role l → t.Numbers l := by
    intro role l hrole hl
    rcases at_of_applyAll hl with hl | ⟨op, hop, hbrings⟩
    · exact hat role l hl
    · rcases place_of_brings hbrings with rfl | ⟨hnot, -⟩
      · exact (hops op hop).numbers
      · exact absurd hnot hrole
  refine ⟨naming_applyAll t.place ops e, ?_, fun y => ?_, fun y => ?_, ?_,
    fun hnone => (he.applyAll t.place ops).overridden (map_eq_none_iff.mp hnone)⟩
  · show (e.applyAll t.place ops).definition.map _ = _
    rw [definition_applyAll, map_or,
      findSome?_map (fun op hop => ht.definition?_placed (hops op hop))]
    rfl
  · show SortedMap.contains (SortedSet.image _ (e.applyAll t.place ops).declarations) y = true ↔
      (SortedMap.contains (SortedSet.image _ e.declarations) y = true ∨ _)
        ∧ (e.applyAll t.place ops).definition.map (Location.placedIn t) ≠ some y
    rw [contains_image, contains_image,
      ← exists_placed_iff (fun op hop => ht.declaration?_placed (hops op hop))]
    constructor
    · rintro ⟨l, hl, rfl⟩
      have hl' := (contains_declarations_applyAll t.place ops he l).mp hl
      refine ⟨⟨l, hl'.1, rfl⟩, fun hdef => ?_⟩
      -- the definition lies elsewhere, and no two places are read alike
      obtain ⟨d, hd, heq⟩ := map_eq_some_iff.mp hdef
      obtain rfl := ht.placedIn_inj (hnumbers .definition d (by simp) hd)
        (hnumbers .declaration l (by simp) hl) heq
      exact hl'.2 hd
    · rintro ⟨⟨l, hl, rfl⟩, hdef⟩
      refine ⟨l, (contains_declarations_applyAll t.place ops he l).mpr ⟨hl, fun hd => hdef ?_⟩, rfl⟩
      rw [hd]
      rfl
  · show SortedMap.contains (SortedSet.image _ (e.applyAll t.place ops).extraDeclarations) y = true
      ↔ SortedMap.contains (SortedSet.image _ e.extraDeclarations) y = true ∨ _
    rw [contains_image, contains_image,
      ← exists_placed_iff (fun op hop => ht.extra?_placed (hops op hop))]
    simp only [contains_extra_applyAll]
  · rw [overriding_placedIn, overriding_placedIn, overriding_applyAll, map_or]
    cases hover : e.overriding with
    | some => rfl
    | none =>
      rw [findSome?_override?_placed ht]
      intro o ho
      refine hbase o.1 ?_
      have hall := overriding_applyAll t.place ops e
      rw [hover, ho] at hall
      obtain ⟨l, hl, rfl⟩ := map_eq_some_iff.mp hall
      exact hl

end Entity

variable {t : FileTable}

theorem PlacedEntity.Grown.reconciled {ops : List EntityOp} {e : Entity} {e₀ : PlacedEntity}
    (h : e₀.Grown ops (e.placedIn t)) (g : Graph) (usr : Usr) :
    e₀.Grown ops ((g.reconciled usr e).placedIn t) :=
  ⟨h.naming, h.definition, h.declarations, h.extra, h.overriding, h.overridden⟩

/-! ## All records -/

/-- The record that an operation starts from. -/
def EntityOp.origin (op : EntityOp) : PlacedEntity :=
  match op.parameter? with
  | some (name, y, scope) => { symbolName := name, definition := some y, cursorScope := scope }
  | none => {}

theorem EntityOp.placedIn_seed (ht : t.Sound) {op : EntityOp} (hop : t.Knows op.position) :
    (op.seed t.place).placedIn t = op.origin := by
  unfold origin
  split
  · next name y scope hparam => exact Entity.placedIn_seed ht hop hparam
  · next hnone =>
    rw [seed_of_parameter?_eq_none t.place hnone]
    rfl

/-- The known symbol that a reference goes to. -/
def PendingReference.owner? (known : Usr → Bool) (r : PendingReference) : Option Usr :=
  if known r.usr then some r.usr else r.specialized.filter known

theorem Graph.owner?_eq (g : Graph) (r : PendingReference) :
    g.owner? r = r.owner? g.entities.contains := by
  unfold owner? targetOf PendingReference.owner?
  cases r.specialized <;> grind

/-- The record that operations on a symbol start from: the one that is kept, or what the first of
them starts from. -/
def ground (kept : SortedMap Usr PlacedEntity) (ops : List EntityOp) (usr : Usr) :
    Option PlacedEntity :=
  (kept.get? usr).or ((on usr ops).head?.map EntityOp.origin)

/-- What becomes of records that are kept when units are merged with them, by file. -/
structure Composed (kept : SortedMap Usr PlacedEntity) (cs : List Contribution)
    (m : SortedMap Usr PlacedEntity) : Prop where
  contains : ∀ usr, m.contains usr = (ground kept (opsOf cs) usr).isSome
  grown : ∀ usr e₀ e, ground kept (opsOf cs) usr = some e₀ → m.get? usr = some e →
    e₀.Grown (on usr (opsOf cs)) e
  references : ∀ usr e₀ e, ground kept (opsOf cs) usr = some e₀ → m.get? usr = some e →
    ∀ y, SortedMap.contains e.references y = true ↔ SortedMap.contains e₀.references y = true
      ∨ ∃ p ∈ pendingOf cs, p.1.toPlace = y ∧ p.2.owner? m.contains = some usr
  subs : ∀ usr e, m.get? usr = some e → ∀ y, SortedMap.contains e.subs y = true
    ↔ ∃ usr' e', m.get? usr' = some e' ∧ e'.overriddenUsr = some usr ∧ e'.definition = some y

/-! ## Runs -/

theorem IndexState.knows_of_integrateAll {s s' : IndexState} {us : List ParsedUnit}
    {T : FileTable} (h : s.integrateAll us = .ok s') (hT : s'.files.Extends T) :
    (∀ op ∈ opsOf (us.map ParsedUnit.contribution), T.Knows op.position)
      ∧ ∀ e ∈ pendingOf (us.map ParsedUnit.contribution), T.Knows e.1 := by
  induction us generalizing s with
  | nil => exact ⟨List.forall_mem_nil _, List.forall_mem_nil _⟩
  | cons _ _ ih =>
    obtain ⟨⟨visited, s₁⟩, hone, h⟩ := bind_eq_ok_iff.mp h
    have hnext := (extends_of_grows (integrateAll_spec h).1).trans hT
    obtain ⟨graph, files, files', hmerge, hintern, rfl⟩ := integrate_eq_ok hone
    obtain ⟨-, hops, hplaces⟩ := (knowsBase_nil T graph).merge hmerge
      ((extends_of_grows (grows_internAll hintern)).trans hnext)
    obtain ⟨hrest, hwaiting⟩ := ih h
    exact ⟨List.forall_mem_append.mpr ⟨hops, hrest⟩, List.forall_mem_append.mpr ⟨hplaces, hwaiting⟩⟩

namespace Run

variable {usr : Usr} {e : Entity}

/-- What a run starts from, by places. -/
def kept (r : Run) : SortedMap Usr PlacedEntity := r.start.graph.placedIn r.saved.files

/-- What a run has stored, by places. -/
def placed (r : Run) : SortedMap Usr PlacedEntity := r.saved.graph.placedIn r.saved.files

/-- What the units of a run tell. -/
def contributions (r : Run) : List Contribution := r.units.map ParsedUnit.contribution

/-- A run starts from records that keep to the rules, in files that have numbers, and without
waiting references. -/
structure Grounded (r : Run) : Prop where
  pending : r.start.graph.pending = ∅
  proper : ∀ usr e, r.start.graph.entities.get? usr = some e → e.Proper
  located : ∀ usr e role l, r.start.graph.entities.get? usr = some e → e.At role l →
    r.start.files.Numbers l

variable {prev r : Run}

theorem Grounded.proper_saved (h : r.Grounded) (hget : r.saved.graph.entities.get? usr = some e) :
    e.Proper := by
  obtain ⟨g, hsaved, hrecords, -⟩ := r.get?_saved
  rw [hsaved] at hget
  obtain ⟨e₁, he₁, rfl⟩ := map_eq_some_iff.mp hget
  have hproper : e₁.Proper := by
    rw [hrecords] at he₁
    cases hstart : r.start.graph.entities.get? usr with
    | some e₀ =>
      rw [hstart, actAll_some] at he₁
      cases he₁
      exact (h.proper usr e₀ hstart).applyAll _ _
    | none =>
      rw [hstart] at he₁
      cases hops : on usr (opsOf (r.units.map ParsedUnit.contribution)) with
      | nil =>
        rw [hops] at he₁
        simp [EntityOp.actAll] at he₁
      | cons op =>
        rw [hops, actAll_none] at he₁
        cases he₁
        exact (Entity.proper_seed _ op).applyAll _ _
  exact ⟨hproper.declared, hproper.overridden⟩

theorem Continues.proper_start (h : prev.Continues r)
    (hprev : ∀ e₀, prev.saved.graph.entities.get? usr = some e₀ → e₀.Proper)
    (hget : r.start.graph.entities.get? usr = some e) : e.Proper := by
  rw [h.entities_start] at hget
  unfold Database.invalidation at hget
  split at hget
  · exact hprev e hget
  · obtain ⟨⟨e₀, he₀, rfl⟩, -⟩ := Entities.get?_pruneFiles.mp hget
    exact ((hprev e₀ he₀).remnant _).proper

end Run

variable {r : Run} {earlier : List Run}

theorem Runs.grounded (h : Runs (r :: earlier)) : r.Grounded := by
  generalize hruns : r :: earlier = runs at h
  induction h generalizing r earlier with
  | build hstart =>
    cases hruns
    refine ⟨?_, fun usr e hget => ?_, fun usr e role l hget => ?_⟩
    · rw [hstart]
    · rw [hstart] at hget
      cases hget
    · rw [hstart] at hget
      cases hget
  | update hprev hcont ih =>
    cases hruns
    refine ⟨hcont.pending_start, fun usr e hget => ?_, fun usr e role l hget hat => ?_⟩
    · exact hcont.proper_start (fun e₀ he₀ => (ih rfl).proper_saved he₀) hget
    · obtain ⟨⟨e₀, he₀, hat₀⟩, -⟩ := hcont.at_of_start hget hat
      rw [hcont.files]
      exact hprev.located usr e₀ role l he₀ hat₀

theorem Run.knows_contributions (r : Run) :
    (∀ op ∈ opsOf r.contributions, r.saved.files.Knows op.position)
      ∧ ∀ e ∈ pendingOf r.contributions, r.saved.files.Knows e.1 := by
  obtain ⟨i, hall, -, hfiles, -⟩ := r.exists_integrated
  exact IndexState.knows_of_integrateAll hall (hfiles ▸ .refl _)

/-- The record of a symbol before references are attached: there is none, or the operations on the
symbol have made it of the one they start from. -/
theorem Run.Grounded.record (h : r.Grounded) (hnumbered : r.saved.files.Numbered) {g : Graph}
    {usr : Usr} (hget : g.entities.get? usr = EntityOp.actAll r.saved.files.place
      (on usr (opsOf r.contributions)) (r.start.graph.entities.get? usr)) :
    (ground r.kept (opsOf r.contributions) usr = none ∧ g.entities.get? usr = none)
      ∨ ∃ e₁ : Entity, e₁.Proper ∧ (∀ role l, e₁.At role l → r.saved.files.Numbers l)
        ∧ ground r.kept (opsOf r.contributions) usr = some (e₁.placedIn r.saved.files)
        ∧ g.entities.get? usr = some (e₁.applyAll r.saved.files.place
          (on usr (opsOf r.contributions))) := by
  unfold ground Run.kept
  rw [get?_placedIn]
  cases hstart : r.start.graph.entities.get? usr with
  | some e₁ =>
    rw [hstart, actAll_some] at hget
    have hext := IndexState.extends_of_grows r.grows_files
    exact .inr ⟨e₁, h.proper usr e₁ hstart,
      fun role l hat => (h.located usr e₁ role l hstart hat).mono hext, rfl, hget⟩
  | none =>
    rw [hstart] at hget
    cases hops : on usr (opsOf r.contributions) with
    | nil =>
      rw [hops] at hget
      exact .inl ⟨rfl, hget⟩
    | cons op =>
      rw [hops, actAll_none] at hget
      have hop : op ∈ on usr (opsOf r.contributions) := by
        rw [hops]
        exact List.mem_cons_self
      have hknown := r.knows_contributions.1 op (List.mem_filter.mp hop).1
      refine .inr ⟨op.seed r.saved.files.place, Entity.proper_seed _ op, fun role l hat => ?_, ?_,
        hget⟩
      · rcases place_of_brings (brings_of_seed hat) with rfl | ⟨rfl, -⟩
        · exact hknown.numbers
        · have hnone : (op.seed r.saved.files.place).superLocation = none := by cases op <;> rfl
          cases hnone.symm.trans hat
      · rw [placedIn_seed hnumbered.toSound hknown]
        rfl

/-- **Every run composes what it stores** from what it starts from and from its units, when no two
of these refer to different things at one place. -/
theorem Runs.composed (h : Runs (r :: earlier))
    (hone : ∀ e ∈ pendingOf r.contributions, ∀ e' ∈ pendingOf r.contributions,
      e.1.toPlace = e'.1.toPlace → e.2 = e'.2) : Composed r.kept r.contributions r.placed := by
  have hgrounded := h.grounded
  have hnumbered := h.numbered
  obtain ⟨hknows, hwaits⟩ := r.knows_contributions
  obtain ⟨g, hsaved, hrecords, hpending⟩ := r.get?_saved
  have hplaced : ∀ usr, r.placed.get? usr
      = (g.entities.get? usr).map (fun e => (g.reconciled usr e).placedIn r.saved.files) := by
    intro usr
    unfold Run.placed
    rw [get?_placedIn, hsaved, map_map]
    rfl
  have hcontains : ∀ usr, r.placed.contains usr = g.entities.contains usr := by
    intro usr
    unfold SortedMap.contains
    rw [hplaced, isSome_map]
  have hfrom : ∀ usr e₀ e, ground r.kept (opsOf r.contributions) usr = some e₀ →
      r.placed.get? usr = some e → ∃ e₁ e₂ : Entity, e₁.Proper
        ∧ (∀ role l, e₁.At role l → r.saved.files.Numbers l) ∧ e₀ = e₁.placedIn r.saved.files
        ∧ e₂ = e₁.applyAll r.saved.files.place (on usr (opsOf r.contributions))
        ∧ g.entities.get? usr = some e₂ ∧ e = (g.reconciled usr e₂).placedIn r.saved.files := by
    intro usr e₀ e he₀ he
    rcases hgrounded.record hnumbered (hrecords usr) with
      ⟨hnone, -⟩ | ⟨e₁, hproper, hat, hsome, hget⟩
    · cases hnone.symm.trans he₀
    · rw [hplaced, hget] at he
      exact ⟨e₁, _, hproper, hat, some.inj (he₀.symm.trans hsome), rfl, hget, (some.inj he).symm⟩
  refine ⟨fun usr => ?_, fun usr e₀ e he₀ he => ?_, fun usr e₀ e he₀ he y => ?_,
    fun usr e he y => ?_⟩
  · rw [hcontains]
    unfold SortedMap.contains
    rcases hgrounded.record hnumbered (hrecords usr) with ⟨hnone, hget⟩ | ⟨e₁, -, -, hsome, hget⟩
    · rw [hnone, hget]
      rfl
    · rw [hsome, hget]
      rfl
  · obtain ⟨e₁, e₂, hproper, hat, rfl, hmade, hget, rfl⟩ := hfrom usr e₀ e he₀ he
    have hstored : r.saved.graph.entities.get? usr = some (g.reconciled usr e₂) := by
      rw [hsaved, hget]
      rfl
    subst hmade
    have hgrown := Entity.grown hnumbered hproper hat
      (fun op hop => hknows op (List.mem_filter.mp hop).1)
      (fun l hl => h.located usr _ .base l hstored hl)
    exact hgrown.reconciled g usr
  · obtain ⟨e₁, _, -, -, rfl, rfl, -, rfl⟩ := hfrom usr e₀ e he₀ he
    have hfirst : ∀ l, g.pending.get? l
        = Graph.firstAt r.saved.files.place l (pendingOf r.contributions) := by
      intro l
      rw [hpending, hgrounded.pending]
      rfl
    have howner : ∀ ref, g.owner? ref = ref.owner? r.placed.contains := by
      intro ref
      rw [g.owner?_eq, funext hcontains]
    have hattached : (∃ l ∈ g.attached usr g.pending.toList, l.placedIn r.saved.files = y)
        ↔ ∃ p ∈ pendingOf r.contributions, p.1.toPlace = y
          ∧ p.2.owner? r.placed.contains = some usr := by
      rw [exists_attached_iff]
      simp only [mem_pendingIn_iff hnumbered.toSound hwaits hfirst hone, howner]
      grind
    rw [← hattached]
    show SortedMap.contains (SortedSet.image _ (SortedSet.addAll _ _)) y = true
      ↔ SortedMap.contains (SortedSet.image _ e₁.references) y = true ∨ _
    simp only [contains_image, contains_addAll, Entity.references_applyAll,
      Std.compare_eq_iff_eq]
    grind
  · rw [hplaced] at he
    obtain ⟨e₂, -, rfl⟩ := map_eq_some_iff.mp he
    have hoverriders : (∃ l ∈ g.overriders usr, l.placedIn r.saved.files = y)
        ↔ ∃ usr' e', r.placed.get? usr' = some e' ∧ e'.overriddenUsr = some usr
          ∧ e'.definition = some y := by
      rw [exists_overrider_iff]
      simp only [hplaced, get?_placedIn, map_eq_some_iff, exists_exists_and_eq_and]
      rfl
    rw [← hoverriders]
    show SortedMap.contains (SortedSet.image _ (SortedSet.ofList _)) y = true ↔ _
    simp only [contains_image, contains_ofList, Std.compare_eq_iff_eq]
    grind

end SymbolIndex
