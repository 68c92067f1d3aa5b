import SymbolIndex.Proofs.Replay
import SymbolIndex.Proofs.SymbolKeys

/-!
# Where the places of a record come from

A place is in a record in a role: as the definition, a declaration, a constructor place, a reference
or the place of the overridden method. For each role this module asks where a stored place came from
and what can become of it. A run keeps every place it starts from, but that a declaration may turn
into the definition (`Run.at_saved_of_start`), and whatever else it stores comes from a unit that it
has integrated (`Run.at_saved`).

An update starts from the places outside the files that count as changed. These files are paths and
places have numbers, so this rests on every stored place having the number of a path
(`Runs.located`): a path that has no number when the update starts can get none that is in use.
-/

namespace SymbolIndex

open Entity EntityOp IndexState List Option SortedMap SortedSet SymbolIndex.Graph

/-- What a place is to a symbol. -/
inductive Role where
  | definition
  | declaration
  | extra
  | reference
  | base
deriving DecidableEq

/-- A location has a role in a record. -/
def Entity.At (e : Entity) : Role → Location → Prop
  | .definition, l => e.definition = some l
  | .declaration, l => e.declarations.contains l = true
  | .extra, l => e.extraDeclarations.contains l = true
  | .reference, l => e.references.contains l = true
  | .base, l => e.superLocation = some l

/-- An operation names a place for a role. A template parameter names its definition. -/
def EntityOp.Brings (place : SourcePosition → Location) (op : EntityOp) : Role → Location → Prop
  | .definition, l => op.definition? place = some l ∨ (op.seed place).definition = some l
  | .declaration, l => op.declaration? place = some l
  | .extra, l => op.extra? place = some l
  | .reference, _ => False
  | .base, l => op.base?.map place = some l

/-! ## One operation -/

section Operation

variable {place : SourcePosition → Location} {op : EntityOp} {e : Entity} {role : Role}
  {l : Location}

theorem Entity.mem_ownLocations_of_at (h : e.At role l) (hrole : role ≠ .base) :
    l ∈ e.ownLocations := by
  rw [mem_ownLocations]
  cases role with
  | definition => exact .inl h
  | declaration => exact .inr (.inl h)
  | extra => exact .inr (.inr (.inl h))
  | reference => exact .inr (.inr (.inr h))
  | base => exact absurd rfl hrole

theorem EntityOp.superLocation_applyTo (place : SourcePosition → Location) (op : EntityOp)
    (e : Entity) :
    (op.applyTo place e).superLocation = e.superLocation.or (op.base?.map place) := by
  cases op with
  | declare _ _ _ _ _ base =>
    rw [applyTo_declare]
    unfold Entity.overrideOnce
    cases h : e.superLocation <;> cases base <;> simp [h, EntityOp.base?]
  | extraDeclaration | synthesize => exact or_none.symm

/-- **What an operation adds.** The overridden method is taken only when none is known. -/
theorem Entity.at_of_applyTo (h : (op.applyTo place e).At role l) :
    e.At role l ∨ (op.Brings place role l ∧ (role = .base → e.superLocation = none)) := by
  cases role with
  | definition =>
    have h : (op.applyTo place e).definition = some l := h
    rw [definition_applyTo, or_eq_some_iff] at h
    exact h.imp_right (fun hop => ⟨.inl hop.2, by simp⟩)
  | declaration =>
    have h : (op.applyTo place e).declarations.contains l = true := h
    cases op with
    | declare _ _ _ location d =>
      rw [applyTo_declare] at h
      have hdeclared : e.declarations.contains l = true ∨ (d = false ∧ place location = l) := by
        revert h
        unfold declareAt setDefinition addDeclaration
        cases d <;> cases e.definition <;>
          grind [contains_add, contains_erase]
      refine hdeclared.imp_right (fun hd => ⟨?_, by simp⟩)
      rw [hd.1, ← hd.2]
      rfl
    | extraDeclaration | synthesize => exact .inl h
  | extra => exact ((contains_extra_applyTo place op e l).mp h).imp_right (fun hop => ⟨hop, by simp⟩)
  | reference =>
    refine .inl ?_
    have h : (op.applyTo place e).references.contains l = true := h
    rwa [references_applyTo] at h
  | base =>
    have h : (op.applyTo place e).superLocation = some l := h
    rw [superLocation_applyTo, or_eq_some_iff] at h
    exact h.imp_right (fun hop => ⟨hop.2, fun _ => hop.1⟩)

/-- **What an operation leaves.** Every place stays in its role, but that a declaration gives way to
the definition that the operation puts at its place. -/
theorem Entity.at_applyTo (h : e.At role l) (place : SourcePosition → Location) (op : EntityOp) :
    (op.applyTo place e).At role l ∨ (role = .declaration ∧ (op.applyTo place e).At .definition l
        ∧ op.Brings place .definition l) := by
  cases role with
  | definition =>
    refine .inl ?_
    show (op.applyTo place e).definition = some l
    rw [definition_applyTo, show e.definition = some l from h]
    rfl
  | declaration =>
    have h : e.declarations.contains l = true := h
    cases op with
    | declare _ _ _ location d =>
      have hdeclared : (e.declareAt (place location) d).declarations.contains l = true
          ∨ ((e.declareAt (place location) d).definition = some l
            ∧ d = true ∧ place location = l) := by
        unfold declareAt setDefinition addDeclaration
        cases d <;> cases e.definition <;>
          grind [contains_add, contains_erase]
      unfold At
      rw [applyTo_declare]
      refine hdeclared.imp_right (fun hd => ⟨rfl, hd.1, .inl ?_⟩)
      rw [hd.2.1, ← hd.2.2]
      rfl
    | extraDeclaration | synthesize => exact .inl h
  | extra => exact .inl ((contains_extra_applyTo place op e l).mpr (.inl h))
  | reference =>
    refine .inl ?_
    show (op.applyTo place e).references.contains l = true
    rwa [references_applyTo]
  | base =>
    refine .inl ?_
    show (op.applyTo place e).superLocation = some l
    rw [superLocation_applyTo, show e.superLocation = some l from h]
    rfl

theorem EntityOp.brings_of_seed (h : (op.seed place).At role l) : op.Brings place role l := by
  cases role with
  | definition => exact .inr h
  | declaration | extra | reference | base => cases op <;> simp_all [seed, Entity.At]

theorem EntityOp.place_of_brings (h : op.Brings place role l) :
    l = place op.position ∨ (role = .base ∧ ∃ base, op.base? = some base ∧ l = place base) := by
  cases role with
  | base =>
    obtain ⟨base, hbase, rfl⟩ := map_eq_some_iff.mp h
    exact .inr ⟨rfl, base, hbase, rfl⟩
  | reference => exact h.elim
  | definition | declaration | extra =>
    refine .inl ?_
    cases op with
    | declare _ _ _ _ d =>
      cases d <;> simp_all [Brings, definition?, declaration?, extra?, seed, position]
    | extraDeclaration | synthesize =>
      simp_all [Brings, definition?, declaration?, extra?, seed, position]

end Operation

/-! ## Many operations -/

section Operations

variable {place : SourcePosition → Location} {ops : List EntityOp} {e : Entity} {role : Role}
  {l : Location}

theorem Entity.at_of_applyAll (h : (e.applyAll place ops).At role l) :
    e.At role l ∨ ∃ op ∈ ops, op.Brings place role l := by
  induction ops generalizing e with
  | nil => exact .inl h
  | cons op _ ih =>
    rcases ih h with hone | ⟨op', hop', hbrings⟩
    · exact (at_of_applyTo hone).imp_right (fun hop => ⟨op, mem_cons_self, hop.1⟩)
    · exact .inr ⟨op', mem_cons_of_mem _ hop', hbrings⟩

theorem Entity.at_applyAll (h : e.At role l) (place : SourcePosition → Location)
    (ops : List EntityOp) :
    (e.applyAll place ops).At role l
      ∨ (role = .declaration ∧ (e.applyAll place ops).At .definition l
        ∧ ∃ op ∈ ops, op.Brings place .definition l) := by
  induction ops generalizing e role with
  | nil => exact .inl h
  | cons op _ ih =>
    rcases at_applyTo h place op with hone | ⟨hrole, hone, hbrings⟩
    · exact (ih hone).imp_right (fun ⟨hrole, hat, op', hop', hbrings⟩ =>
        ⟨hrole, hat, op', mem_cons_of_mem _ hop', hbrings⟩)
    · -- once it is the definition the place stays the definition
      rcases ih hone with hat | ⟨hnot, -⟩
      · exact .inr ⟨hrole, hat, op, mem_cons_self, hbrings⟩
      · cases hnot

/-- **Where the places of a record come from**: from the record before, or from an operation. -/
theorem EntityOp.at_of_actAll {start : Option Entity} (h : actAll place ops start = some e)
    (hat : e.At role l) :
    (∃ e₀, start = some e₀ ∧ e₀.At role l) ∨ ∃ op ∈ ops, op.Brings place role l := by
  cases start with
  | some e₀ =>
    rw [actAll_some] at h
    cases h
    exact (at_of_applyAll hat).imp_left (fun h₀ => ⟨e₀, rfl, h₀⟩)
  | none =>
    cases ops with
    | nil => simp [actAll] at h
    | cons op =>
      rw [actAll_none] at h
      cases h
      rcases at_of_applyAll hat with hseed | hop
      · exact .inr ⟨op, mem_cons_self, brings_of_seed hseed⟩
      · exact .inr hop

end Operations

variable {e : Entity} {role : Role} {l : Location}

/-! ## Pruning and reconciling -/

theorem Entity.at_pruneFiles {ids : SortedSet FileId} :
    (e.pruneFiles ids).At role l ↔ e.At role l ∧ ids.contains l.file = false := by
  cases role <;> simp [At, pruneFiles, filter_eq_some_iff, contains_restrict]

theorem Graph.at_reconciled {g : Graph} {usr : Usr} : (g.reconciled usr e).At role l
      ↔ e.At role l ∨ (role = .reference ∧ l ∈ g.attached usr g.pending.toList) := by
  cases role <;> simp [Entity.At, reconciled, contains_addAll]

/-! ## Numbers in use -/

def FileTable.Numbers (t : FileTable) (l : Location) : Prop := ∃ p, t.id? p = some l.file

/-- A location lies in one of some files. -/
def FileTable.LiesIn (t : FileTable) (files : SortedSet Path) (l : Location) : Prop :=
  ∃ p ∈ files.members, t.id? p = some l.file

namespace FileTable

variable {t t' : FileTable} {l : Location}

theorem Numbers.mono (h : t.Numbers l) (hext : t.Extends t') : t'.Numbers l := by
  obtain ⟨p, hp⟩ := h
  exact ⟨p, hext p _ hp⟩

theorem Knows.numbers {p : SourcePosition} (h : t.Knows p) : t.Numbers (t.place p) := by
  obtain ⟨id, hid⟩ := h
  refine ⟨p.path, ?_⟩
  rw [hid, place, hid]
  rfl

theorem Numbers.liesIn_iff (h : t.Numbers l) (hext : t.Extends t') (hsound : t'.Sound)
    (files : SortedSet Path) : t'.LiesIn files l ↔ t.LiesIn files l := by
  obtain ⟨p, hp⟩ := h
  constructor
  · rintro ⟨d, hd, hid⟩
    refine ⟨d, hd, ?_⟩
    rw [← hp]
    exact t.id?_congr (hsound.components_eq hid (hext p _ hp))
  · rintro ⟨d, hd, hid⟩
    exact ⟨d, hd, hext d _ hid⟩

end FileTable

/-- All places of a graph lie in files that have a number. -/
structure Graph.Located (t : FileTable) (g : Graph) : Prop where
  stored : ∀ usr e role l, g.entities.get? usr = some e → e.At role l → t.Numbers l
  waiting : ∀ l r, g.pending.get? l = some r → t.Numbers l

namespace Graph.Located

variable {g g' : Graph} {t t' : FileTable}

theorem mono (h : g.Located t) (hext : t.Extends t') : g.Located t' where
  stored := fun usr e role l hget hat => (h.stored usr e role l hget hat).mono hext
  waiting := fun l r hget => (h.waiting l r hget).mono hext

/-- **One operation** stores a place only once its file has a number. -/
theorem applyOp {op : EntityOp} (h : g.Located t) (hop : g.applyOp t op = .ok (g', t')) :
    g'.Located t' := by
  obtain ⟨hext, hpending, hget⟩ := applyOp_spec hop
  obtain ⟨hposition, hbase⟩ := covers_of_applyOp hop (.refl t')
  refine ⟨fun usr e role l he hat => ?_, fun l r hl => ?_⟩
  · rw [hget t' (.refl t') usr] at he
    by_cases husr : op.target = usr
    · subst husr
      rw [if_pos rfl] at he
      -- the base is looked at only when the record has none, so only then is its file numbered
      have hbrought : ∀ e₀ : Entity, (g.entity op.target).superLocation = e₀.superLocation →
          op.Brings t'.place role l → (role = .base → e₀.superLocation = none) → t'.Numbers l := by
        intro e₀ hsuper hbrings hnone
        rcases place_of_brings hbrings with rfl | ⟨hrole, base, hop, rfl⟩
        · exact hposition.numbers
        · exact (hbase (hsuper.trans (hnone hrole)) base hop).numbers
      cases hstart : g.entities.get? op.target with
      | some e₀ =>
        rw [hstart] at he
        cases he
        have hentity : g.entity op.target = e₀ := by rw [Graph.entity, hstart]; rfl
        rcases at_of_applyTo hat with hat | ⟨hbrings, hnone⟩
        · exact (h.stored _ e₀ role l hstart hat).mono hext
        · exact hbrought e₀ (by rw [hentity]) hbrings hnone
      | none =>
        rw [hstart] at he
        cases he
        have hentity : g.entity op.target = {} := by rw [Graph.entity, hstart]; rfl
        have hseed : (op.seed t'.place).superLocation = none := by cases op <;> rfl
        have hsuper : (g.entity op.target).superLocation
            = (op.seed t'.place).superLocation := by rw [hentity, hseed]
        rcases at_of_applyTo hat with hat | ⟨hbrings, hnone⟩
        · exact hbrought _ hsuper (brings_of_seed hat) (fun _ => hseed)
        · exact hbrought _ hsuper hbrings hnone
    · rw [if_neg husr] at he
      exact (h.stored usr e role l he hat).mono hext
  · rw [hpending] at hl
    exact (h.waiting l r hl).mono hext

/-- **One reference** waits at a place once its file has a number. -/
theorem enter {p : SourcePosition} (h : g.Located t) (hl : t.location p = .ok (l, t'))
    (ref : PendingReference) : Located t' { g with pending := g.pending.insertIfNew l ref } := by
  obtain ⟨hext, hknown, rfl⟩ := FileTable.location_spec hl
  have hg := h.mono hext
  refine ⟨hg.stored, fun l r hl => ?_⟩
  simp only [get?_insertIfNew, Std.compare_eq_iff_eq] at hl
  by_cases heq : l = t'.place p
  · rw [heq]
    exact hknown.numbers
  · rw [if_neg heq] at hl
    exact hg.waiting l r hl

theorem integrateAll {s s' : IndexState} {us : List ParsedUnit} (h : s.graph.Located s.files)
    (hall : s.integrateAll us = .ok s') : s'.graph.Located s'.files := by
  refine integrateAll_keeps (P := fun s => s.graph.Located s.files) hall h ?_
  intro s₁ s₂ u visited h hone
  obtain ⟨graph, files, files', hmerge, hintern, rfl⟩ := integrate_eq_ok hone
  have hmerged := merge_keeps (P := fun g t => g.Located t) hmerge h (fun _ h => h.applyOp)
    (fun ref h hl => h.enter hl ref)
  exact hmerged.mono (extends_of_grows (grows_internAll hintern))

theorem reconcile (h : g.Located t) : ∀ usr e role l, g.reconcile.1.entities.get? usr = some e →
    e.At role l → t.Numbers l := by
  intro usr e role l hget hat
  rw [get?_reconcile] at hget
  obtain ⟨e₀, he₀, rfl⟩ := map_eq_some_iff.mp hget
  rcases at_reconciled.mp hat with hat | ⟨-, hattached⟩
  · exact h.stored usr e₀ role l he₀ hat
  · obtain ⟨ref, href, -⟩ := mem_attached.mp hattached
    exact h.waiting l ref (get?_of_mem href)

end Graph.Located

/-! ## Runs -/

/-- A unit tells of a place of a symbol. A reference names its symbol or the template it comes
from. -/
def Contribution.Brings (place : SourcePosition → Location) (c : Contribution) (usr : Usr) :
    Role → Location → Prop
  | .reference, l => ∃ p ∈ c.pending.toList, place p.1 = l
      ∧ (p.2.usr = usr ∨ p.2.specialized = some usr)
  | role, l => ∃ op ∈ c.ops, op.target = usr ∧ op.Brings place role l

theorem EntityOp.Brings.contribution {place : SourcePosition → Location} {c : Contribution}
    {op : EntityOp} (hop : op ∈ c.ops) (h : op.Brings place role l) :
    c.Brings place op.target role l := by
  cases role with
  | reference => exact h.elim
  | definition | declaration | extra | base => exact ⟨op, hop, rfl, h⟩

theorem Graph.owner?_eq_some {g : Graph} {r : PendingReference} {usr : Usr}
    (h : g.owner? r = some usr) : r.usr = usr ∨ r.specialized = some usr := by
  unfold owner? targetOf at h
  grind

namespace Run

variable {r : Run} {usr : Usr} {e : Entity} {role : Role} {l : Location}

/-- A unit of the run tells the location in a role. -/
def Brings (r : Run) (usr : Usr) (role : Role) (l : Location) : Prop :=
  ∃ u ∈ r.units, u.contribution.Brings r.saved.files.place usr role l

theorem brings_of_mem_on {op : EntityOp} (h : op.Brings r.saved.files.place role l)
    (hop : op ∈ EntityOp.on usr (Graph.opsOf (r.units.map ParsedUnit.contribution))) :
    r.Brings usr role l := by
  obtain ⟨hmem, htarget⟩ := mem_filter.mp hop
  obtain ⟨c, hc, hown⟩ := mem_flatMap.mp hmem
  obtain ⟨u, hu, rfl⟩ := mem_map.mp hc
  obtain rfl : op.target = usr := of_decide_eq_true htarget
  exact ⟨u, hu, h.contribution hown⟩

theorem get?_saved (r : Run) : ∃ g : Graph, (∀ usr, r.saved.graph.entities.get? usr
        = (g.entities.get? usr).map (g.reconciled usr))
      ∧ (∀ usr, g.entities.get? usr = EntityOp.actAll r.saved.files.place
        (EntityOp.on usr (Graph.opsOf (r.units.map ParsedUnit.contribution)))
        (r.start.graph.entities.get? usr))
      ∧ ∀ l, g.pending.get? l = (r.start.graph.pending.get? l).or
        (Graph.firstAt r.saved.files.place l
          (Graph.pendingOf (r.units.map ParsedUnit.contribution))) := by
  obtain ⟨i, hall, hgraph, hfiles, -⟩ := r.exists_integrated
  rw [hgraph]
  exact ⟨i.graph, get?_reconcile _, (integrateAll_spec hall).2 r.saved.files (hfiles ▸ .refl _)⟩

/-- **Where a stored place comes from**: from what the run starts from, or from a unit that it has
integrated. -/
theorem at_saved (hpending : r.start.graph.pending = ∅)
    (hget : r.saved.graph.entities.get? usr = some e) (hat : e.At role l) :
    (∃ e₀, r.start.graph.entities.get? usr = some e₀ ∧ e₀.At role l) ∨ r.Brings usr role l := by
  obtain ⟨g, hsaved, hrecords, hwaiting⟩ := r.get?_saved
  rw [hsaved] at hget
  obtain ⟨e₁, he₁, rfl⟩ := map_eq_some_iff.mp hget
  rcases at_reconciled.mp hat with hat | ⟨rfl, hattached⟩
  · rw [hrecords] at he₁
    rcases at_of_actAll he₁ hat with hstart | ⟨op, hop, hbrings⟩
    · exact .inl hstart
    · exact .inr (brings_of_mem_on hbrings hop)
  · -- the table is empty at the start, so what waits was entered by a unit
    obtain ⟨ref, href, howner⟩ := mem_attached.mp hattached
    have hfirst := hwaiting l
    rw [get?_of_mem href, hpending, get?_empty, none_or] at hfirst
    obtain ⟨p, hp, hplace⟩ := exists_of_findSome?_eq_some hfirst.symm
    obtain ⟨c, hc, hp⟩ := mem_flatMap.mp hp
    obtain ⟨u, hu, rfl⟩ := mem_map.mp hc
    split at hplace
    · next heq =>
      cases hplace
      exact .inr ⟨u, hu, p, hp, heq, owner?_eq_some howner⟩
    · cases hplace

/-- **What a run leaves.** Every place it starts from is stored in its role, but that a declaration
gives way to a definition that a unit puts at its place. -/
theorem at_saved_of_start (hget : r.start.graph.entities.get? usr = some e) (hat : e.At role l) :
    ∃ e', r.saved.graph.entities.get? usr = some e' ∧ (e'.At role l
        ∨ (role = .declaration ∧ e'.At .definition l ∧ r.Brings usr .definition l)) := by
  obtain ⟨g, hsaved, hrecords, -⟩ := r.get?_saved
  have hrecord := hrecords usr
  rw [hget, actAll_some] at hrecord
  refine ⟨_, by rw [hsaved, hrecord]; rfl, ?_⟩
  rcases at_applyAll hat r.saved.files.place _ with hat | ⟨hrole, hat, op, hop, hbrings⟩
  · exact .inl (at_reconciled.mpr (.inl hat))
  · exact .inr ⟨hrole, at_reconciled.mpr (.inl hat), brings_of_mem_on hbrings hop⟩

end Run

namespace Run.Continues

variable {prev r : Run} {usr : Usr} {e : Entity} {role : Role} {l : Location}

variable (h : prev.Continues r)

include h

theorem pending_start : r.start.graph.pending = ∅ := by
  rw [h.start]
  rfl

theorem entities_start : r.start.graph.entities
      = (Database.invalidation prev.saved.graph.entities r.dirty prev.saved.files).2 := by
  rw [h.start]
  rfl

omit h in
theorem contains_numbers {t : FileTable} {files : SortedSet Path} :
    (SortedSet.ofList (files.members.filterMap t.id?)).contains l.file = true
      ↔ t.LiesIn files l := by
  rw [contains_ofList]
  constructor
  · rintro ⟨id, hid, heq⟩
    obtain ⟨d, hd, hd'⟩ := mem_filterMap.mp hid
    refine ⟨d, hd, ?_⟩
    rw [hd', Std.compare_eq_iff_eq.mp heq]
  · rintro ⟨d, hd, hid⟩
    exact ⟨l.file, mem_filterMap.mpr ⟨d, hd, hid⟩, Std.compare_eq_iff_eq.mpr rfl⟩

theorem at_of_start (hget : r.start.graph.entities.get? usr = some e)
    (hat : e.At role l) :
    (∃ e₀, prev.saved.graph.entities.get? usr = some e₀ ∧ e₀.At role l)
      ∧ ¬ prev.saved.files.LiesIn r.dirty l := by
  rw [h.entities_start] at hget
  unfold Database.invalidation at hget
  split at hget
  · next hempty =>
    refine ⟨⟨e, hget, hat⟩, ?_⟩
    have hnone : r.dirty.members = [] := by
      unfold SortedSet.members SortedMap.keys
      rw [List.isEmpty_iff.mp hempty]
      rfl
    rintro ⟨d, hd, -⟩
    rw [hnone] at hd
    cases hd
  · obtain ⟨⟨e₀, he₀, rfl⟩, -⟩ := Entities.get?_pruneFiles.mp hget
    obtain ⟨hat, hoff⟩ := at_pruneFiles.mp hat
    refine ⟨⟨e₀, he₀, hat⟩, fun hlies => ?_⟩
    rw [contains_numbers.mpr hlies] at hoff
    cases hoff

/-- An update starts from all places of symbols outside the changed files. The place of an
overridden method alone does not keep a record. -/
theorem at_start (hget : prev.saved.graph.entities.get? usr = some e)
    (hat : e.At role l) (hrole : role ≠ .base) (hoff : ¬ prev.saved.files.LiesIn r.dirty l) :
    ∃ e', r.start.graph.entities.get? usr = some e' ∧ e'.At role l := by
  rw [h.entities_start]
  unfold Database.invalidation
  split
  · exact ⟨e, hget, hat⟩
  · have hstays : (SortedSet.ofList (r.dirty.members.filterMap prev.saved.files.id?)).contains
        l.file = false := by
      rw [← Bool.not_eq_true, contains_numbers]
      exact hoff
    have hkept := at_pruneFiles.mpr ⟨hat, hstays⟩
    refine ⟨_, Entities.get?_pruneFiles.mpr ⟨⟨e, hget, rfl⟩, ?_⟩, hkept⟩
    rw [← Bool.not_eq_true, Entity.isEmpty_iff]
    exact fun hnone => hnone l (mem_ownLocations_of_at hkept hrole)

end Run.Continues

/-- **Every stored place has the number of a path.** -/
theorem Runs.located {r : Run} {earlier : List Run} (h : Runs (r :: earlier)) :
    ∀ usr e role l, r.saved.graph.entities.get? usr = some e → e.At role l →
      r.saved.files.Numbers l := by
  have key : ∀ r : Run, r.start.graph.Located r.start.files →
      ∀ usr e role l, r.saved.graph.entities.get? usr = some e → e.At role l →
        r.saved.files.Numbers l := by
    intro r hstart
    obtain ⟨i, hall, hgraph, hfiles, -⟩ := r.exists_integrated
    rw [hgraph, hfiles]
    exact (hstart.integrateAll hall).reconcile
  generalize hruns : r :: earlier = runs at h
  induction h generalizing r earlier with
  | build hstart =>
    obtain ⟨rfl, -⟩ := List.cons.inj hruns
    refine key r ?_
    rw [hstart]
    exact ⟨fun usr e _ _ hget => absurd hget (by simp), fun l ref hget => absurd hget (by simp)⟩
  | update _ hcont ih =>
    obtain ⟨rfl, -⟩ := List.cons.inj hruns
    refine key r ⟨fun usr e role l hget hat => ?_, fun l ref hget => ?_⟩
    · obtain ⟨⟨e₀, he₀, hat₀⟩, -⟩ := hcont.at_of_start hget hat
      rw [hcont.files]
      exact ih rfl usr e₀ role l he₀ hat₀
    · rw [hcont.pending_start] at hget
      exact absurd hget (by simp)

end SymbolIndex
