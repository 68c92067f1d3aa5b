import SymbolIndex.Database
import SymbolIndex.Proofs.Reconcile
import SymbolIndex.Proofs.Record

/-!
# Pruning a graph and merging its units again

An update drops the places in some files from every record, drops the records that have no place
left, and merges units again. Merging the same units as before restores the graph, but for one kind
of record: that of a template parameter. Its operation makes a record with a definition when there
is none and leaves a record alone when there is one, so when the definition was dropped and another
place of the parameter was not, nothing puts the definition back.

The second merge meets only paths that the first has numbered, so it neither fails nor changes the
table.
-/

namespace SymbolIndex

open Bool Entity EntityOp FileTable Option SortedMap SortedSet
open EntityOp (on)

namespace EntityOp

@[simp] theorem overriding_seed (place : SourcePosition → Location) (op : EntityOp) :
    (op.seed place).overriding = none := by
  cases op <;> rfl

def position : EntityOp → SourcePosition
  | .declare _ _ _ location _ _ _ => location
  | .extraDeclaration _ location => location
  | .synthesize _ _ definition _ => definition

def base? : EntityOp → Option SourcePosition
  | .declare _ _ _ _ _ superLocation _ => superLocation
  | _ => none

end EntityOp

namespace Graph

/-! ## A second merge meets known paths only -/

def Covers (T : FileTable) (g : Graph) (op : EntityOp) : Prop :=
  T.Knows op.position
    ∧ ((g.entity op.target).superLocation = none → ∀ base, op.base? = some base → T.Knows base)

theorem superLocation_declared (e : Entity) (name : String) (scope : List String) (l : Location)
    (d : Bool) : ((e.nameOnce name scope).declareAt l d).superLocation = e.superLocation := by
  unfold Entity.declareAt Entity.setDefinition Entity.addDeclaration Entity.nameOnce
  split <;> split <;> split <;> rfl

variable {g g' k : Graph} {t t' T : FileTable} {op : EntityOp}

theorem covers_of_applyOp (h : g.applyOp t op = .ok (g', t')) (hT : t'.Extends T) :
    Covers T g op := by
  cases op with
  | declare usr _ _ location _ superLocation =>
    rw [applyOp_declare] at h
    obtain ⟨⟨l, t₁⟩, hl, h⟩ := bind_eq_ok_iff.mp h
    have hknown : t₁.Knows location := (location_spec hl).2.1
    refine ⟨(hknown.mono (storeOverride_spec h).1).mono hT, fun hs base hbase => ?_⟩
    obtain rfl : superLocation = some base := hbase
    unfold storeOverride at h
    rw [superLocation_declared, show (g.entity usr).superLocation = none from hs] at h
    obtain ⟨⟨s, t₂⟩, hb, h⟩ := bind_eq_ok_iff.mp h
    cases h
    exact (location_spec hb).2.1.mono hT
  | extraDeclaration =>
    obtain ⟨⟨l, t₁⟩, hl, h⟩ := bind_eq_ok_iff.mp h
    cases h
    exact ⟨(location_spec hl).2.1.mono hT, fun _ _ hbase => absurd hbase (by
      simp [EntityOp.base?])⟩
  | synthesize =>
    obtain ⟨⟨l, t₁⟩, hl, h⟩ := bind_eq_ok_iff.mp h
    have ht : t₁ = t' := by
      simp only at h
      split at h <;> exact (Prod.mk.inj (Except.ok.inj h)).2
    subst ht
    exact ⟨(location_spec hl).2.1.mono hT, fun _ _ hbase => absurd hbase (by
      simp [EntityOp.base?])⟩

theorem applyOp_of_covers (h : Covers T k op) : ∃ k', k.applyOp T op = .ok (k', T) := by
  have hl := location_of_known h.1
  cases op with
  | declare usr name scope location d superLocation usr' =>
    suffices hrest : ∃ k', k.storeOverride T usr
        (((k.entity usr).nameOnce name scope).declareAt (T.place location) d) superLocation usr'
        = .ok (k', T) by
      obtain ⟨k', hk'⟩ := hrest
      exact ⟨k', bind_eq_ok_iff.mpr ⟨_, hl, hk'⟩⟩
    unfold storeOverride
    rw [superLocation_declared]
    cases hs : (k.entity usr).superLocation with
    | some => exact ⟨_, rfl⟩
    | none =>
      cases superLocation with
      | none => exact ⟨_, rfl⟩
      | some base =>
        exact ⟨_, bind_eq_ok_iff.mpr ⟨_, location_of_known (h.2 hs base rfl), rfl⟩⟩
  | extraDeclaration => exact ⟨_, bind_eq_ok_iff.mpr ⟨_, hl, rfl⟩⟩
  | synthesize usr =>
    by_cases hc : k.entities.contains usr = true
    · exact ⟨k, bind_eq_ok_iff.mpr ⟨_, hl, if_pos hc⟩⟩
    · exact ⟨_, bind_eq_ok_iff.mpr ⟨_, hl, if_neg hc⟩⟩

theorem overriding_applyOp (h : g.applyOp t op = .ok (g', t')) (hT : t'.Extends T) (usr : Usr) :
    (g'.entity usr).overriding
      = (g.entity usr).overriding.or (if op.target = usr then op.override? T.place else none) := by
  unfold entity
  rw [(applyOp_spec h).2.2 T hT usr]
  by_cases hu : op.target = usr
  · rw [if_pos hu, if_pos hu]
    show (op.applyTo T.place _).overriding = _
    rw [overriding_applyTo]
    cases g.entities.get? usr with
    | none => rw [getD_none, overriding_seed]; rfl
    | some => rfl
  · rw [if_neg hu, if_neg hu, or_none]

def Behind (g k : Graph) : Prop :=
  ∀ usr, (k.entity usr).overriding = none → (g.entity usr).overriding = none

/-- An operation that has been applied once can be applied to a graph that is further on, and meets
no new path. -/
theorem applyOp_again (h : g.applyOp t op = .ok (g', t')) (hT : t'.Extends T) (hk : Behind g k) :
    ∃ k', k.applyOp T op = .ok (k', T) ∧ Behind g' k' := by
  have hcovers : Covers T k op := by
    obtain ⟨hpos, hbase⟩ := covers_of_applyOp h hT
    refine ⟨hpos, fun hs => hbase ?_⟩
    have := hk op.target
    simpa [Entity.overriding, hs] using this
  obtain ⟨k', hk'⟩ := applyOp_of_covers hcovers
  refine ⟨k', hk', fun usr hnone => ?_⟩
  rw [overriding_applyOp hk' (.refl T), or_eq_none_iff] at hnone
  rw [overriding_applyOp h hT, hk usr hnone.1, hnone.2]
  rfl

theorem applyOps_again {ops : List EntityOp} (h : g.applyOps t ops = .ok (g', t'))
    (hT : t'.Extends T) (hk : Behind g k) :
    ∃ k', k.applyOps T ops = .ok (k', T) ∧ Behind g' k' := by
  induction ops generalizing g k t with
  | nil =>
    cases h
    exact ⟨k, rfl, hk⟩
  | cons _ _ ih =>
    obtain ⟨⟨g₁, t₁⟩, h₁, h⟩ := bind_eq_ok_iff.mp h
    obtain ⟨k₁, hk₁, hbehind⟩ := applyOp_again h₁ ((applyOps_spec h).1.trans hT) hk
    obtain ⟨k', hk', hbehind'⟩ := ih h hbehind
    exact ⟨k', bind_eq_ok_iff.mpr ⟨_, hk₁, hk'⟩, hbehind'⟩

theorem addPending_again {ps : List (SourcePosition × PendingReference)}
    (h : g.addPending t ps = .ok (g', t')) (hT : t'.Extends T) :
    ∃ k', k.addPending T ps = .ok (k', T) ∧ k'.entities = k.entities := by
  induction ps generalizing g k t with
  | nil => exact ⟨k, rfl, rfl⟩
  | cons p _ ih =>
    obtain ⟨⟨l, t₁⟩, hl, h⟩ := bind_eq_ok_iff.mp h
    have hknown : T.Knows p.1 :=
      ((location_spec hl).2.1.mono (addPending_spec h).1).mono hT
    obtain ⟨k', hk', hent⟩ :=
      ih (k := { k with pending := k.pending.insertIfNew (T.place p.1) p.2 }) h
    exact ⟨k', bind_eq_ok_iff.mpr ⟨_, location_of_known hknown, hk'⟩, hent⟩

/-- **A second merge neither fails nor numbers a file.** Units that were merged once can be merged
again into any graph that is further on. -/
theorem mergeAll_again {cs : List Contribution} (h : g.mergeAll t cs = .ok (g', t'))
    (hT : t'.Extends T) (hk : Behind g k) : ∃ k', k.mergeAll T cs = .ok (k', T) := by
  induction cs generalizing g k t with
  | nil => exact ⟨k, rfl⟩
  | cons _ _ ih =>
    obtain ⟨⟨g₁, t₁⟩, h₁, h⟩ := bind_eq_ok_iff.mp h
    obtain ⟨⟨g₂, t₂⟩, hops, hpend⟩ := bind_eq_ok_iff.mp h₁
    have hT₁ : t₁.Extends T := (mergeAll_spec h).1.trans hT
    obtain ⟨k₂, hk₂, hbehind⟩ := applyOps_again hops ((addPending_spec hpend).1.trans hT₁) hk
    obtain ⟨k₁, hk₁, hent⟩ := addPending_again (k := k₂) hpend hT₁
    have hbehind₁ : Behind g₁ k₁ := by
      unfold Behind entity
      rw [hent, (addPending_spec hpend).2.1]
      exact hbehind
    obtain ⟨k', hk'⟩ := ih h hbehind₁
    exact ⟨k', bind_eq_ok_iff.mpr ⟨_, bind_eq_ok_iff.mpr ⟨_, hk₂, hk₁⟩, hk'⟩⟩

end Graph

namespace Entity

variable {place : SourcePosition → Location} {op : EntityOp} {ops : List EntityOp} {r : Entity}

/-! ## What a pruned record gets back -/

/-- A record that has lost some of the places of `e` and nothing else. -/
structure Remnant (r e : Entity) : Prop where
  proper : r.Proper
  naming : r.naming = e.naming
  overriding : r.overriding = none ∨ r.overriding = e.overriding
  declarations : ∀ l, r.declarations.contains l = true → e.declarations.contains l = true
  extra : ∀ l, r.extraDeclarations.contains l = true → e.extraDeclarations.contains l = true

theorem overriding_pruneFiles (files : SortedSet FileId) (e : Entity) :
    (e.pruneFiles files).overriding = none ∨ (e.pruneFiles files).overriding = e.overriding := by
  unfold overriding pruneFiles
  cases e.superLocation with
  | none => exact .inl rfl
  | some l => cases h : files.contains l.file <;> simp [Option.filter, h]

theorem Proper.remnant {e : Entity} (h : e.Proper) (files : SortedSet FileId) :
    Remnant (e.pruneFiles files) e where
  proper := {
    declared := by
      intro l hl
      have hdef := h.declared l
      unfold pruneFiles at hl ⊢
      simp only [filter_eq_some_iff] at hl
      simp [hdef hl.1]
    overridden := by
      have hover := h.overridden
      unfold pruneFiles
      cases hs : e.superLocation with
      | none => simp [hover hs]
      | some l => cases hc : files.contains l.file <;> simp [Option.filter, hc] }
  naming := rfl
  overriding := overriding_pruneFiles files e
  declarations := by
    intro l hl
    unfold pruneFiles at hl
    simp only [contains_restrict, and_eq_true] at hl
    exact hl.1
  extra := by
    intro l hl
    unfold pruneFiles at hl
    simp only [contains_restrict, and_eq_true] at hl
    exact hl.1

theorem proper_seed (place : SourcePosition → Location) (op : EntityOp) :
    (op.seed place).Proper := by
  cases op with
  | synthesize => exact ⟨fun _ _ => rfl, fun _ => rfl⟩
  | declare | extraDeclaration => exact proper_empty

/-- **What operations give back.** The operations that made a record of nothing, applied to a
remnant of it, restore all it had of its own as soon as they restore the definition. -/
theorem Remnant.applyAll_eq (h : Remnant r ((op.seed place).applyAll place ops))
    (hdef : (r.applyAll place ops).definition = ((op.seed place).applyAll place ops).definition) :
    r.applyAll place ops
      = { (op.seed place).applyAll place ops with references := r.references, subs := r.subs } := by
  have hseed := (proper_seed place op).applyAll place ops
  refine (h.proper.applyAll place ops).ext ⟨hseed.declared, hseed.overridden⟩ ?_ hdef ?_ ?_ ?_ ?_ ?_
  · show _ = ((op.seed place).applyAll place ops).naming
    rw [naming_applyAll, h.naming, naming_applyAll, foldl_settle_idem]
  · intro l
    rw [Bool.eq_iff_iff, contains_declarations_applyAll place ops h.proper, hdef]
    show _ ↔ ((op.seed place).applyAll place ops).declarations.contains l = true
    have hsome := h.declarations l
    rw [contains_declarations_applyAll place ops (proper_seed place op)] at hsome ⊢
    cases op <;> grind [EntityOp.seed, contains_empty]
  · intro l
    rw [Bool.eq_iff_iff, contains_extra_applyAll]
    show _ ↔ ((op.seed place).applyAll place ops).extraDeclarations.contains l = true
    have hsome := h.extra l
    rw [contains_extra_applyAll] at hsome ⊢
    cases op <;> grind [EntityOp.seed, contains_empty]
  · intro l
    rw [references_applyAll]
  · show _ = ((op.seed place).applyAll place ops).overriding
    have hover := h.overriding
    rw [overriding_applyAll, overriding_seed, none_or] at hover
    rw [overriding_applyAll, overriding_applyAll, overriding_seed, none_or]
    rcases hover with hover | hover <;> rw [hover] <;> simp
  · intro l
    rw [subs_applyAll]

/-- A dropped definition is restored unless it came with the first operation and no declaration
gives it again. -/
theorem definition_restored_iff (files : SortedSet FileId)
    (h : r.definition = ((op.seed place).applyAll place ops).definition.filter
      (fun l => !files.contains l.file)) :
    (r.applyAll place ops).definition = ((op.seed place).applyAll place ops).definition
      ↔ ∀ l, (op.seed place).definition = some l → files.contains l.file = true →
          ops.findSome? (EntityOp.definition? place) = some l := by
  rw [definition_applyAll, h, definition_applyAll]
  cases hs : (op.seed place).definition with
  | none =>
    cases ops.findSome? (EntityOp.definition? place) with
    | none => simp
    | some d => cases hc : files.contains d.file <;> simp [Option.filter, hc]
  | some l => cases hc : files.contains l.file <;> simp [Option.filter, hc]

end Entity

theorem Entities.get?_pruneFiles {m : Entities} {files : SortedSet FileId} {usr : Usr}
    {e : Entity} : (Entities.pruneFiles m files).get? usr = some e
      ↔ (∃ e₀, m.get? usr = some e₀ ∧ e₀.pruneFiles files = e) ∧ e.isEmpty = false := by
  unfold Entities.pruneFiles
  rw [get?_filter, get?_mapValues, filter_eq_some_iff, map_eq_some_iff, not_eq_true']

namespace Graph

/-! ## The graph -/

/-- A graph without what is in some files. -/
def pruned (g : Graph) (files : SortedSet FileId) : Graph :=
  { g.clearPending with entities := Entities.pruneFiles g.entities files }

/-- A template parameter that loses its definition while its record stays, and whose definition no
declaration gives. -/
def Orphaned (place : SourcePosition → Location) (files : SortedSet FileId) (cs : List Contribution)
    (g : Graph) (usr : Usr) : Prop :=
  ∃ name definition scope e,
    (on usr (opsOf cs)).head? = some (.synthesize usr name definition scope)
      ∧ files.contains (place definition).file = true
      ∧ g.entities.get? usr = some e ∧ (e.pruneFiles files).isEmpty = false
      ∧ (on usr (opsOf cs)).findSome? (EntityOp.definition? place)
        ≠ some (place definition)

theorem get?_pruned (g : Graph) (files : SortedSet FileId) (usr : Usr) :
    (g.pruned files).entities.get? usr
      = ((g.entities.get? usr).map (Entity.pruneFiles files)).filter (fun e => !e.isEmpty) := by
  unfold pruned Entities.pruneFiles
  simp

/-- `k` is what merging the units of `g` again makes of the pruned graph, symbol by symbol. -/
structure Replayed (place : SourcePosition → Location) (files : SortedSet FileId)
    (cs : List Contribution) (g k : Graph) : Prop where
  first : ∀ usr, g.entities.get? usr = EntityOp.actAll place (on usr (opsOf cs)) none
  again : ∀ usr, k.entities.get? usr = EntityOp.actAll place (on usr (opsOf cs))
    ((g.reconcile.1.pruned files).entities.get? usr)
  pending : k.pending = g.pending

theorem exists_replayed {t₀ t : FileTable} {cs : List Contribution} {g : Graph}
    (h : ({} : Graph).mergeAll t₀ cs = .ok (g, t)) (files : SortedSet FileId) :
    ∃ k, (g.reconcile.1.pruned files).mergeAll t cs = .ok (k, t)
      ∧ Replayed t.place files cs g k := by
  have hbehind : Behind {} (g.reconcile.1.pruned files) := fun _ _ => rfl
  obtain ⟨k, hk⟩ := mergeAll_again h (.refl t) hbehind
  obtain ⟨hfirst, hpend⟩ := (mergeAll_spec h).2 t (.refl t)
  obtain ⟨hagain, hpend'⟩ := (mergeAll_spec hk).2 t (.refl t)
  exact ⟨k, hk, hfirst, hagain, ext_get? (fun l => by rw [hpend, hpend']; rfl)⟩

section Replay

variable {place : SourcePosition → Location} {files : SortedSet FileId} {cs : List Contribution}
  {g k : Graph} {usr : Usr} {e : Entity}

variable (h : Replayed place files cs g k)

include h

theorem Replayed.get?_of_nil (hops : on usr (opsOf cs) = []) :
    g.entities.get? usr = none ∧ k.entities.get? usr = none := by
  have hnone : g.entities.get? usr = none := by
    rw [h.first, hops]
    rfl
  refine ⟨hnone, ?_⟩
  rw [h.again, hops, get?_pruned, get?_reconcile, hnone]
  rfl

/-- The record of a symbol that is named was made of nothing; after pruning it is made of nothing
again, or the operations meet what was left of it. -/
theorem Replayed.get?_of_cons {op : EntityOp}
    {ops : List EntityOp} (hops : on usr (opsOf cs) = op :: ops)
    (he : e = (op.seed place).applyAll place (op :: ops)) :
    g.entities.get? usr = some e ∧ k.entities.get? usr = some
        (if ((g.reconciled usr e).pruneFiles files).isEmpty then e
        else ((g.reconciled usr e).pruneFiles files).applyAll place (op :: ops)) := by
  have hsome : g.entities.get? usr = some e := by
    rw [h.first, hops, actAll_none, he]
  refine ⟨hsome, ?_⟩
  rw [h.again, hops, get?_pruned, get?_reconcile, hsome]
  cases hempty : ((g.reconciled usr e).pruneFiles files).isEmpty with
  | true => simp [Option.filter, hempty, actAll_none, ← he]
  | false => simp [Option.filter, hempty, actAll_some]

theorem Replayed.contains_eq (usr : Usr) : k.entities.contains usr = g.entities.contains usr := by
  unfold SortedMap.contains
  cases hops : on usr (opsOf cs) with
  | nil => rw [(h.get?_of_nil hops).1, (h.get?_of_nil hops).2]
  | cons => rw [(h.get?_of_cons hops rfl).1, (h.get?_of_cons hops rfl).2]; rfl

/-- The definition that a symbol had at the start is back unless the symbol is orphaned. -/
theorem Replayed.definition_eq_iff (usr : Usr) :
    (k.entities.get? usr).map Entity.definition = (g.entities.get? usr).map Entity.definition
      ↔ ¬ Orphaned place files cs g.reconcile.1 usr := by
  unfold Orphaned
  cases hops : on usr (opsOf cs) with
  | nil =>
    rw [(h.get?_of_nil hops).1, (h.get?_of_nil hops).2]
    simp
  | cons op ops =>
    obtain ⟨hg, hk⟩ := h.get?_of_cons hops rfl
    generalize he : (op.seed place).applyAll place (op :: ops) = e at hg hk
    rw [hg, hk, get?_reconcile, hg]
    cases hempty : ((g.reconciled usr e).pruneFiles files).isEmpty with
    | true => simp [hempty]
    | false =>
      have htarget : op.target = usr := by
        have hmem : op ∈ on usr (opsOf cs) := by simp [hops]
        simpa [on] using (List.mem_filter.mp hmem).2
      have hpruned : ((g.reconciled usr e).pruneFiles files).definition
          = ((op.seed place).applyAll place (op :: ops)).definition.filter
            (fun l => !files.contains l.file) := by
        rw [he]
        rfl
      have hiff := definition_restored_iff files hpruned
      rw [he] at hiff
      simp only [map_some, Option.some.injEq, false_eq_true, if_false, List.head?_cons]
      rw [hiff]
      cases op with
      | synthesize usr' =>
        obtain rfl : usr' = usr := htarget
        simp [EntityOp.seed, hempty]
      | declare | extraDeclaration => simp [EntityOp.seed]

theorem Replayed.contains_references (hg : g.entities.get? usr = some e) (l : Location) :
    (g.reconciled usr e).references.contains l = true ↔ l ∈ g.attached usr g.pending.toList := by
  have hempty : e.references = ∅ := by
    cases hops : on usr (opsOf cs) with
    | nil => rw [(h.get?_of_nil hops).1] at hg; cases hg
    | cons op =>
      cases hg.symm.trans (h.get?_of_cons hops rfl).1
      rw [references_applyAll]
      cases op <;> rfl
  unfold reconciled
  simp only [contains_addAll, hempty, contains_empty, Std.compare_eq_iff_eq]
  simp

omit h in
theorem remnant_reconciled (h : e.Proper) (g : Graph) (usr : Usr) (files : SortedSet FileId) :
    Entity.Remnant ((g.reconciled usr e).pruneFiles files) e := by
  have hproper : (g.reconciled usr e).Proper := ⟨h.declared, h.overridden⟩
  obtain ⟨hp, hname, hover, hdecl, hextra⟩ := hproper.remnant files
  exact ⟨hp, hname, hover, hdecl, hextra⟩

theorem Replayed.get?_of_restored (hg : g.entities.get? usr = some e)
    (hdef : (k.entities.get? usr).map Entity.definition = some e.definition) :
    ∃ refs subs, k.entities.get? usr = some { e with references := refs, subs := subs }
      ∧ ∀ l, refs.contains l = true → (g.reconciled usr e).references.contains l = true := by
  cases hops : on usr (opsOf cs) with
  | nil => rw [(h.get?_of_nil hops).1] at hg; cases hg
  | cons op ops =>
    obtain ⟨hg', hk⟩ := h.get?_of_cons hops rfl
    cases hg.symm.trans hg'
    generalize he : (op.seed place).applyAll place (op :: ops) = e at hg hk hdef
    rw [hk] at hdef ⊢
    cases hempty : ((g.reconciled usr e).pruneFiles files).isEmpty with
    | true =>
      refine ⟨e.references, e.subs, by simp, fun l hl => ?_⟩
      exact (contains_addAll _ _ _).mpr (.inl hl)
    | false =>
      rw [hempty] at hdef
      have hproper : e.Proper := he ▸ (proper_seed place op).applyAll place (op :: ops)
      have hrem : Entity.Remnant ((g.reconciled usr e).pruneFiles files)
          ((op.seed place).applyAll place (op :: ops)) := by
        rw [he]
        exact remnant_reconciled hproper g usr files
      have heq := hrem.applyAll_eq (by rw [he]; simpa using hdef)
      rw [he] at heq
      refine ⟨_, _, by rw [if_neg (by simp), heq], fun l hl => ?_⟩
      unfold Entity.pruneFiles at hl
      simp only [contains_restrict, and_eq_true] at hl
      exact hl.1

end Replay

/-- **Pruning a graph and merging its units again.** The second merge succeeds and leaves the file
table as it is. After reconciling, the records are those from before exactly when no template
parameter is orphaned. -/
theorem replay_eq_iff {t₀ t : FileTable} {cs : List Contribution} {g : Graph}
    (h : ({} : Graph).mergeAll t₀ cs = .ok (g, t)) (files : SortedSet FileId) :
    ∃ k, (g.reconcile.1.pruned files).mergeAll t cs = .ok (k, t)
      ∧ (k.reconcile.1.entities = g.reconcile.1.entities
        ↔ ∀ usr, ¬ Orphaned t.place files cs g.reconcile.1 usr) := by
  obtain ⟨k, hk, hr⟩ := exists_replayed h files
  refine ⟨k, hk, fun heq usr => ?_, fun hall => SortedMap.ext_get? (fun usr => ?_)⟩
  · -- reconciling does not touch definitions, so they can be compared before it
    have hget := congrArg (fun m => (SortedMap.get? m usr).map Entity.definition) heq
    simp only [get?_reconcile, Option.map_map] at hget
    exact (hr.definition_eq_iff usr).mp hget
  · have hown : ∀ usr e, g.entities.get? usr = some e →
        ∃ refs subs, k.entities.get? usr = some { e with references := refs, subs := subs }
          ∧ ∀ l, refs.contains l = true → (g.reconciled usr e).references.contains l = true :=
      fun usr e he => hr.get?_of_restored he
        (by rw [(hr.definition_eq_iff usr).mpr (hall usr), he]; rfl)
    have hnone : ∀ usr, g.entities.get? usr = none → k.entities.get? usr = none := by
      intro usr hg
      rw [← SortedMap.contains_eq_false_iff] at hg ⊢
      rw [hr.contains_eq, hg]
    have hover : ∀ usr, (k.entities.get? usr).map overrideOf
        = (g.entities.get? usr).map overrideOf := by
      intro usr
      cases hg : g.entities.get? usr with
      | none => rw [hnone usr hg]
      | some e =>
        obtain ⟨refs, subs, hk, -⟩ := hown usr e hg
        rw [hk]
        rfl
    rw [get?_reconcile, get?_reconcile]
    cases hg : g.entities.get? usr with
    | none => rw [hnone usr hg]; rfl
    | some e =>
      obtain ⟨refs, subs, hk, hrefs⟩ := hown usr e hg
      rw [hk, Option.map_some, Option.map_some]
      have hattached : (k.reconciled usr { e with references := refs, subs := subs }).references
          = (g.reconciled usr e).references := by
        refine SortedSet.ext_contains (fun l => Bool.eq_iff_iff.mpr ?_)
        have hl := hrefs l
        rw [hr.contains_references hg] at hl ⊢
        unfold reconciled
        simp only [SortedSet.contains_addAll, attached_congr hr.contains_eq, hr.pending,
          Std.LawfulEqOrd.compare_eq_iff_eq, exists_eq_right']
        exact ⟨fun h => h.elim hl id, .inr⟩
      show some { e with
          references := (k.reconciled usr { e with references := refs, subs := subs }).references
          subs := SortedSet.ofList (k.overriders usr) } = _
      rw [hattached, overriders_congr hover]
      rfl

def parameterUse : Contribution :=
  { ops := [.synthesize "T" "T" { path := ⟨"/h.h"⟩, line := 1, column := 1 } []]
    pending := SortedMap.collect [({ path := ⟨"/x.h"⟩, line := 3, column := 1 }, { usr := "T" })] }

theorem replay_eq_iff_parameterUse : ∃ g t, ({} : Graph).mergeAll {} [parameterUse] = .ok (g, t)
      ∧ ∃ k, (g.reconcile.1.pruned (SortedSet.ofList [⟨2⟩])).mergeAll t [parameterUse] = .ok (k, t)
        ∧ (k.reconcile.1.entities = g.reconcile.1.entities
          ↔ ∀ usr, ¬ Orphaned t.place (SortedSet.ofList [⟨2⟩]) [parameterUse] g.reconcile.1 usr) :=
  ⟨_, _, rfl, replay_eq_iff (show ({} : Graph).mergeAll {} [parameterUse] = _ from rfl) _⟩

/-- The parameter keeps its record for the use, and so loses its definition for good. -/
theorem replay_loses_parameter : ∃ g t k, ({} : Graph).mergeAll {} [parameterUse] = .ok (g, t)
      ∧ (g.reconcile.1.pruned (SortedSet.ofList [⟨1⟩])).mergeAll t [parameterUse] = .ok (k, t)
      ∧ k.reconcile.1.entities ≠ g.reconcile.1.entities
      ∧ (g.reconcile.1.entity "T").definition = some ⟨⟨1⟩, 1, 1⟩
      ∧ (k.reconcile.1.entity "T").definition = none := by
  refine ⟨_, _, _, rfl, rfl, ?_, ?_, ?_⟩ <;> decide

end Graph

end SymbolIndex
