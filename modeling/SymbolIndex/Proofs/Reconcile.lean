import SymbolIndex.Graph
import SymbolIndex.Proofs.Order
import SymbolIndex.Proofs.SortedMap

/-!
# Reconciling, one symbol at a time

Reconciling adds to the references of a record the places whose waiting reference belongs to the
symbol, and replaces the overriding methods by the definitions of the records that name the symbol
as the one they override. Nothing else of a record changes and no record comes or goes, so which
symbol a reference belongs to is the same before, during and after.
-/

namespace SymbolIndex.Graph

variable {g g' : Graph} {usr : Usr} {l : Location}

/-- The symbol that a reference is attached to. -/
def owner? (g : Graph) (r : PendingReference) : Option Usr :=
  match g.targetOf r with
  | .symbol usr => some usr
  | .template usr => some usr
  | .unknown => none

/-- The references that are attached to a symbol. -/
def attached (g : Graph) (usr : Usr) (ps : List (Location × PendingReference)) : List Location :=
  (ps.filter (fun p => g.owner? p.2 = some usr)).map Prod.fst

/-- Where a symbol is overridden. -/
def overriders (g : Graph) (usr : Usr) : List Location :=
  (g.overrides.filter (fun o => o.1 = usr)).map Prod.snd

theorem owner?_congr (h : ∀ usr, g'.entities.contains usr = g.entities.contains usr)
    (r : PendingReference) : g'.owner? r = g.owner? r := by
  unfold owner? targetOf
  simp only [h]

theorem attached_congr (h : ∀ usr, g'.entities.contains usr = g.entities.contains usr) (usr : Usr)
    (ps : List (Location × PendingReference)) : g'.attached usr ps = g.attached usr ps := by
  unfold attached
  simp only [owner?_congr h]

theorem mem_attached {ps : List (Location × PendingReference)} :
    l ∈ g.attached usr ps ↔ ∃ r, (l, r) ∈ ps ∧ g.owner? r = some usr := by
  unfold attached
  simp

def overrideOf (e : Entity) : Option Usr × Option Location := (e.overriddenUsr, e.definition)

theorem mem_overriders : l ∈ g.overriders usr
      ↔ ∃ usr', (g.entities.get? usr').map overrideOf = some (some usr, some l) := by
  unfold overriders overrides SortedMap.values overrideOf
  constructor
  · intro h
    obtain ⟨⟨base, l'⟩, hmem, rfl⟩ := List.mem_map.mp h
    obtain ⟨hmem, hbase⟩ := List.mem_filter.mp hmem
    obtain ⟨e, he, hsome⟩ := List.mem_filterMap.mp hmem
    obtain ⟨⟨usr', e'⟩, hentry, rfl⟩ := List.mem_map.mp he
    refine ⟨usr', ?_⟩
    rw [SortedMap.get?_of_mem hentry]
    simp only at hsome hbase
    split at hsome
    · next ho hd => simp_all
    · cases hsome
  · rintro ⟨usr', hmap⟩
    obtain ⟨e, hget, heq⟩ := Option.map_eq_some_iff.mp hmap
    obtain ⟨hover, hdef⟩ := Prod.mk.inj heq
    refine List.mem_map.mpr ⟨(usr, l), List.mem_filter.mpr ⟨?_, by simp⟩, rfl⟩
    refine List.mem_filterMap.mpr ⟨e, List.mem_map.mpr ⟨(usr', e), ?_, rfl⟩, ?_⟩
    · exact SortedMap.mem_toList_iff.mpr hget
    · rw [hover, hdef]

theorem overriders_congr
    (h : ∀ usr, (g'.entities.get? usr).map overrideOf = (g.entities.get? usr).map overrideOf)
    (usr : Usr) : SortedSet.ofList (g'.overriders usr) = SortedSet.ofList (g.overriders usr) := by
  refine SortedSet.ext_contains (fun l => Bool.eq_iff_iff.mpr ?_)
  rw [SortedSet.contains_ofList, SortedSet.contains_ofList]
  simp only [mem_overriders, h]

/-! ## The waiting references -/

section

variable (g : Graph) (report : ReconcileReport) (p : Location × PendingReference)

theorem reconcileOne_fst :
    (reconcileOne (g, report) p).1 = match g.owner? p.2 with
        | some usr => g.attach usr p.1
        | none => g := by
  unfold reconcileOne owner?
  simp only
  cases g.targetOf p.2 <;> rfl

theorem get?_reconcileOne (usr : Usr) :
    (reconcileOne (g, report) p).1.entities.get? usr = (g.entities.get? usr).map (fun e =>
          { e with references := e.references.addAll (g.attached usr [p]) }) := by
  rw [reconcileOne_fst]
  unfold attached
  cases howner : g.owner? p.2 with
  | none => simp [howner, SortedSet.addAll]
  | some usr' =>
    unfold attach
    simp only [SortedMap.get?_modify, Std.compare_eq_iff_eq]
    by_cases hu : usr = usr'
    · subst hu
      simp [howner, SortedSet.addAll]
    · have hu' : ¬ usr' = usr := fun h => hu h.symm
      simp [howner, hu, hu', SortedSet.addAll]

end

theorem get?_foldl_reconcileOne (ps : List (Location × PendingReference)) (g : Graph)
    (report : ReconcileReport) (usr : Usr) :
    (ps.foldl reconcileOne (g, report)).1.entities.get? usr = (g.entities.get? usr).map (fun e =>
          { e with references := e.references.addAll (g.attached usr ps) }) := by
  induction ps generalizing g report with
  | nil => simp [attached, SortedSet.addAll]
  | cons p rest ih =>
    have hcontains : ∀ usr, (reconcileOne (g, report) p).1.entities.contains usr
        = g.entities.contains usr := by
      intro usr
      unfold SortedMap.contains
      rw [get?_reconcileOne, Option.isSome_map]
    rw [List.foldl_cons, ← Prod.eta (reconcileOne (g, report) p), ih, get?_reconcileOne,
      attached_congr hcontains, Option.map_map]
    congr 1
    funext e
    have hsplit : g.attached usr (p :: rest) = g.attached usr [p] ++ g.attached usr rest := by
      unfold attached
      rw [← List.map_append, ← List.filter_append]
      rfl
    simp only [Function.comp, hsplit, SortedSet.addAll, List.foldl_append]

/-! ## The overriding methods -/

theorem get?_foldl_addSub (os : List (Usr × Location)) (m : SortedMap Usr Entity) (usr : Usr) :
    (os.foldl (fun m o => m.modify o.1 (fun e => { e with subs := e.subs.add o.2 })) m).get? usr
      = (m.get? usr).map (fun e =>
          { e with subs := e.subs.addAll ((os.filter (fun o => o.1 = usr)).map Prod.snd) }) := by
  induction os generalizing m with
  | nil => simp [SortedSet.addAll]
  | cons o _ ih =>
    rw [List.foldl_cons, ih, SortedMap.get?_modify]
    simp only [Std.compare_eq_iff_eq]
    by_cases hu : usr = o.1
    · subst hu
      simp [SortedSet.addAll, Function.comp_def]
    · have hu' : ¬ o.1 = usr := fun h => hu h.symm
      simp [hu, hu']

theorem get?_rebuildSubs (g : Graph) (usr : Usr) : g.rebuildSubs.entities.get? usr
      = (g.entities.get? usr).map (fun e =>
          { e with subs := SortedSet.ofList (g.overriders usr) }) := by
  unfold rebuildSubs
  simp only
  rw [get?_foldl_addSub, SortedMap.get?_mapValues, Option.map_map]
  rfl

/-! ## The whole -/

/-- The record of a symbol once the references and the overriding methods are in. -/
def reconciled (g : Graph) (usr : Usr) (e : Entity) : Entity :=
  { e with
    references := e.references.addAll (g.attached usr g.pending.toList)
    subs := SortedSet.ofList (g.overriders usr) }

/-- **Reconciling is local.** Every record gets the places that wait for its symbol and the
definitions that override it, and nothing else changes. -/
theorem get?_reconcile (g : Graph) (usr : Usr) :
    g.reconcile.1.entities.get? usr = (g.entities.get? usr).map (g.reconciled usr) := by
  rcases hfold : g.pending.toList.foldl reconcileOne (g, {}) with ⟨g₁, report⟩
  have hget : ∀ u, g₁.entities.get? u = (g.entities.get? u).map (fun e =>
      { e with references := e.references.addAll (g.attached u g.pending.toList) }) := by
    intro u
    rw [← get?_foldl_reconcileOne, hfold]
  have hover : ∀ u, (g₁.entities.get? u).map overrideOf = (g.entities.get? u).map overrideOf := by
    intro u
    rw [hget, Option.map_map]
    rfl
  have hrec : g.reconcile.1 = g₁.rebuildSubs := by
    unfold reconcile
    rw [hfold]
  rw [hrec, get?_rebuildSubs, hget, Option.map_map, overriders_congr hover]
  rfl

theorem pending_reconcile (g : Graph) : g.reconcile.1.pending = g.pending := by
  have hfold : ∀ (ps : List (Location × PendingReference)) (g : Graph) (report : ReconcileReport),
      (ps.foldl reconcileOne (g, report)).1.pending = g.pending := by
    intro ps
    induction ps with
    | nil => exact fun _ _ => rfl
    | cons p _ ih =>
      intro g report
      have hone : (reconcileOne (g, report) p).1.pending = g.pending := by
        rw [reconcileOne_fst]
        split <;> rfl
      rw [List.foldl_cons, ← Prod.eta (reconcileOne (g, report) p), ih, hone]
  exact hfold g.pending.toList g {}

end SymbolIndex.Graph
