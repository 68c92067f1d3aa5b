import SymbolIndex.Proofs.Placed

/-!
# Where references end up

A waiting reference belongs to the symbol it names, or, when that has no record, to the template it
was made from, or to nothing. Reconciling goes through the waiting references and changes records on
the way, but it looks only at which symbols have records, and that never changes. So every place is
attached to one record at most, the report counts the three cases, and the overriding methods are
read off the overridden ones. For the same reason a second pass finds everything in place.
-/

namespace SymbolIndex.Graph

variable {g : Graph} {usr : Usr}

/-! ## What reconciling leaves as it is -/

theorem contains_reconcile (g : Graph) (usr : Usr) :
    g.reconcile.1.entities.contains usr = g.entities.contains usr := by
  unfold SortedMap.contains
  rw [get?_reconcile, Option.isSome_map]

theorem overrideOf_reconcile (g : Graph) (usr : Usr) :
    (g.reconcile.1.entities.get? usr).map overrideOf = (g.entities.get? usr).map overrideOf := by
  rw [get?_reconcile, Option.map_map]
  rfl

/-! ## The symbol a reference belongs to -/

theorem owner?_eq_some_iff {r : PendingReference} (husr : g.entities.contains usr = true) :
    g.owner? r = some usr
      ↔ r.usr = usr ∨ (g.entities.contains r.usr = false ∧ r.specialized = some usr) := by
  unfold owner? targetOf
  by_cases hnamed : g.entities.contains r.usr = true
  · simp [hnamed]
  · have hne : r.usr ≠ usr := fun heq => hnamed (heq ▸ husr)
    cases hspecialized : r.specialized with
    | none => simp [hnamed, hne]
    | some template =>
      by_cases htemplate : g.entities.contains template = true
      · simp [hnamed, hne, htemplate]
      · have hother : template ≠ usr := fun heq => htemplate (heq ▸ husr)
        simp [hnamed, hne, htemplate, hother]

theorem contains_references_reconciled (husr : g.entities.contains usr = true) (e : Entity)
    (l : Location) :
    (g.reconciled usr e).references.contains l = true ↔ e.references.contains l = true
        ∨ (∃ r, g.pending.get? l = some r ∧ r.usr = usr)
        ∨ ∃ r, g.pending.get? l = some r ∧ g.entities.contains r.usr = false
            ∧ r.specialized = some usr := by
  show SortedMap.contains (e.references.addAll (g.attached usr g.pending.toList)) l = true ↔ _
  simp only [SortedSet.contains_addAll, Std.compare_eq_iff_eq, exists_eq_right',
    mem_attached, SortedMap.mem_toList_iff, owner?_eq_some_iff husr, and_or_left, exists_or]

/-! ## The report -/

/-- Whether the template behind a reference has a record. -/
def templateKnown (g : Graph) (r : PendingReference) : Bool :=
  r.specialized.any (fun usr => g.entities.contains usr)

theorem targetOf_kind (g : Graph) (r : PendingReference) :
    (g.targetOf r).isSymbol = g.entities.contains r.usr
      ∧ (g.targetOf r).isTemplate = (!g.entities.contains r.usr && g.templateKnown r)
      ∧ decide (g.targetOf r = .unknown) = (!g.entities.contains r.usr && !g.templateKnown r) := by
  unfold targetOf templateKnown
  by_cases hnamed : g.entities.contains r.usr = true
  · simp [hnamed, Target.isSymbol, Target.isTemplate]
  · cases hspecialized : r.specialized with
    | none => simp [hnamed, Target.isSymbol, Target.isTemplate]
    | some template =>
      by_cases htemplate : g.entities.contains template = true <;>
        simp [hnamed, htemplate, Target.isSymbol, Target.isTemplate]

theorem census_total (g : Graph) (rs : List PendingReference) :
    (g.census rs).resolved + (g.census rs).viaSpecialization + (g.census rs).unresolved
      = rs.length := by
  induction rs with
  | nil => rfl
  | cons r _ ih =>
    have hone : (if (g.targetOf r).isSymbol then 1 else 0)
        + (if (g.targetOf r).isTemplate then 1 else 0)
        + (if decide (g.targetOf r = .unknown) then 1 else 0) = 1 := by
      cases g.targetOf r <;> rfl
    simp only [census] at ih ⊢
    rw [List.countP_cons, List.countP_cons, List.countP_cons, List.length_cons]
    omega

/-- **Every reference is attached exactly where it belongs.** No record comes or goes and nothing
changes in one but its references and overriding methods. The references grow by the places that
wait for the symbol and by those that wait for a symbol without a record made from it. The report
counts the three ways a waiting reference can go, each reference once. -/
theorem reconcile_attaches (g : Graph) :
    (∀ usr, g.reconcile.1.entities.contains usr = g.entities.contains usr)
      ∧ g.reconcile.1.pending = g.pending
      ∧ (∀ usr e, g.entities.get? usr = some e → ∃ e',
          g.reconcile.1.entities.get? usr = some e'
            ∧ e' = { e with references := e'.references, subs := e'.subs }
            ∧ ∀ l, e'.references.contains l = true
              ↔ e.references.contains l = true
                ∨ (∃ r, g.pending.get? l = some r ∧ r.usr = usr)
                ∨ ∃ r, g.pending.get? l = some r ∧ g.entities.contains r.usr = false
                    ∧ r.specialized = some usr)
      ∧ g.reconcile.2 = {
          resolved := g.pending.values.countP (fun r => g.entities.contains r.usr)
          viaSpecialization := g.pending.values.countP
            (fun r => !g.entities.contains r.usr && g.templateKnown r)
          unresolved := g.pending.values.countP
            (fun r => !g.entities.contains r.usr && !g.templateKnown r) }
      ∧ g.reconcile.2.resolved + g.reconcile.2.viaSpecialization + g.reconcile.2.unresolved
          = g.pending.size := by
  refine ⟨g.contains_reconcile, g.pending_reconcile, fun usr e he => ?_, ?_, ?_⟩
  · have hrecord : g.entities.contains usr = true := SortedMap.contains_iff.mpr ⟨e, he⟩
    refine ⟨g.reconciled usr e, by rw [get?_reconcile, he]; rfl, rfl, fun l => ?_⟩
    exact contains_references_reconciled hrecord e l
  · rw [report_reconcile]
    unfold census
    simp only [(g.targetOf_kind _).1, (g.targetOf_kind _).2.1, (g.targetOf_kind _).2.2]
    rfl
  · rw [report_reconcile, census_total, List.length_map]
    rfl

/-! ## A second pass -/

theorem attached_reconcile (g : Graph) (usr : Usr) :
    g.reconcile.1.attached usr g.reconcile.1.pending.toList = g.attached usr g.pending.toList := by
  rw [attached_congr g.contains_reconcile, pending_reconcile]

theorem reconciled_reconciled (g : Graph) (usr : Usr) (e : Entity) :
    g.reconcile.1.reconciled usr (g.reconciled usr e) = g.reconciled usr e := by
  unfold reconciled
  rw [attached_reconcile, overriders_congr g.overrideOf_reconcile]
  have htwice : (e.references.addAll (g.attached usr g.pending.toList)).addAll
      (g.attached usr g.pending.toList) = e.references.addAll (g.attached usr g.pending.toList) := by
    refine SortedSet.ext_contains (fun l => Bool.eq_iff_iff.mpr ?_)
    simp only [SortedSet.contains_addAll, or_assoc, or_self]
  simp only [htwice]

theorem reconcile_reconcile (g : Graph) : g.reconcile.1.reconcile = g.reconcile := by
  have hentities : g.reconcile.1.reconcile.1.entities = g.reconcile.1.entities := by
    refine SortedMap.ext_get? (fun usr => ?_)
    rw [get?_reconcile, get?_reconcile, Option.map_map]
    congr 1
    funext e
    exact g.reconciled_reconciled usr e
  have hreport : g.reconcile.1.reconcile.2 = g.reconcile.2 := by
    rw [report_reconcile, report_reconcile, pending_reconcile]
    unfold census
    simp only [targetOf_congr g.contains_reconcile]
  have hgraph : g.reconcile.1.reconcile.1 = g.reconcile.1 := by
    have hpending := g.reconcile.1.pending_reconcile
    revert hentities hpending
    cases g.reconcile.1.reconcile.1
    cases g.reconcile.1
    rintro rfl rfl
    rfl
  exact Prod.ext hgraph hreport

/-- **The overriding methods are the inverse of the overridden ones**, whatever they were before: a
record has the definitions of the records that name its symbol as the one they override. A second
pass gives the same graph and the same report. -/
theorem subs_invert_super (g : Graph) : (∀ usr e, g.reconcile.1.entities.get? usr = some e → ∀ l,
        e.subs.contains l = true ↔ ∃ usr' e', g.reconcile.1.entities.get? usr' = some e'
              ∧ e'.overriddenUsr = some usr ∧ e'.definition = some l)
      ∧ g.reconcile.1.reconcile = g.reconcile := by
  refine ⟨fun usr e he l => ?_, g.reconcile_reconcile⟩
  obtain ⟨e₀, -, rfl⟩ := Option.map_eq_some_iff.mp (g.get?_reconcile usr ▸ he)
  show SortedMap.contains (SortedSet.ofList (g.overriders usr)) l = true ↔ _
  simp only [SortedSet.contains_ofList, Std.LawfulEqOrd.compare_eq_iff_eq, exists_eq_right',
    mem_overriders, ← g.overrideOf_reconcile, Option.map_eq_some_iff, overrideOf, Prod.mk.injEq]

end SymbolIndex.Graph
