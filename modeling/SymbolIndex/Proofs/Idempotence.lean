import SymbolIndex.Proofs.Admission
import SymbolIndex.Proofs.ClosedForm
import SymbolIndex.Proofs.History

/-!
# Integrating a unit a second time

A record that has taken in a list of operations absorbs each of them: it has a definition and an
overridden method when the operation brings one, and lists the places that the operation brings.
Later operations take none of that away, so when the list comes again only the name can change, and
the name is settled too. The files have their numbers by then, so the second time nothing is
numbered and nothing can fail.
-/

namespace SymbolIndex

open List

namespace Entity

variable {place : SourcePosition → Location} {e : Entity} {op : EntityOp}

/-! ## Operations that bring nothing new -/

def renamed (e : Entity) (n : String × List String) : Entity :=
  { e with symbolName := n.1, cursorScope := n.2 }

/-- Nothing that an operation brings is new to a record, the name apart. -/
structure Absorbs (place : SourcePosition → Location) (e : Entity) (op : EntityOp) : Prop where
  definition : op.definition? place ≠ none → e.definition ≠ none
  declaration : ∀ l, op.declaration? place = some l →
    e.definition = some l ∨ e.declarations.contains l = true
  extra : ∀ l, op.extra? place = some l → e.extraDeclarations.contains l = true
  override : op.override? place ≠ none → e.overriding ≠ none

theorem declared_applyTo (op : EntityOp) {l : Location}
    (h : op.declaration? place = some l ∨ e.definition = some l ∨ e.declarations.contains l = true) :
    (op.applyTo place e).definition = some l
      ∨ (op.applyTo place e).declarations.contains l = true := by
  cases op with
  | declare _ _ _ _ d =>
    rw [applyTo_declare]
    simp only [definition_declareAt]
    unfold declareAt setDefinition addDeclaration
    cases d <;> cases hd : e.definition <;>
      grind [SortedSet.contains_add, SortedSet.contains_erase, EntityOp.declaration?]
  | extraDeclaration | synthesize => exact h.resolve_left (by simp [EntityOp.declaration?])

theorem absorbs_applyTo {op' : EntityOp} (h : op' = op ∨ e.Absorbs place op) :
    (op'.applyTo place e).Absorbs place op where
  definition := fun hd => by
    rw [definition_applyTo, Ne, Option.or_eq_none_iff]
    rcases h with rfl | h
    · exact fun hn => hd hn.2
    · exact fun hn => h.definition hd hn.1
  declaration := fun l hl => declared_applyTo op' <| by
    rcases h with rfl | h
    · exact .inl hl
    · exact .inr (h.declaration l hl)
  extra := fun l hl => (contains_extra_applyTo place op' e l).mpr <| by
    rcases h with rfl | h
    · exact .inr hl
    · exact .inl (h.extra l hl)
  override := fun ho => by
    rw [overriding_applyTo, Ne, Option.or_eq_none_iff]
    rcases h with rfl | h
    · exact fun hn => ho hn.2
    · exact fun hn => h.override ho hn.1

theorem absorbs_applyAll (ops : List EntityOp) (e : Entity) (h : op ∈ ops ∨ e.Absorbs place op) :
    (e.applyAll place ops).Absorbs place op := by
  induction ops generalizing e with
  | nil => exact h.resolve_left (by simp)
  | cons op' rest ih =>
    rw [applyAll_cons]
    rw [List.mem_cons, or_assoc] at h
    rcases h with rfl | hrest | h
    · exact ih _ (.inr (absorbs_applyTo (.inl rfl)))
    · exact ih _ (.inl hrest)
    · exact ih _ (.inr (absorbs_applyTo (.inr h)))

theorem add_of_contains {s : SortedSet Location} {l : Location} (h : s.contains l = true) :
    s.add l = s :=
  SortedSet.ext_contains fun k => by
    rw [Bool.eq_iff_iff, SortedSet.contains_add]
    grind

theorem Absorbs.applyTo_eq (h : e.Absorbs place op) :
    op.applyTo place e = e.renamed (op.applyTo place e).naming := by
  cases op with
  | declare _ _ _ location d base usr =>
    have hat : e.declareAt (place location) d = e := by
      unfold declareAt setDefinition addDeclaration
      cases d with
      | true =>
        have hsome := h.definition (by simp [EntityOp.definition?])
        cases hd : e.definition <;> simp_all
      | false =>
        rcases h.declaration _ rfl with hd | hc
        · simp [hd]
        · simp [add_of_contains hc]
    have hover : e.overrideOnce (base.map place) usr = e := by
      unfold overrideOnce
      cases base with
      | none => split <;> simp_all
      | some =>
        have hsome := h.override (by simp [EntityOp.override?])
        cases hs : e.superLocation <;> simp_all [overriding]
    rw [applyTo_declare, hat, hover]
    rfl
  | extraDeclaration =>
    show ({ e with extraDeclarations := e.extraDeclarations.add _ } : Entity) = _
    rw [add_of_contains (h.extra _ rfl)]
    rfl
  | synthesize => rfl

theorem applyAll_of_absorbs {ops : List EntityOp} (h : ∀ op ∈ ops, e.Absorbs place op) :
    e.applyAll place ops = e.renamed (e.applyAll place ops).naming := by
  induction ops generalizing e with
  | nil => rfl
  | cons op rest ih =>
    -- what a record absorbs does not depend on its name
    have hrest : ∀ n, ∀ op ∈ rest, (e.renamed n).Absorbs place op := fun n op hop =>
      let ⟨hdef, hdecl, hextra, hover⟩ := h op (mem_cons_of_mem _ hop)
      ⟨hdef, hdecl, hextra, hover⟩
    rw [applyAll_cons, (h op mem_cons_self).applyTo_eq]
    exact ih (hrest _)

/-- **Operations that come a second time change nothing**, whatever record they met first. -/
theorem applyAll_idem (place : SourcePosition → Location) (ops : List EntityOp) (e : Entity) :
    (e.applyAll place ops).applyAll place ops = e.applyAll place ops := by
  rw [applyAll_of_absorbs fun op hop => absorbs_applyAll ops e (.inl hop), naming_applyAll,
    naming_applyAll, foldl_settle_idem, ← naming_applyAll]
  rfl

end Entity

theorem EntityOp.actAll_idem (place : SourcePosition → Location) (ops : List EntityOp)
    (r : Option Entity) : actAll place ops (actAll place ops r) = actAll place ops r := by
  cases r with
  | some e => rw [actAll_some, actAll_some, Entity.applyAll_idem]
  | none =>
    cases ops with
    | nil => rfl
    | cons => rw [actAll_none, actAll_some, Entity.applyAll_idem]

namespace Graph

variable {g g' : Graph} {t t' T : FileTable} {c : Contribution}

theorem behind_merge (h : g.merge t c = .ok (g', t')) : Behind g g' := by
  intro usr hnone
  unfold entity at hnone ⊢
  rw [((merge_spec h).2 t' (.refl t')).1 usr] at hnone
  cases hr : g.entities.get? usr with
  | none => rfl
  | some =>
    rw [hr, EntityOp.actAll_some, Option.getD_some, Entity.overriding_applyAll,
      Option.or_eq_none_iff] at hnone
    exact hnone.1

theorem merge_again (h : g.merge t c = .ok (g', t')) (hT : t'.Extends T) :
    g'.merge T c = .ok (g', T) := by
  have hall : g.mergeAll t [c] = .ok (g', t') := bind_eq_ok_iff.mpr ⟨_, h, rfl⟩
  obtain ⟨k, hk⟩ := mergeAll_again hall hT (behind_merge h)
  obtain ⟨⟨k', T'⟩, hmerge, hr⟩ := bind_eq_ok_iff.mp hk
  obtain ⟨hk', hT'⟩ := Prod.mk.inj (Except.ok.inj hr)
  rw [hk', hT'] at hmerge
  obtain ⟨hents, hpending⟩ := (merge_spec hmerge).2 T (.refl T)
  obtain ⟨hents', hpending'⟩ := (merge_spec h).2 T hT
  have hsame : k = g' := by
    refine mk.injEq .. ▸ ⟨SortedMap.ext_get? fun u => ?_, SortedMap.ext_get? fun l => ?_⟩
    · rw [hents, hents', EntityOp.actAll_idem]
    · rw [hpending, hpending', Option.or_assoc, Option.or_self]
  rw [hmerge, hsame]

end Graph

/-! ## Files that are numbered already -/

namespace IndexState

variable {t t' T : FileTable} {visited visited' : SortedSet FileId} {ps : List Path}

theorem internAll_again (h : internAll t visited ps = .ok (visited', t')) (hT : t'.Extends T) :
    internAll T visited ps = .ok (visited', T) := by
  induction ps generalizing t visited with
  | nil =>
    cases h
    rfl
  | cons p _ ih =>
    obtain ⟨⟨id, t₁⟩, hone, h⟩ := bind_eq_ok_iff.mp h
    have hknown := (FileTable.intern_spec hone).2
    have hlater := (extends_of_grows (grows_internAll h)).trans hT
    exact bind_eq_ok_iff.mpr ⟨_, FileTable.intern_of_known (hlater _ _ hknown), ih h⟩

theorem spends_internAll (ps : List Path) (t : FileTable) (visited : SortedSet FileId) :
    t.Spends ps.length (internAll t visited ps) := by
  induction ps generalizing t visited with
  | nil => exact FileTable.spends_pure 0 t visited
  | cons p _ ih =>
    rw [length_cons, Nat.add_comm]
    exact (FileTable.spends_intern t p).bind (fun r => ih r.2 _)

theorem addSource_addSource (s : IndexState) (source : Source) :
    (s.addSource source).addSource source = s.addSource source := by
  unfold addSource
  simp [filter_append, Signature.same_refl]

/-- **Integrating a unit again changes nothing.** Whatever a state holds and whatever a unit
reports, after the unit is integrated it can be integrated again, and the state and the numbers of
its files come out the same. The first time can fail only when the numbers of files run out, and
two for each operation with one for each other position and file are enough. -/
theorem integrate_idempotent (s : IndexState) (c : Contribution) (source : Source) :
    (∃ visited s', s.integrate c source = .ok (visited, s')
        ∧ s'.integrate c source = .ok (visited, s'))
      ∨ (s.integrate c source = .error .overflow
        ∧ 2 ^ 32 ≤ s.files.lastId.toNat + (2 * c.ops.length + c.pending.toList.length
          + (source.dependencies.keys.length + 1))) := by
  cases h : s.integrate c source with
  | ok r =>
    obtain ⟨visited, s'⟩ := r
    obtain ⟨graph, files, files', hmerge, hintern, rfl⟩ := integrate_eq_ok h
    have hext := extends_of_grows (grows_internAll hintern)
    refine .inl ⟨visited, _, rfl, ?_⟩
    have hagain := integrate_of_ok (s := addSource { s with graph, files := files' } source)
      (Graph.merge_again hmerge hext) (internAll_again hintern (.refl files'))
    have hsources := addSource_addSource { s with graph, files := files' } source
    exact hagain.trans (congrArg (fun r => Except.ok (visited, r)) hsources)
  | error =>
    refine .inr ⟨rfl, ?_⟩
    have hspends := (Graph.spends_merge c s.graph s.files).bind
      (fun r => spends_internAll (source.input :: source.dependencies.keys) r.2 ∅)
    -- numbering the files is the last step that can fail
    cases hx : s.graph.merge s.files c >>= fun r =>
        internAll r.2 ∅ (source.input :: source.dependencies.keys) with
    | error => rwa [hx] at hspends
    | ok =>
      obtain ⟨_, hmerge, hintern⟩ := bind_eq_ok_iff.mp hx
      cases h.symm.trans (integrate_of_ok hmerge hintern)

end IndexState

end SymbolIndex
