import SymbolIndex.Graph
import SymbolIndex.Proofs.FileTable

/-!
# Merging, one symbol at a time

An operation changes the record of one symbol and looks at no other, so the record of a symbol
after any number of merges is the result of the operations that name it, taken in order. The
numbers of files do not matter either once the table has stopped growing: `place` stands for the
table at the end, and every place stored on the way is the place of its position there.

`applyTo` is what an operation makes of a record that exists, `seed` the record it starts from when
there is none. The seed is empty but for a template parameter, whose operation leaves a record that
exists alone.
-/

namespace SymbolIndex

open EntityOp FileTable List SortedMap

/-- The first overridden method is kept with its place; later ones are ignored. -/
def Entity.overrideOnce (e : Entity) (base : Option Location) (usr : Option Usr) : Entity :=
  match e.superLocation, base with
  | none, some l => { e with superLocation := some l, overriddenUsr := usr }
  | _, _ => e

namespace EntityOp

def applyTo (place : SourcePosition → Location) (op : EntityOp) (e : Entity) : Entity :=
  match op with
  | .declare _ name scope location isDefinition superLocation overriddenUsr =>
    ((e.nameOnce name scope).declareAt (place location) isDefinition).overrideOnce
      (superLocation.map place) overriddenUsr
  | .extraDeclaration _ location =>
    { e with extraDeclarations := e.extraDeclarations.add (place location) }
  | .synthesize _ _ _ _ => e

def seed (place : SourcePosition → Location) : EntityOp → Entity
  | .synthesize _ name definition scope =>
    { symbolName := name, definition := some (place definition), cursorScope := scope }
  | _ => {}

/-- What an operation makes of a symbol. -/
def act (place : SourcePosition → Location) (op : EntityOp) (e : Option Entity) : Option Entity :=
  some (op.applyTo place (e.getD (op.seed place)))

end EntityOp

namespace Entity

def applyAll (place : SourcePosition → Location) (e : Entity) (ops : List EntityOp) : Entity :=
  ops.foldl (fun e op => op.applyTo place e) e

end Entity

namespace EntityOp

variable {usr : Usr} {op : EntityOp}

def actAll (place : SourcePosition → Location) (ops : List EntityOp) (e : Option Entity) :
    Option Entity :=
  ops.foldl (fun e op => op.act place e) e

section

variable (place : SourcePosition → Location)

theorem actAll_some (ops : List EntityOp) (e : Entity) :
    actAll place ops (some e) = some (e.applyAll place ops) := by
  unfold actAll Entity.applyAll
  induction ops generalizing e with
  | nil => rfl
  | cons op _ ih =>
    rw [foldl_cons, foldl_cons]
    exact ih (op.applyTo place e)

theorem actAll_none (op : EntityOp) (rest : List EntityOp) :
    actAll place (op :: rest) none = some ((op.seed place).applyAll place (op :: rest)) :=
  actAll_some place rest (op.applyTo place (op.seed place))

theorem actAll_append (ops ops' : List EntityOp)
    (e : Option Entity) :
    actAll place (ops ++ ops') e = actAll place ops' (actAll place ops e) := by
  unfold actAll
  rw [foldl_append]

end

def on (usr : Usr) (ops : List EntityOp) : List EntityOp := ops.filter (fun op => op.target = usr)

theorem on_append (usr : Usr) (ops ops' : List EntityOp) :
    on usr (ops ++ ops') = on usr ops ++ on usr ops' := filter_append ops ops'

theorem on_cons_of_eq (h : op.target = usr) (ops : List EntityOp) :
    on usr (op :: ops) = op :: on usr ops := by simp [on, h]

theorem on_cons_of_ne (h : op.target ≠ usr) (ops : List EntityOp) :
    on usr (op :: ops) = on usr ops := by simp [on, h]

end EntityOp

namespace Graph

variable {c : Contribution}

/-! ## One operation -/

@[simp] theorem get?_setEntity (g : Graph) (usr usr' : Usr) (e : Entity) :
    (g.setEntity usr e).entities.get? usr' = if usr' = usr then some e else g.entities.get? usr' := by
  unfold setEntity
  rw [get?_insert]
  simp only [Std.compare_eq_iff_eq]

/-- The last part of a declaration: the record is stored, with the overridden method when it is the
first. -/
def storeOverride (g : Graph) (t : FileTable) (usr : Usr) (e : Entity)
    (superLocation : Option SourcePosition) (overriddenUsr : Option Usr) :
    Except Overflow (Graph × FileTable) :=
  match e.superLocation, superLocation with
  | none, some base => do
    let (s, t) ← t.location base
    return (g.setEntity usr { e with superLocation := some s, overriddenUsr }, t)
  | _, _ => return (g.setEntity usr e, t)

theorem applyOp_declare (g : Graph) (t : FileTable) (usr : Usr) (name : String)
    (scope : List String) (location : SourcePosition) (isDefinition : Bool)
    (superLocation : Option SourcePosition) (overriddenUsr : Option Usr) :
    g.applyOp t (.declare usr name scope location isDefinition superLocation overriddenUsr)
      = t.location location >>= fun a => g.storeOverride a.2 usr
          (((g.entity usr).nameOnce name scope).declareAt a.1 isDefinition)
          superLocation overriddenUsr := rfl

variable {g g' : Graph} {t t' : FileTable}

theorem storeOverride_spec {usr : Usr} {e : Entity} {superLocation : Option SourcePosition}
    {overriddenUsr : Option Usr}
    (h : g.storeOverride t usr e superLocation overriddenUsr = .ok (g', t')) :
    t.Extends t' ∧ ∀ T, t'.Extends T →
      g' = g.setEntity usr (e.overrideOnce (superLocation.map T.place) overriddenUsr) := by
  unfold storeOverride at h
  unfold Entity.overrideOnce
  cases hs : e.superLocation with
  | some =>
    simp only [hs] at h
    cases h
    exact ⟨.refl _, fun T _ => rfl⟩
  | none =>
    cases superLocation with
    | none =>
      simp only [hs] at h
      cases h
      exact ⟨.refl _, fun T _ => rfl⟩
    | some =>
      simp only [hs] at h
      obtain ⟨⟨s, t₂⟩, hl, h⟩ := bind_eq_ok_iff.mp h
      obtain ⟨hext, hknown, rfl⟩ := location_spec hl
      cases h
      refine ⟨hext, fun T hT => ?_⟩
      rw [Option.map_some, place_mono hT hknown]

/-- What an operation does to a graph, the places read off any later table. -/
theorem applyOp_spec {op : EntityOp} (h : g.applyOp t op = .ok (g', t')) :
    t.Extends t' ∧ g'.pending = g.pending ∧ ∀ T, t'.Extends T → ∀ u, g'.entities.get? u
        = if op.target = u then op.act T.place (g.entities.get? u) else g.entities.get? u := by
  cases op with
  | declare usr =>
    rw [applyOp_declare] at h
    obtain ⟨⟨l, t₁⟩, hl, h⟩ := bind_eq_ok_iff.mp h
    obtain ⟨hext, hknown, rfl⟩ := location_spec hl
    obtain ⟨hext₂, hg⟩ := storeOverride_spec h
    refine ⟨hext.trans hext₂, by rw [hg t' (.refl _)]; rfl, fun T hT u => ?_⟩
    rw [hg T hT, get?_setEntity]
    show _ = if usr = u then _ else _
    by_cases hu : usr = u
    · subst hu
      rw [if_pos rfl, if_pos rfl, ← place_mono (hext₂.trans hT) hknown]
      rfl
    · rw [if_neg (fun h => hu h.symm), if_neg hu]
  | extraDeclaration container =>
    obtain ⟨⟨l, t₁⟩, hl, h⟩ := bind_eq_ok_iff.mp h
    obtain ⟨hext, hknown, rfl⟩ := location_spec hl
    cases h
    refine ⟨hext, rfl, fun T hT u => ?_⟩
    rw [get?_setEntity]
    show _ = if container = u then _ else _
    by_cases hu : container = u
    · subst hu
      rw [if_pos rfl, if_pos rfl, ← place_mono hT hknown]
      rfl
    · rw [if_neg (fun h => hu h.symm), if_neg hu]
  | synthesize usr =>
    obtain ⟨⟨l, t₁⟩, hl, h⟩ := bind_eq_ok_iff.mp h
    obtain ⟨hext, hknown, rfl⟩ := location_spec hl
    simp only at h
    split at h
    · next hc =>
      cases h
      refine ⟨hext, rfl, fun T _ u => ?_⟩
      show _ = if usr = u then _ else _
      split
      · next hu =>
        subst hu
        obtain ⟨e, he⟩ := SortedMap.contains_iff.mp hc
        rw [he]
        rfl
      · rfl
    · next hc =>
      cases h
      refine ⟨hext, rfl, fun T hT u => ?_⟩
      rw [get?_setEntity]
      show _ = if usr = u then _ else _
      by_cases hu : usr = u
      · subst hu
        have hnone : g.entities.get? usr = none :=
          contains_eq_false_iff.mp (by simpa using hc)
        rw [if_pos rfl, if_pos rfl, hnone, ← place_mono hT hknown]
        rfl
      · rw [if_neg (fun h => hu h.symm), if_neg hu]

/-! ## Many operations -/

theorem applyOps_spec {ops : List EntityOp} (h : g.applyOps t ops = .ok (g', t')) :
    t.Extends t' ∧ g'.pending = g.pending ∧ ∀ T, t'.Extends T → ∀ u, g'.entities.get? u
        = EntityOp.actAll T.place (EntityOp.on u ops) (g.entities.get? u) := by
  induction ops generalizing g t with
  | nil =>
    obtain ⟨rfl, rfl⟩ := Prod.mk.inj (Except.ok.inj h)
    exact ⟨.refl t, rfl, fun _ _ _ => rfl⟩
  | cons op _ ih =>
    obtain ⟨⟨g₁, t₁⟩, h₁, h⟩ := bind_eq_ok_iff.mp h
    obtain ⟨hext₁, hpend₁, hget₁⟩ := applyOp_spec h₁
    obtain ⟨hext, hpend, hget⟩ := ih h
    refine ⟨hext₁.trans hext, hpend.trans hpend₁, fun T hT u => ?_⟩
    rw [hget T hT u, hget₁ T (hext.trans hT) u]
    by_cases hu : op.target = u
    · rw [if_pos hu, on_cons_of_eq hu]
      rfl
    · rw [if_neg hu, on_cons_of_ne hu]

def firstAt (place : SourcePosition → Location) (l : Location)
    (ps : List (SourcePosition × PendingReference)) : Option PendingReference :=
  ps.findSome? (fun e => if place e.1 = l then some e.2 else none)

theorem addPending_spec {ps : List (SourcePosition × PendingReference)}
    (h : g.addPending t ps = .ok (g', t')) :
    t.Extends t' ∧ g'.entities = g.entities ∧ ∀ T, t'.Extends T → ∀ l, g'.pending.get? l
        = (g.pending.get? l).or (firstAt T.place l ps) := by
  induction ps generalizing g t with
  | nil =>
    obtain ⟨rfl, rfl⟩ := Prod.mk.inj (Except.ok.inj h)
    exact ⟨.refl t, rfl, fun _ _ _ => by simp [firstAt]⟩
  | cons head _ ih =>
    obtain ⟨⟨l₁, t₁⟩, h₁, h⟩ := bind_eq_ok_iff.mp h
    obtain ⟨hext₁, hknown, rfl⟩ := location_spec h₁
    obtain ⟨hext, hent, hget⟩ := ih h
    refine ⟨hext₁.trans hext, hent, fun T hT l => ?_⟩
    rw [hget T hT l, get?_insertIfNew]
    simp only [Std.compare_eq_iff_eq, firstAt, findSome?_cons]
    rw [place_mono (hext.trans hT) hknown]
    by_cases hl : l = t₁.place head.1
    · rw [if_pos hl, if_pos hl.symm]
      cases g.pending.get? l <;> rfl
    · rw [if_neg hl, if_neg (fun h => hl h.symm)]

/-! ## Many units -/

/-- Merge contributions one after the other. -/
def mergeAll (g : Graph) (files : FileTable) :
    List Contribution → Except Overflow (Graph × FileTable)
  | [] => .ok (g, files)
  | c :: rest => do
    let (g, files) ← g.merge files c
    g.mergeAll files rest

def pendingOf (cs : List Contribution) : List (SourcePosition × PendingReference) :=
  cs.flatMap (fun c => c.pending.toList)

def opsOf (cs : List Contribution) : List EntityOp := cs.flatMap Contribution.ops

theorem merge_spec (h : g.merge t c = .ok (g', t')) : t.Extends t' ∧ ∀ T, t'.Extends T →
      (∀ u, g'.entities.get? u = EntityOp.actAll T.place (EntityOp.on u c.ops) (g.entities.get? u))
      ∧ ∀ l, g'.pending.get? l = (g.pending.get? l).or (firstAt T.place l c.pending.toList) := by
  obtain ⟨⟨g₁, t₁⟩, h₁, h⟩ := bind_eq_ok_iff.mp h
  obtain ⟨hext₁, hpend₁, hget₁⟩ := applyOps_spec h₁
  obtain ⟨hext, hent, hget⟩ := addPending_spec h
  refine ⟨hext₁.trans hext, fun T hT => ⟨fun u => ?_, fun l => ?_⟩⟩
  · rw [hent, hget₁ T (hext.trans hT) u]
  · rw [hget T hT l, hpend₁]

theorem merge_keeps {P : Graph → FileTable → Prop} (h : g.merge t c = .ok (g', t')) (hstart : P g t)
    (hop : ∀ {g t g' t' op}, op ∈ c.ops → P g t → g.applyOp t op = .ok (g', t') → P g' t')
    (hplace : ∀ {g t l t' p} (r : PendingReference), P g t → t.location p = .ok (l, t') →
      P { g with pending := g.pending.insertIfNew l r } t') : P g' t' := by
  obtain ⟨⟨g₁, t₁⟩, hops, hpending⟩ := bind_eq_ok_iff.mp h
  have hmid : P g₁ t₁ := by
    clear h
    generalize c.ops = ops at hop hops
    induction ops generalizing g t with
    | nil =>
      cases hops
      exact hstart
    | cons _ _ ih =>
      obtain ⟨⟨g₂, t₂⟩, hone, hrest⟩ := bind_eq_ok_iff.mp hops
      exact ih (hop mem_cons_self hstart hone)
        (fun hmem => hop (mem_cons_of_mem _ hmem)) hrest
  clear hops
  generalize c.pending.toList = ps at hpending
  induction ps generalizing g₁ t₁ with
  | nil =>
    cases hpending
    exact hmid
  | cons p _ ih =>
    obtain ⟨⟨l, t₂⟩, hone, hrest⟩ := bind_eq_ok_iff.mp hpending
    exact ih _ _ (hplace p.2 hmid hone) hrest

theorem firstAt_append (place : SourcePosition → Location) (l : Location)
    (ps qs : List (SourcePosition × PendingReference)) :
    firstAt place l (ps ++ qs) = (firstAt place l ps).or (firstAt place l qs) := by
  unfold firstAt
  rw [findSome?_append]

/-- **What merging makes of a graph.** The record of a symbol is the result of the operations that
name it, and the reference at a place is the first that was entered there. -/
theorem mergeAll_spec {cs : List Contribution} (h : g.mergeAll t cs = .ok (g', t')) :
    t.Extends t' ∧ ∀ T, t'.Extends T → (∀ u, g'.entities.get? u
        = EntityOp.actAll T.place (EntityOp.on u (opsOf cs)) (g.entities.get? u))
      ∧ ∀ l, g'.pending.get? l = (g.pending.get? l).or (firstAt T.place l (pendingOf cs)) := by
  induction cs generalizing g t with
  | nil =>
    obtain ⟨rfl, rfl⟩ := Prod.mk.inj (Except.ok.inj h)
    exact ⟨.refl t, fun _ _ => ⟨fun _ => rfl, fun _ => by simp [firstAt, pendingOf]⟩⟩
  | cons _ _ ih =>
    obtain ⟨⟨g₁, t₁⟩, h₁, h⟩ := bind_eq_ok_iff.mp h
    obtain ⟨hext₁, hget₁⟩ := merge_spec h₁
    obtain ⟨hext, hget⟩ := ih h
    refine ⟨hext₁.trans hext, fun T hT => ⟨fun u => ?_, fun l => ?_⟩⟩
    · rw [(hget T hT).1 u, (hget₁ T (hext.trans hT)).1 u]
      simp only [opsOf, flatMap_cons, on_append, actAll_append]
    · rw [(hget T hT).2 l, (hget₁ T (hext.trans hT)).2 l]
      simp only [pendingOf, flatMap_cons, firstAt_append, Option.or_assoc]

end Graph

end SymbolIndex
