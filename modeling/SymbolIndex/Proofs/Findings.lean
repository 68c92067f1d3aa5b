import SymbolIndex.Proofs.Composition

/-!
# What records hold and what units tell

A record is made of its name and of findings: where its symbol is defined, declared and referred to,
and what it overrides. Units tell the same things of a symbol, by operations and by references that
belong to it. A record that starts from nothing holds exactly what is told of its symbol, when no
two units contradict each other (`Composed.holds_iff_told`); one that starts from an older record
holds that too, and what is told only as far as the older record lets it in
(`Composed.holds_of_ground`, `Composed.holds_or_told`, `Composed.holds_of_told`).
-/

namespace SymbolIndex

open EntityOp List Option SortedSet SymbolIndex.Graph

/-! ## What is told of a symbol -/

/-- What units can tell of a symbol, a name apart. A place where it is defined counts as one where
it is declared. -/
inductive Finding
  | defined (y : Place)
  | declared (y : Place)
  | extra (y : Place)
  | overriding (o : Place × Option Usr)
  | reference (y : Place)

namespace Finding

def place : Finding → Place
  | .defined y | .declared y | .extra y | .reference y => y
  | .overriding o => o.1

/-- A record is dropped when it holds nothing but an overridden method. -/
def Own : Finding → Prop
  | .overriding _ => False
  | _ => True

end Finding

namespace EntityOp

variable {y : Place}

def definesAt? : EntityOp → Option Place
  | .declare _ _ _ location true _ _ => some location.toPlace
  | .synthesize _ _ definition _ => some definition.toPlace
  | _ => none

/-- The name and the scope that an operation gives to a symbol without a record. -/
def calls? : EntityOp → Option (String × List String)
  | .declare _ name scope _ _ _ _ => some (name, scope)
  | .synthesize _ name _ scope => some (name, scope)
  | _ => none

/-- An operation tells a finding. -/
def Tells (op : EntityOp) : Finding → Prop
  | .defined y => op.definesAt? = some y
  | .declared y => op.declaredAt? = some y ∨ op.definesAt? = some y
  | .extra y => op.extraAt? = some y
  | .overriding o => op.overriddenAt? = some o
  | .reference _ => False

variable {op op' : EntityOp}

theorem mem_on {usr : Usr} {ops : List EntityOp} :
    op ∈ on usr ops ↔ op ∈ ops ∧ op.target = usr := by
  simp [on]

theorem exists_tells (op : EntityOp) : ∃ f : Finding, f.Own ∧ op.Tells f := by
  cases op with
  | declare _ _ _ location d =>
    refine ⟨.declared location.toPlace, trivial, ?_⟩
    cases d
    · exact .inl rfl
    · exact .inr rfl
  | extraDeclaration _ location => exact ⟨.extra location.toPlace, trivial, rfl⟩
  | synthesize _ _ definition => exact ⟨.defined definition.toPlace, trivial, rfl⟩

theorem exists_declared_of_calls? {n : String × List String} (h : op.calls? = some n) :
    ∃ y, op.Tells (.declared y) := by
  cases op with
  | declare _ _ _ location d =>
    refine ⟨location.toPlace, ?_⟩
    cases d
    · exact .inl rfl
    · exact .inr rfl
  | extraDeclaration => simp [calls?] at h
  | synthesize _ _ definition => exact ⟨definition.toPlace, .inr rfl⟩

theorem exists_calls?_of_declared (h : op.Tells (.declared y)) : ∃ n, op.calls? = some n := by
  cases op with
  | declare => exact ⟨_, rfl⟩
  | extraDeclaration => rcases h with h | h <;> exact absurd h (by simp [declaredAt?, definesAt?])
  | synthesize => exact ⟨_, rfl⟩

theorem of_parameter?_eq_none (h : op.parameter? = none) :
    op.definesAt? = op.definedAt? ∧ op.calls? = op.naming? := by
  cases op with
  | declare _ _ _ _ d => cases d <;> exact ⟨rfl, rfl⟩
  | extraDeclaration => exact ⟨rfl, rfl⟩
  | synthesize => simp [parameter?] at h

theorem of_parameter?_eq_some {name : String} {scope : List String}
    (h : op.parameter? = some (name, y, scope)) :
    op.definesAt? = some y ∧ op.calls? = some (name, scope) ∧ op.definedAt? = none
      ∧ op.declaredAt? = none ∧ op.extraAt? = none ∧ op.overriddenAt? = none
      ∧ op.naming? = none := by
  cases op with
  | declare | extraDeclaration => simp [parameter?] at h
  | synthesize _ name' definition scope' =>
    obtain ⟨rfl, rfl, rfl⟩ : name' = name ∧ definition.toPlace = y ∧ scope' = scope := by
      simpa [parameter?] using h
    exact ⟨rfl, rfl, rfl, rfl, rfl, rfl, rfl⟩

end EntityOp

/-- Units tell something of a symbol, when some symbols have records: an operation says it, or a
reference belongs to the symbol. -/
def Told (known : Usr → Bool) (cs : List Contribution) (usr : Usr) (f : Finding) : Prop :=
  (∃ op ∈ on usr (opsOf cs), op.Tells f)
    ∨ ∃ p ∈ pendingOf cs, f = .reference p.1.toPlace ∧ p.2.owner? known = some usr

section Told

variable {known : Usr → Bool} {cs cs' : List Contribution} {usr : Usr} {f : Finding} {op : EntityOp}

theorem mem_opsOf_append :
    op ∈ opsOf (cs ++ cs') ↔ op ∈ opsOf cs ∨ op ∈ opsOf cs' := by
  simp [opsOf]

theorem EntityOp.mem_on_append : op ∈ on usr (opsOf (cs ++ cs'))
      ↔ op ∈ on usr (opsOf cs) ∨ op ∈ on usr (opsOf cs') := by
  simp only [mem_on, mem_opsOf_append, or_and_right]

theorem mem_pendingOf_append {p : SourcePosition × PendingReference} :
    p ∈ pendingOf (cs ++ cs') ↔ p ∈ pendingOf cs ∨ p ∈ pendingOf cs' := by
  simp [pendingOf]

theorem told_append :
    Told known (cs ++ cs') usr f ↔ Told known cs usr f ∨ Told known cs' usr f := by
  unfold Told
  simp only [mem_on_append, mem_pendingOf_append, or_and_right, exists_or]
  grind

theorem PendingReference.known_of_owner? {r : PendingReference} (h : r.owner? known = some usr) :
    known usr = true := by
  unfold owner? at h
  split at h
  · next hknown =>
    cases h
    exact hknown
  · exact (filter_eq_some_iff.mp h).2

end Told

/-! ## What a record holds -/

namespace PlacedEntity

variable {e e' : PlacedEntity}

/-- A record has a finding. -/
def Holds (e : PlacedEntity) : Finding → Prop
  | .defined y => e.definition = some y
  | .declared y => SortedMap.contains e.declarations y = true ∨ e.definition = some y
  | .extra y => SortedMap.contains e.extraDeclarations y = true
  | .overriding o => e.overriding = some o
  | .reference y => SortedMap.contains e.references y = true

/-- A record lists no definition as a declaration, and overrides nothing without a place. -/
structure Tidy (e : PlacedEntity) : Prop where
  declared : ∀ y, SortedMap.contains e.declarations y = true → e.definition ≠ some y
  overridden : e.superLocation = none → e.overriddenUsr = none

theorem Tidy.base_eq (h : e.Tidy) (h' : e'.Tidy) (hover : e.overriding = e'.overriding) :
    e.superLocation = e'.superLocation ∧ e.overriddenUsr = e'.overriddenUsr := by
  have hnone := h.overridden
  have hnone' := h'.overridden
  unfold overriding at hover
  cases hsuper : e.superLocation <;> cases hsuper' : e'.superLocation <;> simp_all

theorem Tidy.ext (h : e.Tidy) (h' : e'.Tidy) (hname : e.naming = e'.naming)
    (hholds : ∀ f, e.Holds f ↔ e'.Holds f)
    (hsubs : ∀ y, SortedMap.contains e.subs y = true ↔ SortedMap.contains e'.subs y = true) :
    e = e' := by
  have hdef : e.definition = e'.definition := Option.ext fun y => hholds (.defined y)
  have hover : e.overriding = e'.overriding := Option.ext fun o => hholds (.overriding o)
  have hdecl : e.declarations = e'.declarations := by
    refine ext_contains fun y => Bool.eq_iff_iff.mpr ?_
    have hy : (SortedMap.contains e.declarations y = true ∨ e.definition = some y)
      ↔ SortedMap.contains e'.declarations y = true ∨ e'.definition = some y :=
      hholds (.declared y)
    have hone := h.declared y
    have hother := h'.declared y
    rw [hdef] at hy hone
    grind
  have hextra : e.extraDeclarations = e'.extraDeclarations :=
    ext_contains fun y => Bool.eq_iff_iff.mpr (hholds (.extra y))
  have hrefs : e.references = e'.references :=
    ext_contains fun y => Bool.eq_iff_iff.mpr (hholds (.reference y))
  have hsubs : e.subs = e'.subs := ext_contains fun y => Bool.eq_iff_iff.mpr (hsubs y)
  have hbase := h.base_eq h' hover
  obtain ⟨hsymbol, hscope⟩ := Prod.mk.inj hname
  cases e
  cases e'
  simp_all

end PlacedEntity

/-! ## What comes of records that are kept -/

theorem findSome?_eq_some_iff_of_compatible {f : α → Option β} {l : List α}
    (hf : ∀ a ∈ l, ∀ b ∈ l, Compatible (f a) (f b)) {x : β} :
    l.findSome? f = some x ↔ ∃ a ∈ l, f a = some x := by
  refine ⟨exists_of_findSome?_eq_some, ?_⟩
  rintro ⟨a, ha, hx⟩
  cases hl : l.findSome? f with
  | none => exact absurd (findSome?_eq_none_iff.mp hl a ha) (by simp [hx])
  | some x' =>
    obtain ⟨b, hb, hx'⟩ := exists_of_findSome?_eq_some hl
    rw [hf a ha b hb x hx x' hx']

variable {ops : List EntityOp} {e₀ : PlacedEntity} {usr : Usr} {cs cs' : List Contribution}

theorem PlacedEntity.Grown.naming_eq {e : PlacedEntity} (h : e₀.Grown ops e)
    (hops : ∀ op ∈ ops, ∀ op' ∈ ops, Compatible op.naming? op'.naming?) :
    e.naming = if e₀.symbolName = "" then (ops.findSome? EntityOp.naming?).getD e₀.naming
      else e₀.naming := by
  rw [h.naming, Entity.foldl_settle_naming _ hops]
  rfl

namespace Graph.Consistent

variable {cs : List Contribution} {usr : Usr} {op op' : EntityOp}

theorem parameter?_eq (h : Consistent cs) (hop : op ∈ on usr (opsOf cs))
    (hop' : op' ∈ on usr (opsOf cs)) : op.parameter? = op'.parameter? := by
  obtain ⟨hmem, htarget⟩ := mem_on.mp hop
  obtain ⟨hmem', htarget'⟩ := mem_on.mp hop'
  have hsame : op.target = op'.target := htarget.trans htarget'.symm
  cases hparam : op.parameter? with
  | some =>
    have heq := h.parameter op hmem op' hmem' hsame (by rw [hparam]; rfl)
    rw [heq, hparam]
  | none =>
    cases hparam' : op'.parameter? with
    | none => rfl
    | some =>
      have heq := h.parameter op' hmem' op hmem hsame.symm (by rw [hparam']; rfl)
      rw [hparam, hparam'] at heq
      cases heq

theorem compatible_on {f : EntityOp → Option β}
    (h : ∀ op ∈ opsOf cs, ∀ op' ∈ opsOf cs, op.target = op'.target → Compatible (f op) (f op')) :
    ∀ op ∈ on usr (opsOf cs), ∀ op' ∈ on usr (opsOf cs), Compatible (f op) (f op') := by
  intro op hop op' hop'
  obtain ⟨hmem, htarget⟩ := mem_on.mp hop
  obtain ⟨hmem', htarget'⟩ := mem_on.mp hop'
  exact h op hmem op' hmem' (htarget.trans htarget'.symm)

theorem definesAt_unique (h : Consistent cs) (hop : op ∈ on usr (opsOf cs))
    (hop' : op' ∈ on usr (opsOf cs)) {y y' : Place} (hy : op.definesAt? = some y)
    (hy' : op'.definesAt? = some y') : y = y' := by
  have hparam := h.parameter?_eq hop hop'
  cases hsome : op.parameter? with
  | some x =>
    obtain ⟨name, z, scope⟩ := x
    have hz := (of_parameter?_eq_some hsome).1
    have hz' := (of_parameter?_eq_some (hparam ▸ hsome)).1
    rw [hy] at hz
    rw [hy'] at hz'
    exact (some.inj hz).trans (some.inj hz').symm
  | none =>
    rw [(of_parameter?_eq_none hsome).1] at hy
    rw [(of_parameter?_eq_none (hparam ▸ hsome)).1] at hy'
    exact compatible_on h.defined op hop op' hop' y hy y' hy'

theorem calls_compatible (h : Consistent cs) :
    ∀ op ∈ on usr (opsOf cs), ∀ op' ∈ on usr (opsOf cs), Compatible op.calls? op'.calls? := by
  intro op hop op' hop'
  have hparam := h.parameter?_eq hop hop'
  cases hsome : op.parameter? with
  | some x =>
    obtain ⟨name, z, scope⟩ := x
    rw [(of_parameter?_eq_some hsome).2.1, (of_parameter?_eq_some (hparam ▸ hsome)).2.1]
    intro n hn n' hn'
    exact (some.inj hn).symm.trans (some.inj hn')
  | none =>
    rw [(of_parameter?_eq_none hsome).2, (of_parameter?_eq_none (hparam ▸ hsome)).2]
    exact compatible_on h.naming op hop op' hop'

end Graph.Consistent

theorem ground_of_kept {kept : SortedMap Usr PlacedEntity} (h : kept.get? usr = some e₀)
    (ops : List EntityOp) : ground kept ops usr = some e₀ := by
  unfold ground
  rw [h]
  rfl

namespace Composed

variable {kept m : SortedMap Usr PlacedEntity} {cs : List Contribution} {usr : Usr}
  {e₀ e : PlacedEntity} {f : Finding}

variable (h : Composed kept cs m)

include h

theorem exists_ground (hget : m.get? usr = some e) :
    ∃ e₀, ground kept (opsOf cs) usr = some e₀ := by
  refine isSome_iff_exists.mp ?_
  rw [← h.contains, SortedMap.contains, hget]
  rfl

theorem tidy (hget : m.get? usr = some e) : e.Tidy := by
  obtain ⟨e₀, hground⟩ := h.exists_ground hget
  have hgrown := h.grown usr e₀ e hground hget
  exact ⟨fun y hy => ((hgrown.declarations y).mp hy).2, hgrown.overridden⟩

theorem contains_iff : m.contains usr = true
      ↔ kept.contains usr = true ∨ ∃ op, op ∈ on usr (opsOf cs) := by
  rw [h.contains]
  unfold ground SortedMap.contains
  cases on usr (opsOf cs) <;> simp

section

variable (hground : ground kept (opsOf cs) usr = some e₀) (hget : m.get? usr = some e)

include hground hget

theorem holds_of_ground (hf : e₀.Holds f) : e.Holds f := by
  have hgrown := h.grown usr e₀ e hground hget
  cases f with
  | defined y =>
    show e.definition = some y
    rw [hgrown.definition, show e₀.definition = some y from hf]
    rfl
  | declared y =>
    by_cases hdef : e.definition = some y
    · exact .inr hdef
    · refine .inl ((hgrown.declarations y).mpr ⟨.inl (hf.resolve_right fun hf => hdef ?_), hdef⟩)
      rw [hgrown.definition, hf]
      rfl
  | extra y => exact (hgrown.extra y).mpr (.inl hf)
  | overriding o =>
    show e.overriding = some o
    rw [hgrown.overriding, show e₀.overriding = some o from hf]
    rfl
  | reference y => exact (h.references usr e₀ e hground hget y).mpr (.inl hf)

theorem holds_or_told (hf : e.Holds f) : e₀.Holds f ∨ Told m.contains cs usr f := by
  have hgrown := h.grown usr e₀ e hground hget
  have hdefined : ∀ y, e.definition = some y → e₀.definition = some y
      ∨ ∃ op ∈ on usr (opsOf cs), op.definesAt? = some y := by
    intro y hy
    rw [hgrown.definition] at hy
    rcases or_eq_some_iff.mp hy with hy | ⟨-, hy⟩
    · exact .inl hy
    · obtain ⟨op, hop, hy⟩ := exists_of_findSome?_eq_some hy
      refine .inr ⟨op, hop, ?_⟩
      rw [← hy]
      exact (of_parameter?_eq_none (by cases op <;> simp_all [EntityOp.definedAt?,
        EntityOp.parameter?])).1
  cases f with
  | defined y =>
    rcases hdefined y hf with hf | ⟨op, hop, hy⟩
    · exact .inl hf
    · exact .inr (.inl ⟨op, hop, hy⟩)
  | declared y =>
    rcases hf with hf | hf
    · rcases ((hgrown.declarations y).mp hf).1 with hf | ⟨op, hop, hy⟩
      · exact .inl (.inl hf)
      · exact .inr (.inl ⟨op, hop, .inl hy⟩)
    · rcases hdefined y hf with hf | ⟨op, hop, hy⟩
      · exact .inl (.inr hf)
      · exact .inr (.inl ⟨op, hop, .inr hy⟩)
  | extra y =>
    rcases (hgrown.extra y).mp hf with hf | ⟨op, hop, hy⟩
    · exact .inl hf
    · exact .inr (.inl ⟨op, hop, hy⟩)
  | overriding o =>
    have hf : e.overriding = some o := hf
    rw [hgrown.overriding] at hf
    rcases or_eq_some_iff.mp hf with hf | ⟨-, hf⟩
    · exact .inl hf
    · obtain ⟨op, hop, ho⟩ := exists_of_findSome?_eq_some hf
      exact .inr (.inl ⟨op, hop, ho⟩)
  | reference y =>
    rcases (h.references usr e₀ e hground hget y).mp hf with hf | ⟨p, hp, rfl, howner⟩
    · exact .inl hf
    · exact .inr (.inr ⟨p, hp, rfl, howner⟩)

end

theorem holds_of_told (hcs : Graph.Consistent cs)
    (hground : ground kept (opsOf cs) usr = some e₀) (hget : m.get? usr = some e)
    (hdef : ∀ op ∈ on usr (opsOf cs), ∀ y y', op.definesAt? = some y →
      e₀.definition = some y' → y' = y)
    (hparam : e₀.definition = none → ∀ op ∈ on usr (opsOf cs), op.parameter? = none)
    (hover : ∀ op ∈ on usr (opsOf cs), ∀ o o', op.overriddenAt? = some o →
      e₀.overriding = some o' → o' = o) (hf : Told m.contains cs usr f) : e.Holds f := by
  have hgrown := h.grown usr e₀ e hground hget
  have hdefined : ∀ op ∈ on usr (opsOf cs), ∀ y, op.definesAt? = some y →
      e.definition = some y := by
    intro op hop y hy
    rw [hgrown.definition]
    cases hstart : e₀.definition with
    | some y' =>
      rw [hdef op hop y y' hy hstart]
      rfl
    | none =>
      rw [(of_parameter?_eq_none (hparam hstart op hop)).1] at hy
      rw [none_or, findSome?_eq_some_iff_of_compatible (Graph.Consistent.compatible_on hcs.defined)]
      exact ⟨op, hop, hy⟩
  rcases hf with ⟨op, hop, htells⟩ | ⟨p, hp, rfl, howner⟩
  · cases f with
    | defined y => exact hdefined op hop y htells
    | declared y =>
      by_cases hy : e.definition = some y
      · exact .inr hy
      · refine .inl ((hgrown.declarations y).mpr ⟨.inr ⟨op, hop, ?_⟩, hy⟩)
        exact htells.resolve_right fun htells => hy (hdefined op hop y htells)
    | extra y => exact (hgrown.extra y).mpr (.inr ⟨op, hop, htells⟩)
    | overriding o =>
      show e.overriding = some o
      rw [hgrown.overriding]
      cases hstart : e₀.overriding with
      | some o' =>
        rw [hover op hop o o' htells hstart]
        rfl
      | none =>
        rw [none_or,
          findSome?_eq_some_iff_of_compatible (Graph.Consistent.compatible_on hcs.overridden)]
        exact ⟨op, hop, htells⟩
    | reference => exact htells.elim
  · exact (h.references usr e₀ e hground hget _).mpr (.inr ⟨p, hp, rfl, howner⟩)

theorem exists_origin (hnone : kept.get? usr = none) (hget : m.get? usr = some e) :
    ∃ op ∈ on usr (opsOf cs), ground kept (opsOf cs) usr = some op.origin := by
  obtain ⟨e₀, hground⟩ := h.exists_ground hget
  have hfirst := hground
  unfold ground at hfirst
  rw [hnone, none_or] at hfirst
  obtain ⟨op, hop, rfl⟩ := map_eq_some_iff.mp hfirst
  exact ⟨op, mem_of_head? hop, hground⟩

section

variable (hcs : Graph.Consistent cs) (hnone : kept.get? usr = none) (hget : m.get? usr = some e)

include hcs hnone hget

/-- **A record that starts from nothing holds what is told.** -/
theorem holds_iff_told :
    e.Holds f ↔ Told m.contains cs usr f := by
  obtain ⟨op, hop, hground⟩ := h.exists_origin hnone hget
  have horigin : (op.parameter? = none ∧ op.origin = {})
      ∨ ∃ name y scope, op.parameter? = some (name, y, scope)
        ∧ op.origin = { symbolName := name, definition := some y, cursorScope := scope } := by
    unfold EntityOp.origin
    cases hparam : op.parameter? with
    | none => exact .inl ⟨rfl, rfl⟩
    | some x => exact .inr ⟨x.1, x.2.1, x.2.2, rfl, rfl⟩
  constructor
  · intro hf
    rcases h.holds_or_told hground hget hf with hf | hf
    · rcases horigin with ⟨-, horigin⟩ | ⟨name, y, scope, hparam, horigin⟩
      · rw [horigin] at hf
        cases f <;> simp [PlacedEntity.Holds, PlacedEntity.overriding] at hf
      · have hdefines := (of_parameter?_eq_some hparam).1
        rw [horigin] at hf
        refine .inl ⟨op, hop, ?_⟩
        cases f <;> simp_all [PlacedEntity.Holds, PlacedEntity.overriding, EntityOp.Tells]
    · exact hf
  · refine h.holds_of_told hcs hground hget ?_ ?_ ?_
    · intro op' hop' y y' hy hy'
      rcases horigin with ⟨-, horigin⟩ | ⟨name, z, scope, hparam, horigin⟩
      · rw [horigin] at hy'
        cases hy'
      · rw [horigin] at hy'
        obtain rfl : z = y' := some.inj hy'
        exact hcs.definesAt_unique hop hop' (of_parameter?_eq_some hparam).1 hy
    · intro hdef op' hop'
      rcases horigin with ⟨hparam, -⟩ | ⟨name, z, scope, -, horigin⟩
      · rw [← hcs.parameter?_eq hop hop', hparam]
      · rw [horigin] at hdef
        cases hdef
    · intro op' hop' o o' ho ho'
      rcases horigin with ⟨-, horigin⟩ | ⟨name, z, scope, -, horigin⟩ <;> rw [horigin] at ho' <;>
        simp [PlacedEntity.overriding] at ho'

theorem naming_eq_told :
    e.naming = ((on usr (opsOf cs)).findSome? EntityOp.calls?).getD ("", []) := by
  obtain ⟨op, hop, hground⟩ := h.exists_origin hnone hget
  have hgrown := h.grown usr _ e hground hget
  cases hparam : op.parameter? with
  | some x =>
    obtain ⟨name, y, scope⟩ := x
    have hunnamed : (on usr (opsOf cs)).filterMap EntityOp.naming? = [] := by
      refine filterMap_eq_nil_iff.mpr fun op' hop' => ?_
      have hparam' := (hcs.parameter?_eq hop hop').symm.trans hparam
      exact (of_parameter?_eq_some hparam').2.2.2.2.2.2
    have hcalled : (on usr (opsOf cs)).findSome? EntityOp.calls?
        = some (name, scope) :=
      (findSome?_eq_some_iff_of_compatible hcs.calls_compatible).mpr
        ⟨op, hop, (of_parameter?_eq_some hparam).2.1⟩
    rw [hgrown.naming, hunnamed, hcalled]
    unfold EntityOp.origin
    rw [hparam]
    rfl
  | none =>
    have hcalls : (on usr (opsOf cs)).findSome? EntityOp.naming?
        = (on usr (opsOf cs)).findSome? EntityOp.calls? := by
      refine Option.ext fun n => ?_
      rw [findSome?_eq_some_iff_of_compatible (Graph.Consistent.compatible_on hcs.naming),
        findSome?_eq_some_iff_of_compatible hcs.calls_compatible]
      refine exists_congr fun op' => and_congr_right fun hop' => ?_
      have hparam' := (hcs.parameter?_eq hop hop').symm.trans hparam
      rw [(of_parameter?_eq_none hparam').2]
    have horigin : op.origin = {} := by
      unfold EntityOp.origin
      rw [hparam]
    rw [hgrown.naming_eq (Graph.Consistent.compatible_on hcs.naming), horigin, if_pos rfl, hcalls]
    rfl

end

omit h in
theorem exists_own (h : Composed ∅ cs m) (hcs : Graph.Consistent cs) (hget : m.get? usr = some e) :
    ∃ f : Finding, f.Own ∧ e.Holds f := by
  obtain ⟨op, hop, -⟩ := h.exists_origin (by simp) hget
  obtain ⟨f, hf, htells⟩ := op.exists_tells
  exact ⟨f, hf, (h.holds_iff_told hcs (by simp) hget).mpr (.inl ⟨op, hop, htells⟩)⟩

theorem idle : Composed m [] m where
  contains := by
    intro usr
    unfold ground SortedMap.contains
    simp [opsOf, on]
  grown := by
    intro usr e₀ e hground hget
    obtain rfl : e₀ = e := by
      unfold ground at hground
      rw [hget] at hground
      exact (some.inj hground).symm
    have htidy := h.tidy hget
    refine ⟨rfl, by simp [opsOf, on], fun y => ?_,
      by simp [opsOf, on], by simp [opsOf, on], htidy.overridden⟩
    constructor
    · exact fun hy => ⟨.inl hy, htidy.declared y hy⟩
    · rintro ⟨hy | ⟨op, hop, -⟩, -⟩
      · exact hy
      · simp [opsOf, on] at hop
  references := by
    intro usr e₀ e hground hget y
    unfold ground at hground
    rw [hget] at hground
    cases hground
    simp [pendingOf]
  subs := h.subs

end Composed

variable {kept m : SortedMap Usr PlacedEntity}

/-- Units tell the same: the order in which they do, and how often, does not count. -/
structure SameTold (cs cs' : List Contribution) : Prop where
  ops : ∀ op, op ∈ opsOf cs ↔ op ∈ opsOf cs'
  pending : ∀ p, p ∈ pendingOf cs ↔ p ∈ pendingOf cs'

theorem Graph.Consistent.mono (h : Graph.Consistent cs)
    (hops : ∀ op ∈ opsOf cs', op ∈ opsOf cs)
    (hpending : ∀ p ∈ pendingOf cs', p ∈ pendingOf cs) : Graph.Consistent cs' where
  naming := fun op hop op' hop' => h.naming op (hops op hop) op' (hops op' hop')
  defined := fun op hop op' hop' => h.defined op (hops op hop) op' (hops op' hop')
  overridden := fun op hop op' hop' => h.overridden op (hops op hop) op' (hops op' hop')
  parameter := fun op hop op' hop' => h.parameter op (hops op hop) op' (hops op' hop')
  references := fun p hp p' hp' => h.references p (hpending p hp) p' (hpending p' hp')

theorem SameTold.mem_on (h : SameTold cs cs') {op : EntityOp} :
    op ∈ on usr (opsOf cs) ↔ op ∈ on usr (opsOf cs') := by
  rw [EntityOp.mem_on, EntityOp.mem_on, h.ops]

theorem SameTold.consistent (h : SameTold cs cs') (hcs : Graph.Consistent cs) :
    Graph.Consistent cs' :=
  hcs.mono (fun op => (h.ops op).mpr) (fun p => (h.pending p).mpr)

theorem ground_congr (hcs : Graph.Consistent cs) (hsame : SameTold cs cs')
    (kept : SortedMap Usr PlacedEntity) (usr : Usr) :
    ground kept (opsOf cs) usr = ground kept (opsOf cs') usr := by
  have hhead : ∀ ops : List EntityOp,
      ops.head?.map EntityOp.origin = ops.findSome? fun op => some op.origin := by
    intro ops
    cases ops <;> rfl
  unfold ground
  rw [hhead, hhead, findSome?_eq_of_compatible (fun op => hsame.mem_on)]
  intro op hop op' hop' e he e' he'
  cases he
  cases he'
  unfold EntityOp.origin
  rw [hcs.parameter?_eq hop hop']

theorem Composed.congr (h : Composed kept cs m) (hcs : Graph.Consistent cs)
    (hsame : SameTold cs cs') : Composed kept cs' m := by
  have hcs' := hsame.consistent hcs
  refine ⟨fun usr => ?_, fun usr e₀ e hground hget => ?_, fun usr e₀ e hground hget y => ?_, h.subs⟩
  · rw [h.contains, ground_congr hcs hsame]
  · rw [← ground_congr hcs hsame] at hground
    have hgrown := h.grown usr e₀ e hground hget
    have hmem : ∀ op, op ∈ on usr (opsOf cs)
      ↔ op ∈ on usr (opsOf cs') := fun op => hsame.mem_on
    refine ⟨?_, ?_, fun y => ?_, fun y => ?_, ?_, hgrown.overridden⟩
    · rw [hgrown.naming, Entity.foldl_settle_naming _ (Graph.Consistent.compatible_on hcs.naming),
        Entity.foldl_settle_naming _ (Graph.Consistent.compatible_on hcs'.naming),
        findSome?_eq_of_compatible hmem (Graph.Consistent.compatible_on hcs.naming)]
    · rw [hgrown.definition, findSome?_eq_of_compatible hmem
        (Graph.Consistent.compatible_on hcs.defined)]
    · simp only [hgrown.declarations, hmem]
    · simp only [hgrown.extra, hmem]
    · rw [hgrown.overriding, findSome?_eq_of_compatible hmem
        (Graph.Consistent.compatible_on hcs.overridden)]
  · rw [← ground_congr hcs hsame] at hground
    simp only [h.references usr e₀ e hground hget, hsame.pending]

theorem Composed.contains_of_told {f : Finding} (h : Composed kept cs m)
    (htold : Told m.contains cs usr f) : m.contains usr = true := by
  rcases htold with ⟨op, hop, -⟩ | ⟨p, -, -, howner⟩
  · exact h.contains_iff.mpr (.inr ⟨op, hop⟩)
  · exact PendingReference.known_of_owner? howner

end SymbolIndex
