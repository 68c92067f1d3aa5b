import Mathlib.Data.Fintype.Defs
import SymbolIndex.Proofs.Placed
import SymbolIndex.Proofs.Replay

/-!
# Units can be merged in any order

Jobs end in any order, so the units of a build reach the graph in any order. The first name,
definition, overridden method and reference stay, and files are numbered as they are met; when the
units do not contradict each other none of this shows in the result, read by file name, line and
column.

The argument has three parts. A record is determined by the set of operations on its symbol. The
overridden method of a symbol is numbered for the first operation that names it only, but all name
the same, so every order numbers the same files. And a table that had room for the files in one
order has room in every other.
-/

namespace SymbolIndex

open EntityOp FileTable List Option SortedMap SortedSet

/-- Where both are there, they are the same. -/
def Compatible (a b : Option α) : Prop := ∀ x ∈ a, ∀ y ∈ b, x = y

instance [DecidableEq α] (a b : Option α) : Decidable (Compatible a b) := by
  unfold Compatible
  infer_instance

theorem findSome?_eq_of_compatible {f : α → Option β} {l l' : List α}
    (hmem : ∀ a, a ∈ l ↔ a ∈ l') (hf : ∀ a ∈ l, ∀ b ∈ l, Compatible (f a) (f b)) :
    l.findSome? f = l'.findSome? f := by
  cases hl : l.findSome? f with
  | none =>
    refine (findSome?_eq_none_iff.mpr (fun a ha => ?_)).symm
    exact findSome?_eq_none_iff.mp hl a ((hmem a).mpr ha)
  | some x =>
    obtain ⟨a, ha, hx⟩ := exists_of_findSome?_eq_some hl
    cases hl' : l'.findSome? f with
    | none =>
      rw [findSome?_eq_none_iff.mp hl' a ((hmem a).mp ha)] at hx
      cases hx
    | some y =>
      obtain ⟨b, hb, hy⟩ := exists_of_findSome?_eq_some hl'
      rw [hf a ha b ((hmem b).mpr hb) x hx y hy]

namespace EntityOp

variable {place : SourcePosition → Location} {op : EntityOp} {l : Location}

/-! ## What an operation reports -/

def definedAt? : EntityOp → Option Place
  | .declare _ _ _ location true _ _ => some location.toPlace
  | _ => none

def declaredAt? : EntityOp → Option Place
  | .declare _ _ _ location false _ _ => some location.toPlace
  | _ => none

def extraAt? : EntityOp → Option Place
  | .extraDeclaration _ location => some location.toPlace
  | _ => none

def overriddenAt? : EntityOp → Option (Place × Option Usr)
  | .declare _ _ _ _ _ (some base) overriddenUsr => some (base.toPlace, overriddenUsr)
  | _ => none

def parameter? : EntityOp → Option (String × Place × List String)
  | .synthesize _ name definition scope => some (name, definition.toPlace, scope)
  | _ => none

theorem eq_place_of_definition? (h : op.definition? place = some l) : l = place op.position := by
  unfold definition? at h
  split at h
  · exact (some.inj h).symm
  · cases h

theorem eq_place_of_declaration? (h : op.declaration? place = some l) : l = place op.position := by
  unfold declaration? at h
  split at h
  · exact (some.inj h).symm
  · cases h

theorem seed_of_parameter?_eq_none (place : SourcePosition → Location) (h : op.parameter? = none) :
    op.seed place = {} := by
  cases op with
  | synthesize => simp [parameter?] at h
  | declare | extraDeclaration => rfl

end EntityOp

namespace FileTable

/-- All files of an operation have a number. -/
def KnowsOp (t : FileTable) (op : EntityOp) : Prop :=
  t.Knows op.position ∧ ∀ base, op.base? = some base → t.Knows base

variable {t : FileTable} {op : EntityOp}

section

variable (h : t.Sound) (hop : t.Knows op.position)

include h hop

theorem Sound.definition?_placed :
    (op.definition? t.place).map (Location.placedIn t) = op.definedAt? := by
  cases op with
  | declare _ _ _ _ d =>
    cases d
    · rfl
    · exact congrArg some (h.placedIn_place hop)
  | extraDeclaration | synthesize => rfl

theorem Sound.declaration?_placed :
    (op.declaration? t.place).map (Location.placedIn t) = op.declaredAt? := by
  cases op with
  | declare _ _ _ _ d =>
    cases d
    · exact congrArg some (h.placedIn_place hop)
    · rfl
  | extraDeclaration | synthesize => rfl

theorem Sound.extra?_placed :
    (op.extra? t.place).map (Location.placedIn t) = op.extraAt? := by
  cases op with
  | declare => rfl
  | extraDeclaration => exact congrArg some (h.placedIn_place hop)
  | synthesize => rfl

end

theorem Sound.override?_placed (h : t.Sound) (hop : t.KnowsOp op) :
    (op.override? t.place).map (Prod.map (Location.placedIn t) id) = op.overriddenAt? := by
  cases op with
  | declare _ _ _ _ _ base usr =>
    cases base with
    | none => rfl
    | some base => exact congrArg (fun x => some (x, usr)) (h.placedIn_place (hop.2 base rfl))
  | extraDeclaration | synthesize => rfl

end FileTable

namespace Entity

/-! ## A record is determined by the set of operations -/

theorem findSome?_map {f : α → Option β} {k : α → Option γ} {g : β → γ} {l : List α}
    (h : ∀ a ∈ l, (f a).map g = k a) : (l.findSome? f).map g = l.findSome? k := by
  induction l with
  | nil => rfl
  | cons a _ ih =>
    rw [findSome?_cons, findSome?_cons, ← h a mem_cons_self]
    cases f a with
    | none => exact ih (fun b hb => h b (mem_cons_of_mem a hb))
    | some => rfl

theorem foldl_settle_of_same {ns : List (String × List String)} (n : String × List String)
    (h : ∀ a ∈ ns, ∀ b ∈ ns, a = b) :
    ns.foldl settle n = if n.1 = "" then ns.head?.getD n else n := by
  have hstays : ∀ (ns : List (String × List String)) (n : String × List String),
      (∀ n' ∈ ns, settle n n' = n) → ns.foldl settle n = n := by
    intro ns n hns
    induction ns with
    | nil => rfl
    | cons n' _ ih =>
      rw [foldl_cons, hns n' mem_cons_self]
      exact ih fun m hm => hns m (mem_cons_of_mem _ hm)
  cases ns with
  | nil => simp
  | cons a rest =>
    rw [foldl_cons, head?_cons, getD_some]
    unfold settle at hstays ⊢
    split
    · refine hstays rest a fun b hb => ?_
      rw [h b (mem_cons_of_mem _ hb) a mem_cons_self, ite_self]
    · next hnamed => exact hstays rest n fun b _ => if_neg hnamed

theorem foldl_settle_naming {ops : List EntityOp} (n : String × List String)
    (h : ∀ op ∈ ops, ∀ op' ∈ ops, Compatible op.naming? op'.naming?) :
    (ops.filterMap EntityOp.naming?).foldl settle n
      = if n.1 = "" then (ops.findSome? EntityOp.naming?).getD n else n := by
  rw [foldl_settle_of_same, head?_filterMap]
  intro a ha b hb
  obtain ⟨op, hop, hname⟩ := mem_filterMap.mp ha
  obtain ⟨op', hop', hname'⟩ := mem_filterMap.mp hb
  exact h op hop op' hop' a hname b hname'

theorem Proper.overriddenUsr_eq {e : Entity} (h : e.Proper) :
    e.overriddenUsr = e.overriding.bind Prod.snd := by
  unfold overriding
  cases hs : e.superLocation with
  | none => exact h.overridden hs
  | some => rfl

section Placed

variable {t : FileTable} {ops : List EntityOp}

section

variable (h : t.Sound) (hops : ∀ op ∈ ops, t.KnowsOp op)

include h hops

theorem definition_placed :
    (({} : Entity).applyAll t.place ops).definition.map (Location.placedIn t)
      = ops.findSome? EntityOp.definedAt? := by
  rw [definition_applyAll]
  exact findSome?_map (fun op hop => h.definition?_placed (hops op hop).1)

theorem overriding_placed :
    (({} : Entity).applyAll t.place ops).overriding.map (Prod.map (Location.placedIn t) id)
      = ops.findSome? EntityOp.overriddenAt? := by
  rw [overriding_applyAll]
  exact findSome?_map (fun op hop => h.override?_placed (hops op hop))

theorem superLocation_placed :
    (({} : Entity).applyAll t.place ops).superLocation.map (Location.placedIn t)
      = (ops.findSome? EntityOp.overriddenAt?).map Prod.fst := by
  rw [← overriding_placed h hops]
  unfold overriding
  rw [Option.map_map, Option.map_map]
  rfl

theorem overriddenUsr_placed :
    (({} : Entity).applyAll t.place ops).overriddenUsr
      = (ops.findSome? EntityOp.overriddenAt?).bind Prod.snd := by
  rw [← overriding_placed h hops, (proper_empty.applyAll t.place ops).overriddenUsr_eq, bind_map]
  rfl

theorem contains_declarations_placed (y : Place) :
    SortedMap.contains (SortedSet.image (Location.placedIn t)
        (({} : Entity).applyAll t.place ops).declarations) y = true
      ↔ (∃ op ∈ ops, op.declaredAt? = some y) ∧ ops.findSome? EntityOp.definedAt? ≠ some y := by
  rw [contains_image, ← definition_placed h hops]
  simp only [contains_declarations_applyAll t.place ops proper_empty]
  constructor
  · rintro ⟨l, ⟨hdecl, hdef⟩, rfl⟩
    obtain ⟨op, hop, hl⟩ := hdecl.resolve_left (by simp)
    refine ⟨⟨op, hop, ?_⟩, fun heq => hdef ?_⟩
    · rw [← h.declaration?_placed (hops op hop).1, hl]
      rfl
    · -- the definition is the place of an operation too, and such places are told apart
      obtain ⟨d, hd, hplaced⟩ := map_eq_some_iff.mp heq
      rw [hd]
      rw [definition_applyAll] at hd
      obtain ⟨op', hop', hd⟩ := exists_of_findSome?_eq_some hd
      obtain rfl := eq_place_of_declaration? hl
      obtain rfl := eq_place_of_definition? hd
      rw [h.placedIn_place (hops op' hop').1, h.placedIn_place (hops op hop).1] at hplaced
      rw [place_congr hplaced]
  · rintro ⟨⟨op, hop, hy⟩, hdef⟩
    rw [← h.declaration?_placed (hops op hop).1] at hy
    obtain ⟨l, hl, hy⟩ := map_eq_some_iff.mp hy
    refine ⟨l, ⟨.inr ⟨op, hop, hl⟩, fun heq => hdef ?_⟩, hy⟩
    rw [heq, map_some, hy]

theorem contains_extra_placed (y : Place) :
    SortedMap.contains (SortedSet.image (Location.placedIn t)
        (({} : Entity).applyAll t.place ops).extraDeclarations) y = true
      ↔ ∃ op ∈ ops, op.extraAt? = some y := by
  rw [contains_image]
  simp only [contains_extra_applyAll]
  constructor
  · rintro ⟨l, hl, rfl⟩
    obtain ⟨op, hop, hl⟩ := hl.resolve_left (by simp)
    refine ⟨op, hop, ?_⟩
    rw [← h.extra?_placed (hops op hop).1, hl]
    rfl
  · rintro ⟨op, hop, hy⟩
    rw [← h.extra?_placed (hops op hop).1] at hy
    obtain ⟨l, hl, hy⟩ := map_eq_some_iff.mp hy
    exact ⟨l, .inr ⟨op, hop, hl⟩, hy⟩

end

/-- **A record is determined by the set of operations on its symbol**, read through any table that
knows their files, when no two of them contradict each other. -/
theorem placedIn_applyAll_eq {t' : FileTable} {ops' : List EntityOp} (h : t.Sound) (h' : t'.Sound)
    (hops : ∀ op ∈ ops, t.KnowsOp op) (hops' : ∀ op ∈ ops', t'.KnowsOp op)
    (hmem : ∀ op, op ∈ ops ↔ op ∈ ops')
    (hname : ∀ op ∈ ops, ∀ op' ∈ ops, Compatible op.naming? op'.naming?)
    (hdef : ∀ op ∈ ops, ∀ op' ∈ ops, Compatible op.definedAt? op'.definedAt?)
    (hover : ∀ op ∈ ops, ∀ op' ∈ ops, Compatible op.overriddenAt? op'.overriddenAt?) :
    (({} : Entity).applyAll t.place ops).placedIn t
      = (({} : Entity).applyAll t'.place ops').placedIn t' := by
  have hname' : ∀ op ∈ ops', ∀ op' ∈ ops', Compatible op.naming? op'.naming? :=
    fun op hop op' hop' => hname op ((hmem op).mpr hop) op' ((hmem op').mpr hop')
  have hnaming : (({} : Entity).applyAll t.place ops).naming
      = (({} : Entity).applyAll t'.place ops').naming := by
    rw [naming_applyAll, naming_applyAll]
    show (ops.filterMap EntityOp.naming?).foldl settle ("", [])
      = (ops'.filterMap EntityOp.naming?).foldl settle ("", [])
    rw [foldl_settle_naming _ hname, foldl_settle_naming _ hname',
      findSome?_eq_of_compatible hmem hname]
  have hdefined := findSome?_eq_of_compatible hmem hdef
  have hoverridden := findSome?_eq_of_compatible hmem hover
  obtain ⟨hsymbol, hscope⟩ := Prod.mk.inj hnaming
  unfold Entity.placedIn
  rw [definition_placed h hops, definition_placed h' hops', hdefined, superLocation_placed h hops,
    superLocation_placed h' hops', overriddenUsr_placed h hops, overriddenUsr_placed h' hops',
    hoverridden, hsymbol, hscope]
  simp only [PlacedEntity.mk.injEq, references_applyAll, subs_applyAll, true_and, and_true]
  refine ⟨?_, ?_, rfl, rfl⟩
  · refine ext_contains (fun y => Bool.eq_iff_iff.mpr ?_)
    rw [contains_declarations_placed h hops, contains_declarations_placed h' hops', hdefined]
    simp only [hmem]
  · refine ext_contains (fun y => Bool.eq_iff_iff.mpr ?_)
    rw [contains_extra_placed h hops, contains_extra_placed h' hops']
    simp only [hmem]

theorem applyAll_of_parameters {place : SourcePosition → Location} (e : Entity)
    (hops : ∀ op ∈ ops, op.parameter?.isSome = true) : e.applyAll place ops = e := by
  induction ops generalizing e with
  | nil => rfl
  | cons op _ ih =>
    have hop := hops op mem_cons_self
    rw [applyAll_cons, ih _ (fun op' hop' => hops op' (mem_cons_of_mem _ hop'))]
    cases op with
    | synthesize => rfl
    | declare | extraDeclaration => simp [EntityOp.parameter?] at hop

theorem placedIn_seed (h : t.Sound) {op : EntityOp} (hop : t.Knows op.position)
    {name : String} {y : Place} {scope : List String}
    (hparam : op.parameter? = some (name, y, scope)) :
    (op.seed t.place).placedIn t
      = { symbolName := name, definition := some y, cursorScope := scope } := by
  cases op with
  | synthesize _ _ definition =>
    obtain ⟨rfl, hrest⟩ := Prod.mk.inj (some.inj hparam)
    cases hrest
    have hplace : (t.place definition).placedIn t = definition.toPlace := h.placedIn_place hop
    rw [← hplace]
    rfl
  | declare | extraDeclaration => simp [EntityOp.parameter?] at hparam

end Placed

end Entity

namespace Graph

/-! ## Every order numbers the same files -/

/-- All operations of a symbol that name an overridden method name the same file. -/
def SameBase (ops : List EntityOp) : Prop :=
  ∀ op ∈ ops, ∀ op' ∈ ops, op.target = op'.target → ∀ base base', op.base? = some base →
    op'.base? = some base' → base.path.components = base'.path.components

variable {op : EntityOp} {ops rest : List EntityOp} {g g' : Graph} {t t' T : FileTable}
  {ps : List (SourcePosition × PendingReference)} {cs cs' : List Contribution}

theorem override?_eq_none_iff {place : SourcePosition → Location} :
    op.override? place = none ↔ op.base? = none := by
  cases op with
  | declare _ _ _ _ _ base => cases base <;> simp [EntityOp.override?, EntityOp.base?]
  | extraDeclaration | synthesize => simp [EntityOp.override?, EntityOp.base?]

theorem knows_of_addPending (hrun : g.addPending t ps = .ok (g', t')) (hT : t'.Extends T) :
    ∀ e ∈ ps, T.Knows e.1 := by
  induction ps generalizing g t with
  | nil => exact fun _ he => absurd he (by simp)
  | cons _ _ ih =>
    obtain ⟨⟨l, t₁⟩, hl, hrun⟩ := bind_eq_ok_iff.mp hrun
    have hknown := (location_spec hl).2.1.mono ((addPending_spec hrun).1.trans hT)
    exact forall_mem_cons.mpr ⟨hknown, ih hrun⟩

/-- The table knows the overridden method that operations bring first to a symbol without one. -/
def KnowsBase (T : FileTable) (g : Graph) (ops : List EntityOp) : Prop :=
  ∀ usr, (g.entity usr).overriding = none →
    ∀ base, (on usr ops).findSome? EntityOp.base? = some base → T.Knows base

theorem KnowsBase.applyOp (h : g.applyOp t op = .ok (g', t')) (hT : t'.Extends T)
    (hrest : KnowsBase T g' rest) : KnowsBase T g (op :: rest) := by
  intro usr hnone base hbase
  have hover := overriding_applyOp h hT usr
  rw [hnone, none_or] at hover
  by_cases htarget : op.target = usr
  · rw [on_cons_of_eq htarget, findSome?_cons] at hbase
    rw [if_pos htarget] at hover
    cases hop : op.base? with
    | none =>
      rw [hop] at hbase
      exact hrest usr (hover.trans (override?_eq_none_iff.mpr hop)) base hbase
    | some base' =>
      -- the operation that brings the method is the one that numbers its file
      rw [hop] at hbase
      obtain rfl := some.inj hbase
      refine (covers_of_applyOp h hT).2 ?_ base' hop
      rw [htarget]
      exact map_eq_none_iff.mp hnone
  · rw [on_cons_of_ne htarget] at hbase
    rw [if_neg htarget] at hover
    exact hrest usr hover base hbase

theorem KnowsBase.applyOps (h : g.applyOps t ops = .ok (g', t')) (hT : t'.Extends T)
    (hrest : KnowsBase T g' rest) :
    KnowsBase T g (ops ++ rest) ∧ ∀ op ∈ ops, T.Knows op.position := by
  induction ops generalizing g t with
  | nil =>
    cases h
    exact ⟨hrest, fun _ hop => absurd hop (by simp)⟩
  | cons _ _ ih =>
    obtain ⟨⟨g₁, t₁⟩, h₁, h⟩ := bind_eq_ok_iff.mp h
    have hT₁ : t₁.Extends T := (applyOps_spec h).1.trans hT
    obtain ⟨hbase, hknown⟩ := ih h
    exact ⟨hbase.applyOp h₁ hT₁, forall_mem_cons.mpr ⟨(covers_of_applyOp h₁ hT₁).1, hknown⟩⟩

theorem KnowsBase.merge {c : Contribution} (h : g.merge t c = .ok (g', t')) (hT : t'.Extends T)
    (hrest : KnowsBase T g' rest) :
    KnowsBase T g (c.ops ++ rest) ∧ (∀ op ∈ c.ops, T.Knows op.position)
      ∧ ∀ e ∈ c.pending.toList, T.Knows e.1 := by
  obtain ⟨⟨g₁, t₁⟩, hops, hpend⟩ := bind_eq_ok_iff.mp h
  have hrest₁ : KnowsBase T g₁ rest := by
    unfold KnowsBase entity
    rw [← (addPending_spec hpend).2.1]
    exact hrest
  obtain ⟨hbase, hknown⟩ := hrest₁.applyOps hops ((addPending_spec hpend).1.trans hT)
  exact ⟨hbase, hknown, knows_of_addPending hpend hT⟩

theorem knowsBase_nil (T : FileTable) (g : Graph) : KnowsBase T g [] :=
  fun _ _ _ hbase => absurd hbase (by simp [on])

theorem KnowsBase.mergeAll (h : g.mergeAll t cs = .ok (g', t')) (hT : t'.Extends T) :
    KnowsBase T g (opsOf cs) ∧ (∀ op ∈ opsOf cs, T.Knows op.position)
      ∧ ∀ e ∈ pendingOf cs, T.Knows e.1 := by
  induction cs generalizing g t with
  | nil => exact ⟨knowsBase_nil T g, forall_mem_nil _, forall_mem_nil _⟩
  | cons _ _ ih =>
    obtain ⟨⟨g₁, t₁⟩, h₁, h⟩ := bind_eq_ok_iff.mp h
    obtain ⟨hbase, hknown, hplaces⟩ := ih h
    obtain ⟨hbase', hknown', hplaces'⟩ := hbase.merge h₁ ((mergeAll_spec h).1.trans hT)
    exact ⟨hbase', forall_mem_append.mpr ⟨hknown', hknown⟩,
      forall_mem_append.mpr ⟨hplaces', hplaces⟩⟩

/-- **A merge numbers every file its units name.** -/
theorem knowsOp_of_mergeAll (hbase : SameBase (opsOf cs))
    (hrun : ({} : Graph).mergeAll t cs = .ok (g', t')) (hT : t'.Extends T) :
    (∀ op ∈ opsOf cs, T.KnowsOp op) ∧ ∀ e ∈ pendingOf cs, T.Knows e.1 := by
  obtain ⟨hfirst, hpositions, hplaces⟩ := KnowsBase.mergeAll hrun hT
  refine ⟨fun op hop => ⟨hpositions op hop, fun base hb => ?_⟩, hplaces⟩
  have hon : op ∈ on op.target (opsOf cs) := by simp [on, hop]
  cases hsome : (on op.target (opsOf cs)).findSome? EntityOp.base? with
  | none => exact absurd (findSome?_eq_none_iff.mp hsome op hon) (by simp [hb])
  | some base' =>
    -- the method is numbered for the first operation that names one, and all name the same file
    obtain ⟨op', hop', hb'⟩ := exists_of_findSome?_eq_some hsome
    obtain ⟨hmem, htarget⟩ := mem_filter.mp hop'
    exact (hfirst op.target rfl base' hsome).congr
      (hbase op' hmem op hop (of_decide_eq_true htarget) base' base hb' hb)

/-! ## A merge of known files has room -/

section Room

variable {room t : FileTable}

variable (h : FileTable.Fitting room t) (hroom : room.Numbered) (g : Graph)

include h hroom

theorem applyOp_of_fitting (hop : room.KnowsOp op) :
    ∃ g' t', g.applyOp t op = .ok (g', t') ∧ FileTable.Fitting room t' := by
  obtain ⟨l, t₁, hl, hfit⟩ := h.location hroom hop.1
  cases op with
  | declare usr name scope _ d superLocation usr' =>
    suffices hrest : ∃ g' t', g.storeOverride t₁ usr
        (((g.entity usr).nameOnce name scope).declareAt l d) superLocation usr' = .ok (g', t')
        ∧ FileTable.Fitting room t' by
      obtain ⟨g', t', hg', hfit'⟩ := hrest
      exact ⟨g', t', bind_eq_ok_iff.mpr ⟨_, hl, hg'⟩, hfit'⟩
    unfold storeOverride
    rw [superLocation_declared]
    cases (g.entity usr).superLocation with
    | some => exact ⟨_, t₁, rfl, hfit⟩
    | none =>
      cases superLocation with
      | none => exact ⟨_, t₁, rfl, hfit⟩
      | some base =>
        obtain ⟨s, t₂, hs, hfit₂⟩ := hfit.location hroom (hop.2 base rfl)
        exact ⟨_, t₂, bind_eq_ok_iff.mpr ⟨_, hs, rfl⟩, hfit₂⟩
  | extraDeclaration => exact ⟨_, t₁, bind_eq_ok_iff.mpr ⟨_, hl, rfl⟩, hfit⟩
  | synthesize usr =>
    by_cases hc : g.entities.contains usr = true
    · exact ⟨g, t₁, bind_eq_ok_iff.mpr ⟨_, hl, if_pos hc⟩, hfit⟩
    · exact ⟨_, t₁, bind_eq_ok_iff.mpr ⟨_, hl, if_neg hc⟩, hfit⟩

theorem applyOps_of_fitting (hops : ∀ op ∈ ops, room.KnowsOp op) :
    ∃ g' t', g.applyOps t ops = .ok (g', t') ∧ FileTable.Fitting room t' := by
  induction ops generalizing g t with
  | nil => exact ⟨g, t, rfl, h⟩
  | cons op _ ih =>
    obtain ⟨g₁, t₁, h₁, hfit⟩ := applyOp_of_fitting h hroom g (hops op mem_cons_self)
    obtain ⟨g', t', h', hfit'⟩ := ih hfit g₁ (fun a ha => hops a (mem_cons_of_mem _ ha))
    exact ⟨g', t', bind_eq_ok_iff.mpr ⟨_, h₁, h'⟩, hfit'⟩

theorem addPending_of_fitting (hps : ∀ e ∈ ps, room.Knows e.1) :
    ∃ g' t', g.addPending t ps = .ok (g', t') ∧ FileTable.Fitting room t' := by
  induction ps generalizing g t with
  | nil => exact ⟨g, t, rfl, h⟩
  | cons p _ ih =>
    obtain ⟨l, t₁, hl, hfit⟩ := h.location hroom (hps p mem_cons_self)
    obtain ⟨g', t', h', hfit'⟩ := ih hfit { g with pending := g.pending.insertIfNew l p.2 }
      (fun a ha => hps a (mem_cons_of_mem _ ha))
    exact ⟨g', t', bind_eq_ok_iff.mpr ⟨_, hl, h'⟩, hfit'⟩

/-- **Units that name files of a table can be merged**, and number no other file. -/
theorem mergeAll_of_fitting (hops : ∀ op ∈ opsOf cs, room.KnowsOp op)
    (hps : ∀ e ∈ pendingOf cs, room.Knows e.1) :
    ∃ g' t', g.mergeAll t cs = .ok (g', t') ∧ FileTable.Fitting room t' := by
  induction cs generalizing g t with
  | nil => exact ⟨g, t, rfl, h⟩
  | cons _ _ ih =>
    unfold opsOf at hops
    unfold pendingOf at hps
    rw [flatMap_cons, forall_mem_append] at hops hps
    obtain ⟨g₁, t₁, h₁, hfit₁⟩ := applyOps_of_fitting h hroom g hops.1
    obtain ⟨g₂, t₂, h₂, hfit₂⟩ := addPending_of_fitting hfit₁ hroom g₁ hps.1
    obtain ⟨g', t', h', hfit'⟩ := ih hfit₂ g₂ hops.2 hps.2
    exact ⟨g', t', bind_eq_ok_iff.mpr ⟨_, bind_eq_ok_iff.mpr ⟨_, h₁, h₂⟩, h'⟩, hfit'⟩

end Room

/-! ## Any order -/

/-- Units that do not contradict each other: a symbol has one name, one definition and one
overridden method, a template parameter is nothing else, and a place refers to one thing. -/
structure Consistent (cs : List Contribution) : Prop where
  naming : ∀ op ∈ opsOf cs, ∀ op' ∈ opsOf cs, op.target = op'.target →
    Compatible op.naming? op'.naming?
  defined : ∀ op ∈ opsOf cs, ∀ op' ∈ opsOf cs, op.target = op'.target →
    Compatible op.definedAt? op'.definedAt?
  overridden : ∀ op ∈ opsOf cs, ∀ op' ∈ opsOf cs, op.target = op'.target →
    Compatible op.overriddenAt? op'.overriddenAt?
  parameter : ∀ op ∈ opsOf cs, ∀ op' ∈ opsOf cs, op.target = op'.target →
    op.parameter?.isSome = true → op'.parameter? = op.parameter?
  references : ∀ e ∈ pendingOf cs, ∀ e' ∈ pendingOf cs, e.1.toPlace = e'.1.toPlace → e.2 = e'.2

instance (cs : List Contribution) : Decidable (Consistent cs) :=
  decidable_of_iff
    ((∀ op ∈ opsOf cs, ∀ op' ∈ opsOf cs, op.target = op'.target →
        Compatible op.naming? op'.naming? ∧ Compatible op.definedAt? op'.definedAt?
          ∧ Compatible op.overriddenAt? op'.overriddenAt?
          ∧ (op.parameter?.isSome = true → op'.parameter? = op.parameter?))
      ∧ ∀ e ∈ pendingOf cs, ∀ e' ∈ pendingOf cs, e.1.toPlace = e'.1.toPlace → e.2 = e'.2)
    ⟨fun h => ⟨fun op hop op' hop' heq => (h.1 op hop op' hop' heq).1,
      fun op hop op' hop' heq => (h.1 op hop op' hop' heq).2.1,
      fun op hop op' hop' heq => (h.1 op hop op' hop' heq).2.2.1,
      fun op hop op' hop' heq => (h.1 op hop op' hop' heq).2.2.2, h.2⟩,
    fun h => ⟨fun op hop op' hop' heq => ⟨h.naming op hop op' hop' heq,
      h.defined op hop op' hop' heq, h.overridden op hop op' hop' heq,
      h.parameter op hop op' hop' heq⟩, h.references⟩⟩

/-- When no place refers to two things, the reference that waits at a place is any that was reported
there. -/
theorem mem_pendingIn_iff (ht : t.Sound) (hknows : ∀ e ∈ ps, t.Knows e.1)
    (hpending : ∀ l, g.pending.get? l = firstAt t.place l ps)
    (hone : ∀ e ∈ ps, ∀ e' ∈ ps, e.1.toPlace = e'.1.toPlace → e.2 = e'.2) {y : Place}
    {r : PendingReference} : (y, r) ∈ g.pendingIn t ↔ ∃ p, (p, r) ∈ ps ∧ p.toPlace = y := by
  unfold pendingIn
  simp only [List.mem_map, Prod.mk.injEq]
  constructor
  · rintro ⟨⟨l, r'⟩, hmem, rfl, rfl⟩
    rw [mem_toList_iff, hpending] at hmem
    obtain ⟨⟨p, r⟩, hp, hr⟩ := exists_of_findSome?_eq_some hmem
    simp only at hr
    split at hr
    · next hl =>
      obtain rfl := some.inj hr
      refine ⟨p, hp, ?_⟩
      rw [← hl, ht.placedIn_place (hknows _ hp)]
    · exact absurd hr (by simp)
  · rintro ⟨p, hp, rfl⟩
    have hknown : t.Knows p := hknows _ hp
    refine ⟨(t.place p, r), ?_, ht.placedIn_place hknown, rfl⟩
    rw [mem_toList_iff, hpending]
    -- something waits at the place, and what waits there agrees with every report of it
    cases hfirst : firstAt t.place (t.place p) (ps) with
    | none =>
      have := findSome?_eq_none_iff.mp hfirst _ hp
      exact absurd this (by simp)
    | some =>
      obtain ⟨⟨q, r''⟩, hq, hr⟩ := exists_of_findSome?_eq_some hfirst
      simp only at hr
      split at hr
      · next hl =>
        obtain rfl := some.inj hr
        have hplace := (ht.place_eq_iff (hknows _ hq) hknown).mp hl
        rw [show r'' = r from hone _ hq _ hp hplace]
      · exact absurd hr (by simp)

theorem mem_opsOf_perm (h : cs.Perm cs') (op : EntityOp) : op ∈ opsOf cs ↔ op ∈ opsOf cs' := by
  unfold opsOf
  simp only [mem_flatMap, h.mem_iff]

theorem mem_pendingOf_perm (h : cs.Perm cs') (e : SourcePosition × PendingReference) :
    e ∈ pendingOf cs ↔ e ∈ pendingOf cs' := by
  unfold pendingOf
  simp only [mem_flatMap, h.mem_iff]

namespace Consistent

variable {cs cs' : List Contribution}

theorem perm (h : Consistent cs) (hp : cs.Perm cs') : Consistent cs' where
  naming := by simpa only [mem_opsOf_perm hp] using h.naming
  defined := by simpa only [mem_opsOf_perm hp] using h.defined
  overridden := by simpa only [mem_opsOf_perm hp] using h.overridden
  parameter := by simpa only [mem_opsOf_perm hp] using h.parameter
  references := by simpa only [mem_pendingOf_perm hp] using h.references

theorem sameBase (h : Consistent cs) : SameBase (opsOf cs) := by
  intro op hop op' hop' htarget base base' hb hb'
  have hover : ∀ (o : EntityOp) (b : SourcePosition), o.base? = some b →
      ∃ usr, o.overriddenAt? = some (b.toPlace, usr) := by
    intro o b hob
    cases o with
    | declare _ _ _ _ _ superLocation usr =>
      obtain rfl : superLocation = some b := hob
      exact ⟨usr, rfl⟩
    | extraDeclaration | synthesize => simp [EntityOp.base?] at hob
  obtain ⟨usr, ho⟩ := hover op base hb
  obtain ⟨usr', ho'⟩ := hover op' base' hb'
  have heq := h.overridden op hop op' hop' htarget _ ho _ ho'
  exact some.inj (Place.mk.inj (Prod.mk.inj heq).1).1

/-- A graph is what contributions, one after the other, make of nothing. -/
structure Merged (cs : List Contribution) (g : Graph) (t : FileTable) : Prop where
  numbered : t.Numbered
  knowsOp : ∀ op ∈ opsOf cs, t.KnowsOp op
  knows : ∀ e ∈ pendingOf cs, t.Knows e.1
  entities : ∀ usr, g.entities.get? usr
    = EntityOp.actAll t.place (on usr (opsOf cs)) none
  pending : ∀ l, g.pending.get? l = firstAt t.place l (pendingOf cs)

variable {g g' : Graph} {t t' : FileTable}

theorem merged (h : Consistent cs) (hrun : ({} : Graph).mergeAll {} cs = .ok (g, t)) :
    Merged cs g t := by
  obtain ⟨hent, hpend⟩ := (mergeAll_spec hrun).2 t (.refl t)
  obtain ⟨hops, hps⟩ := knowsOp_of_mergeAll h.sameBase hrun (.refl t)
  exact {
    numbered := (FileTable.Grows.of_mergeAll hrun).numbered numbered_empty
    knowsOp := hops
    knows := hps
    entities := hent
    pending := fun l => by rw [hpend]; rfl }

theorem mergeAll_perm (h : Consistent cs) (hp : cs.Perm cs')
    (hrun : ({} : Graph).mergeAll {} cs = .ok (g, t)) :
    ∃ g' t', ({} : Graph).mergeAll {} cs' = .ok (g', t') ∧ t'.Within t := by
  have hm := h.merged hrun
  have hfit : FileTable.Fitting t {} :=
    ⟨numbered_empty, fun _ hq => absurd hq (by simp [FileTable.id?])⟩
  have hops : ∀ op ∈ opsOf cs', t.KnowsOp op :=
    fun op hop => hm.knowsOp op ((mem_opsOf_perm hp op).mpr hop)
  have hps : ∀ e ∈ pendingOf cs', t.Knows e.1 :=
    fun e he => hm.knows e ((mem_pendingOf_perm hp e).mpr he)
  obtain ⟨g', t', hrun', hfit'⟩ := mergeAll_of_fitting hfit hm.numbered {} hops hps
  exact ⟨g', t', hrun', hfit'.within⟩

theorem mem_pendingIn (h : Consistent cs) (hm : Merged cs g t) (y : Place) (r : PendingReference) :
    (y, r) ∈ g.pendingIn t ↔ ∃ p, (p, r) ∈ pendingOf cs ∧ p.toPlace = y :=
  mem_pendingIn_iff hm.numbered.toSound hm.knows hm.pending h.references

theorem nodup_pendingIn (hm : Merged cs g t) : (g.pendingIn t).Nodup := by
  have hknown : ∀ e ∈ g.pending.toList, ∃ p, t.Knows p ∧ t.place p = e.1 := by
    rintro ⟨l, r⟩ hmem
    rw [mem_toList_iff, hm.pending] at hmem
    obtain ⟨⟨p, r'⟩, hp, hr⟩ := exists_of_findSome?_eq_some hmem
    simp only at hr
    split at hr
    · next hl => exact ⟨p, hm.knows _ hp, hl⟩
    · cases hr
  refine pairwise_map.mpr (g.pending.sorted.imp_of_mem ?_)
  intro a b ha hb hlt heq
  obtain ⟨p, hp, hpa⟩ := hknown a ha
  obtain ⟨q, hq, hqb⟩ := hknown b hb
  have hplace := (Prod.mk.inj heq).1
  rw [← hpa, ← hqb, hm.numbered.placedIn_place hp, hm.numbered.placedIn_place hq] at hplace
  rw [← hpa, ← hqb, place_congr hplace] at hlt
  cases hlt.symm.trans Std.ReflCmp.compare_self

variable (h : Consistent cs) (hp : cs.Perm cs') (hm : Merged cs g t) (hm' : Merged cs' g' t')

include h hp hm hm'

theorem placedIn_actAll_eq (usr : Usr) :
    (g.entities.get? usr).map (Entity.placedIn t)
      = (g'.entities.get? usr).map (Entity.placedIn t') := by
  have hon : ∀ (ks : List Contribution) (op : EntityOp),
      op ∈ on usr (opsOf ks) ↔ op ∈ opsOf ks ∧ op.target = usr := by
    intro ks op
    simp [on]
  have hmem : ∀ op, op ∈ on usr (opsOf cs) ↔ op ∈ on usr (opsOf cs') := by
    intro op
    rw [hon, hon, mem_opsOf_perm hp]
  have hknows : ∀ op ∈ on usr (opsOf cs), t.KnowsOp op :=
    fun op hop => hm.knowsOp op ((hon cs op).mp hop).1
  have hknows' : ∀ op ∈ on usr (opsOf cs'), t'.KnowsOp op :=
    fun op hop => hm'.knowsOp op ((hon cs' op).mp hop).1
  have hsame : ∀ {β : Type} {f : EntityOp → Option β},
      (∀ op ∈ opsOf cs, ∀ op' ∈ opsOf cs, op.target = op'.target → Compatible (f op) (f op')) →
      ∀ op ∈ on usr (opsOf cs), ∀ op' ∈ on usr (opsOf cs),
        Compatible (f op) (f op') := by
    intro β f hf op hop op' hop'
    obtain ⟨hop, htarget⟩ := (hon cs op).mp hop
    obtain ⟨hop', htarget'⟩ := (hon cs op').mp hop'
    exact hf op hop op' hop' (htarget.trans htarget'.symm)
  have hparam : ∀ op ∈ on usr (opsOf cs), ∀ op' ∈ on usr (opsOf cs),
      op.parameter?.isSome = true → op'.parameter? = op.parameter? := by
    intro op hop op' hop'
    obtain ⟨hop, htarget⟩ := (hon cs op).mp hop
    obtain ⟨hop', htarget'⟩ := (hon cs op').mp hop'
    exact h.parameter op hop op' hop' (htarget.trans htarget'.symm)
  rw [hm.entities, hm'.entities]
  cases hops : on usr (opsOf cs) with
  | nil =>
    have hnil : on usr (opsOf cs') = [] := by
      refine eq_nil_iff_forall_not_mem.mpr (fun op hop => ?_)
      have := (hmem op).mpr hop
      rw [hops] at this
      cases this
    rw [hnil]
    rfl
  | cons op =>
    have hop : op ∈ on usr (opsOf cs) := by simp [hops]
    obtain ⟨op', rest', hops'⟩ : ∃ op' rest', on usr (opsOf cs') = op' :: rest' :=
      exists_cons_of_ne_nil (ne_nil_of_mem ((hmem op).mp hop))
    have hop' : op' ∈ on usr (opsOf cs) := (hmem op').mpr (by simp [hops'])
    rw [hops', actAll_none, actAll_none, ← hops, ← hops', map_some,
      map_some, Option.some.injEq]
    cases hpar : op.parameter? with
    | some v =>
      -- all operations say the same, and only the first makes a record
      have hall : ∀ o ∈ on usr (opsOf cs), o.parameter? = some v := by
        intro o ho
        rw [hparam op hop o ho (by rw [hpar]; rfl), hpar]
      rw [Entity.applyAll_of_parameters _ (fun o ho => by rw [hall o ho]; rfl),
        Entity.applyAll_of_parameters _ (fun o ho => by rw [hall o ((hmem o).mpr ho)]; rfl),
        Entity.placedIn_seed hm.numbered.toSound (hknows op hop).1 hpar,
        Entity.placedIn_seed hm'.numbered.toSound (hknows' op' ((hmem op').mp hop')).1
          (hall op' hop')]
    | none =>
      have hpar' : op'.parameter? = none := by
        cases hsome : op'.parameter? with
        | none => rfl
        | some =>
          have := hparam op' hop' op hop (by rw [hsome]; rfl)
          rw [hpar, hsome] at this
          cases this
      rw [seed_of_parameter?_eq_none _ hpar, seed_of_parameter?_eq_none _ hpar']
      exact Entity.placedIn_applyAll_eq hm.numbered.toSound hm'.numbered.toSound hknows hknows'
        hmem (hsame h.naming) (hsame h.defined) (hsame h.overridden)

theorem alike :
    Alike t t' g g' where
  entities := by
    refine ext_get? (fun usr => ?_)
    rw [get?_placedIn, get?_placedIn]
    exact h.placedIn_actAll_eq hp hm hm' usr
  pending := by
    refine (perm_ext_iff_of_nodup (nodup_pendingIn hm) (nodup_pendingIn hm')).mpr ?_
    rintro ⟨y, r⟩
    rw [h.mem_pendingIn hm, (h.perm hp).mem_pendingIn hm']
    simp only [mem_pendingOf_perm hp]

end Consistent

/-- **Merging is independent of the order.** Units that do not contradict each other give, in any
order, the same report and the same records once reconciled, read by file, line and column, and
number the same files; or there are too many files in every order. -/
theorem merge_order_irrelevant {cs cs' : List Contribution} (hp : cs.Perm cs') (h : Consistent cs) :
    (∃ g t g' t', ({} : Graph).mergeAll {} cs = .ok (g, t)
        ∧ ({} : Graph).mergeAll {} cs' = .ok (g', t')
        ∧ g.reconcile.2 = g'.reconcile.2
        ∧ g.reconcile.1.placedIn t = g'.reconcile.1.placedIn t'
        ∧ ∀ p, (t.id? p).isSome = (t'.id? p).isSome)
      ∨ (({} : Graph).mergeAll {} cs = .error .overflow
        ∧ ({} : Graph).mergeAll {} cs' = .error .overflow) := by
  cases hrun : ({} : Graph).mergeAll {} cs with
  | error =>
    refine .inr ⟨rfl, ?_⟩
    cases hrun' : ({} : Graph).mergeAll {} cs' with
    | error => rfl
    | ok =>
      obtain ⟨g, t, hok, -⟩ := (h.perm hp).mergeAll_perm hp.symm hrun'
      rw [hrun] at hok
      cases hok
  | ok r =>
    obtain ⟨g, t⟩ := r
    obtain ⟨g', t', hrun', hwithin'⟩ := h.mergeAll_perm hp hrun
    have hwithin : t.Within t' := by
      obtain ⟨g₂, t₂, hrun₂, hwithin₂⟩ := (h.perm hp).mergeAll_perm hp.symm hrun'
      rw [hrun] at hrun₂
      cases hrun₂
      exact hwithin₂
    have halike := h.alike hp (h.merged hrun) ((h.perm hp).merged hrun')
    exact .inl ⟨g, t, g', t', rfl, hrun', halike.report_eq, halike.reconcile_placedIn,
      fun p => Bool.eq_iff_iff.mpr ⟨hwithin p, hwithin' p⟩⟩

/-- A unit that declares a method, a constructor of a class and a template parameter. -/
def headerUnit : Contribution where
  ops := [
    .declare "m" "run" ["Base"] ⟨⟨"/h.h"⟩, 3, 1⟩ false none none,
    .extraDeclaration "c" ⟨⟨"/h.h"⟩, 9, 1⟩,
    .synthesize "t" "T" ⟨⟨"/h.h"⟩, 1, 1⟩ []]
  pending := SortedMap.ofList [(⟨⟨"/h.h"⟩, 12, 1⟩, { usr := "m<int>", specialized := some "m" })]

/-- A unit that meets the same header under another spelling, defines the method at the place where
the other declares it, and overrides it. -/
def sourceUnit : Contribution where
  ops := [
    .declare "n" "run" ["Derived"] ⟨⟨"/a.c"⟩, 4, 1⟩ true (some ⟨⟨"/./h.h"⟩, 3, 1⟩) (some "m"),
    .declare "m" "run" ["Base"] ⟨⟨"/./h.h"⟩, 3, 1⟩ true none none,
    .declare "c" "C" [] ⟨⟨"/a.c"⟩, 2, 1⟩ true none none,
    .synthesize "t" "T" ⟨⟨"/./h.h"⟩, 1, 1⟩ []]
  pending := SortedMap.ofList
    [(⟨⟨"/./h.h"⟩, 12, 1⟩, { usr := "m<int>", specialized := some "m" }),
      (⟨⟨"/a.c"⟩, 7, 1⟩, { usr := "c" })]

theorem consistent_units : Consistent [headerUnit, sourceUnit] where
  naming := by decide
  defined := by decide
  overridden := by decide
  parameter := by decide
  references := by decide

/-- The two units number their files in opposite orders. -/
theorem merge_order_irrelevant_units : Consistent [headerUnit, sourceUnit]
      ∧ ((∃ g t g' t', ({} : Graph).mergeAll {} [headerUnit, sourceUnit] = .ok (g, t)
          ∧ ({} : Graph).mergeAll {} [sourceUnit, headerUnit] = .ok (g', t')
          ∧ g.reconcile.2 = g'.reconcile.2
          ∧ g.reconcile.1.placedIn t = g'.reconcile.1.placedIn t'
          ∧ ∀ p, (t.id? p).isSome = (t'.id? p).isSome)
        ∨ (({} : Graph).mergeAll {} [headerUnit, sourceUnit] = .error .overflow
          ∧ ({} : Graph).mergeAll {} [sourceUnit, headerUnit] = .error .overflow)) :=
  ⟨consistent_units, merge_order_irrelevant (.swap _ _ _) consistent_units⟩

end Graph

end SymbolIndex
