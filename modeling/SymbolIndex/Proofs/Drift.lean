import SymbolIndex.Proofs.Findings

/-!
# Where an update and a rebuild part ways

An update keeps of the stored records what lies outside of the changed files, and merges with it the
units that it has parsed again. A rebuild merges all units, those that the update has left alone and
those that it has parsed again. `Turnover` has what the two are made of, and `Turnover.Drifts` lists
the ways in which a symbol can come out differently: something told earlier has outlived the unit
that told it, something that is still told was pruned and not told again, a reference belongs to
another symbol now, or what is left of a record keeps a template parameter or a new name away.
`Turnover.Made.eq_iff` says that there are no others.
-/

namespace SymbolIndex

open EntityOp Option SymbolIndex.Graph

/-- Records before an update and after a rebuild, with what units tell: those left alone, and
those parsed again, as they were and as they are. -/
structure Turnover where
  before : SortedMap Usr PlacedEntity
  after : SortedMap Usr PlacedEntity
  retained : List Contribution
  former : List Contribution
  renewed : List Contribution
  dirty : Place → Prop

namespace Turnover

/-- Something is left of the record of a symbol when the places in changed files are gone. -/
def Survives (T : Turnover) (usr : Usr) : Prop :=
  ∃ e f, T.before.get? usr = some e ∧ e.Holds f ∧ f.Own ∧ ¬T.dirty f.place

/-- What lies outside of the changed files stays, as far as anything is left of the record. -/
def Left (T : Turnover) (usr : Usr) (f : Finding) : Prop := T.Survives usr ∧ ¬T.dirty f.place

/-- **Why a symbol is not stored as a rebuild would store it.** -/
inductive Drifts (T : Turnover) (usr : Usr) : Prop
  /-- A unit that is parsed again told something outside of the changed files, and nobody tells it
  any more: the header is not included any more, or the unit changed for another reason. -/
  | outlived {f : Finding} (told : Told T.before.contains T.former usr f) (left : T.Left usr f)
      (gone : ¬Told T.after.contains (T.retained ++ T.renewed) usr f)
  /-- A unit that is left alone tells something in a changed file, which it has not reported as one
  that it depends on, and nobody tells it again. -/
  | unwatched {f : Finding} (told : Told T.after.contains T.retained usr f)
      (pruned : ¬T.Left usr f) (missing : ¬Told T.after.contains T.renewed usr f)
  /-- A reference of a unit that is left alone was that of the symbol and belongs to another one, or
  to none, now. -/
  | moved {p : SourcePosition × PendingReference} (told : p ∈ Graph.pendingOf T.retained)
      (clean : ¬T.dirty p.1.toPlace) (former : p.2.owner? T.before.contains = some usr)
      (now : p.2.owner? T.after.contains ≠ some usr)
  /-- A reference of a unit that is left alone belongs to the symbol now, did not do so before, and
  is not reported again. -/
  | missed {p : SourcePosition × PendingReference} (told : p ∈ Graph.pendingOf T.retained)
      (former : p.2.owner? T.before.contains ≠ some usr)
      (now : p.2.owner? T.after.contains = some usr)
      (missing : ¬Told T.after.contains T.renewed usr (.reference p.1.toPlace))
  /-- What is left of a record has no definition, and a template parameter only brings its own to a
  symbol without a record. -/
  | orphaned {e : PlacedEntity} {op : EntityOp} (survives : T.Survives usr)
      (stored : T.before.get? usr = some e) (undefined : ∀ y, e.definition = some y → T.dirty y)
      (parameter : op ∈ on usr (opsOf T.renewed))
      (isSome : op.parameter?.isSome = true)
  /-- What is left of a record keeps its name, or is given none, and the symbol has another. -/
  | renamed {e e' : PlacedEntity} (survives : T.Survives usr) (stored : T.before.get? usr = some e)
      (rebuilt : T.after.get? usr = some e')
      (stays : e.symbolName ≠ ""
        ∨ ∀ op ∈ on usr (opsOf T.renewed), op.naming? = none)
      (other : e.naming ≠ e'.naming)

/-- What is left of the records once the changed places are gone. -/
structure Pruned (T : Turnover) (kept : SortedMap Usr PlacedEntity) : Prop where
  contains : ∀ usr, kept.contains usr = true ↔ T.Survives usr
  naming : ∀ usr e e₀, T.before.get? usr = some e → kept.get? usr = some e₀ → e₀.naming = e.naming
  holds : ∀ usr e e₀, T.before.get? usr = some e → kept.get? usr = some e₀ → ∀ f,
    e₀.Holds f ↔ e.Holds f ∧ ¬T.dirty f.place

/-- The records before, after a rebuild, and of an update that starts from `kept`, made of units
that do not contradict each other. -/
structure Made (T : Turnover) (kept updated : SortedMap Usr PlacedEntity) : Prop where
  first : Graph.Consistent (T.retained ++ T.former)
  second : Graph.Consistent (T.retained ++ T.renewed)
  before : Composed ∅ (T.retained ++ T.former) T.before
  after : Composed ∅ (T.retained ++ T.renewed) T.after
  pruned : T.Pruned kept
  updated : Composed kept T.renewed updated

end Turnover

namespace Turnover.Made

variable {T : Turnover} {kept updated : SortedMap Usr PlacedEntity} {usr : Usr}
  {e e' e₀ : PlacedEntity} {f : Finding}

variable (h : T.Made kept updated)

include h

theorem third : Graph.Consistent T.renewed :=
  h.second.mono (fun _ hop => mem_opsOf_append.mpr (.inr hop))
    (fun _ hp => mem_pendingOf_append.mpr (.inr hp))

theorem holds_before (hget : T.before.get? usr = some e) :
    e.Holds f ↔ Told T.before.contains (T.retained ++ T.former) usr f :=
  h.before.holds_iff_told h.first (by simp) hget

theorem holds_after (hget : T.after.get? usr = some e) :
    e.Holds f ↔ Told T.after.contains (T.retained ++ T.renewed) usr f :=
  h.after.holds_iff_told h.second (by simp) hget

theorem exists_before (hget : kept.get? usr = some e₀) :
    T.Survives usr ∧ ∃ e, T.before.get? usr = some e := by
  have hsurvives : T.Survives usr := by
    rw [← h.pruned.contains, SortedMap.contains, hget]
    rfl
  refine ⟨hsurvives, ?_⟩
  obtain ⟨e, -, hbefore, -⟩ := hsurvives
  exact ⟨e, hbefore⟩

theorem holds_kept (hget : kept.get? usr = some e₀) :
    e₀.Holds f ↔ Told T.before.contains (T.retained ++ T.former) usr f ∧ T.Left usr f := by
  obtain ⟨hsurvives, e, hbefore⟩ := h.exists_before hget
  rw [h.pruned.holds usr e e₀ hbefore hget, h.holds_before hbefore, Left]
  simp [hsurvives]

theorem holds_updated_of_left (hget : updated.get? usr = some e)
    (htold : Told T.before.contains (T.retained ++ T.former) usr f) (hleft : T.Left usr f) :
    e.Holds f := by
  obtain ⟨e₀, hkept⟩ := isSome_iff_exists.mp ((h.pruned.contains usr).mpr hleft.1)
  exact h.updated.holds_of_ground (ground_of_kept hkept _) hget
    ((h.holds_kept hkept).mpr ⟨htold, hleft⟩)

theorem left_or_told (hget : updated.get? usr = some e) (hf : e.Holds f) :
    (Told T.before.contains (T.retained ++ T.former) usr f ∧ T.Left usr f)
      ∨ Told updated.contains T.renewed usr f := by
  cases hkept : kept.get? usr with
  | none => exact .inr ((h.updated.holds_iff_told h.third hkept hget).mp hf)
  | some =>
    refine (h.updated.holds_or_told (ground_of_kept hkept _) hget hf).imp_left fun hf => ?_
    exact (h.holds_kept hkept).mp hf

omit h in
theorem owner_unique {cs : List Contribution} {known : Usr → Bool}
    {p : SourcePosition × PendingReference} (hcs : Graph.Consistent cs)
    (hp : p ∈ Graph.pendingOf cs) (htold : Told known cs usr (.reference p.1.toPlace)) :
    p.2.owner? known = some usr := by
  rcases htold with ⟨op, -, htells⟩ | ⟨p', hp', hplace, howner⟩
  · exact htells.elim
  · rw [hcs.references p hp p' hp' (Finding.reference.inj hplace)]
    exact howner

/-! ### A drift shows -/

theorem ne_of_drifts (hdrifts : T.Drifts usr) : updated ≠ T.after := by
  intro heq
  -- What was told and is left is told now; what a unit left alone tells is left or told again.
  have hupheld : ∀ f, Told T.before.contains (T.retained ++ T.former) usr f → T.Left usr f →
      Told T.after.contains (T.retained ++ T.renewed) usr f := by
    intro f htold hleft
    have hcontains : updated.contains usr = true :=
      h.updated.contains_iff.mpr (.inl ((h.pruned.contains usr).mpr hleft.1))
    obtain ⟨e, hget⟩ := isSome_iff_exists.mp hcontains
    exact (h.holds_after (heq ▸ hget)).mp (h.holds_updated_of_left hget htold hleft)
  have hstays : ∀ f, Told T.after.contains T.retained usr f →
      (Told T.before.contains (T.retained ++ T.former) usr f ∧ T.Left usr f)
        ∨ Told T.after.contains T.renewed usr f := by
    intro f htold
    have htold : Told T.after.contains (T.retained ++ T.renewed) usr f :=
      told_append.mpr (.inl htold)
    obtain ⟨e, hget⟩ := isSome_iff_exists.mp (h.after.contains_of_told htold)
    have := h.left_or_told (heq ▸ hget) ((h.holds_after hget).mpr htold)
    rwa [heq] at this
  cases hdrifts with
  | outlived told left gone => exact gone (hupheld _ (told_append.mpr (.inr told)) left)
  | unwatched told pruned missing =>
    exact (hstays _ told).elim (fun hleft => pruned hleft.2) missing
  | @moved p told clean former now =>
    have htold : Told T.before.contains (T.retained ++ T.former) usr (.reference p.1.toPlace) :=
      told_append.mpr (.inl (.inr ⟨p, told, rfl, former⟩))
    obtain ⟨e, hget⟩ := isSome_iff_exists.mp (h.before.contains_of_told htold)
    have hleft : T.Left usr (.reference p.1.toPlace) :=
      ⟨⟨e, _, hget, (h.holds_before hget).mpr htold, trivial, clean⟩, clean⟩
    exact now (owner_unique h.second (mem_pendingOf_append.mpr (.inl told)) (hupheld _ htold hleft))
  | @missed p told former now missing =>
    rcases hstays (.reference p.1.toPlace) (.inr ⟨p, told, rfl, now⟩) with ⟨htold, -⟩ | htold
    · exact former (owner_unique h.first (mem_pendingOf_append.mpr (.inl told)) htold)
    · exact missing htold
  | @orphaned e op survives stored undefined parameter isSome =>
    obtain ⟨⟨name, y, scope⟩, hparam⟩ := isSome_iff_exists.mp isSome
    obtain ⟨e₀, hkept⟩ := isSome_iff_exists.mp ((h.pruned.contains usr).mpr survives)
    have hnone : e₀.definition = none := by
      refine eq_none_iff_forall_ne_some.mpr fun z hz => ?_
      obtain ⟨hz, hclean⟩ := (h.pruned.holds usr e e₀ stored hkept (.defined z)).mp hz
      exact hclean (undefined z hz)
    have hcontains : updated.contains usr = true :=
      h.updated.contains_iff.mpr (.inr ⟨op, parameter⟩)
    obtain ⟨e₁, hget⟩ := isSome_iff_exists.mp hcontains
    -- No operation on a template parameter defines a symbol that has a record.
    have hundefined : e₁.definition = none := by
      rw [(h.updated.grown usr e₀ e₁ (ground_of_kept hkept _) hget).definition, hnone,
        none_or, List.findSome?_eq_none_iff]
      intro op' hop'
      have hparam' := (h.third.parameter?_eq parameter hop').symm.trans hparam
      exact (of_parameter?_eq_some hparam').2.2.1
    have htold : Told T.after.contains (T.retained ++ T.renewed) usr (.defined y) :=
      told_append.mpr (.inr (.inl ⟨op, parameter, (of_parameter?_eq_some hparam).1⟩))
    have hdefined : e₁.definition = some y := (h.holds_after (heq ▸ hget)).mpr htold
    cases hundefined.symm.trans hdefined
  | @renamed e e' survives stored rebuilt stays other =>
    obtain ⟨e₀, hkept⟩ := isSome_iff_exists.mp ((h.pruned.contains usr).mpr survives)
    have hname := h.pruned.naming usr e e₀ stored hkept
    have hgrown := h.updated.grown usr e₀ e' (ground_of_kept hkept _) (heq ▸ rebuilt)
    have hnaming := hgrown.naming_eq (Graph.Consistent.compatible_on h.third.naming)
    refine other (hname.symm.trans (Eq.trans ?_ hnaming.symm))
    rw [show e.symbolName = e₀.symbolName from (congrArg Prod.fst hname).symm] at stays
    split
    · next hblank =>
      rw [List.findSome?_eq_none_iff.mpr (stays.resolve_left fun hnot => hnot hblank)]
      rfl
    · rfl

/-! ### Nothing else shows -/

omit h in
theorem upheld (hstill : ¬T.Drifts usr)
    (htold : Told T.before.contains (T.retained ++ T.former) usr f) (hleft : T.Left usr f) :
    Told T.after.contains (T.retained ++ T.renewed) usr f := by
  refine Classical.byContradiction fun hgone => ?_
  rcases told_append.mp htold with (⟨op, hop, htells⟩ | ⟨p, hp, rfl, howner⟩) | htold
  · exact hgone (told_append.mpr (.inl (.inl ⟨op, hop, htells⟩)))
  · refine hstill (.moved hp hleft.2 howner fun hnow => hgone ?_)
    exact told_append.mpr (.inl (.inr ⟨p, hp, rfl, hnow⟩))
  · exact hstill (.outlived htold hleft hgone)

omit h in
theorem stays (hstill : ¬T.Drifts usr) (htold : Told T.after.contains T.retained usr f) :
    (Told T.before.contains (T.retained ++ T.former) usr f ∧ T.Left usr f)
      ∨ Told T.after.contains T.renewed usr f := by
  refine Classical.byContradiction fun hnot => ?_
  obtain ⟨hlost, hmissing⟩ := not_or.mp hnot
  have hleft : T.Left usr f := Classical.byContradiction fun hpruned =>
    hstill (.unwatched htold hpruned hmissing)
  rcases htold with ⟨op, hop, htells⟩ | ⟨p, hp, rfl, howner⟩
  · exact hlost ⟨told_append.mpr (.inl (.inl ⟨op, hop, htells⟩)), hleft⟩
  · refine hstill (.missed hp (fun hformer => hlost ⟨?_, hleft⟩) howner hmissing)
    exact told_append.mpr (.inl (.inr ⟨p, hp, rfl, hformer⟩))

theorem contains_eq (hstill : ∀ usr, ¬T.Drifts usr) : updated.contains = T.after.contains := by
  refine funext fun usr => Bool.eq_iff_iff.mpr ?_
  rw [h.updated.contains_iff]
  constructor
  · rintro (hkept | ⟨op, hop⟩)
    · obtain ⟨e, f, hget, hf, hown, hclean⟩ := (h.pruned.contains usr).mp hkept
      exact h.after.contains_of_told (upheld (hstill usr) ((h.holds_before hget).mp hf)
        ⟨⟨e, f, hget, hf, hown, hclean⟩, hclean⟩)
    · exact h.after.contains_iff.mpr (.inr ⟨op, mem_on_append.mpr (.inr hop)⟩)
  · intro hafter
    obtain ⟨op, hop⟩ := (h.after.contains_iff.mp hafter).resolve_left (by simp)
    rcases mem_on_append.mp hop with hop | hop
    · obtain ⟨f, -, htells⟩ := op.exists_tells
      rcases stays (hstill usr) (.inl ⟨op, hop, htells⟩) with
        ⟨-, hleft⟩ | ⟨op', hop', -⟩ | ⟨p, -, rfl, -⟩
      · exact .inl ((h.pruned.contains usr).mpr hleft.1)
      · exact .inr ⟨op', hop'⟩
      · exact htells.elim
    · exact .inr ⟨op, hop⟩

theorem holds_of_renewed (hstill : ¬T.Drifts usr)
    (hget : updated.get? usr = some e) (htold : Told updated.contains T.renewed usr f) :
    e.Holds f := by
  cases hkept : kept.get? usr with
  | none => exact (h.updated.holds_iff_told h.third hkept hget).mpr htold
  | some e₀ =>
    obtain ⟨hsurvives, e₁, hbefore⟩ := h.exists_before hkept
    -- What is kept is still told, so it does not contradict what is told again.
    have hagain : ∀ f, e₀.Holds f → Told T.after.contains (T.retained ++ T.renewed) usr f := by
      intro f hf
      obtain ⟨htold, hleft⟩ := (h.holds_kept hkept).mp hf
      exact upheld hstill htold hleft
    refine h.updated.holds_of_told h.third (ground_of_kept hkept _) hget ?_ ?_ ?_ htold
    · intro op hop y y' hy hy'
      rcases hagain (.defined y') hy' with ⟨op', hop', htells⟩ | ⟨p, -, hp, -⟩
      · exact h.second.definesAt_unique hop' (mem_on_append.mpr (.inr hop)) htells hy
      · cases hp
    · intro hnone op hop
      refine not_isSome_iff_eq_none.mp fun hparam => hstill ?_
      refine .orphaned hsurvives hbefore (fun y hy => ?_) hop hparam
      refine Classical.byContradiction fun hclean => ?_
      have hdef : e₀.definition = some y :=
        (h.pruned.holds usr e₁ e₀ hbefore hkept (.defined y)).mpr ⟨hy, hclean⟩
      cases hnone.symm.trans hdef
    · intro op hop o o' ho ho'
      rcases hagain (.overriding o') ho' with ⟨op', hop', htells⟩ | ⟨p, -, hp, -⟩
      · exact Graph.Consistent.compatible_on h.second.overridden op' hop' op
          (mem_on_append.mpr (.inr hop)) o' htells o ho
      · cases hp

theorem holds_congr (hstill : ∀ usr, ¬T.Drifts usr)
    (hget : updated.get? usr = some e) (hget' : T.after.get? usr = some e') :
    e.Holds f ↔ e'.Holds f := by
  have hknown := h.contains_eq hstill
  rw [h.holds_after hget']
  constructor
  · intro hf
    rcases h.left_or_told hget hf with ⟨htold, hleft⟩ | htold
    · exact upheld (hstill usr) htold hleft
    · rw [hknown] at htold
      exact told_append.mpr (.inr htold)
  · intro htold
    have hrenewed : Told T.after.contains T.renewed usr f → e.Holds f := by
      intro htold
      rw [← hknown] at htold
      exact h.holds_of_renewed (hstill usr) hget htold
    rcases told_append.mp htold with htold | htold
    · rcases stays (hstill usr) htold with ⟨htold, hleft⟩ | htold
      · exact h.holds_updated_of_left hget htold hleft
      · exact hrenewed htold
    · exact hrenewed htold

theorem naming_congr (hstill : ¬T.Drifts usr)
    (hget : updated.get? usr = some e) (hget' : T.after.get? usr = some e') :
    e.naming = e'.naming := by
  have hafter := h.after.naming_eq_told h.second (by simp) hget'
  cases hkept : kept.get? usr with
  | none =>
    rw [h.updated.naming_eq_told h.third hkept hget, hafter]
    refine congrArg (Option.getD · _) (Option.ext fun n => ?_)
    rw [findSome?_eq_some_iff_of_compatible h.third.calls_compatible,
      findSome?_eq_some_iff_of_compatible h.second.calls_compatible]
    refine ⟨fun ⟨op, hop, hn⟩ => ⟨op, mem_on_append.mpr (.inr hop), hn⟩, ?_⟩
    rintro ⟨op, hop, hn⟩
    rcases mem_on_append.mp hop with hop₁ | hop₁
    · -- Its declaration is told again, since nothing is left of the record, and with it the name.
      obtain ⟨y, htells⟩ := exists_declared_of_calls? hn
      rcases stays hstill (.inl ⟨op, hop₁, htells⟩) with
        ⟨-, hleft⟩ | ⟨op', hop', htells'⟩ | ⟨p, -, hp, -⟩
      · have hsome := (h.pruned.contains usr).mpr hleft.1
        rw [SortedMap.contains, hkept] at hsome
        cases hsome
      · obtain ⟨n', hn'⟩ := exists_calls?_of_declared htells'
        refine ⟨op', hop', ?_⟩
        rw [hn', h.second.calls_compatible op hop op' (mem_on_append.mpr (.inr hop')) n hn n' hn']
      · cases hp
    · exact ⟨op, hop₁, hn⟩
  | some e₀ =>
    obtain ⟨hsurvives, e₁, hbefore⟩ := h.exists_before hkept
    have hname := h.pruned.naming usr e₁ e₀ hbefore hkept
    have hgrown := h.updated.grown usr e₀ e (ground_of_kept hkept _) hget
    rw [hgrown.naming_eq (Graph.Consistent.compatible_on h.third.naming)]
    have hsame : (e₁.symbolName ≠ "" ∨ ∀ op ∈ on usr (opsOf T.renewed),
        op.naming? = none) → e₀.naming = e'.naming := by
      intro hstays
      rw [hname]
      exact Classical.byContradiction fun hother =>
        hstill (.renamed hsurvives hbefore hget' hstays hother)
    rw [show e₁.symbolName = e₀.symbolName from (congrArg Prod.fst hname).symm] at hsame
    split
    · cases hfirst : (on usr (opsOf T.renewed)).findSome? EntityOp.naming? with
      | none => exact hsame (.inr (List.findSome?_eq_none_iff.mp hfirst))
      | some n =>
        obtain ⟨op, hop, hn⟩ := List.exists_of_findSome?_eq_some hfirst
        have hcalls : op.calls? = some n := by
          rw [← hn]
          cases op <;> simp_all [EntityOp.naming?, EntityOp.calls?]
        rw [hafter, (findSome?_eq_some_iff_of_compatible h.second.calls_compatible).mpr
          ⟨op, mem_on_append.mpr (.inr hop), hcalls⟩]
        rfl
    · next hnamed => exact hsame (.inl hnamed)

/-- **An update stores what a rebuild stores exactly when no symbol drifts.** -/
theorem eq_iff : updated = T.after ↔ ∀ usr, ¬T.Drifts usr := by
  refine ⟨fun heq usr hdrifts => h.ne_of_drifts hdrifts heq, fun hstill => ?_⟩
  have hknown := h.contains_eq hstill
  have hholds : ∀ {usr e e'}, updated.get? usr = some e → T.after.get? usr = some e' →
      ∀ f, e.Holds f ↔ e'.Holds f := fun hget hget' f => h.holds_congr hstill hget hget'
  have hsome : ∀ usr, (updated.get? usr).isSome = (T.after.get? usr).isSome := congrFun hknown
  refine SortedMap.ext_get? fun usr => ?_
  cases hget : updated.get? usr with
  | none =>
    have := hsome usr
    rw [hget] at this
    exact (not_isSome_iff_eq_none.mp (by simp [← this])).symm
  | some e =>
    obtain ⟨e', hget'⟩ := isSome_iff_exists.mp ((hsome usr).symm.trans (by rw [hget]; rfl))
    rw [hget']
    refine congrArg some ((h.updated.tidy hget).ext (h.after.tidy hget')
      (h.naming_congr (hstill usr) hget hget') (hholds hget hget') fun y => ?_)
    rw [h.updated.subs usr e hget, h.after.subs usr e' hget']
    -- Overriding methods are read off records that hold the same.
    refine exists_congr fun usr' => ?_
    have hpart : ∀ {e₁ e₁'}, updated.get? usr' = some e₁ → T.after.get? usr' = some e₁' →
        e₁.overriddenUsr = e₁'.overriddenUsr ∧ e₁.definition = e₁'.definition := by
      intro e₁ e₁' hget₁ hget₁'
      have hover : e₁.overriding = e₁'.overriding :=
        Option.ext fun o => hholds hget₁ hget₁' (.overriding o)
      exact ⟨((h.updated.tidy hget₁).base_eq (h.after.tidy hget₁') hover).2,
        Option.ext fun z => hholds hget₁ hget₁' (.defined z)⟩
    have := hsome usr'
    cases hget₁ : updated.get? usr' <;> cases hget₁' : T.after.get? usr' <;> simp_all

end Turnover.Made

end SymbolIndex
