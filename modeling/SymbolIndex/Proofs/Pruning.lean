import SymbolIndex.Proofs.Drift

/-!
# What an update keeps

An update starts from the stored records without their places in changed files. The records are
pruned by the numbers of files, and compared by the names: a number that was given stays with its
file, so what is kept of a record, with files by name, is what it held outside of the changed files
(`Run.Continues.pruned`).
-/

namespace SymbolIndex

open Entity Option SortedSet SymbolIndex.Graph

/-! ## Findings of a record -/

def Entity.Gives (e : Entity) (l : Location) : Finding → Prop
  | .defined _ => e.At .definition l
  | .declared _ => e.At .declaration l ∨ e.At .definition l
  | .extra _ => e.At .extra l
  | .overriding o => e.At .base l ∧ e.overriddenUsr = o.2
  | .reference _ => e.At .reference l

namespace Entity

variable {t : FileTable} {e : Entity} {f : Finding} {l : Location}

theorem holds_placedIn : (e.placedIn t).Holds f ↔ ∃ l, e.Gives l f ∧ l.placedIn t = f.place := by
  cases f with
  | defined => exact map_eq_some_iff
  | declared y =>
    show SortedMap.contains (SortedSet.image _ e.declarations) y = true
      ∨ e.definition.map (Location.placedIn t) = some y ↔ _
    rw [contains_image, map_eq_some_iff, ← exists_or]
    exact exists_congr fun l => or_and_right.symm
  | extra => exact contains_image ..
  | overriding o =>
    obtain ⟨y, usr⟩ := o
    show (e.placedIn t).overriding = some (y, usr) ↔ _
    rw [overriding_placedIn, map_eq_some_iff]
    unfold overriding
    constructor
    · rintro ⟨⟨l, u⟩, hl, heq⟩
      obtain ⟨l', hl', heq'⟩ := map_eq_some_iff.mp hl
      obtain ⟨rfl, rfl⟩ := Prod.mk.inj heq'
      obtain ⟨rfl, rfl⟩ := Prod.mk.inj heq
      exact ⟨l', ⟨hl', rfl⟩, rfl⟩
    · rintro ⟨l, ⟨hl, rfl⟩, rfl⟩
      exact ⟨(l, e.overriddenUsr), by rw [show e.superLocation = some l from hl]; rfl, rfl⟩
  | reference => exact contains_image ..

theorem exists_at_of_gives (h : e.Gives l f) : ∃ role, e.At role l ∧ (f.Own → role ≠ .base) := by
  cases f with
  | defined => exact ⟨.definition, h, by simp⟩
  | declared =>
    rcases h with h | h
    · exact ⟨.declaration, h, by simp⟩
    · exact ⟨.definition, h, by simp⟩
  | extra => exact ⟨.extra, h, by simp⟩
  | overriding => exact ⟨.base, h.1, fun hown => hown.elim⟩
  | reference => exact ⟨.reference, h, by simp⟩

theorem exists_gives_of_not_isEmpty (h : e.isEmpty = false) (t : FileTable) :
    ∃ l f, f.Own ∧ e.Gives l f ∧ l.placedIn t = f.place := by
  obtain ⟨l, hl⟩ : ∃ l, l ∈ e.ownLocations := by
    refine Classical.byContradiction fun hnone => ?_
    have hempty : e.isEmpty = true := isEmpty_iff.mpr fun l hl => hnone ⟨l, hl⟩
    rw [h] at hempty
    cases hempty
  rcases mem_ownLocations.mp hl with hl | hl | hl | hl
  · exact ⟨l, .defined (l.placedIn t), trivial, hl, rfl⟩
  · exact ⟨l, .declared (l.placedIn t), trivial, .inl hl, rfl⟩
  · exact ⟨l, .extra (l.placedIn t), trivial, hl, rfl⟩
  · exact ⟨l, .reference (l.placedIn t), trivial, hl, rfl⟩

theorem gives_pruneFiles {ids : SortedSet FileId} :
    (e.pruneFiles ids).Gives l f ↔ e.Gives l f ∧ ids.contains l.file = false := by
  cases f with
  | defined =>
    show (e.pruneFiles ids).At .definition l ↔ _
    exact at_pruneFiles
  | declared =>
    show _ ∨ _ ↔ (_ ∨ _) ∧ _
    rw [at_pruneFiles, at_pruneFiles, or_and_right]
  | extra =>
    show (e.pruneFiles ids).At .extra l ↔ _
    exact at_pruneFiles
  | overriding =>
    -- The method is forgotten with its place only.
    have hkept : e.At .base l → ids.contains l.file = false →
        (e.pruneFiles ids).overriddenUsr = e.overriddenUsr := by
      intro hl hoff
      unfold pruneFiles
      simp only [show e.superLocation = some l from hl, all_some, hoff, Bool.not_false,
        if_true]
    constructor
    · rintro ⟨hl, husr⟩
      obtain ⟨hl, hoff⟩ := at_pruneFiles.mp hl
      exact ⟨⟨hl, (hkept hl hoff).symm.trans husr⟩, hoff⟩
    · rintro ⟨⟨hl, husr⟩, hoff⟩
      exact ⟨at_pruneFiles.mpr ⟨hl, hoff⟩, (hkept hl hoff).trans husr⟩
  | reference =>
    show (e.pruneFiles ids).At .reference l ↔ _
    exact at_pruneFiles

end Entity

namespace FileTable

variable {t t' : FileTable} {l : Location}

theorem Numbers.placedIn_eq (h : t.Numbers l) (hsound : t.Sound) (hext : t.Extends t')
    (hsound' : t'.Sound) : l.placedIn t' = l.placedIn t := by
  obtain ⟨p, hp⟩ := h
  unfold Location.placedIn
  rw [hsound.path?_of_id? hp, hsound'.path?_of_id? (hext p _ hp)]

theorem Numbers.liesIn_iff_file (h : t.Numbers l) (hsound : t.Sound) (files : SortedSet Path) :
    t.LiesIn files l ↔ ∃ p ∈ files.members, (l.placedIn t).file = some p.components := by
  obtain ⟨q, hq⟩ := h
  have hfile : (l.placedIn t).file = some q.components := by
    unfold Location.placedIn
    rw [hsound.path?_of_id? hq]
  rw [hfile]
  refine exists_congr fun p => and_congr_right fun _ => ⟨fun hp => ?_, fun hp => ?_⟩
  · rw [hsound.components_eq hq hp]
  · rw [← hq]
    exact (t.id?_congr (some.inj hp)).symm

end FileTable

/-- A place lies in a changed file. -/
def Plan.Touches (plan : Plan) (y : Place) : Prop :=
  ∃ p ∈ plan.dirtyFiles.members, y.file = some p.components

namespace Run.Continues

variable {prev r : Run} {earlier : List Run} {usr : Usr} {e e' : Entity}

section

variable (h : prev.Continues r) (hget : r.start.graph.entities.get? usr = some e')

include h hget

/-- What an update starts a symbol from is its record, as far as it lies outside of the changed
files. -/
theorem gives_start :
    ∃ e, prev.saved.graph.entities.get? usr = some e ∧ e'.symbolName = e.symbolName
      ∧ e'.cursorScope = e.cursorScope ∧ ∀ l f, e'.Gives l f
        ↔ e.Gives l f ∧ ¬prev.saved.files.LiesIn r.dirty l := by
  have houtside : ∀ l f, e'.Gives l f → ¬prev.saved.files.LiesIn r.dirty l := by
    intro l f hgives
    obtain ⟨role, hat, -⟩ := exists_at_of_gives hgives
    exact (h.at_of_start hget hat).2
  rw [h.entities_start] at hget
  unfold Database.invalidation at hget
  split at hget
  · refine ⟨e', hget, rfl, rfl, fun l f => ⟨fun hgives => ⟨hgives, houtside l f hgives⟩, ?_⟩⟩
    exact fun hgives => hgives.1
  · obtain ⟨⟨e, he, rfl⟩, -⟩ := Entities.get?_pruneFiles.mp hget
    refine ⟨e, he, rfl, rfl, fun l f => ?_⟩
    rw [gives_pruneFiles, ← contains_numbers, Bool.not_eq_true]

theorem stored_or_not_isEmpty :
    prev.saved.graph.entities.get? usr = some e' ∨ e'.isEmpty = false := by
  rw [h.entities_start] at hget
  unfold Database.invalidation at hget
  split at hget
  · exact .inl hget
  · exact .inr (Entities.get?_pruneFiles.mp hget).2

end

section Placed

variable {l : Location} {f : Finding}

theorem numbers_of_gives (hruns : Runs (prev :: earlier))
    (hget : prev.saved.graph.entities.get? usr = some e) (hl : e.Gives l f) :
    prev.saved.files.Numbers l := by
  obtain ⟨role, hat, -⟩ := exists_at_of_gives hl
  exact hruns.located usr e role l hget hat

variable (h : prev.Continues r) (hruns : Runs (prev :: earlier))
  (hget : prev.saved.graph.entities.get? usr = some e) (hl : e.Gives l f)

include h hruns hget hl

theorem placedIn_eq : l.placedIn r.saved.files = l.placedIn prev.saved.files :=
  (numbers_of_gives hruns hget hl).placedIn_eq hruns.numbered.toSound h.extends_files
    (Runs.update hruns h).numbered.toSound

theorem liesIn_iff_touches :
    prev.saved.files.LiesIn r.dirty l
      ↔ (prev.planAfter r.seen r.setup.unsaved).Touches (l.placedIn prev.saved.files) := by
  rw [(numbers_of_gives hruns hget hl).liesIn_iff_file hruns.numbered.toSound, h.dirty]
  rfl

end Placed

/-- **One record**: the update keeps its name, and what it holds outside of the changed files. -/
theorem holds_start (h : prev.Continues r) (hruns : Runs (prev :: earlier))
    (hget' : r.start.graph.entities.get? usr = some e') :
    ∃ e, prev.saved.graph.entities.get? usr = some e
      ∧ e'.symbolName = e.symbolName ∧ e'.cursorScope = e.cursorScope
      ∧ ∀ f, (e'.placedIn r.saved.files).Holds f ↔ (e.placedIn prev.saved.files).Holds f
        ∧ ¬(prev.planAfter r.seen r.setup.unsaved).Touches f.place := by
  obtain ⟨e, hget, hname, hscope, hgives⟩ := h.gives_start hget'
  refine ⟨e, hget, hname, hscope, fun f => ?_⟩
  rw [holds_placedIn, holds_placedIn]
  constructor
  · rintro ⟨l, hl, hplace⟩
    obtain ⟨hl, houtside⟩ := (hgives l f).mp hl
    rw [h.placedIn_eq hruns hget hl] at hplace
    rw [h.liesIn_iff_touches hruns hget hl, hplace] at houtside
    exact ⟨⟨l, hl, hplace⟩, houtside⟩
  · rintro ⟨⟨l, hl, hplace⟩, houtside⟩
    refine ⟨l, (hgives l f).mpr ⟨hl, ?_⟩, (h.placedIn_eq hruns hget hl).trans hplace⟩
    rwa [h.liesIn_iff_touches hruns hget hl, hplace]

variable (h : prev.Continues r) (hruns : Runs (prev :: earlier))
  (hown : ∀ usr e, prev.placed.get? usr = some e → ∃ f : Finding, f.Own ∧ e.Holds f)

include h hruns hown

theorem exists_own_start (hget' : r.start.graph.entities.get? usr = some e') :
    ∃ f : Finding, f.Own ∧ (e'.placedIn r.saved.files).Holds f := by
  rcases h.stored_or_not_isEmpty hget' with hstored | hfull
  · have hplaced : prev.placed.get? usr = some (e'.placedIn prev.saved.files) := by
      unfold Run.placed
      rw [get?_placedIn, hstored]
      rfl
    obtain ⟨f, hf, hholds⟩ := hown usr _ hplaced
    obtain ⟨l, hl, hplace⟩ := holds_placedIn.mp hholds
    refine ⟨f, hf, holds_placedIn.mpr ⟨l, hl, ?_⟩⟩
    exact (h.placedIn_eq hruns hstored hl).trans hplace
  · obtain ⟨l, f, hf, hl, hplace⟩ := exists_gives_of_not_isEmpty hfull r.saved.files
    exact ⟨f, hf, holds_placedIn.mpr ⟨l, hl, hplace⟩⟩

/-- **What an update keeps** is what lies outside of the changed files. -/
theorem pruned {T : Turnover} (hbefore : T.before = prev.placed)
    (hdirty : T.dirty = (prev.planAfter r.seen r.setup.unsaved).Touches) : T.Pruned r.kept := by
  -- A kept record, and the stored one it is left of.
  have hkept : ∀ {usr e₀}, r.kept.get? usr = some e₀ → ∃ e, T.before.get? usr = some e
      ∧ e₀.naming = e.naming ∧ (∀ f, e₀.Holds f ↔ e.Holds f ∧ ¬T.dirty f.place)
      ∧ ∃ f : Finding, f.Own ∧ e₀.Holds f := by
    intro usr e₀ he₀
    unfold Run.kept at he₀
    rw [get?_placedIn] at he₀
    obtain ⟨e', hget', rfl⟩ := map_eq_some_iff.mp he₀
    obtain ⟨e, hget, hname, hscope, hholds⟩ := h.holds_start hruns hget'
    refine ⟨e.placedIn prev.saved.files, ?_, Prod.ext hname hscope, ?_,
      h.exists_own_start hruns hown hget'⟩
    · rw [hbefore]
      unfold Run.placed
      rw [get?_placedIn, hget]
      rfl
    · rw [hdirty]
      exact hholds
  refine ⟨fun usr => ⟨fun hcontains => ?_, ?_⟩, fun usr e e₀ he he₀ => ?_,
    fun usr e e₀ he he₀ f => ?_⟩
  · obtain ⟨e₀, he₀⟩ := isSome_iff_exists.mp hcontains
    obtain ⟨e, he, -, hholds, f, hf, hf₀⟩ := hkept he₀
    obtain ⟨hf₁, hclean⟩ := (hholds f).mp hf₀
    exact ⟨e, f, he, hf₁, hf, hclean⟩
  · rintro ⟨e, f, he, hf, hown, hclean⟩
    rw [hbefore] at he
    unfold Run.placed at he
    rw [get?_placedIn] at he
    obtain ⟨e, hget, rfl⟩ := map_eq_some_iff.mp he
    obtain ⟨l, hl, hplace⟩ := holds_placedIn.mp hf
    obtain ⟨role, hat, hrole⟩ := exists_at_of_gives hl
    have houtside : ¬prev.saved.files.LiesIn r.dirty l := by
      rw [h.liesIn_iff_touches hruns hget hl, hplace, ← hdirty]
      exact hclean
    obtain ⟨e', hget', -⟩ := h.at_start hget hat (hrole hown) houtside
    unfold Run.kept
    rw [SortedMap.contains, get?_placedIn, hget']
    rfl
  · obtain ⟨e₁, he₁, hname, -⟩ := hkept he₀
    rw [hname, some.inj (he.symm.trans he₁)]
  · obtain ⟨e₁, he₁, -, hholds, -⟩ := hkept he₀
    rw [hholds, some.inj (he.symm.trans he₁)]

end Run.Continues

end SymbolIndex
