import SymbolIndex.Proofs.Numbering
import SymbolIndex.Proofs.Reconcile
import Mathlib.Data.List.Nodup

/-!
# Records without numbers

File numbers are handed out in the order in which files are met, so two graphs that say the same may
number files differently. `placedIn` reads every place of a record through a table and leaves the
file itself, the line and the column: what is left can be compared between graphs with tables of
their own. Graphs that are alike in this sense are reconciled alike.
-/

namespace SymbolIndex

open List Option SortedMap SortedSet

/-- A place in a file, whatever number the file has. -/
structure Place where
  file : Option (List Path.Component)
  line : UInt32
  column : UInt32
deriving DecidableEq

namespace Place

instance : Ord Place where
  compare := compareLex (compareOn file) (compareLex (compareOn line) (compareOn column))

instance : Std.TransOrd Place :=
  inferInstanceAs (Std.TransCmp
    (compareLex (compareOn file) (compareLex (compareOn line) (compareOn column))))

instance : Std.LawfulEqOrd Place where
  eq_of_compare h := congrArg (fun x => Place.mk x.1 x.2.1 x.2.2) (eq_of_compareLex h)

end Place

/-- A location, by the path of its file. -/
def Location.placedIn (t : FileTable) (l : Location) : Place :=
  { file := (t.path? l.file).map Path.components, line := l.line, column := l.column }

def SourcePosition.toPlace (p : SourcePosition) : Place :=
  { file := some p.path.components, line := p.line, column := p.column }

namespace FileTable

variable {t : FileTable} {p q : SourcePosition}

theorem Sound.placedIn_place (h : t.Sound) (hp : t.Knows p) :
    (t.place p).placedIn t = p.toPlace := by
  obtain ⟨id, hid⟩ := hp
  unfold place Location.placedIn SourcePosition.toPlace
  rw [hid, getD_some, h.path?_of_id? hid]

theorem place_congr (h : p.toPlace = q.toPlace) : t.place p = t.place q := by
  obtain ⟨hfile, hline, hcolumn⟩ := Place.mk.inj h
  unfold place
  rw [id?_congr t (some.inj hfile), hline, hcolumn]

theorem Sound.place_eq_iff (h : t.Sound) (hp : t.Knows p) (hq : t.Knows q) :
    t.place p = t.place q ↔ p.toPlace = q.toPlace := by
  refine ⟨fun heq => ?_, place_congr⟩
  rw [← h.placedIn_place hp, ← h.placedIn_place hq, heq]

end FileTable

namespace SortedSet

def image [Ord κ] [Ord υ] [Std.TransOrd υ] (f : κ → υ) (s : SortedSet κ) : SortedSet υ :=
  ofList (s.members.map f)

theorem contains_image [Ord κ] [Std.TransOrd κ] [Std.LawfulEqOrd κ] [Ord υ] [Std.TransOrd υ]
    [Std.LawfulEqOrd υ] (f : κ → υ) (s : SortedSet κ) (y : υ) :
    SortedMap.contains (s.image f) y = true ↔ ∃ x, SortedMap.contains s x = true ∧ f x = y := by
  unfold image
  rw [contains_ofList]
  simp only [List.mem_map, Std.compare_eq_iff_eq, mem_members_iff]
  constructor
  · rintro ⟨_, ⟨x, hx, rfl⟩, rfl⟩
    exact ⟨x, hx, rfl⟩
  · rintro ⟨x, hx, rfl⟩
    exact ⟨_, ⟨x, hx, rfl⟩, rfl⟩

end SortedSet

/-- A record with places instead of numbers of files. -/
structure PlacedEntity where
  symbolName : String := ""
  definition : Option Place := none
  declarations : SortedSet Place := ∅
  extraDeclarations : SortedSet Place := ∅
  references : SortedSet Place := ∅
  superLocation : Option Place := none
  overriddenUsr : Option Usr := none
  subs : SortedSet Place := ∅
  cursorScope : List String := []
deriving DecidableEq

/-- A record, by places. -/
def Entity.placedIn (t : FileTable) (e : Entity) : PlacedEntity where
  symbolName := e.symbolName
  definition := e.definition.map (Location.placedIn t)
  declarations := SortedSet.image (Location.placedIn t) e.declarations
  extraDeclarations := SortedSet.image (Location.placedIn t) e.extraDeclarations
  references := SortedSet.image (Location.placedIn t) e.references
  superLocation := e.superLocation.map (Location.placedIn t)
  overriddenUsr := e.overriddenUsr
  subs := SortedSet.image (Location.placedIn t) e.subs
  cursorScope := e.cursorScope

namespace Graph

variable {g : Graph} {t : FileTable} {usr : Usr} {y : Place}

def placedIn (t : FileTable) (g : Graph) : SortedMap Usr PlacedEntity :=
  g.entities.mapValues (fun _ e => e.placedIn t)

def pendingIn (t : FileTable) (g : Graph) : List (Place × PendingReference) :=
  g.pending.toList.map (fun e => (e.1.placedIn t, e.2))

theorem get?_placedIn (t : FileTable) (g : Graph) (usr : Usr) :
    (g.placedIn t).get? usr = (g.entities.get? usr).map (Entity.placedIn t) :=
  get?_mapValues ..

theorem contains_placedIn (t : FileTable) (g : Graph) (usr : Usr) :
    (g.placedIn t).contains usr = g.entities.contains usr :=
  contains_mapValues ..

/-! ## The report -/

theorem contains_reconcileOne (g : Graph) (report : ReconcileReport)
    (p : Location × PendingReference) (usr : Usr) :
    (reconcileOne (g, report) p).1.entities.contains usr = g.entities.contains usr := by
  unfold SortedMap.contains
  rw [get?_reconcileOne, isSome_map]

theorem targetOf_congr {g' : Graph} (h : ∀ usr, g'.entities.contains usr = g.entities.contains usr)
    (r : PendingReference) : g'.targetOf r = g.targetOf r := by
  unfold targetOf
  simp only [h]

def Target.isSymbol : Target → Bool
  | .symbol _ => true
  | _ => false

def Target.isTemplate : Target → Bool
  | .template _ => true
  | _ => false

/-- How many references go where. -/
def census (g : Graph) (rs : List PendingReference) : ReconcileReport where
  resolved := rs.countP (fun r => (g.targetOf r).isSymbol)
  viaSpecialization := rs.countP (fun r => (g.targetOf r).isTemplate)
  unresolved := rs.countP (fun r => g.targetOf r = .unknown)

theorem report_foldl_reconcileOne (ps : List (Location × PendingReference)) (g : Graph)
    (report : ReconcileReport) :
    (ps.foldl reconcileOne (g, report)).2
      = { resolved := report.resolved + (g.census (ps.map Prod.snd)).resolved
          viaSpecialization :=
            report.viaSpecialization + (g.census (ps.map Prod.snd)).viaSpecialization
          unresolved := report.unresolved + (g.census (ps.map Prod.snd)).unresolved } := by
  induction ps generalizing g report with
  | nil => rfl
  | cons p _ ih =>
    have htarget : ∀ r, (reconcileOne (g, report) p).1.targetOf r = g.targetOf r :=
      targetOf_congr (contains_reconcileOne g report p)
    rw [foldl_cons, ← Prod.eta (reconcileOne (g, report) p), ih]
    unfold census
    simp only [htarget, map_cons, countP_cons]
    unfold reconcileOne
    cases hp : g.targetOf p.2 <;>
      simp only [hp, Target.isSymbol, Target.isTemplate, reduceCtorEq, decide_true, decide_false,
        Bool.false_eq_true, if_true, if_false, ReconcileReport.mk.injEq] <;> omega

theorem report_reconcile (g : Graph) :
    g.reconcile.2 = g.census (g.pending.toList.map Prod.snd) := by
  have h := report_foldl_reconcileOne g.pending.toList g {}
  simp only [Nat.zero_add] at h
  exact h

/-! ## Places that are attached -/

theorem exists_attached_iff : (∃ l ∈ g.attached usr g.pending.toList, l.placedIn t = y)
      ↔ ∃ r, (y, r) ∈ g.pendingIn t ∧ g.owner? r = some usr := by
  unfold pendingIn
  simp only [mem_attached, List.mem_map, Prod.mk.injEq]
  constructor
  · rintro ⟨l, ⟨r, hmem, hr⟩, rfl⟩
    exact ⟨r, ⟨_, hmem, rfl, rfl⟩, hr⟩
  · rintro ⟨_, ⟨⟨l, r⟩, hmem, rfl, rfl⟩, hr⟩
    exact ⟨l, ⟨r, hmem, hr⟩, rfl⟩

theorem exists_overrider_iff : (∃ l ∈ g.overriders usr, l.placedIn t = y)
      ↔ ∃ usr' e, (g.placedIn t).get? usr' = some e
          ∧ e.overriddenUsr = some usr ∧ e.definition = some y := by
  simp only [mem_overriders, get?_placedIn]
  constructor
  · rintro ⟨l, ⟨usr', hmap⟩, rfl⟩
    obtain ⟨e, he, heq⟩ := map_eq_some_iff.mp hmap
    obtain ⟨hover, hdef⟩ := Prod.mk.inj heq
    refine ⟨usr', e.placedIn t, by rw [he]; rfl, hover, ?_⟩
    unfold Entity.placedIn
    rw [hdef]
    rfl
  · rintro ⟨usr', _, hmap, hover, hdef⟩
    obtain ⟨e, he, rfl⟩ := map_eq_some_iff.mp hmap
    obtain ⟨l, hl, hy⟩ := map_eq_some_iff.mp hdef
    refine ⟨l, ⟨usr', ?_⟩, hy⟩
    rw [he, map_some, overrideOf, hl]
    exact congrArg (fun o => some (o, some l)) hover

/-! ## Graphs that are alike -/

/-- Two graphs tell the same, whatever numbers their files have. -/
structure Alike (t t' : FileTable) (g g' : Graph) : Prop where
  entities : g.placedIn t = g'.placedIn t'
  pending : (g.pendingIn t).Perm (g'.pendingIn t')

namespace Alike

variable {t t' : FileTable} {g g' : Graph}

variable (h : Alike t t' g g')

include h

theorem contains_eq (usr : Usr) :
    g'.entities.contains usr = g.entities.contains usr := by
  rw [← contains_placedIn t', ← contains_placedIn t, h.entities]

theorem report_eq : g.reconcile.2 = g'.reconcile.2 := by
  have hrefs : (g.pending.toList.map Prod.snd).Perm (g'.pending.toList.map Prod.snd) := by
    have := h.pending.map Prod.snd
    unfold pendingIn at this
    simpa only [List.map_map, Function.comp_def] using this
  rw [report_reconcile, report_reconcile]
  unfold census
  simp only [targetOf_congr h.contains_eq, hrefs.countP_eq]

theorem attached_eq (usr : Usr) (y : Place) :
    (∃ l ∈ g.attached usr g.pending.toList, l.placedIn t = y)
      ↔ ∃ l ∈ g'.attached usr g'.pending.toList, l.placedIn t' = y := by
  rw [exists_attached_iff, exists_attached_iff]
  simp only [h.pending.mem_iff, owner?_congr h.contains_eq]

theorem overriders_eq (usr : Usr) (y : Place) :
    (∃ l ∈ g.overriders usr, l.placedIn t = y) ↔ ∃ l ∈ g'.overriders usr, l.placedIn t' = y := by
  rw [exists_overrider_iff, exists_overrider_iff, h.entities]

/-- **Graphs that are alike are reconciled alike.** -/
theorem reconcile_placedIn :
    g.reconcile.1.placedIn t = g'.reconcile.1.placedIn t' := by
  refine ext_get? (fun usr => ?_)
  have hget := congrArg (fun m => m.get? usr) h.entities
  simp only [get?_placedIn, get?_reconcile] at hget ⊢
  cases he : g.entities.get? usr with
  | none =>
    rw [he] at hget
    rw [map_eq_none_iff.mp hget.symm]
    rfl
  | some =>
    rw [he] at hget
    obtain ⟨e', he', hplaced⟩ := map_eq_some_iff.mp hget.symm
    rw [he']
    simp only [map_some, Option.some.injEq]
    have hrefs := congrArg PlacedEntity.references hplaced
    unfold Entity.placedIn at hplaced hrefs
    simp only [PlacedEntity.mk.injEq] at hplaced hrefs
    unfold Entity.placedIn reconciled
    simp only [PlacedEntity.mk.injEq]
    obtain ⟨h₁, h₂, h₃, h₄, -, h₆, h₇, -, h₉⟩ := hplaced
    refine ⟨h₁.symm, h₂.symm, h₃.symm, h₄.symm, ?_, h₆.symm, h₇.symm, ?_, h₉.symm⟩
    · refine ext_contains (fun y => Bool.eq_iff_iff.mpr ?_)
      have hold := Bool.eq_iff_iff.mp (congrArg (SortedMap.contains · y) hrefs)
      simp only [contains_image, contains_addAll, Std.compare_eq_iff_eq] at hold ⊢
      have hnew := h.attached_eq usr y
      grind
    · refine ext_contains (fun y => Bool.eq_iff_iff.mpr ?_)
      have hsubs := h.overriders_eq usr y
      simp only [contains_image, contains_ofList, Std.compare_eq_iff_eq]
      grind

end Alike

end Graph

end SymbolIndex
