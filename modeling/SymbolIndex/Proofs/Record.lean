import SymbolIndex.Proofs.Merge

/-!
# What a record holds after operations

Each part of a record has its own rule: the first definition stays, declarations are gathered and
leave out the definition, constructor places are gathered, the first overridden method stays, and
so does the first name that is not empty. The rules are stated part by part, first for one
operation on a record that exists and then for any list of operations.
-/

namespace SymbolIndex

open List

namespace EntityOp

def definition? (place : SourcePosition → Location) : EntityOp → Option Location
  | .declare _ _ _ location true _ _ => some (place location)
  | _ => none

def declaration? (place : SourcePosition → Location) : EntityOp → Option Location
  | .declare _ _ _ location false _ _ => some (place location)
  | _ => none

def extra? (place : SourcePosition → Location) : EntityOp → Option Location
  | .extraDeclaration _ location => some (place location)
  | _ => none

/-- What an operation tells to be overridden. -/
def override? (place : SourcePosition → Location) : EntityOp → Option (Location × Option Usr)
  | .declare _ _ _ _ _ (some base) overriddenUsr => some (place base, overriddenUsr)
  | _ => none

/-- The name that an operation tells. -/
def naming? : EntityOp → Option (String × List String)
  | .declare _ name scope _ _ _ _ => some (name, scope)
  | _ => none

end EntityOp

namespace Entity

variable {e : Entity}

def naming (e : Entity) : String × List String := (e.symbolName, e.cursorScope)

def overriding (e : Entity) : Option (Location × Option Usr) :=
  e.superLocation.map (fun l => (l, e.overriddenUsr))

/-- What every record keeps to: the definition is no declaration, and an overridden method is known
with its place only. -/
structure Proper (e : Entity) : Prop where
  declared : ∀ l, e.definition = some l → e.declarations.contains l = false
  overridden : e.superLocation = none → e.overriddenUsr = none

theorem proper_empty : Proper {} where
  declared := fun _ h => absurd h (by simp)
  overridden := fun _ => rfl

theorem Proper.ext {e' : Entity} (h : e.Proper) (h' : e'.Proper) (hname : e.naming = e'.naming)
    (hdef : e.definition = e'.definition)
    (hdecl : ∀ l, e.declarations.contains l = e'.declarations.contains l)
    (hextra : ∀ l, e.extraDeclarations.contains l = e'.extraDeclarations.contains l)
    (hrefs : ∀ l, e.references.contains l = e'.references.contains l)
    (hover : e.overriding = e'.overriding) (hsubs : ∀ l, e.subs.contains l = e'.subs.contains l) :
    e = e' := by
  have hsuper : e.superLocation = e'.superLocation ∧ e.overriddenUsr = e'.overriddenUsr := by
    unfold overriding at hover
    cases hs : e.superLocation with
    | none =>
      have hs' : e'.superLocation = none := by
        rw [hs] at hover
        exact Option.map_eq_none_iff.mp hover.symm
      exact ⟨hs'.symm, by rw [h.overridden hs, h'.overridden hs']⟩
    | some =>
      rw [hs, Option.map_some] at hover
      obtain ⟨l', hs', heq⟩ := Option.map_eq_some_iff.mp hover.symm
      obtain ⟨rfl, husr⟩ := Prod.mk.inj heq
      exact ⟨hs'.symm, husr.symm⟩
  obtain ⟨hsymbol, hscope⟩ := Prod.mk.inj hname
  rcases e with ⟨_, _, _, _, _, _, _, _, _⟩
  rcases e' with ⟨_, _, _, _, _, _, _, _, _⟩
  simp only at hsymbol hscope hdef hsuper
  rw [mk.injEq]
  exact ⟨hsymbol, hdef, SortedSet.ext_contains hdecl, SortedSet.ext_contains hextra,
    SortedSet.ext_contains hrefs, hsuper.1, hsuper.2, SortedSet.ext_contains hsubs, hscope⟩

/-! ## The parts of a declaration -/

theorem nameOnce_eq (e : Entity) (name : String) (scope : List String) : e.nameOnce name scope
      = { e with symbolName := (e.nameOnce name scope).symbolName
                 cursorScope := (e.nameOnce name scope).cursorScope } := by
  unfold nameOnce
  split <;> rfl

theorem definition_declareAt (e : Entity) (l : Location) (d : Bool) :
    (e.declareAt l d).definition = e.definition.or (if d then some l else none) := by
  unfold declareAt setDefinition addDeclaration
  cases d with
  | true => cases h : e.definition <;> simp [h]
  | false => simp only [Bool.false_eq_true, if_false, Option.or_none]; split <;> rfl

theorem contains_declareAt (h : e.Proper) (l : Location) (d : Bool) (l' : Location) :
    (e.declareAt l d).declarations.contains l' = true
      ↔ (e.declarations.contains l' = true ∨ (d = false ∧ l = l'))
        ∧ (e.declareAt l d).definition ≠ some l' := by
  have hproper := h.declared l'
  rw [definition_declareAt]
  unfold declareAt setDefinition addDeclaration
  cases d <;> cases hd : e.definition <;> grind [SortedSet.contains_add, SortedSet.contains_erase]

/-- A name that is not empty stays; an empty one gives way. -/
def settle (n n' : String × List String) : String × List String := if n.1 = "" then n' else n

section

variable (ns : List (String × List String)) (n : String × List String)

theorem foldl_settle_eq :
    ns.foldl settle n = ((n :: ns).find? (fun n => n.1 ≠ "")).getD (ns.getLast?.getD n) := by
  induction ns generalizing n with
  | nil => by_cases hn : n.1 = "" <;> simp [hn]
  | cons _ _ ih =>
    rw [foldl_cons, ih, settle, getLast?_cons, Option.getD_some]
    by_cases hn : n.1 = "" <;> simp [hn]

theorem foldl_settle_idem :
    ns.foldl settle (ns.foldl settle n) = ns.foldl settle n := by
  rw [foldl_settle_eq ns n]
  cases hfind : (n :: ns).find? (fun n => n.1 ≠ "") with
  | some =>
    have hnamed := find?_some hfind
    rw [Option.getD_some, foldl_settle_eq, find?_cons, hnamed]
    rfl
  | none =>
    have hrest : ns.find? (fun n => n.1 ≠ "") = none := by
      rw [find?_eq_none] at hfind ⊢
      exact fun m hm => hfind m (mem_cons_of_mem n hm)
    rw [Option.getD_none, foldl_settle_eq, find?_cons, hrest]
    cases ns.getLast? with
    | none => split <;> rfl
    | some => split <;> rfl

end

/-! ## One operation -/

/-- A declaration names the symbol, enters the place and then the overridden method; each touches
its own two fields. -/
theorem applyTo_declare (place : SourcePosition → Location) (e : Entity) (usr : Usr)
    (name : String) (scope : List String) (location : SourcePosition) (d : Bool)
    (base : Option SourcePosition) (usr' : Option Usr) :
    (EntityOp.declare usr name scope location d base usr').applyTo place e = { e with
          symbolName := (e.nameOnce name scope).symbolName
          cursorScope := (e.nameOnce name scope).cursorScope
          definition := (e.declareAt (place location) d).definition
          declarations := (e.declareAt (place location) d).declarations
          superLocation := (e.overrideOnce (base.map place) usr').superLocation
          overriddenUsr := (e.overrideOnce (base.map place) usr').overriddenUsr } := by
  show ((e.nameOnce name scope).declareAt (place location) d).overrideOnce (base.map place) usr' = _
  rw [nameOnce_eq]
  generalize (e.nameOnce name scope).symbolName = name'
  generalize (e.nameOnce name scope).cursorScope = scope'
  have hdeclare : ({ e with symbolName := name', cursorScope := scope' } : Entity).declareAt
      (place location) d = { e with
        symbolName := name'
        cursorScope := scope'
        definition := (e.declareAt (place location) d).definition
        declarations := (e.declareAt (place location) d).declarations } := by
    unfold declareAt setDefinition addDeclaration
    split <;> split <;> rfl
  rw [hdeclare]
  unfold overrideOnce
  cases h : e.superLocation <;> cases base <;> simp only [Option.map_none, Option.map_some, h]

section Step

variable (place : SourcePosition → Location) (op : EntityOp) (e : Entity)

theorem references_applyTo : (op.applyTo place e).references = e.references := by
  cases op with
  | declare => rw [applyTo_declare]
  | extraDeclaration | synthesize => rfl

theorem subs_applyTo : (op.applyTo place e).subs = e.subs := by
  cases op with
  | declare => rw [applyTo_declare]
  | extraDeclaration | synthesize => rfl

theorem naming_applyTo : (op.applyTo place e).naming = op.naming?.toList.foldl settle e.naming := by
  cases op with
  | declare =>
    rw [applyTo_declare]
    unfold naming nameOnce
    simp only [EntityOp.naming?, Option.toList_some, foldl_cons, foldl_nil, settle]
    split <;> rfl
  | extraDeclaration | synthesize => rfl

theorem definition_applyTo :
    (op.applyTo place e).definition = e.definition.or (op.definition? place) := by
  cases op with
  | declare _ _ _ _ d =>
    rw [applyTo_declare, definition_declareAt]
    cases d <;> rfl
  | extraDeclaration | synthesize => exact Option.or_none.symm

theorem contains_extra_applyTo (l : Location) :
    (op.applyTo place e).extraDeclarations.contains l = true
      ↔ e.extraDeclarations.contains l = true ∨ op.extra? place = some l := by
  cases op with
  | declare => rw [applyTo_declare]; simp [EntityOp.extra?]
  | extraDeclaration container location =>
    rw [show (EntityOp.extraDeclaration container location).extra? place
      = some (place location) from rfl, Option.some.injEq]
    simp [EntityOp.applyTo, or_comm, eq_comm (a := l)]
  | synthesize => simp [EntityOp.applyTo, EntityOp.extra?]

theorem overriding_applyTo :
    (op.applyTo place e).overriding = e.overriding.or (op.override? place) := by
  cases op with
  | declare _ _ _ _ _ base =>
    rw [applyTo_declare]
    unfold overriding overrideOnce
    cases h : e.superLocation <;> cases base <;> simp [h, EntityOp.override?]
  | extraDeclaration | synthesize => exact Option.or_none.symm

end Step

theorem contains_declarations_applyTo (place : SourcePosition → Location) (op : EntityOp)
    (h : e.Proper) (l : Location) :
    (op.applyTo place e).declarations.contains l = true
      ↔ (e.declarations.contains l = true ∨ op.declaration? place = some l)
        ∧ (op.applyTo place e).definition ≠ some l := by
  have hkept : e.declarations.contains l = true
      ↔ e.declarations.contains l = true ∧ e.definition ≠ some l :=
    ⟨fun hc => ⟨hc, fun hd => absurd hc (by simp [h.declared l hd])⟩, fun hc => hc.1⟩
  cases op with
  | declare _ _ _ _ d =>
    rw [applyTo_declare]
    simp only
    rw [contains_declareAt h]
    cases d <;> simp [EntityOp.declaration?]
  | extraDeclaration | synthesize => simpa [EntityOp.applyTo, EntityOp.declaration?] using hkept

theorem Proper.applyTo (h : e.Proper) (place : SourcePosition → Location) (op : EntityOp) :
    (op.applyTo place e).Proper where
  declared := fun l hl => by
    rw [← Bool.not_eq_true]
    exact fun hc => ((contains_declarations_applyTo place op h l).mp hc).2 hl
  overridden := by
    cases op with
    | declare _ _ _ _ _ base =>
      have hnone := h.overridden
      rw [applyTo_declare]
      unfold overrideOnce
      cases hs : e.superLocation <;> cases base <;> simp [hs, hnone]
    | extraDeclaration | synthesize => exact h.overridden

/-! ## Many operations -/

section Run

variable (place : SourcePosition → Location) (ops : List EntityOp) (e : Entity)

theorem applyAll_cons (op : EntityOp) :
    e.applyAll place (op :: ops) = (op.applyTo place e).applyAll place ops := rfl

theorem references_applyAll : (e.applyAll place ops).references = e.references := by
  induction ops generalizing e with
  | nil => rfl
  | cons _ _ ih => rw [applyAll_cons, ih, references_applyTo]

theorem subs_applyAll : (e.applyAll place ops).subs = e.subs := by
  induction ops generalizing e with
  | nil => rfl
  | cons _ _ ih => rw [applyAll_cons, ih, subs_applyTo]

theorem naming_applyAll :
    (e.applyAll place ops).naming = (ops.filterMap EntityOp.naming?).foldl settle e.naming := by
  induction ops generalizing e with
  | nil => rfl
  | cons op _ ih =>
    rw [applyAll_cons, ih, naming_applyTo, filterMap_cons]
    cases op.naming? <;> rfl

theorem definition_applyAll : (e.applyAll place ops).definition
      = e.definition.or (ops.findSome? (EntityOp.definition? place)) := by
  induction ops generalizing e with
  | nil => exact Option.or_none.symm
  | cons op _ ih =>
    rw [applyAll_cons, ih, definition_applyTo, List.findSome?_cons, Option.or_assoc]
    cases op.definition? place <;> rfl

theorem overriding_applyAll : (e.applyAll place ops).overriding
      = e.overriding.or (ops.findSome? (EntityOp.override? place)) := by
  induction ops generalizing e with
  | nil => exact Option.or_none.symm
  | cons op _ ih =>
    rw [applyAll_cons, ih, overriding_applyTo, List.findSome?_cons, Option.or_assoc]
    cases op.override? place <;> rfl

theorem contains_extra_applyAll (l : Location) :
    (e.applyAll place ops).extraDeclarations.contains l = true
      ↔ e.extraDeclarations.contains l = true ∨ ∃ op ∈ ops, op.extra? place = some l := by
  induction ops generalizing e with
  | nil => simp [applyAll]
  | cons _ _ ih =>
    rw [applyAll_cons, ih, contains_extra_applyTo, or_assoc]
    simp only [List.mem_cons, exists_eq_or_imp]

end Run

theorem Proper.applyAll (h : e.Proper) (place : SourcePosition → Location) (ops : List EntityOp) :
    (e.applyAll place ops).Proper := by
  induction ops generalizing e with
  | nil => exact h
  | cons op _ ih => exact ih (h.applyTo place op)

theorem contains_declarations_applyAll (place : SourcePosition → Location) (ops : List EntityOp)
    (h : e.Proper) (l : Location) :
    (e.applyAll place ops).declarations.contains l = true
      ↔ (e.declarations.contains l = true ∨ ∃ op ∈ ops, op.declaration? place = some l)
        ∧ (e.applyAll place ops).definition ≠ some l := by
  induction ops generalizing e with
  | nil =>
    refine ⟨fun hc => ⟨.inl hc, fun hd => ?_⟩, fun hc => ?_⟩
    · simp [applyAll, h.declared l hd] at hc
    · exact hc.1.elim id (fun ⟨_, hmem, _⟩ => absurd hmem (by simp))
  | cons op rest ih =>
    rw [applyAll_cons, ih (h.applyTo place op), contains_declarations_applyTo place op h]
    simp only [List.mem_cons, exists_eq_or_imp]
    -- a definition that was there stays, so it is the last one too
    have hstays : ((op.applyTo place e).applyAll place rest).definition ≠ some l →
        (op.applyTo place e).definition ≠ some l := by
      intro hne heq
      rw [definition_applyAll, heq] at hne
      exact hne rfl
    grind

end Entity

end SymbolIndex
