import SymbolIndex.Proofs.MergeOrder
import Mathlib.Algebra.Group.Nat.Defs

/-!
# The closed form of a merge

What a merge makes of an empty graph, read off the reports without going through them one by one.
Each part of a record has a rule of its own: the first definition, the set of declarations without
it, the set of constructor places, the first overridden method, the first name that is not empty. A
template parameter brings a name and a definition when it is the first to be met, and nothing
otherwise. At each place the first reference waits.

A merge stops only when the numbers of files are used up, and one report takes two numbers at most.
-/

namespace SymbolIndex

open List Nat

open EntityOp (on)

namespace FileTable

/-! ## Numbers that are used up -/

/-- A step that hands out at most `n` numbers, and stops only when there are not so many left. -/
def Spends (n : Nat) (t : FileTable) : Except Overflow (α × FileTable) → Prop
  | .ok r => r.2.lastId.toNat ≤ t.lastId.toNat + n
  | .error _ => 2 ^ 32 ≤ t.lastId.toNat + n

theorem Spends.bind {n m : Nat} {t : FileTable} {x : Except Overflow (α × FileTable)}
    {f : α × FileTable → Except Overflow (β × FileTable)} (h : t.Spends n x)
    (hf : ∀ r : α × FileTable, r.2.Spends m (f r)) : t.Spends (n + m) (x >>= f) := by
  cases x with
  | error => exact le_trans h (by omega)
  | ok r =>
    have hfirst : r.2.lastId.toNat ≤ t.lastId.toNat + n := h
    have hnext := hf r
    show t.Spends (n + m) (f r)
    cases hx : f r with
    | error =>
      have hstop : 2 ^ 32 ≤ r.2.lastId.toNat + m := by rwa [hx] at hnext
      show 2 ^ 32 ≤ t.lastId.toNat + (n + m)
      omega
    | ok r' =>
      have hlast : r'.2.lastId.toNat ≤ r.2.lastId.toNat + m := by rwa [hx] at hnext
      show r'.2.lastId.toNat ≤ t.lastId.toNat + (n + m)
      omega

theorem spends_pure (n : Nat) (t : FileTable) (a : α) : t.Spends n (.ok (a, t)) :=
  Nat.le_add_right ..

theorem spends_intern (t : FileTable) (p : Path) : t.Spends 1 (t.intern p) := by
  unfold intern
  split
  · exact spends_pure 1 t _
  · cases hlast : checkedSucc t.lastId with
    | ok => exact le_of_eq (toNat_of_checkedSucc hlast)
    | error =>
      unfold checkedSucc at hlast
      split at hlast
      · next heq =>
        show 2 ^ 32 ≤ t.lastId.toNat + 1
        rw [heq]
        decide
      · cases hlast

theorem spends_location (t : FileTable) (p : SourcePosition) : t.Spends 1 (t.location p) :=
  (spends_intern t p.path).bind (m := 0) (fun r => spends_pure 0 r.2 _)

end FileTable

namespace Graph

open FileTable

theorem spends_applyOp (g : Graph) (t : FileTable) (op : EntityOp) :
    t.Spends 2 (g.applyOp t op) := by
  cases op with
  | declare _ _ _ location =>
    rw [applyOp_declare]
    refine (spends_location t location).bind (m := 1) (fun r => ?_)
    unfold storeOverride
    split
    · exact (spends_location r.2 _).bind (m := 0) (fun r' => spends_pure 0 r'.2 _)
    · exact spends_pure 1 r.2 _
  | extraDeclaration _ location =>
    exact (spends_location t location).bind (m := 1) (fun r => spends_pure 1 r.2 _)
  | synthesize _ _ definition =>
    refine (spends_location t definition).bind (m := 1) (fun r => ?_)
    simp only
    split <;> exact spends_pure 1 r.2 _

theorem spends_applyOps (ops : List EntityOp) (g : Graph) (t : FileTable) :
    t.Spends (2 * ops.length) (g.applyOps t ops) := by
  induction ops generalizing g t with
  | nil => exact spends_pure 0 t g
  | cons op _ ih =>
    rw [length_cons, mul_succ, add_comm]
    exact (g.spends_applyOp t op).bind (fun r => ih r.1 r.2)

theorem spends_addPending (ps : List (SourcePosition × PendingReference)) (g : Graph)
    (t : FileTable) : t.Spends ps.length (g.addPending t ps) := by
  induction ps generalizing g t with
  | nil => exact spends_pure 0 t g
  | cons p _ ih =>
    rw [length_cons, add_comm]
    exact (spends_location t p.1).bind (fun r => ih _ r.2)

theorem spends_merge (c : Contribution) (g : Graph) (t : FileTable) :
    t.Spends (2 * c.ops.length + c.pending.toList.length) (g.merge t c) :=
  (spends_applyOps c.ops g t).bind (fun r => spends_addPending _ r.1 r.2)

theorem spends_mergeAll (cs : List Contribution) (g : Graph) (t : FileTable) :
    t.Spends (2 * (opsOf cs).length + (pendingOf cs).length) (g.mergeAll t cs) := by
  induction cs generalizing g t with
  | nil => exact spends_pure 0 t g
  | cons c rest ih =>
    have hsum : 2 * (opsOf (c :: rest)).length + (pendingOf (c :: rest)).length
        = 2 * c.ops.length + c.pending.toList.length
          + (2 * (opsOf rest).length + (pendingOf rest).length) := by
      simp only [opsOf, pendingOf, flatMap_cons, length_append]
      omega
    rw [hsum]
    exact (spends_merge c g t).bind (fun r => ih r.1 r.2)

end Graph

/-! ## The parts of a record -/

namespace EntityOp

/-- The template parameter, if operations start with one. -/
def parameterFirst? : List EntityOp → Option (String × SourcePosition × List String)
  | .synthesize _ name definition scope :: _ => some (name, definition, scope)
  | _ => none

def namings (ops : List EntityOp) : List (String × List String) :=
  (parameterFirst? ops).toList.map (fun p => (p.1, p.2.2)) ++ ops.filterMap naming?

end EntityOp

namespace Entity

/-- The record that operations on a symbol make, in merge order: `place` gives the stored form of a
position. When all names are empty the scope is the last one given. -/
structure Sums (place : SourcePosition → Location) (ops : List EntityOp) (e : Entity) : Prop where
  definition : e.definition = match EntityOp.parameterFirst? ops with
    | some parameter => some (place parameter.2.1)
    | none => ops.findSome? (EntityOp.definition? place)
  declarations : ∀ l, e.declarations.contains l = true
    ↔ (∃ op ∈ ops, op.declaration? place = some l) ∧ e.definition ≠ some l
  extraDeclarations : ∀ l, e.extraDeclarations.contains l = true
    ↔ ∃ op ∈ ops, op.extra? place = some l
  superLocation : e.superLocation = (ops.findSome? (EntityOp.override? place)).map Prod.fst
  overriddenUsr : e.overriddenUsr = (ops.findSome? (EntityOp.override? place)).bind Prod.snd
  naming : (e.symbolName, e.cursorScope)
    = ((EntityOp.namings ops).find? (fun n => n.1 ≠ "")).getD
        ((EntityOp.namings ops).getLast?.getD ("", []))
  references : e.references = ∅
  subs : e.subs = ∅

theorem sums_applyAll (place : SourcePosition → Location) (op : EntityOp) (rest : List EntityOp) :
    ((op.seed place).applyAll place (op :: rest)).Sums place (op :: rest) := by
  have hproper := proper_seed place op
  have hover := overriding_applyAll place (op :: rest) (op.seed place)
  rw [EntityOp.overriding_seed, Option.none_or] at hover
  have hnaming := naming_applyAll place (op :: rest) (op.seed place)
  rw [foldl_settle_eq] at hnaming
  refine ⟨?_, fun l => ?_, fun l => ?_, ?_, ?_, hnaming.trans ?_, ?_, ?_⟩
  · rw [definition_applyAll]
    cases op <;> simp [EntityOp.seed, EntityOp.parameterFirst?]
  · rw [contains_declarations_applyAll place _ hproper]
    cases op <;> simp [EntityOp.seed]
  · rw [contains_extra_applyAll]
    cases op <;> simp [EntityOp.seed]
  · rw [← hover, overriding, Option.map_map]
    simp [Function.comp_def]
  · rw [(hproper.applyAll place _).overriddenUsr_eq, hover]
  · cases op <;> simp [EntityOp.seed, EntityOp.namings, EntityOp.parameterFirst?, Entity.naming,
      EntityOp.naming?, getLast?_cons]
  · rw [references_applyAll]
    cases op <;> rfl
  · rw [subs_applyAll]
    cases op <;> rfl

end Entity

namespace Graph

theorem sums_of_mergeAll {cs : List Contribution} {files t : FileTable} {g : Graph}
    (h : ({} : Graph).mergeAll files cs = .ok (g, t)) (usr : Usr) :
    (g.entities.contains usr = true ↔ ∃ op ∈ opsOf cs, op.target = usr)
      ∧ ∀ e, g.entities.get? usr = some e → e.Sums t.place (on usr (opsOf cs)) := by
  have hget : g.entities.get? usr = EntityOp.actAll t.place (on usr (opsOf cs)) none :=
    ((mergeAll_spec h).2 t (.refl t)).1 usr
  have hmem : (∃ op ∈ opsOf cs, op.target = usr) ↔ on usr (opsOf cs) ≠ [] := by
    simp [on, filter_eq_nil_iff]
  rw [hmem]
  unfold SortedMap.contains
  rw [hget]
  cases hops : on usr (opsOf cs) with
  | nil => simp [EntityOp.actAll]
  | cons op rest =>
    rw [EntityOp.actAll_none]
    refine ⟨by simp, fun e he => ?_⟩
    rw [← Option.some.inj he]
    exact Entity.sums_applyAll t.place op rest

/-- **The closed form of a merge into an empty graph.** A symbol has a record when an operation
names it, and the record is what the operations on the symbol sum up to; the reference at a place is
the first that was reported there. Places are read off the table at the end, which numbers the file
of every position that is stored. A merge stops only when the numbers do not suffice. -/
theorem merge_closed_form (files : FileTable) (cs : List Contribution) :
    (∃ g t, ({} : Graph).mergeAll files cs = .ok (g, t)
        ∧ (∀ usr, (g.entities.contains usr = true ↔ ∃ op ∈ opsOf cs, op.target = usr)
            ∧ ∀ e, g.entities.get? usr = some e → e.Sums t.place (EntityOp.on usr (opsOf cs)))
        ∧ (∀ l, g.pending.get? l = firstAt t.place l (pendingOf cs))
        ∧ (∀ op ∈ opsOf cs, t.Knows op.position)
        ∧ (∀ usr base, (EntityOp.on usr (opsOf cs)).findSome? EntityOp.base? = some base →
            t.Knows base)
        ∧ ∀ e ∈ pendingOf cs, t.Knows e.1)
      ∨ (({} : Graph).mergeAll files cs = .error .overflow
        ∧ 2 ^ 32 ≤ files.lastId.toNat + (2 * (opsOf cs).length + (pendingOf cs).length)) := by
  have hspends := spends_mergeAll cs {} files
  cases hrun : ({} : Graph).mergeAll files cs with
  | error =>
    rw [hrun] at hspends
    exact .inr ⟨rfl, hspends⟩
  | ok r =>
    obtain ⟨g, t⟩ := r
    obtain ⟨hbase, hops, hplaces⟩ := KnowsBase.mergeAll hrun (.refl t)
    refine .inl ⟨g, t, rfl, sums_of_mergeAll hrun, fun l => ?_, hops,
      fun usr base => hbase usr rfl base, hplaces⟩
    rw [((mergeAll_spec hrun).2 t (.refl t)).2 l]
    rfl

end Graph

end SymbolIndex
