import SymbolIndex.Proofs.StoredForm
import SymbolIndex.Scheduler.Basic

/-!
# Results that travel

A worker sends what it has made of a unit as a document, and the document is read back as it was:
every operation with its kind, the references that wait as pairs of a place and a name, the times of
the dependencies, the unit itself. Places are compared by what their paths name, but a map holds
only one place of those that are equal, so the pairs that are sent are pairwise different and none
is lost when they are put together again.
-/

namespace SymbolIndex

open Json List

namespace Json

theorem areReadable_of_forall {items : List Json} (h : ∀ j ∈ items, j.isReadable = true) :
    areReadable items = true := by
  induction items with
  | nil => rfl
  | cons j _ ih =>
    rw [areReadable, h j mem_cons_self, ih (fun j' hj' => h j' (mem_cons_of_mem _ hj'))]
    rfl

theorem membersAreReadable_of_forall {members : List (String × Json)}
    (h : ∀ m ∈ members, m.2.isReadable = true) : membersAreReadable members = true := by
  induction members with
  | nil => rfl
  | cons m _ ih =>
    rw [membersAreReadable, h m mem_cons_self, ih (fun m' hm' => h m' (mem_cons_of_mem _ hm'))]
    rfl

theorem Fits.isReadable {depth : Nat} {j : Json} (h : Fits depth j) : j.isReadable = true := by
  induction h with
  | null | bool | int | str => rfl
  | arr _ ih => exact areReadable_of_forall ih
  | obj _ ih => exact membersAreReadable_of_forall ih

end Json

theorem SourcePosition.faithful : Json.Faithful 1 encode decode? where
  fits := fun p => .obj (by
    simp only [forall_mem_cons]
    exact ⟨.str _, faithful_uint32.fits _, faithful_uint32.fits _, nofun⟩)
  reads := fun p => by
    unfold SourcePosition.encode SourcePosition.decode?
    simp [Json.record?, Json.uniqueMember?, Json.required, Path.faithful.reads,
      faithful_uint32.reads]

theorem PendingReference.faithful : Json.Faithful 1 encode decode? where
  fits := fun r => .obj (by
    simp only [forall_mem_cons]
    exact ⟨.str _, fits_ofOption faithful_str _, nofun⟩)
  reads := fun r => by
    unfold PendingReference.encode PendingReference.decode?
    simp [Json.record?, Json.uniqueMember?, Json.required, faithful_str.reads,
      reads_optional faithful_str (by simp)]

namespace EntityOp

theorem fits_encode (op : EntityOp) : Json.Fits 2 op.encode := by
  cases op with
  | declare =>
    refine .obj ?_
    simp only [forall_mem_cons]
    exact ⟨.str _, .str _, .str _, faithful_str.list.fits _, SourcePosition.faithful.fits _,
      .bool _, fits_ofOption SourcePosition.faithful _,
      (fits_ofOption faithful_str _).mono (by omega), nofun⟩
  | extraDeclaration =>
    refine .obj ?_
    simp only [forall_mem_cons]
    exact ⟨.str _, .str _, SourcePosition.faithful.fits _, nofun⟩
  | synthesize =>
    refine .obj ?_
    simp only [forall_mem_cons]
    exact ⟨.str _, .str _, .str _, SourcePosition.faithful.fits _, faithful_str.list.fits _, nofun⟩

theorem faithful : Json.Faithful 2 encode decode? where
  fits := fits_encode
  reads := fun op => by
    have hreadable := op.fits_encode.isReadable
    have hoption := fun o =>
      reads_optional SourcePosition.faithful (by simp [SourcePosition.encode]) o
    have hname := fun o => reads_optional faithful_str (by simp) o
    unfold decode? Json.tagged?
    rw [hreadable, if_pos rfl]
    cases op with
    | declare =>
      simp [encode, Json.record?, Json.uniqueMember?, Json.required, declareFields, hoption, hname,
        SourcePosition.faithful.reads, faithful_str.reads, faithful_str.list.reads,
        faithful_bool.reads]
    | extraDeclaration =>
      simp [encode, Json.record?, Json.uniqueMember?, Json.required, SourcePosition.faithful.reads,
        faithful_str.reads]
    | synthesize =>
      simp [encode, Json.record?, Json.uniqueMember?, Json.required, SourcePosition.faithful.reads,
        faithful_str.reads, faithful_str.list.reads]

end EntityOp

namespace Contribution

theorem faithful_pair : Json.Faithful 2 encodePair decodePair? where
  fits := fun e => .arr (by
    simp only [forall_mem_cons]
    exact ⟨SourcePosition.faithful.fits _, PendingReference.faithful.fits _, nofun⟩)
  reads := fun e => by
    unfold encodePair decodePair?
    simp [SourcePosition.faithful.reads, PendingReference.faithful.reads]

/-- **What a unit contributes is read back as it was.** -/
theorem faithful : Json.Faithful 4 encode decode? where
  fits := fun c => .obj (by
    simp only [forall_mem_cons]
    exact ⟨EntityOp.faithful.list.fits _, faithful_pair.list.fits _,
      ((Path.faithful_map faithful_uint64).fits _).mono (by omega), .bool _, nofun⟩)
  reads := fun c => by
    unfold encode decode?
    simp [Json.record?, Json.uniqueMember?, Json.required, EntityOp.faithful.list.reads,
      faithful_pair.list.reads, (Path.faithful_map faithful_uint64).reads,
      faithful_bool.reads, SortedMap.collect_toList]

end Contribution

/-- **The result of a unit is read back as it was.** -/
theorem UnitResult.faithful : Json.Faithful 5 encode decode? where
  fits := fun r => .obj (by
    simp only [forall_mem_cons]
    exact ⟨(Invocation.faithful.fits _).mono (by omega), Contribution.faithful.fits _,
      (Source.faithful.fits _).mono (by omega), nofun⟩)
  reads := fun r => by
    unfold UnitResult.encode UnitResult.decode?
    simp [Json.record?, Json.uniqueMember?, Json.required, Invocation.faithful.reads,
      Contribution.faithful.reads, Source.faithful.reads]

end SymbolIndex
