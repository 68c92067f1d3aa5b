import SymbolIndex.Job

/-!
# Which keys the order tells apart

File numbers, places and job numbers are equal when the order says so. Paths are not: two paths
that name the same file are equal in the order however they are written, so for them the order
decides `Path.same` and nothing more.
-/

namespace SymbolIndex

instance : Std.LawfulEqOrd FileId where
  eq_of_compare h := congrArg FileId.mk (Std.LawfulEqOrd.eq_of_compare (α := UInt32) h)

instance : Std.LawfulEqOrd JobId where
  eq_of_compare h := congrArg JobId.mk (Std.LawfulEqOrd.eq_of_compare (α := UInt64) h)

theorem eq_of_compareLex {α β γ δ : Type} [Ord β] [Std.LawfulEqOrd β] [Ord γ] [Std.LawfulEqOrd γ]
    [Ord δ] [Std.LawfulEqOrd δ] {f : α → β} {g : α → γ} {k : α → δ} {a b : α}
    (h : compareLex (compareOn f) (compareLex (compareOn g) (compareOn k)) a b = .eq) :
    (f a, g a, k a) = (f b, g b, k b) := by
  obtain ⟨hf, hrest⟩ := compareLex_eq_eq.mp h
  obtain ⟨hg, hk⟩ := compareLex_eq_eq.mp hrest
  have hf : f a = f b := Std.LawfulEqOrd.eq_of_compare hf
  have hg : g a = g b := Std.LawfulEqOrd.eq_of_compare hg
  have hk : k a = k b := Std.LawfulEqOrd.eq_of_compare hk
  rw [hf, hg, hk]

instance : Std.LawfulEqOrd Location where
  eq_of_compare h := congrArg (fun x => Location.mk x.1 x.2.1 x.2.2) (eq_of_compareLex h)

namespace Path

variable {p q : Path}

instance : Std.LawfulEqOrd Component where
  eq_of_compare {a b} h := by
    obtain ⟨hrank, hlabel⟩ := compareLex_eq_eq.mp h
    have h₁ : a.rank = b.rank := Std.LawfulEqOrd.eq_of_compare (α := Nat) hrank
    have h₂ : a.label = b.label := Std.LawfulEqOrd.eq_of_compare (α := String) hlabel
    -- the rank tells the kinds apart, and the label is all a name carries
    cases a <;> cases b <;> simp_all [Component.rank, Component.label]

theorem compare_eq_iff : compare p q = .eq ↔ p.components = q.components :=
  Std.LawfulEqOrd.compare_eq_iff_eq (α := List Component)

theorem compare_eq_iff_same : compare p q = .eq ↔ p.same q = true := by
  rw [compare_eq_iff]
  unfold same
  rw [beq_iff_eq]

end Path

end SymbolIndex
