import SymbolIndex.Proofs.Directory
import Mathlib.Data.List.Induction

/-!
# Moving files

A file that is moved or removed is gone from a place or has come to one. `Shifts` says that nothing
else has happened: directories and links are where they were, so every way that led to a directory
leads there still, and a path goes on naming the place that it named.
-/

namespace SymbolIndex

open List

namespace Disk

variable {d d' d'' : Disk} {s old new : Spot} {p source target : Path} {l : LastStep} {e : Entry}
  {touched touched' : Spot → Prop}

/-! ## Files that come and go -/

/-- Some files come and go, and directories and links stay. Only what can be come to counts. -/
structure Shifts (touched : Spot → Prop) (d d' : Disk) : Prop where
  home : d'.workingDirectory = d.workingDirectory
  entries : ∀ s, Standing d s → d'.entryAt? s = d.entryAt? s
    ∨ touched s ∧ ¬ Passable (d.entryAt? s) ∧ ¬ Passable (d'.entryAt? s)

namespace Shifts

theorem refl (touched : Spot → Prop) (d : Disk) : Shifts touched d d := ⟨rfl, fun _ _ => .inl rfl⟩

variable (h : Shifts touched d d')

include h

theorem mono (hsub : ∀ s, touched s → touched' s) : Shifts touched' d d' :=
  ⟨h.home, fun s hs => (h.entries s hs).imp_right (fun ht => ⟨hsub s ht.1, ht.2⟩)⟩

theorem keeps : Keeps d d' := by
  intro s hs hpass
  rcases h.entries s hs with heq | ⟨-, hnot, -⟩
  · exact heq
  · exact absurd hpass hnot

theorem standing_iff (s : Spot) : Standing d' s ↔ Standing d s := by
  constructor
  · -- along the way: what is a directory later was one before
    induction s using List.reverseRecOn with
    | nil => exact fun _ => standing_nil d
    | append_singleton s name ih =>
      intro hs'
      have hs := ih (hs'.of_isPrefix (prefix_append ..))
      have hdir := hs' s (prefix_append ..) (by simp)
      refine hs.child ?_ name
      rcases h.entries s hs with heq | ⟨-, -, hnot⟩
      · rwa [heq] at hdir
      · rw [hdir] at hnot
        exact absurd trivial hnot
  · exact fun hs r hr hne => h.keeps.directory (hs.of_isPrefix hr) (hs r hr hne)

theorem symm : Shifts touched d' d where
  home := h.home.symm
  entries := by
    intro s hs
    rcases h.entries s ((h.standing_iff s).mp hs) with heq | ⟨ht, hnot, hnot'⟩
    · exact .inl heq.symm
    · exact .inr ⟨ht, hnot', hnot⟩

theorem trans (h' : Shifts touched d' d'') : Shifts touched d d'' where
  home := h'.home.trans h.home
  entries := by
    intro s hs
    rcases h.entries s hs with heq | ⟨ht, hnot, hnot'⟩
    · rw [← heq]
      exact h'.entries s ((h.standing_iff s).mpr hs)
    · rcases h'.entries s ((h.standing_iff s).mpr hs) with heq' | ⟨-, -, hnot''⟩
      · rw [heq']
        exact .inr ⟨ht, hnot, hnot'⟩
      · exact .inr ⟨ht, hnot, hnot''⟩

end Shifts

theorem ne_nil_of_not_passable (h : ¬ Passable (d.entryAt? s)) : s ≠ [] := by
  rintro rfl
  exact h trivial

theorem shifts_removeAt (hold : ¬ Passable (d.entryAt? old)) :
    Shifts (fun s => s = old) d (d.removeAt old) := by
  refine ⟨rfl, fun s hs => ?_⟩
  rw [d.entryAt?_removeAt (ne_nil_of_not_passable hold)]
  split
  · next hpre =>
    by_cases heq : old = s
    · exact .inr ⟨heq.symm, heq ▸ hold, fun hpass => hpass⟩
    · rw [hs old hpre heq] at hold
      exact absurd trivial hold
  · exact .inl rfl

theorem shifts_move (he : d.entryAt? old = some e) (hfile : ¬ Passable (some e))
    (hfree : ¬ Passable (d.entryAt? new)) :
    Shifts (fun s => s = old ∨ s = new) d (d.move old new) := by
  rw [← he] at hfile
  have hold := ne_nil_of_not_passable hfile
  have hnew := ne_nil_of_not_passable hfree
  refine ⟨workingDirectory_move d old new, fun s hs => ?_⟩
  by_cases hpre : new <+: s
  · by_cases heq : new = s
    · subst heq
      refine .inr ⟨.inr rfl, hfree, ?_⟩
      rw [entryAt?_move he hold hnew, ← he]
      exact hfile
    · rw [hs new hpre heq] at hfree
      exact absurd trivial hfree
  · rw [entryAt?_move_of_elsewhere hnew hpre]
    exact ((shifts_removeAt hfile).entries s hs).imp_right (fun ht => ⟨.inl ht.1, ht.2⟩)

/-! ## The last step of a way -/

/-- The segments of a path without the slashes at its end, the last one first. -/
def steps (segments : List String) : List String := segments.reverse.dropWhile (· = "")

theorem lastStepFrom_eq_ok_iff {here : Spot} {segments : List String} :
    d.lastStepFrom here segments = .ok l
      ↔ d.walkThrough true maxLinks here (steps segments).tail.reverse = .ok l.directory
        ∧ d.entryAt? l.directory = some .directory ∧ l.name = (steps segments).head?.getD ""
        ∧ l.name.utf8ByteSize ≤ maxName ∧ l.slashes = decide (segments.getLast? = some "") := by
  unfold lastStepFrom steps
  constructor
  · intro h
    obtain ⟨directory, hway, h⟩ := bind_eq_ok_iff.mp h
    dsimp only at h
    split at h
    · next hdirectory =>
      split at h
      · cases h
      · next hshort =>
        cases h
        exact ⟨hway, hdirectory, rfl, Nat.not_lt.mp hshort, rfl⟩
    · cases h
  · rintro ⟨hway, hdirectory, hname, hshort, hslashes⟩
    refine bind_eq_ok_iff.mpr ⟨l.directory, hway, ?_⟩
    dsimp only
    rw [hdirectory, ← hname, ← hslashes]
    exact if_neg (Nat.not_lt.mpr hshort)

theorem exists_slashes {segments front : List String} {name : String}
    (h : steps segments = name :: front) : ∃ slashes, segments = front.reverse ++ name :: slashes
      ∧ (segments.getLast? ≠ some "" → slashes = []) := by
  have hcut : segments.reverse.takeWhile (· = "") ++ steps segments = segments.reverse :=
    takeWhile_append_dropWhile
  rw [h] at hcut
  refine ⟨(segments.reverse.takeWhile (· = "")).reverse, ?_, fun hlast => ?_⟩
  · simpa using (congrArg List.reverse hcut).symm
  · rw [← head?_reverse] at hlast
    cases hreverse : segments.reverse with
    | nil => rfl
    | cons x =>
      rw [hreverse] at hlast
      rw [takeWhile_cons_of_neg (by simpa using hlast)]
      rfl

theorem Shifts.lastStep (h : Shifts touched d d') (hl : d.lastStep p = .ok l) :
    d'.lastStep p = .ok l ∧ Standing d l.spot := by
  obtain ⟨segments, hroute, hl⟩ := bind_eq_ok_iff.mp hl
  obtain ⟨hway, hdirectory, hrest⟩ := lastStepFrom_eq_ok_iff.mp hl
  obtain ⟨hway', hstanding⟩ := h.keeps.walkThrough maxLinks (standing_nil d) hway hdirectory
  have hroute' : d'.route p = .ok segments := by
    unfold route at hroute ⊢
    rwa [h.home]
  refine ⟨bind_eq_ok_iff.mpr ⟨segments, hroute', lastStepFrom_eq_ok_iff.mpr ?_⟩,
    hstanding.child hdirectory l.name⟩
  exact ⟨hway', h.keeps.directory hstanding hdirectory, hrest⟩

/-- How a way ends whose last step leads to nothing, or to what is no link. -/
theorem resolve_of_lastStep (hl : d.lastStep p = .ok l) (hspecial : l.isSpecial = false) :
    (d.entryAt? l.spot = none → d.resolve true p = .error .notFound)
      ∧ (l.slashes = false → d.entryAt? l.spot = some e → ¬ Passable (some e) →
        d.resolve true p = .ok l.spot) := by
  simp only [LastStep.isSpecial, decide_eq_false_iff_not, not_or] at hspecial
  obtain ⟨segments, hroute, hl⟩ := bind_eq_ok_iff.mp hl
  obtain ⟨hway, hdirectory, hname, hshort, hslashes⟩ := lastStepFrom_eq_ok_iff.mp hl
  cases hsteps : steps segments with
  | nil =>
    rw [hsteps] at hname
    exact absurd hname hspecial.1
  | cons name front =>
    rw [hsteps] at hway hname
    obtain rfl : l.name = name := hname
    obtain ⟨slashes, rfl, hnone⟩ := exists_slashes hsteps
    obtain ⟨left, hleft⟩ := d.walkThrough_append maxLinks [] front.reverse
    have hresolve : d.resolve true p = d.walkThrough true left l.directory (l.name :: slashes) := by
      unfold resolve
      rw [hroute]
      show d.walkThrough true maxLinks [] (front.reverse ++ l.name :: slashes) = _
      rw [hleft, show d.walkThrough true maxLinks [] front.reverse = _ from hway]
      rfl
    rw [hresolve, walkThrough_eq, walk, hdirectory]
    simp only [if_neg (not_or.mpr ⟨hspecial.1, hspecial.2.1⟩), if_neg hspecial.2.2,
      if_neg (Nat.not_lt.mpr hshort)]
    refine ⟨fun hentry => ?_, fun hslashes' hentry hfile => ?_⟩
    · rw [show d.entryAt? (l.directory ++ [l.name]) = none from hentry]
      rfl
    · rw [hslashes', eq_comm, decide_eq_false_iff_not] at hslashes
      rw [hnone hslashes, show d.entryAt? (l.directory ++ [l.name]) = some e from hentry]
      cases e with
      | link | directory => exact absurd trivial hfile
      | file => rfl

theorem read_of_lastStep (hl : d.lastStep p = .ok l) (hspecial : l.isSpecial = false)
    (hslashes : l.slashes = false) {content : ByteArray} {modified : Int} {executable : Bool}
    (he : d.entryAt? l.spot = some (.file content modified executable)) :
    d.read p = .ok content := by
  have hresolve := (resolve_of_lastStep hl hspecial).2 hslashes he (fun hpass => hpass)
  unfold read stat
  rw [hresolve]
  simp [bind, Except.bind, he, pure, Except.pure]

theorem tryDirectories_of_isDirectory (h : d.isDirectory p = true) : d.tryDirectories p = d := by
  have hensure : d.ensureDirectory p = (d, none) := by
    unfold ensureDirectory
    split
    · next hmade =>
      obtain ⟨spot, hplace, hmade⟩ := bind_eq_ok_iff.mp hmade
      obtain ⟨l, hl, hplace⟩ := bind_eq_ok_iff.mp hplace
      split at hplace
      · cases hplace
      · next hspecial =>
        cases hplace
        split at hmade
        · cases hmade
        · next hnone =>
          -- the path would lead nowhere
          have hresolve := (resolve_of_lastStep (e := .directory) hl (by simpa using hspecial)).1 hnone
          simp [isDirectory, stat, hresolve, bind, Except.bind] at h
    · rw [h]
      rfl
  obtain ⟨above, habove⟩ : ∃ above, ancestors (p.text.length + 1) p = p :: above := by
    unfold ancestors
    cases p.parent? with
    | none | some => exact ⟨_, rfl⟩
  unfold tryDirectories
  rw [habove, createChain, hensure]
  split <;> rfl

/-! ## What was there before -/

namespace Grown

theorem entry (h : Grown d d') (he : d.entryAt? s = some e) : d'.entryAt? s = some e := by
  rcases h.entries s with heq | ⟨hnone, -⟩
  · rw [heq, he]
  · rw [hnone] at he
    cases he

theorem walk (h : Grown d d') {here : Spot} {segments : List String} {stop : Stop}
    (hwalk : d.walk true here segments = .ok stop) : d'.walk true here segments = .ok stop := by
  induction segments generalizing here with
  | nil => exact hwalk
  | cons segment rest ih =>
    rw [Disk.walk] at hwalk ⊢
    cases hhere : d.entryAt? here with
    | none => simp [hhere] at hwalk
    | some e =>
      cases hnext : d.entryAt? (here ++ [segment]) <;> grind [Grown.entry]

theorem read (h : Grown d d') {content : ByteArray} (hread : d.read p = .ok content) :
    d'.read p = .ok content := by
  obtain ⟨e, hstat, hread⟩ := bind_eq_ok_iff.mp hread
  obtain ⟨spot, hresolve, hentry⟩ := bind_eq_ok_iff.mp hstat
  obtain ⟨segments, hroute, hway⟩ := bind_eq_ok_iff.mp hresolve
  have hroute' : d'.route p = .ok segments := by
    unfold route at hroute ⊢
    rwa [h.home]
  have hway' := walkThrough_of_walk (P := fun _ => True) (Q := fun _ => True) trivial
    (fun _ hwalk _ => ⟨h.walk hwalk, trivial⟩) maxLinks trivial hway trivial
  have hresolve' : d'.resolve true p = .ok spot :=
    bind_eq_ok_iff.mpr ⟨segments, hroute', hway'.1⟩
  refine bind_eq_ok_iff.mpr ⟨e, bind_eq_ok_iff.mpr ⟨spot, hresolve', ?_⟩, hread⟩
  split at hentry
  · next he =>
    rw [h.entry he]
    exact hentry
  · cases hentry

end Grown

end Disk

end SymbolIndex
