import SymbolIndex.Proofs.CommandLine

/-!
# Keys of precompiled headers

The one who makes a precompiled header and those who use it find its key on different ways. The
maker joins the directory with the name of the output, suffix and all, and cuts the text before the
first suffix in it; a user joins the directory with the name as it is included. They meet because
joining commutes with appending the suffix (`Path.text_join_append`), and because a suffix whose
first character does not come again in it begins nowhere before the end of what it was appended to
(`charsBefore?_append`).
-/

namespace SymbolIndex

open List

namespace Text

theorem charsBefore?_append {c : Char} {mark cs : List Char} (honce : c ∉ mark)
    (hfree : ¬ c :: mark <:+: cs) : charsBefore? (c :: mark) (cs ++ c :: mark) = some cs := by
  induction cs with
  | nil => simp [charsBefore?]
  | cons d cs ih =>
    have hhere : ¬ c :: mark <+: d :: (cs ++ c :: mark) := by
      rintro ⟨rest, hbegins⟩
      rcases append_eq_append_iff.mp (hbegins.trans (cons_append ..).symm) with
        ⟨bs, hcs, -⟩ | ⟨bs, hmark, hagain⟩
      · exact hfree ⟨[], bs, hcs.symm⟩
      · -- the mark ends in `bs`, with which it also begins
        cases bs with
        | nil => exact hfree ⟨[], [], by simpa using hmark⟩
        | cons =>
          obtain ⟨rfl, -⟩ := List.cons.inj hagain
          exact honce ((List.cons.inj hmark).2 ▸ mem_append_right cs mem_cons_self)
    rw [cons_append, charsBefore?, if_neg (fun h => hhere (List.isPrefixOf_iff_prefix.mp h)),
      ih fun h => hfree (h.trans (suffix_cons d cs).isInfix)]
    rfl

theorem before?_append {mark s : String} {c : Char} {cs : List Char}
    (hmark : mark.toList = c :: cs) (honce : c ∉ cs) (hfree : ¬ mark.toList <:+: s.toList) :
    before? mark (s ++ mark) = some s := by
  unfold before?
  rw [String.toList_append]
  rw [hmark] at hfree ⊢
  rw [charsBefore?_append honce hfree, Option.map_some, String.ofList_toList]

end Text

open Text

namespace CommandLine

variable {value : String} {args : List String} {directory : Path} {explicit : Option Path}

def Piece.isOutput : Piece → Bool
  | .output _ => true
  | _ => false

/-- The last output flag of a line has the value `value`, as an argument of its own or joined to the
flag. The arguments before it are whole pieces: none of them takes the flag for its value. -/
def GivesOutput (value : String) (args : List String) : Prop :=
  ∃ before spelling after, args = before ++ (spelling ++ after)
    ∧ (spelling = ["-o", value] ∨ spelling = ["-o" ++ value])
    ∧ (∀ rest, pieces (before ++ rest) = pieces before ++ pieces rest)
    ∧ ∀ p ∈ pieces after, p.isOutput = false

theorem shape_joinedOutput (hne : value ≠ "") : shape ("-o" ++ value) = .joinedOutput value := by
  have hjoined : after? "-o" ("-o" ++ value) = some value := after?_eq_some_iff.mpr rfl
  have hother : ∀ flag ∈ "-c" :: "-x" :: dependencyFlags ++ dependencyValueFlags,
      "-o" ++ value ≠ flag := by
    rintro flag hflag rfl
    have hnone : ∀ flag ∈ "-c" :: "-x" :: dependencyFlags ++ dependencyValueFlags,
        after? "-o" flag = none := by decide
    cases hjoined.symm.trans (hnone _ hflag)
  have hbare : "-o" ++ value ≠ "-o" := fun h => hne (by simpa using h)
  unfold shape
  rw [if_neg, if_neg, if_neg hbare, if_neg (hother _ (by decide)), hjoined]
  · exact fun h => hother _ (mem_append_right _ h) rfl
  · rintro (h | h)
    · exact hother _ (by decide) h
    · exact hother _ (by simp [h]) rfl

theorem pieces_output (hne : value ≠ "") {spelling : List String}
    (h : spelling = ["-o", value] ∨ spelling = ["-o" ++ value]) (rest : List String) :
    pieces (spelling ++ rest) = .output (some value) :: pieces rest := by
  rcases h with rfl | rfl
  · rfl
  · show pieces (("-o" ++ value) :: rest) = _
    rw [pieces.eq_def]
    simp [shape_joinedOutput hne]

theorem output_foldl_of_none {ps : List Piece} (h : ∀ p ∈ ps, p.isOutput = false) (r : Reading) :
    (ps.foldl (absorb directory explicit) r).output = r.output := by
  induction ps generalizing r with
  | nil => rfl
  | cons p ps ih =>
    rw [foldl_cons, ih fun q hq => h q (mem_cons_of_mem _ hq)]
    cases p with
    | output => cases h _ mem_cons_self
    | dropped | language | joinedLanguage | valued | option => rfl
    | positional =>
      simp only [absorb]
      split
      · split <;> rfl
      · rfl

theorem GivesOutput.output_foldl (h : GivesOutput value args) (hne : value ≠ "") (r : Reading) :
    ((pieces args).foldl (absorb directory explicit) r).output = some (directory.child value) := by
  obtain ⟨before, spelling, after, rfl, hspelling, hbefore, hafter⟩ := h
  rw [hbefore, pieces_output hne hspelling, foldl_append, foldl_cons,
    output_foldl_of_none hafter]
  rfl

end CommandLine

namespace Invocation

open CommandLine

variable {directory : Path} {name compiler : String} {args : List String}
  {file output : Option Path} {header : Invocation}

theorem output_ofCommand {value : String} (hne : value ≠ "")
    (h : ofCommand directory (compiler :: args) file output = .ok header)
    (houtput : output = some ⟨value⟩ ∨ output = none ∧ GivesOutput value args) :
    header.output = some (directory.child value) := by
  simp only [ofCommand] at h
  split at h
  · cases h
  · obtain rfl := Except.ok.inj h
    rcases houtput with rfl | ⟨rfl, hgives⟩
    · rfl
    · exact hgives.output_foldl hne _

theorem headerKey?_of_output (hfree : ¬ ".gch".toList <:+: (directory.child name).text.toList)
    (houtput : header.output = some (directory.child (name ++ ".gch"))) :
    header.headerKey? = some (directory.child name).text := by
  have hjoin : (directory.child (name ++ ".gch")).text = (directory.child name).text ++ ".gch" :=
    Path.text_join_append rfl fun _ => by decide
  unfold headerKey?
  rw [houtput, Option.bind_some, hjoin]
  exact before?_append rfl (by decide) hfree

/-- **The maker of a precompiled header and its users agree on its key.** -/
theorem headerKey?_eq_includedHeaderKey
    (hfree : ¬ ".gch".toList <:+: (directory.child name).text.toList)
    (hheader : ofCommand directory (compiler :: args) file output = .ok header)
    (houtput : output = some ⟨name ++ ".gch"⟩
      ∨ output = none ∧ GivesOutput (name ++ ".gch") args) :
    ∃ key, header.headerKey? = some key ∧ ∀ unit : Invocation, unit.directory = directory →
      (∀ k : Nat, unit.includes[k]? = some name → unit.includedHeaderKeys[k]? = some key)
      ∧ ∀ before values after, Reads "-include" before values →
        unit.arguments = before ++ "-include" :: name :: after →
        unit.includedHeaderKeys[values.length]? = some key := by
  have hne : name ++ ".gch" ≠ "" := by
    intro h
    simpa using congrArg String.toList h
  refine ⟨_, headerKey?_of_output hfree (output_ofCommand hne hheader houtput), ?_⟩
  rintro unit rfl
  have hkeys : ∀ k : Nat, unit.includes[k]? = some name →
      unit.includedHeaderKeys[k]? = some (unit.directory.child name).text := by
    intro k hk
    unfold includedHeaderKeys
    rw [getElem?_map, hk, Option.map_some]
  refine ⟨hkeys, fun before values after hreads harguments => hkeys _ ?_⟩
  unfold includes flagValues
  rw [harguments, hreads]
  show (values ++ flagValuesIn "-include" (["-include", name] ++ after))[values.length]? = _
  rw [reads_own]
  simp

theorem headerKey?_eq_includedHeaderKey_joined :
    let args := ["-x", "c-header", "-o", "old.gch", "-I", "-o", "a.h", "-obuild/./a.h.gch", "-MF",
      "-o"]
    ∃ header unit, ofCommand ⟨"/p"⟩ ("cc" :: args) none none = .ok header
      ∧ ofCommand ⟨"/p"⟩ ["cc", "-D", "A", "-include", "build/./a.h", "a.c"] none none = .ok unit
      ∧ header.headerKey? = some "/p/build/./a.h"
      ∧ unit.includedHeaderKeys[0]? = header.headerKey? := by
  intro args
  have hfree : ¬ ".gch".toList <:+: ((⟨"/p"⟩ : Path).child "build/./a.h").text.toList := by
    decide +kernel
  have hgives : GivesOutput ("build/./a.h" ++ ".gch") args :=
    ⟨["-x", "c-header", "-o", "old.gch", "-I", "-o", "a.h"], ["-obuild/./a.h.gch"], ["-MF", "-o"],
      rfl, .inr (by decide +kernel), fun _ => rfl, by decide +kernel⟩
  refine ⟨_, _, rfl, rfl, by decide +kernel, ?_⟩
  obtain ⟨key, hkey, husers⟩ := @headerKey?_eq_includedHeaderKey ⟨"/p"⟩ "build/./a.h" "cc" args none
    none _ hfree rfl (.inr ⟨rfl, hgives⟩)
  exact ((husers _ rfl).1 0 rfl).trans hkey.symm

end Invocation

end SymbolIndex
