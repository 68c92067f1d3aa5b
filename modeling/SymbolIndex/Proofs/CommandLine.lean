import SymbolIndex.Invocation.CommandLine
import SymbolIndex.Proofs.Lookup
import Mathlib.Data.List.Basic

/-!
# Command lines

A command line is read piece by piece, and an invocation keeps the arguments of some of the pieces.
Two things are asked of what it keeps.

Read again it gives the same invocation (`Invocation.ofCommand_kept`): what is kept of a piece is
cut into that piece again (`Scanned.pieces_kept`), and a piece of which nothing is kept had nothing
to say but the output (`foldl_filter_kept`).

A query for the values of a flag goes through it argument by argument, without regard to what the
pieces were. `Reads` says what a query has read where no flag waits for its value, and
`flagValuesIn_foldl` follows it along the pieces. It finds the values that the pieces gave to the
flag, and on top of them every value of another flag that begins with this one.
-/

namespace SymbolIndex

open List Option

theorem Text.after?_eq_some_iff {start s value : String} :
    after? start s = some value ↔ s = start ++ value := by
  unfold after?
  rw [map_eq_some_iff, ← String.toList_inj, String.toList_append]
  constructor
  · rintro ⟨cs, hcs, rfl⟩
    rw [String.toList_ofList, isPrefixOf?_eq_some_iff_append_eq.mp hcs]
  · exact fun h => ⟨_, isPrefixOf?_eq_some_iff_append_eq.mpr h.symm, String.ofList_toList⟩

theorem Path.join_join {p : Path} (h : p.isAbsolute = true) (q : Path) :
    p.join (p.join q) = p.join q := if_pos (isAbsolute_child h q.text)

open Text

namespace CommandLine

/-! ## The pieces of a line -/

/-- An argument has a shape. -/
def Shape.Fits (arg : String) : Shape → Prop
  | .language => arg = "-x"
  | .joinedLanguage value => arg = "-x" ++ value ∧ arg ≠ "-x"
  | .valued => arg ∈ valueFlags ∧ arg ≠ "-x"
  | .option => arg ∉ valueFlags ∧ after? "-x" arg = none
  | .positional => after? "-" arg = none
  | .ignored | .ignoredWithValue | .output | .joinedOutput _ => True

theorem Shape.fits_of {arg : String} {s : Shape} (h : shape arg = s) : s.Fits arg := by
  subst h
  unfold shape
  split
  · trivial
  split
  · trivial
  split
  · trivial
  split
  · assumption
  next hx =>
  split
  · trivial
  split
  · exact ⟨‹_›, hx⟩
  next hvalued =>
  split
  · next hjoined => exact ⟨after?_eq_some_iff.mp hjoined, hx⟩
  next hjoined =>
  split
  · exact ⟨hvalued, hjoined⟩
  · next hfile => simpa [Fits] using hfile

namespace Piece

def Proper : Piece → Prop
  | .valued flag _ => shape flag = .valued
  | .joinedLanguage value => shape ("-x" ++ value) = .joinedLanguage value
  | .option arg => shape arg = .option
  | .positional arg => shape arg = .positional
  | .dropped _ | .output _ | .language _ => True

def isOpen : Piece → Bool
  | .valued _ none => true
  | _ => false

/-- What stays of a piece in the arguments of a unit. -/
def kept (directory input : Path) : Piece → List String
  | .dropped _ | .output _ => []
  | .language value => ["-x", value]
  | .joinedLanguage value => ["-x" ++ value]
  | .valued flag value => flag :: value.toList
  | .option arg => [arg]
  | .positional arg => if input.same (directory.child arg) then [] else [arg]

end Piece

/-- What a scan gives: proper pieces, of which only the last may be open. -/
inductive Scanned : List Piece → Prop where
  | nil : Scanned []
  | cons {p : Piece} {ps : List Piece} (hproper : p.Proper) (hopen : p.isOpen = true → ps = [])
      (hrest : Scanned ps) : Scanned (p :: ps)

variable {directory input : Path} {flag : String} {r : Reading} {p : Piece} {ps : List Piece}

theorem scanned_pieces (args : List String) : Scanned (pieces args) := by
  fun_induction pieces args with
  | case1 => exact .nil
  | case3 | case5 | case8 => exact .cons trivial (fun h => by cases h) .nil
  | case2 _ _ _ ih | case4 _ _ _ _ ih | case6 _ _ _ _ ih | case7 _ _ _ _ ih | case9 _ _ _ _ ih =>
    exact .cons trivial (fun h => by cases h) ih
  | case10 _ _ _ hshape ih =>
    obtain ⟨rfl, -⟩ := Shape.fits_of hshape
    exact .cons hshape (fun h => by cases h) ih
  | case11 _ hshape => exact .cons hshape (fun _ => rfl) .nil
  | case12 _ hshape _ _ ih | case13 _ _ hshape ih | case14 _ _ hshape ih =>
    exact .cons hshape (fun h => by cases h) ih

/-! ## Reading a line again -/

theorem pieces_kept_append (hproper : p.Proper) {rest : List String}
    (hopen : p.isOpen = true → rest = []) :
    pieces (p.kept directory input ++ rest)
      = if p.kept directory input = [] then pieces rest else p :: pieces rest := by
  cases p with
  | dropped | output | language => rfl
  | joinedLanguage value =>
    have hshape : shape ("-x" ++ value) = _ := hproper
    show pieces (("-x" ++ value) :: rest) = _
    rw [pieces.eq_def]
    simp [hshape, Piece.kept]
  | valued flag value =>
    have hshape : shape flag = _ := hproper
    cases value with
    | none =>
      rw [hopen rfl, append_nil]
      simp [Piece.kept, pieces, hshape]
    | some => simp [Piece.kept, pieces, hshape]
  | option arg =>
    have hshape : shape arg = _ := hproper
    show pieces (arg :: rest) = _
    rw [pieces.eq_def]
    simp [hshape, Piece.kept]
  | positional arg =>
    have hshape : shape arg = _ := hproper
    simp only [Piece.kept]
    split
    · rfl
    · show pieces (arg :: rest) = _
      rw [pieces.eq_def]
      simp [hshape]

theorem Scanned.pieces_kept (h : Scanned ps) :
    pieces (ps.flatMap (Piece.kept directory input))
      = ps.filter (fun p => p.kept directory input ≠ []) := by
  induction h with
  | nil => rfl
  | @cons p ps hproper hopen _ ih =>
    rw [flatMap_cons, pieces_kept_append hproper (fun h => by rw [hopen h]; rfl), ih]
    split <;> simp [*]

theorem arguments_foldl (directory input : Path) (ps : List Piece) (r : Reading) :
    (ps.foldl (absorb directory (some input)) r).arguments
      = r.arguments ++ ps.flatMap (Piece.kept directory input) := by
  induction ps generalizing r with
  | nil => simp
  | cons p ps ih =>
    rw [foldl_cons, ih, flatMap_cons, ← append_assoc]
    congr 1
    cases p with
    | dropped | output => exact (append_nil _).symm
    | language | joinedLanguage | valued | option => rfl
    | positional =>
      simp only [absorb, Piece.kept]
      split <;> simp

theorem foldl_filter_kept (directory input : Path) (ps : List Piece) (r : Reading) :
    (ps.filter (fun p => p.kept directory input ≠ [])).foldl (absorb directory (some input))
        { r with output := none }
      = { ps.foldl (absorb directory (some input)) r with output := none } := by
  induction ps generalizing r with
  | nil => rfl
  | cons p ps ih =>
    rw [foldl_cons, ← ih, filter_cons]
    cases p with
    | dropped | output | language | joinedLanguage | valued | option => rfl
    | positional =>
      -- the input is left out, and it told nothing
      simp only [Piece.kept, absorb]
      split <;> simp [*, absorb]

theorem join_output_foldl (habsolute : directory.isAbsolute = true) (explicit : Option Path)
    (ps : List Piece) {r : Reading} (h : ∀ q, r.output = some q → directory.join q = q) (q : Path)
    (hq : (ps.foldl (absorb directory explicit) r).output = some q) : directory.join q = q := by
  induction ps generalizing r with
  | nil => exact h q hq
  | cons p ps ih =>
    refine ih ?_ hq
    cases p with
    | dropped | language | joinedLanguage | valued | option => exact h
    | output value =>
      intro q hq
      obtain ⟨text, -, rfl⟩ := map_eq_some_iff.mp hq
      exact Path.join_join habsolute ⟨text⟩
    | positional =>
      simp only [absorb]
      split
      · split <;> exact h
      · exact h

end CommandLine

namespace Invocation

open CommandLine

/-- **What an invocation keeps of a command line, read again, gives the same invocation.** -/
theorem ofCommand_kept {directory file : Path} (habsolute : directory.isAbsolute = true)
    {command : List String} {output : Option Path} {i : Invocation}
    (h : ofCommand directory command (some file) output = .ok i) :
    ofCommand directory (i.compiler :: i.arguments) (some i.input) i.output = .ok i := by
  cases command with
  | nil => cases h
  | cons compiler args =>
    obtain rfl := Except.ok.inj h
    clear h
    have hagain := foldl_filter_kept directory (directory.join file) (pieces args) {}
    have hkept := arguments_foldl directory (directory.join file) (pieces args) {}
    have hresolved := join_output_foldl habsolute (some (directory.join file)) (pieces args) (r := {})
      (fun _ h => by cases h)
    rw [List.nil_append] at hkept
    rw [← (scanned_pieces args).pieces_kept, ← hkept] at hagain
    generalize hread : (pieces args).foldl (absorb directory (some (directory.join file))) {} = r
      at hagain hkept hresolved
    have houtput : ((output.map directory.join).or r.output).map directory.join
        = (output.map directory.join).or r.output := by
      cases output with
      | some o => simp [Path.join_join habsolute]
      | none =>
        cases hr : r.output with
        | none => rfl
        | some q => simp [hresolved q hr]
    simp [ofCommand, Path.join_join habsolute, hread, hagain, houtput]

theorem ofCommand_kept_mixed :
    ∃ i, ofCommand ⟨"/p"⟩ ["cc", "-MF", "-o", "-x", "-c", "-o", "a.o", "-I", "-x", "b.c", "./a.c",
        "-xc++", "-c", "-D"] (some ⟨"a.c"⟩) none = .ok i
      ∧ i.arguments = ["-x", "-c", "-I", "-x", "b.c", "-xc++", "-D"]
      ∧ i.output = some ⟨"/p/a.o"⟩ ∧ i.language = .cPlusPlus
      ∧ ofCommand ⟨"/p"⟩ (i.compiler :: i.arguments) (some i.input) i.output = .ok i := by
  refine ⟨_, rfl, by decide, by decide, by decide, ?_⟩
  exact @ofCommand_kept ⟨"/p"⟩ ⟨"a.c"⟩ (by decide) ["cc", "-MF", "-o", "-x", "-c", "-o", "a.o", "-I",
    "-x", "b.c", "./a.c", "-xc++", "-c", "-D"] none _ rfl

end Invocation

namespace CommandLine

variable {directory : Path} {flag : String}

/-! ## The values of a flag -/

/-- What is written directly behind a flag of two characters. -/
def joined? (flag arg : String) : Option String :=
  if flag.utf8ByteSize = 2 then after? flag arg else none

namespace Piece

@[simp] def valueFor? (flag : String) : Piece → Option String
  | .valued f value => if f = flag then value else none
  | .language value | .joinedLanguage value => if flag = "-x" then some value else none
  | .option arg => joined? flag arg
  | .dropped _ | .output _ | .positional _ => none

@[simp] def foreign? (flag : String) : Piece → Option String
  | .valued f value => if f = flag then none else value
  | .language value => if flag = "-x" then none else some value
  | .dropped _ | .output _ | .joinedLanguage _ | .option _ | .positional _ => none

@[simp] def told? (flag : String) (p : Piece) : Option String :=
  (p.valueFor? flag).or ((p.foreign? flag).bind (joined? flag))

end Piece

theorem joined?_other {f : String} (hf : f ∈ valueFlags) (hflag : flag ∈ valueFlags)
    (hne : f ≠ flag) : joined? flag f = none := by
  have hall : ∀ f ∈ valueFlags, ∀ flag ∈ valueFlags, f ≠ flag → joined? flag f = none := by
    decide
  exact hall f hf flag hflag hne

theorem joined?_plain {s : String} (hs : after? "-" s = none) (hflag : flag ∈ valueFlags) :
    s ≠ flag ∧ joined? flag s = none := by
  have hdash : ∀ flag ∈ valueFlags, (after? "-" flag).isSome = true := by decide
  obtain ⟨name, hname⟩ := isSome_iff_exists.mp (hdash flag hflag)
  have hno : ∀ rest, s ≠ flag ++ rest := by
    rintro rest rfl
    rw [after?_eq_some_iff.mp hname, String.append_assoc, after?_eq_some_iff.mpr rfl] at hs
    cases hs
  refine ⟨fun heq => hno "" (by rw [heq, String.append_empty]), ?_⟩
  unfold joined?
  split
  · exact eq_none_iff_forall_ne_some.mpr fun rest h => hno rest (after?_eq_some_iff.mp h)
  · rfl

theorem joined?_joinedLanguage (value : String) (hflag : flag ∈ valueFlags) (hne : flag ≠ "-x") :
    "-x" ++ value ≠ flag ∧ joined? flag ("-x" ++ value) = none := by
  simp only [valueFlags, mem_cons, not_mem_nil, or_false] at hflag
  rcases hflag with rfl | rfl | rfl | rfl | rfl | rfl | rfl | rfl | rfl | rfl | rfl | rfl | rfl
  all_goals first
    | exact absurd rfl hne
    | refine ⟨fun h => ?_, by simp [joined?, after?, List.isPrefixOf?]⟩
      have := congrArg String.toList h
      simp at this

theorem plain_child {arg : String} (hdirectory : after? "-" directory.text = none)
    (harg : after? "-" arg = none) : after? "-" (directory.child arg).text = none := by
  have hdash : ∀ s : String, after? "-" s = none ↔ s.toList.head? ≠ some '-' := by
    intro s
    unfold after?
    rw [map_eq_none_iff, show "-".toList = ['-'] from rfl]
    cases s.toList with
    | nil => simp [List.isPrefixOf?]
    | cons c cs =>
      by_cases hc : c = '-'
      · simp [List.isPrefixOf?, hc]
      · simp [List.isPrefixOf?, hc, Ne.symm hc]
  rw [hdash] at hdirectory harg ⊢
  unfold Path.child Path.join
  split
  · exact harg
  · cases htext : directory.text.toList with
    | nil => exact harg
    | cons =>
      rw [htext] at hdirectory
      split
      · next hlast => simp at hlast
      · simpa [htext] using hdirectory
      · simpa [htext] using hdirectory

end CommandLine

namespace Invocation

open CommandLine

variable {flag arg : String} {directory : Path} {explicit : Option Path} {r : Reading} {p : Piece}
  {values args : List String}

theorem flagValuesIn_cons (h : arg ≠ flag) (rest : List String) :
    flagValuesIn flag (arg :: rest) = (joined? flag arg).toList ++ flagValuesIn flag rest := by
  rw [flagValuesIn.eq_def]
  simp only [if_neg h]
  cases hvalue : joined? flag arg with
  | none | some =>
    unfold joined? at hvalue
    rw [hvalue]
    rfl

/-- For a flag these values are read first, whatever follows. -/
def Reads (flag : String) (args values : List String) : Prop :=
  ∀ more, flagValuesIn flag (args ++ more) = values ++ flagValuesIn flag more

theorem Reads.append {args' values' : List String} (h : Reads flag args values)
    (h' : Reads flag args' values') : Reads flag (args ++ args') (values ++ values') := by
  intro more
  rw [append_assoc, h, h', append_assoc]

theorem reads_own (flag value : String) : Reads flag [flag, value] [value] := by
  intro more
  show flagValuesIn flag (flag :: value :: more) = _
  rw [flagValuesIn, if_pos rfl]
  rfl

theorem reads_single (h : arg ≠ flag) : Reads flag [arg] (joined? flag arg).toList :=
  flagValuesIn_cons h

theorem reads_foreign {f value : String} (hf : f ∈ valueFlags) (hflag : flag ∈ valueFlags)
    (hne : f ≠ flag) (hvalue : value ≠ flag) :
    Reads flag [f, value] (joined? flag value).toList := by
  have hpair := (reads_single hne).append (reads_single hvalue)
  rwa [joined?_other hf hflag hne] at hpair

theorem reads_plain (hflag : flag ∈ valueFlags) (harg : after? "-" arg = none) :
    Reads flag [arg] [] := by
  obtain ⟨hne, hnone⟩ := joined?_plain harg hflag
  have hone := reads_single hne
  rwa [hnone] at hone

theorem Reads.absorb (h : Reads flag r.arguments values) (hflag : flag ∈ valueFlags)
    (directory : Path) (explicit : Option Path) (hproper : p.Proper) (hclosed : p.isOpen = false)
    (hbare : p.foreign? flag ≠ some flag)
    (hfile : ∀ q, r.positional = some q → after? "-" q.text = none) :
    Reads flag (absorb directory explicit r p).arguments (values ++ (p.told? flag).toList) := by
  cases p with
  | dropped | output =>
    simpa [CommandLine.absorb] using h
  | language value =>
    refine h.append ?_
    by_cases hx : flag = "-x"
    · subst hx
      exact reads_own "-x" value
    · have hvalue : value ≠ flag := by simpa [hx] using hbare
      simpa [hx] using
        reads_foreign (by decide) hflag (Ne.symm hx) hvalue
  | joinedLanguage value =>
    refine h.append ?_
    by_cases hx : flag = "-x"
    · subst hx
      have hone := reads_single (Shape.fits_of hproper).2
      rwa [show joined? "-x" ("-x" ++ value) = some value from after?_eq_some_iff.mpr rfl] at hone
    · obtain ⟨hne, hnone⟩ := joined?_joinedLanguage value hflag hx
      have hone := reads_single hne
      rw [hnone] at hone
      simpa [hx] using hone
  | valued f value =>
    cases value with
    | none => cases hclosed
    | some value =>
      refine h.append ?_
      by_cases hf : f = flag
      · subst hf
        simpa using reads_own f value
      · have hvalue : value ≠ flag := by simpa [hf] using hbare
        simpa [hf] using
          reads_foreign (Shape.fits_of hproper).1 hflag hf hvalue
  | option arg =>
    refine h.append ?_
    have hne : arg ≠ flag := fun heq => (Shape.fits_of hproper).1 (heq ▸ hflag)
    simpa using reads_single hne
  | positional arg =>
    -- what comes into the arguments here, if anything, does not begin with a dash
    have hadds : ∀ more, Reads flag more [] → Reads flag (r.arguments ++ more)
        (values ++ ((Piece.positional arg).told? flag).toList) := fun more hmore => by
      simpa using h.append hmore
    simp only [CommandLine.absorb]
    split
    · split
      · simpa using hadds [] (fun _ => rfl)
      · exact hadds _ (reads_plain hflag (Shape.fits_of hproper))
    · refine hadds _ ?_
      cases hr : r.positional with
      | none => exact fun _ => rfl
      | some q => exact reads_plain hflag (hfile q hr)

theorem plain_positional (hproper : p.Proper)
    (hdirectory : explicit = none → after? "-" directory.text = none)
    (hfile : ∀ q, r.positional = some q → after? "-" q.text = none) (q : Path)
    (hq : (absorb directory explicit r p).positional = some q) : after? "-" q.text = none := by
  cases p with
  | dropped | output | language | joinedLanguage | valued | option => exact hfile q hq
  | positional arg =>
    cases explicit with
    | some input =>
      simp only [CommandLine.absorb] at hq
      split at hq <;> exact hfile q hq
    | none =>
      cases hq
      exact plain_child (hdirectory rfl) (Shape.fits_of hproper)

theorem flagValuesIn_foldl {ps : List Piece} (hscanned : Scanned ps) (hflag : flag ∈ valueFlags)
    (hdirectory : explicit = none → after? "-" directory.text = none)
    (hbare : ∀ p ∈ ps, p.foreign? flag ≠ some flag) (h : Reads flag r.arguments values)
    (hfile : ∀ q, r.positional = some q → after? "-" q.text = none) :
    flagValuesIn flag (ps.foldl (absorb directory explicit) r).arguments
      = values ++ ps.filterMap (Piece.told? flag) := by
  induction hscanned generalizing r values with
  | nil => simpa [flagValuesIn] using h []
  | @cons p ps hproper hopen _ ih =>
    cases hp : p.isOpen with
    | false =>
      have hstep := h.absorb hflag directory explicit hproper hp (hbare p mem_cons_self) hfile
      rw [foldl_cons, ih (fun q hq => hbare q (mem_cons_of_mem _ hq)) hstep
        (plain_positional hproper hdirectory hfile), append_assoc]
      rw [filterMap_cons]
      cases p.told? flag <;> rfl
    | true =>
      -- the last flag lacks its value, so nothing is read behind it
      obtain rfl := hopen hp
      obtain ⟨f, rfl⟩ : ∃ f, p = .valued f none := by
        cases p with
        | valued f value =>
          cases value with
          | none => exact ⟨f, rfl⟩
          | some => cases hp
        | _ => cases hp
      show flagValuesIn flag (r.arguments ++ [f]) = _
      rw [h]
      by_cases hf : f = flag
      · subst hf
        simp [flagValuesIn]
      · rw [flagValuesIn_cons hf, joined?_other (Shape.fits_of hproper).1 hflag hf]
        simp [flagValuesIn, hf]

theorem flagValues_ofCommand {compiler : String} {file output : Option Path} {i : Invocation}
    (h : ofCommand directory (compiler :: args) file output = .ok i) (hflag : flag ∈ valueFlags)
    (hdirectory : file = none → after? "-" directory.text = none)
    (hbare : ∀ p ∈ pieces args, p.foreign? flag ≠ some flag) :
    i.flagValues flag = (pieces args).filterMap (Piece.told? flag) := by
  have hexplicit : file.map (directory.join ·) = none → after? "-" directory.text = none :=
    fun hnone => hdirectory (map_eq_none_iff.mp hnone)
  have hread := flagValuesIn_foldl (r := {}) (scanned_pieces args) hflag hexplicit hbare
    (fun more => (nil_append (flagValuesIn flag more)).symm) (fun _ h => by cases h)
  simp only [ofCommand] at h
  split at h
  · cases h
  · obtain rfl := Except.ok.inj h
    exact hread

theorem length_filterMap_told? (flag : String) (ps : List Piece) :
    (ps.filterMap (Piece.told? flag)).length = (ps.filterMap (Piece.valueFor? flag)).length
      + ps.countP (fun p => ((p.foreign? flag).bind (joined? flag)).isSome) := by
  have hone : ∀ p : Piece, p.valueFor? flag = none ∨ p.foreign? flag = none := by
    intro p
    cases p with
    | valued | language =>
      simp only [Piece.valueFor?, Piece.foreign?]
      split <;> simp
    | _ => exact .inr rfl
  induction ps with
  | nil => rfl
  | cons p ps ih =>
    rw [filterMap_cons, filterMap_cons, countP_cons, Piece.told?]
    rcases hone p with hnone | hnone
    · rw [hnone, none_or]
      cases (p.foreign? flag).bind (joined? flag) with
      | none => simpa using ih
      | some =>
        simp only [length_cons, isSome_some, if_true]
        omega
    · rw [hnone]
      cases p.valueFor? flag with
      | none => simpa using ih
      | some =>
        simp only [some_or, length_cons, bind_none, isSome_none, Bool.false_eq_true, if_false]
        omega

theorem filterMap_told?_eq_iff (ps : List Piece) :
    ps.filterMap (Piece.told? flag) = ps.filterMap (Piece.valueFor? flag)
      ↔ ∀ p ∈ ps, (p.foreign? flag).bind (joined? flag) = none := by
  constructor
  · intro heq
    have hcount := length_filterMap_told? flag ps
    rw [heq] at hcount
    have hzero := countP_eq_zero.mp (Nat.left_eq_add.mp hcount)
    exact fun p hp => by simpa using hzero p hp
  · intro hnone
    refine filterMap_congr fun p hp => ?_
    rw [Piece.told?, hnone p hp, or_none]

/-- **A query answers the values that the line has given to the flag exactly when no value of
another flag looks like this one.** One that begins with the flag is taken for it. One that is the
flag itself would take along what comes next, and is left out here. -/
theorem flagValues_exact_iff {compiler : String} {file output : Option Path} {i : Invocation}
    (h : ofCommand directory (compiler :: args) file output = .ok i) (hflag : flag ∈ valueFlags)
    (hdirectory : file = none → after? "-" directory.text = none)
    (hbare : ∀ p ∈ pieces args, p.foreign? flag ≠ some flag) :
    (i.flagValues flag = (pieces args).filterMap (Piece.valueFor? flag)
      ↔ ∀ p ∈ pieces args, (p.foreign? flag).bind (joined? flag) = none)
    ∧ ((∀ p ∈ pieces args, (p.foreign? "-D").bind (joined? "-D") = none) →
      i.defines = SortedSet.ofList ((pieces args).filterMap (Piece.valueFor? "-D"))) := by
  rw [flagValues_ofCommand h hflag hdirectory hbare]
  refine ⟨filterMap_told?_eq_iff _, fun hnone => ?_⟩
  have hbareD : ∀ p ∈ pieces args, p.foreign? "-D" ≠ some "-D" := by
    intro p hp hself
    have hp := hnone p hp
    rw [hself] at hp
    exact absurd hp (by decide)
  unfold defines
  rw [flagValues_ofCommand h (by decide) hdirectory hbareD, (filterMap_told?_eq_iff _).mpr hnone]

theorem flagValues_exact_iff_mixed :
    let args := ["-I", "inc", "-DFOO", "-include", "D.h", "-D", "BAR=1", "-xc", "-o", "-DX", "a.c"]
    ∃ i, ofCommand ⟨"/p"⟩ ("cc" :: args) none none = .ok i
      ∧ (∀ p ∈ pieces args, p.foreign? "-D" ≠ some "-D")
      ∧ i.flagValues "-D" = ["FOO", "BAR=1"] ∧ i.defines = SortedSet.ofList ["FOO", "BAR=1"] := by
  intro args
  have hbare : ∀ p ∈ pieces args, p.foreign? "-D" ≠ some "-D" := by decide
  have hclear : ∀ p ∈ pieces args, (p.foreign? "-D").bind (joined? "-D") = none := by
    decide
  have hgiven : (pieces args).filterMap (Piece.valueFor? "-D") = ["FOO", "BAR=1"] := by
    decide
  obtain ⟨i, hi⟩ : ∃ i, ofCommand ⟨"/p"⟩ ("cc" :: args) none none = .ok i := ⟨_, rfl⟩
  obtain ⟨hvalues, hdefines⟩ := flagValues_exact_iff hi (by decide) (fun _ => by decide) hbare
  exact ⟨i, hi, hbare, (hvalues.mpr hclear).trans hgiven,
    (hdefines hclear).trans (by rw [hgiven])⟩

/-- A directory whose name looks like a macro is searched, and the macro counts as defined. -/
theorem flagValues_takes_value :
    let args := ["-I", "-DFOO", "a.c"]
    ∃ i, ofCommand ⟨"/p"⟩ ("cc" :: args) none none = .ok i
      ∧ (pieces args).filterMap (Piece.valueFor? "-D") = []
      ∧ i.flagValues "-D" = ["FOO"] ∧ i.defines = SortedSet.ofList ["FOO"] := by
  refine ⟨_, rfl, ?_, ?_, ?_⟩ <;> decide

end Invocation

end SymbolIndex
