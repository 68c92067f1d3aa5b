import SymbolIndex.Log.Pattern.Basic
import SymbolIndex.Text.Blank
import SymbolIndex.Text.Hex

/-!
# Reading characters and sets of characters

Sets stand in brackets and may hold further sets; `&&`, `--` and `~~` combine what stands before
them with what follows, the leftmost first. In a spaced pattern white space does not count, and
neither does what stands between a number sign and the end of its line.
-/

namespace SymbolIndex.Log

open SymbolIndex.Text

/-! ## White space -/

def passSpace (inComment : Bool) : List Char → List Char
  | [] => []
  | c :: cs =>
    if inComment then passSpace (c ≠ '\n') cs
    else if isBlank c then passSpace false cs
    else if c = '#' then passSpace true cs
    else c :: cs

def skipSpace (spaced : Bool) (cs : List Char) : List Char :=
  if spaced then passSpace false cs else cs

def firstVisible? (sign : Bool) : List Char → Option Char
  | [] => none
  | c :: cs =>
    if isBlank c then firstVisible? sign cs
    else if c = '#' ∧ !sign then firstVisible? true cs
    else some c

def peekVisible? (spaced : Bool) (cs : List Char) : Option Char :=
  if spaced then (firstVisible? false cs).orElse (fun _ => cs.head?) else cs.head?

/-! ## Escapes -/

inductive Escape where
  | char (c : PatternChar)
  | anchor
  | boundary
  | shorthand (negated : Bool)
deriving DecidableEq, Inhabited

def hexValue? (spaced : Bool) (value : Nat) : Nat → List Char → Option (Nat × List Char)
  | 0, cs => some (value, cs)
  | _ + 1, [] => none
  | n + 1, c :: cs =>
    match hexDigitValue? c with
    | some d => hexValue? spaced (value * 16 + d) n (skipSpace spaced cs)
    | none => none

def charOf? (n : Nat) : Option Char :=
  if n < 0xD800 ∨ (0xDFFF < n ∧ n < 0x110000) then some (Char.ofNat n) else none

def hexChar? (spaced : Bool) (digits : Nat) (cs : List Char) : Option (Escape × List Char) := do
  let (n, rest) ← hexValue? spaced 0 digits (skipSpace spaced cs)
  let c ← charOf? n
  return (.char { char := c, isByte := digits = 2 }, rest)

/-- What a letter behind a backslash stands for. Properties of characters are not known here, and
there are no references to groups. -/
def letterEscape? : Char → Option Escape
  | 'a' => some (.char ⟨'\x07', false⟩)
  | 'f' => some (.char ⟨'\x0c', false⟩)
  | 't' => some (.char ⟨'\t', false⟩)
  | 'n' => some (.char ⟨'\n', false⟩)
  | 'r' => some (.char ⟨'\r', false⟩)
  | 'v' => some (.char ⟨'\x0b', false⟩)
  | 'd' | 's' | 'w' => some (.shorthand false)
  | 'D' | 'S' | 'W' => some (.shorthand true)
  | 'A' | 'z' => some .anchor
  | 'b' | 'B' => some .boundary
  | _ => none

/-- Read what follows a backslash. A sign stands for itself, apart from the angle brackets, which
are the boundaries at the beginning and end of a word. -/
def escape? (spaced : Bool) : List Char → Option (Escape × List Char)
  | [] => none
  | 'x' :: cs => hexChar? spaced 2 cs
  | 'u' :: cs => hexChar? spaced 4 cs
  | 'U' :: cs => hexChar? spaced 8 cs
  | '<' :: cs | '>' :: cs => some (.boundary, cs)
  | c :: cs =>
    if c.isAlphanum then (letterEscape? c).map (fun e => (e, cs))
    else if c.toNat < 128 then some (.char ⟨c, false⟩, cs)
    else none

/-! ## Sets -/

/-- One part of a set before it is known whether a range begins: an escape or a plain character. -/
def setItem? (spaced : Bool) : List Char → Option (Escape × List Char)
  | [] => none
  | '\\' :: cs => escape? spaced cs
  | c :: cs => some (.char ⟨c, false⟩, cs)

def Escape.set? : Escape → Option CharSet
  | .char c => some (.member c)
  | .shorthand negated => some (.shorthand negated)
  | _ => none

/-- Read a character, a class or a range. A dash makes no range before a closing bracket or before
another dash. -/
def setRange? (spaced : Bool) (cs : List Char) : Option (CharSet × List Char) := do
  let (first, cs) ← setItem? spaced cs
  match skipSpace spaced cs with
  | [] => none
  | '-' :: rest =>
    let next := peekVisible? spaced rest
    if next = some ']' ∨ next = some '-' then return (← first.set?, '-' :: rest)
    else
      let (last, rest) ← setItem? spaced (skipSpace spaced rest)
      match first, last with
      | .char a, .char b => if a.char ≤ b.char then return (.range a b, rest) else none
      | _, _ => none
  | rest => return (← first.set?, rest)

def classNames : List String :=
  ["alnum", "alpha", "ascii", "blank", "cntrl", "digit", "graph", "lower", "print", "punct",
    "space", "upper", "word", "xdigit"]

def namedClass? : List Char → Option (CharSet × List Char)
  | ':' :: cs =>
    let (negated, cs) := match cs with
      | '^' :: cs => (true, cs)
      | cs => (false, cs)
    match cs.span (· ≠ ':') with
    | (name, ':' :: ']' :: rest) =>
      if classNames.contains (String.ofList name) then some (.named negated, rest) else none
    | _ => none
  | _ => none

def leadingDashes (spaced : Bool) (fuel : Nat) (parts : List CharSet) (cs : List Char) :
    List CharSet × List Char :=
  match fuel, cs with
  | fuel + 1, '-' :: rest =>
    leadingDashes spaced fuel (.member ⟨'-', false⟩ :: parts) (skipSpace spaced rest)
  | _, cs => (parts, cs)

/-- Read the beginning of a set, after the opening bracket: whether it is negated, and the dashes or
the closing bracket that stand for themselves there. -/
def beginSet (spaced : Bool) (cs : List Char) : Bool × List CharSet × List Char :=
  let (negated, cs) := match skipSpace spaced cs with
    | '^' :: cs => (true, skipSpace spaced cs)
    | cs => (false, cs)
  match leadingDashes spaced cs.length [] cs with
  | ([], ']' :: rest) => (negated, [.member ⟨']', false⟩], skipSpace spaced rest)
  | (parts, rest) => (negated, parts, rest)

inductive SetFrame where
  | bracket (before : List CharSet) (negated : Bool)
  | operand (left : CharSet)
deriving Inhabited

def CharSet.ofParts : List CharSet → CharSet
  | [] => .empty
  | [s] => s
  | parts => .union parts.reverse

def operandOf (stack : List SetFrame) (parts : List CharSet) : CharSet × List SetFrame :=
  match stack with
  | .operand left :: rest => (.combination left (.ofParts parts), rest)
  | stack => (.ofParts parts, stack)

/-- Read a set inside open brackets, given the parts so far, the latest first. Each turn takes at
least one character. -/
def setBody? (spaced : Bool) (fuel : Nat) (stack : List SetFrame) (parts : List CharSet)
    (cs : List Char) : Option (CharSet × List Char) :=
  match fuel with
  | 0 => none
  | fuel + 1 =>
    match skipSpace spaced cs with
    | [] => none
    | '[' :: rest =>
      match namedClass? rest with
      | some (s, rest) => setBody? spaced fuel stack (s :: parts) rest
      | none =>
        let (negated, inner, rest) := beginSet spaced rest
        setBody? spaced fuel (.bracket parts negated :: stack) inner rest
    | ']' :: rest =>
      match operandOf stack parts with
      | (s, [.bracket _ negated]) => some (.bracket negated s, rest)
      | (s, .bracket before negated :: stack) =>
        setBody? spaced fuel stack (.bracket negated s :: before) rest
      | _ => none
    | '&' :: '&' :: rest | '-' :: '-' :: rest | '~' :: '~' :: rest =>
      let (left, stack) := operandOf stack parts
      setBody? spaced fuel (.operand left :: stack) [] rest
    | cs =>
      match setRange? spaced cs with
      | some (s, rest) => setBody? spaced fuel stack (s :: parts) rest
      | none => none

def charSet? (spaced : Bool) (cs : List Char) : Option (CharSet × List Char) :=
  let (negated, parts, rest) := beginSet spaced cs
  setBody? spaced (rest.length + 1) [.bracket [] negated] parts rest

end SymbolIndex.Log
