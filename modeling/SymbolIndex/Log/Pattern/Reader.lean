import SymbolIndex.Log.Pattern.CharSet
import SymbolIndex.Text.Alphanumeric

/-!
# Reading patterns

A pattern is read from left to right. What is open is kept on a stack: groups, and choices between
what stands before and behind a bar. A group may have a name, which no other group has, or change
modes. There are no counted repetitions and nothing looks ahead or behind.
-/

namespace SymbolIndex.Log

open SymbolIndex.Text

inductive PatternFrame where
  | group (before : List Pattern) (changes : List ModeChange) (spaced : Bool)
  | choice (branches : List Pattern)
deriving Inhabited

structure PatternReading where
  parts : List Pattern := []
  stack : List PatternFrame := []
  names : List (List Char) := []
  spaced : Bool := false
deriving Inhabited

namespace PatternReading

def push (r : PatternReading) (p : Pattern) : PatternReading := { r with parts := p :: r.parts }

def branch (r : PatternReading) : Pattern :=
  match r.parts with
  | [] => .empty
  | [p] => p
  | parts => .sequence parts.reverse

/-! ## Groups -/

def isNameChar (first : Bool) (c : Char) : Bool :=
  c = '_' || (if first then isAlphabetic c
    else c = '.' || c = '[' || c = ']' || isAlphanumeric c)

def groupName? (cs : List Char) : Option (List Char × List Char) :=
  match cs.span (· ≠ '>') with
  | (c :: name, '>' :: rest) =>
    if isNameChar true c && name.all (isNameChar false) then some (c :: name, rest) else none
  | _ => none

/-- Changes of modes, up to a colon or the end of the group, and that character. Those behind a dash
switch off; each mode is named once. -/
def modeChanges? (on dangling : Bool) (changes : List ModeChange) :
    List Char → Option (List ModeChange × Char × List Char)
  | [] => none
  | c :: rest =>
    if c = ':' ∨ c = ')' then if dangling then none else some (changes.reverse, c, rest)
    else if c = '-' then if on then modeChanges? false true changes rest else none
    else match Mode.ofChar? c with
      | none => none
      | some mode =>
        if changes.any (fun m => m.mode = mode) then none
        else modeChanges? on false (⟨mode, on⟩ :: changes) rest

def openGroup (r : PatternReading) (changes : List ModeChange) : PatternReading :=
  { r with
    parts := []
    stack := .group r.parts changes r.spaced :: r.stack
    spaced := (ModeChange.state? changes .spaced).getD r.spaced }

/-- Read the beginning of a group, after its parenthesis. Changes of modes may stand alone. -/
def beginGroup? (r : PatternReading) (cs : List Char) : Option (PatternReading × List Char) :=
  match skipSpace r.spaced cs with
  | '?' :: '!' :: _ | '?' :: '=' :: _ | '?' :: '<' :: '!' :: _ | '?' :: '<' :: '=' :: _ => none
  | '?' :: 'P' :: '<' :: rest | '?' :: '<' :: rest => do
    let (name, rest) ← groupName? rest
    if r.names.contains name then none
    else return ({ r with names := name :: r.names }.openGroup [], rest)
  | '?' :: rest => do
    let (changes, stop, rest) ← modeChanges? true false [] rest
    if stop = ':' then return (r.openGroup changes, rest)
    else if changes = [] then none
    else
      return ({ r.push (.modes changes) with
        spaced := (ModeChange.state? changes .spaced).getD r.spaced }, rest)
  | rest => some (r.openGroup [], rest)

def closeGroup? (r : PatternReading) : Option PatternReading :=
  match r.stack with
  | .group before changes spaced :: stack =>
    some { r with parts := .group changes r.branch :: before, stack, spaced }
  | .choice branches :: .group before changes spaced :: stack =>
    let inner : Pattern := .choice (r.branch :: branches).reverse
    some { r with parts := .group changes inner :: before, stack, spaced }
  | _ => none

def nextBranch (r : PatternReading) : PatternReading :=
  match r.stack with
  | .choice branches :: stack =>
    { r with parts := [], stack := .choice (r.branch :: branches) :: stack }
  | stack => { r with parts := [], stack := .choice [r.branch] :: stack }

def finish? (r : PatternReading) : Option Pattern :=
  match r.stack with
  | [] => some r.branch
  | [.choice branches] => some (.choice (r.branch :: branches).reverse)
  | _ => none

/-! ## The rest -/

def repeatLast? (r : PatternReading) : Option PatternReading :=
  match r.parts with
  | [] | .empty :: _ | .modes _ :: _ => none
  | p :: before => some { r with parts := .repetition p :: before }

def ofEscape : Escape → Pattern
  | .char c => .char c
  | .anchor => .anchor
  | .boundary => .boundary
  | .shorthand negated => .shorthand negated

def step? (r : PatternReading) (c : Char) (rest : List Char) :
    Option (PatternReading × List Char) :=
  match c with
  | '(' => r.beginGroup? rest
  | ')' => r.closeGroup?.map (fun r => (r, rest))
  | '|' => some (r.nextBranch, rest)
  | '[' => (charSet? r.spaced rest).map (fun (s, rest) => (r.push (.charSet s), rest))
  | '?' | '*' | '+' => r.repeatLast?.map (fun r => (r, match rest with
    | '?' :: rest => rest
    | rest => rest))
  | '\x7b' => none
  | '\\' => (escape? r.spaced rest).map (fun (e, rest) => (r.push (ofEscape e), rest))
  | '.' => some (r.push .dot, rest)
  | '^' | '$' => some (r.push .anchor, rest)
  | c => some (r.push (.char ⟨c, false⟩), rest)

def readAll? (fuel : Nat) (r : PatternReading) (cs : List Char) : Option Pattern :=
  match fuel with
  | 0 => none
  | fuel + 1 =>
    match skipSpace r.spaced cs with
    | [] => r.finish?
    | c :: rest =>
      match r.step? c rest with
      | some (r, rest) => readAll? fuel r rest
      | none => none

end PatternReading

def Pattern.parse? (cs : List Char) : Option Pattern :=
  PatternReading.readAll? (cs.length + 1) {} cs

end SymbolIndex.Log
