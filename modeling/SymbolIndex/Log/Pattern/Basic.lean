/-!
# Patterns

A pattern is a regular expression, and this is its form as it was written. Nothing here matches
patterns: a log filter only has to know which texts are patterns that could be matched.
-/

namespace SymbolIndex.Log

structure PatternChar where
  char : Char
  isByte : Bool := false
deriving DecidableEq, Inhabited

def PatternChar.isWide (c : PatternChar) : Bool := 127 < c.char.toNat

inductive CharSet where
  | empty
  | member (c : PatternChar)
  | range (first last : PatternChar)
  | named (negated : Bool)
  | shorthand (negated : Bool)
  | bracket (negated : Bool) (inner : CharSet)
  | union (parts : List CharSet)
  | combination (left right : CharSet)
deriving Inhabited

inductive Mode where
  | ignoreCase
  | multiLine
  | dotMatchesAll
  | reluctant
  | unicode
  | lineEndPairs
  | spaced
deriving DecidableEq, Inhabited

def Mode.ofChar? : Char → Option Mode
  | 'i' => some .ignoreCase
  | 'm' => some .multiLine
  | 's' => some .dotMatchesAll
  | 'U' => some .reluctant
  | 'u' => some .unicode
  | 'R' => some .lineEndPairs
  | 'x' => some .spaced
  | _ => none

structure ModeChange where
  mode : Mode
  on : Bool
deriving DecidableEq, Inhabited

def ModeChange.state? (changes : List ModeChange) (m : Mode) : Option Bool :=
  (changes.find? (fun c => c.mode = m)).map ModeChange.on

inductive Pattern where
  | empty
  | modes (changes : List ModeChange)
  | char (c : PatternChar)
  | dot
  | anchor
  | boundary
  | shorthand (negated : Bool)
  | charSet (s : CharSet)
  | repetition (p : Pattern)
  | group (changes : List ModeChange) (p : Pattern)
  | sequence (ps : List Pattern)
  | choice (ps : List Pattern)
deriving Inhabited

/-! ## Nesting -/

mutual

def CharSet.depth : CharSet → Nat
  | .bracket _ inner => inner.depth + 1
  | .union parts => CharSet.maxDepth parts + 1
  | .combination left right => max left.depth right.depth + 1
  | _ => 0

def CharSet.maxDepth : List CharSet → Nat
  | [] => 0
  | s :: rest => max s.depth (CharSet.maxDepth rest)

end

mutual

def Pattern.depth : Pattern → Nat
  | .charSet s => s.depth
  | .repetition p => p.depth + 1
  | .group _ p => p.depth + 1
  | .sequence ps => Pattern.maxDepth ps + 1
  | .choice ps => Pattern.maxDepth ps + 1
  | _ => 0

def Pattern.maxDepth : List Pattern → Nat
  | [] => 0
  | p :: rest => max p.depth (Pattern.maxDepth rest)

end

def Pattern.depthLimit : Nat := 250

end SymbolIndex.Log
