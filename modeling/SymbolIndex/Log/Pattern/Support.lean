import SymbolIndex.Log.Pattern.Basic

/-!
# Patterns that can be matched

Patterns are matched against text, character by character, and without tables of Unicode. So where
characters are those of Unicode there are no classes by a letter, no boundaries of words, and
upper and lower case cannot be told apart; and where they are bytes a pattern must not match a byte
that is no character.
-/

namespace SymbolIndex.Log

structure MatchModes where
  unicode : Bool := true
  ignoreCase : Bool := false
deriving DecidableEq, Inhabited

def MatchModes.change (m : MatchModes) (changes : List ModeChange) : MatchModes :=
  { unicode := (ModeChange.state? changes .unicode).getD m.unicode
    ignoreCase := (ModeChange.state? changes .ignoreCase).getD m.ignoreCase }

mutual

def CharSet.isSupported (m : MatchModes) : CharSet → Bool
  | .empty => true
  | .member c => if m.unicode then !m.ignoreCase else !c.isWide
  | .range first last => if m.unicode then !m.ignoreCase else !first.isWide && !last.isWide
  | .named negated => if m.unicode then !m.ignoreCase else !negated
  | .shorthand negated => !m.unicode && !negated
  | .bracket negated inner => inner.isSupported m && (m.unicode || !negated)
  | .union parts => CharSet.areSupported m parts
  | .combination left right => left.isSupported m && right.isSupported m

def CharSet.areSupported (m : MatchModes) : List CharSet → Bool
  | [] => true
  | s :: rest => s.isSupported m && CharSet.areSupported m rest

end

def PatternChar.isSupported (m : MatchModes) (c : PatternChar) : Bool :=
  if m.unicode then !m.ignoreCase else !(c.isByte && c.isWide)

mutual

def Pattern.check? (m : MatchModes) : Pattern → Option MatchModes
  | .empty | .anchor => some m
  | .modes changes => some (m.change changes)
  | .char c => if c.isSupported m then some m else none
  | .dot => if m.unicode then some m else none
  | .boundary => if m.unicode then none else some m
  | .shorthand negated => if m.unicode || negated then none else some m
  | .charSet s => if s.isSupported m then some m else none
  | .repetition p => p.check? m
  | .group changes p => (p.check? (m.change changes)).map (fun _ => m)
  | .sequence ps => Pattern.checkAll? m ps
  | .choice ps => Pattern.checkAll? m ps

def Pattern.checkAll? (m : MatchModes) : List Pattern → Option MatchModes
  | [] => some m
  | p :: rest =>
    match p.check? m with
    | some m => Pattern.checkAll? m rest
    | none => none

end

def Pattern.isSupported (p : Pattern) : Bool :=
  p.depth ≤ Pattern.depthLimit && (p.check? {}).isSome

end SymbolIndex.Log
