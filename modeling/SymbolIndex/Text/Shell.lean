/-!
# Shell words

Splitting a command line into words by the quoting rules of the POSIX shell. Words are divided by
blanks, tabs and newlines; a `#` at the start of a word begins a comment up to the end of the line.
-/

namespace SymbolIndex.Text.Shell

inductive Place where
  | between
  | escapeBetween
  | word
  | escape
  | singleQuotes
  | doubleQuotes
  | escapeInQuotes
  | comment
deriving DecidableEq

structure Reading where
  place : Place := .between
  words : List String := []
  current : List Char := []

namespace Reading

def push (r : Reading) (place : Place) (cs : List Char) : Reading :=
  { r with place, current := cs.reverse ++ r.current }

def finish (r : Reading) : Reading :=
  { place := .between, words := r.words ++ [String.ofList r.current.reverse], current := [] }

def step (r : Reading) (c : Char) : Reading :=
  let divides := c = ' ' ∨ c = '\t' ∨ c = '\n'
  match r.place with
  | .between =>
    if c = '\'' then { r with place := .singleQuotes }
    else if c = '"' then { r with place := .doubleQuotes }
    else if c = '\\' then { r with place := .escapeBetween }
    else if divides then r
    else if c = '#' then { r with place := .comment }
    else r.push .word [c]
  | .escapeBetween => if c = '\n' then { r with place := .between } else r.push .word [c]
  | .word =>
    if c = '\'' then { r with place := .singleQuotes }
    else if c = '"' then { r with place := .doubleQuotes }
    else if c = '\\' then { r with place := .escape }
    else if divides then r.finish
    else r.push .word [c]
  | .escape => if c = '\n' then { r with place := .word } else r.push .word [c]
  | .singleQuotes => if c = '\'' then { r with place := .word } else r.push .singleQuotes [c]
  | .doubleQuotes =>
    if c = '"' then { r with place := .word }
    else if c = '\\' then { r with place := .escapeInQuotes }
    else r.push .doubleQuotes [c]
  | .escapeInQuotes =>
    if c = '\n' then { r with place := .doubleQuotes }
    else if c = '$' ∨ c = '`' ∨ c = '"' ∨ c = '\\' then r.push .doubleQuotes [c]
    else r.push .doubleQuotes ['\\', c]
  | .comment => if c = '\n' then { r with place := .between } else r

/-- The words at the end of the line; a trailing backslash stands for itself, an open quote is an
error. -/
def result? (r : Reading) : Option (List String) :=
  match r.place with
  | .between | .comment => some r.words
  | .word => some r.finish.words
  | .escapeBetween | .escape => some (r.push .word ['\\']).finish.words
  | .singleQuotes | .doubleQuotes | .escapeInQuotes => none

end Reading

/-- The words of a command line, none when a quote is left open. -/
def split? (line : String) : Option (List String) :=
  (line.toList.foldl Reading.step {}).result?

end SymbolIndex.Text.Shell
