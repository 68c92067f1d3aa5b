import SymbolIndex.Json.Numeral
import SymbolIndex.Text.Letter

/-!
# Reading JSON text

The reader takes exactly one document, with blanks around it at most. It checks the form of the
whole text; pieces of the right form that have no value are marked as unreadable, so that a document
can be used as long as no such piece is needed. A string has no value when it holds half of a
surrogate pair or bytes that are no text; a container has none when it is nested deeper than 127.
-/

namespace SymbolIndex.Json

open SymbolIndex.Text

def isBlank (l : Letter) : Bool := l = some ' ' ∨ l = some '\t' ∨ l = some '\n' ∨ l = some '\r'

def skipBlanks (ls : List Letter) : List Letter := ls.dropWhile isBlank

/-! ## Strings -/

def hexValue? (c : Char) : Option Nat :=
  let n := c.toNat
  if 48 ≤ n ∧ n ≤ 57 then some (n - 48)
  else if 97 ≤ n ∧ n ≤ 102 then some (n - 87)
  else if 65 ≤ n ∧ n ≤ 70 then some (n - 55)
  else none

def hex4? : List Letter → Option (Nat × List Letter)
  | some a :: some b :: some c :: some d :: rest => do
    let a ← hexValue? a
    let b ← hexValue? b
    let c ← hexValue? c
    let d ← hexValue? d
    return (((a * 16 + b) * 16 + c) * 16 + d, rest)
  | _ => none

def lowSurrogate? : List Letter → Option (Nat × List Letter)
  | some '\\' :: some 'u' :: rest =>
    match hex4? rest with
    | some (n, rest) => if 0xDC00 ≤ n ∧ n ≤ 0xDFFF then some (n, rest) else none
    | none => none
  | _ => none

def unitLetter (n : Nat) (rest : List Letter) : Letter × List Letter :=
  if 0xD800 ≤ n ∧ n ≤ 0xDBFF then
    match lowSurrogate? rest with
    | some (low, rest) =>
      (some (Char.ofNat (0x10000 + (n - 0xD800) * 0x400 + (low - 0xDC00))), rest)
    | none => (none, rest)
  else if 0xDC00 ≤ n ∧ n ≤ 0xDFFF then (none, rest)
  else (some (Char.ofNat n), rest)

def escape? : List Letter → Option (Letter × List Letter)
  | some '"' :: rest => some (some '"', rest)
  | some '\\' :: rest => some (some '\\', rest)
  | some '/' :: rest => some (some '/', rest)
  | some 'b' :: rest => some (some '\x08', rest)
  | some 'f' :: rest => some (some '\x0c', rest)
  | some 'n' :: rest => some (some '\n', rest)
  | some 'r' :: rest => some (some '\r', rest)
  | some 't' :: rest => some (some '\t', rest)
  | some 'u' :: rest => (hex4? rest).map (fun (n, rest) => unitLetter n rest)
  | _ => none

/-- The letters of a string after its opening quote, up to and without the closing one. Each turn
takes at least one letter, so `fuel` is their number. -/
def stringBody? (fuel : Nat) (acc : List Letter) (ls : List Letter) :
    Option (List Letter × List Letter) :=
  match fuel with
  | 0 => none
  | fuel + 1 =>
    match ls with
    | [] => none
    | some '"' :: rest => some (acc.reverse, rest)
    | some '\\' :: rest => do
      let (l, rest) ← escape? rest
      stringBody? fuel (l :: acc) rest
    | l :: rest => if l.any (·.toNat < 32) then none else stringBody? fuel (l :: acc) rest

def textOf? (ls : List Letter) : Option String := (ls.mapM (fun l => l)).map String.ofList

def string? (ls : List Letter) : Option (Option String × List Letter) :=
  (stringBody? (ls.length + 1) [] ls).map (fun (body, rest) => (textOf? body, rest))

/-! ## Scalars -/

def isNumberLetter (l : Letter) : Bool :=
  l.any (fun c => isDigit c || c = '-' || c = '+' || c = '.' || c = 'e' || c = 'E')

def leadingNumber? (ls : List Letter) : Option (Json × List Letter) :=
  let (spelling, rest) := ls.span isNumberLetter
  (number? (spelling.filterMap (fun l => l))).map (fun j => (j, rest))

def scalar? : List Letter → Option (Json × List Letter)
  | some 'n' :: some 'u' :: some 'l' :: some 'l' :: rest => some (.null, rest)
  | some 't' :: some 'r' :: some 'u' :: some 'e' :: rest => some (.bool true, rest)
  | some 'f' :: some 'a' :: some 'l' :: some 's' :: some 'e' :: rest => some (.bool false, rest)
  | some '"' :: rest => (string? rest).map (fun (s, rest) => ((s.map .str).getD .unreadable, rest))
  | ls => leadingNumber? ls

/-! ## Containers that have no value -/

inductive Frame where
  | array
  | object
deriving DecidableEq, Inhabited

inductive Expected where
  | value
  | name
  | more
deriving DecidableEq, Inhabited

/-- What follows a value inside open containers: a comma with the next one, or the end of the
innermost container. -/
def more? (stack : List Frame) (ls : List Letter) :
    Option (Expected × List Frame × List Letter) :=
  match stack, skipBlanks ls with
  | .array :: _, some ',' :: rest => some (.value, stack, rest)
  | .array :: outer, some ']' :: rest => some (.more, outer, rest)
  | .object :: _, some ',' :: rest => some (.name, stack, rest)
  | .object :: outer, some '\x7d' :: rest => some (.more, outer, rest)
  | _, _ => none

def afterName? (ls : List Letter) : Option (Option String × List Letter) :=
  match skipBlanks ls with
  | some '"' :: rest => do
    let (name, rest) ← string? rest
    match skipBlanks rest with
    | some ':' :: rest => return (name, rest)
    | _ => none
  | _ => none

/-- The beginning of a value: a scalar, an empty container, or a container that is now open. -/
def opened? (stack : List Frame) (ls : List Letter) :
    Option (Expected × List Frame × List Letter) :=
  match skipBlanks ls with
  | some '[' :: rest =>
    match skipBlanks rest with
    | some ']' :: rest => some (.more, stack, rest)
    | rest => some (.value, .array :: stack, rest)
  | some '\x7b' :: rest =>
    match skipBlanks rest with
    | some '\x7d' :: rest => some (.more, stack, rest)
    | rest => some (.name, .object :: stack, rest)
  | ls => (scalar? ls).map (fun (_, rest) => (.more, stack, rest))

/-- Pass over one document, however deep it is nested. Each turn takes at least one letter, so
`fuel` is their number. -/
def skip? (fuel : Nat) (next : Expected) (stack : List Frame) (ls : List Letter) :
    Option (List Letter) :=
  match fuel with
  | 0 => none
  | fuel + 1 =>
    match next, stack with
    | .more, [] => some ls
    | .more, stack => do
      let (next, stack, rest) ← more? stack ls
      skip? fuel next stack rest
    | .name, stack => do
      let (_, rest) ← afterName? ls
      skip? fuel .value stack rest
    | .value, stack => do
      let (next, stack, rest) ← opened? stack ls
      skip? fuel next stack rest

/-! ## Documents -/

/-- The items of an array after its opening bracket has been followed by something else than the
closing one. Each turn takes at least one letter. -/
def items? (item : List Letter → Option (Json × List Letter)) (fuel : Nat) (acc : List Json)
    (ls : List Letter) : Option (List Json × List Letter) :=
  match fuel with
  | 0 => none
  | fuel + 1 => do
    let (j, rest) ← item ls
    match skipBlanks rest with
    | some ',' :: rest => items? item fuel (j :: acc) rest
    | some ']' :: rest => return ((j :: acc).reverse, rest)
    | _ => none

abbrev RawMember := Option String × Json

def RawMember.named? (m : RawMember) : Option (String × Json) := m.1.map (fun name => (name, m.2))

/-- The members of an object after its opening brace has been followed by something else than the
closing one. -/
def members? (item : List Letter → Option (Json × List Letter)) (fuel : Nat)
    (acc : List RawMember) (ls : List Letter) : Option (List RawMember × List Letter) :=
  match fuel with
  | 0 => none
  | fuel + 1 => do
    let (name, rest) ← afterName? ls
    let (j, rest) ← item rest
    match skipBlanks rest with
    | some ',' :: rest => members? item fuel ((name, j) :: acc) rest
    | some '\x7d' :: rest => return (((name, j) :: acc).reverse, rest)
    | _ => none

def objectOf (ms : List RawMember) : Json :=
  ((ms.mapM RawMember.named?).map Json.obj).getD .unreadable

def value? (depth : Nat) (ls : List Letter) : Option (Json × List Letter) :=
  match skipBlanks ls with
  | some '[' :: rest =>
    match depth with
    | 0 => (skip? (rest.length + 2) .value [] (some '[' :: rest)).map (fun rest =>
      (.unreadable, rest))
    | depth + 1 =>
      match skipBlanks rest with
      | some ']' :: rest => some (.arr [], rest)
      | rest =>
        (items? (value? depth) rest.length [] rest).map (fun (js, rest) => (.arr js, rest))
  | some '\x7b' :: rest =>
    match depth with
    | 0 => (skip? (rest.length + 2) .value [] (some '\x7b' :: rest)).map (fun rest =>
      (.unreadable, rest))
    | depth + 1 =>
      match skipBlanks rest with
      | some '\x7d' :: rest => some (.obj [], rest)
      | rest =>
        (members? (value? depth) rest.length [] rest).map (fun (ms, rest) => (objectOf ms, rest))
  | ls => scalar? ls

def maxDepth : Nat := 127

def ofLetters? (ls : List Letter) : Option Json := do
  let (j, rest) ← value? maxDepth ls
  if skipBlanks rest = [] then return j else none

def readBytes? (bytes : ByteArray) : Option Json := ofLetters? (lettersOfBytes bytes)

def parse? (text : String) : Option Json := (ofLetters? (letters text)).filter isReadable

def parseBytes? (bytes : ByteArray) : Option Json := (readBytes? bytes).filter isReadable

end SymbolIndex.Json
