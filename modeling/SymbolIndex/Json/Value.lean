/-!
# JSON values and their compact text

Integers that fit in 64 bits are numbers; every other number is kept as a text in decimal, since
nothing in the index is a fraction. An object is the list of its members as they were written,
repeated names included, so a reader of records can refuse a repeated field. A piece that is well
formed but has no value here is kept as unreadable: it does no harm where nothing is read from it.
-/

namespace SymbolIndex

inductive Json where
  | null
  | bool (value : Bool)
  | int (value : Int)
  | real (text : String)
  | str (text : String)
  | arr (items : List Json)
  | obj (members : List (String × Json))
  /-- A piece without a value: a number beyond the doubles, a string that is no text, an object
  with such a name, or a container that is nested too deep. -/
  | unreadable
deriving BEq, Inhabited

namespace Json

def field? (j : Json) (name : String) : Option Json :=
  match j with
  | .obj members => (members.reverse.find? (fun m => m.1 == name)).map Prod.snd
  | _ => none

def str? : Json → Option String
  | .str s => some s
  | _ => none

def arr? : Json → Option (List Json)
  | .arr items => some items
  | _ => none

def bool? : Json → Option Bool
  | .bool b => some b
  | _ => none

def natBelow? (bound : Nat) : Json → Option Nat
  | .int (.ofNat n) => if n < bound then some n else none
  | _ => none

/-! ## Text -/

def hexDigit (n : Nat) : Char :=
  if n < 10 then Char.ofNat (48 + n) else Char.ofNat (87 + n)

/-- A character of a string: quote, backslash and the control characters are escaped. -/
def escapeChar (c : Char) : List Char :=
  if c = '"' then ['\\', '"']
  else if c = '\\' then ['\\', '\\']
  else if c = '\x08' then ['\\', 'b']
  else if c = '\x0c' then ['\\', 'f']
  else if c = '\n' then ['\\', 'n']
  else if c = '\r' then ['\\', 'r']
  else if c = '\t' then ['\\', 't']
  else if c.toNat < 32 then ['\\', 'u', '0', '0', hexDigit (c.toNat / 16), hexDigit (c.toNat % 16)]
  else [c]

def quote (s : String) : String :=
  "\"" ++ String.ofList (s.toList.flatMap escapeChar) ++ "\""

mutual

def render : Json → String
  | .null => "null"
  | .bool true => "true"
  | .bool false => "false"
  | .int i => toString i
  | .real text => text
  | .str s => quote s
  | .arr items => "[" ++ renderItems items ++ "]"
  | .obj members => "\x7b" ++ renderMembers members ++ "\x7d"
  | .unreadable => "null"

def renderItems : List Json → String
  | [] => ""
  | [j] => render j
  | j :: rest => render j ++ "," ++ renderItems rest

def renderMembers : List (String × Json) → String
  | [] => ""
  | [(name, j)] => quote name ++ ":" ++ render j
  | (name, j) :: rest => quote name ++ ":" ++ render j ++ "," ++ renderMembers rest

end

mutual

def isReadable : Json → Bool
  | .unreadable => false
  | .arr items => areReadable items
  | .obj members => membersAreReadable members
  | _ => true

def areReadable : List Json → Bool
  | [] => true
  | j :: rest => isReadable j && areReadable rest

def membersAreReadable : List (String × Json) → Bool
  | [] => true
  | (_, j) :: rest => isReadable j && membersAreReadable rest

end

mutual

/-- The document with the members of every object in the order of their names, the last of repeated
members standing for all. -/
def canonical : Json → Json
  | .arr items => .arr (canonicalItems items)
  | .obj members => .obj (canonicalMembers members)
  | j => j

def canonicalItems : List Json → List Json
  | [] => []
  | j :: rest => canonical j :: canonicalItems rest

def canonicalMembers : List (String × Json) → List (String × Json)
  | [] => []
  | (name, j) :: rest => insertMember name (canonical j) (canonicalMembers rest)
where
  insertMember (name : String) (j : Json) : List (String × Json) → List (String × Json)
    | [] => [(name, j)]
    | (other, k) :: rest =>
      match compare name other with
      | .lt => (name, j) :: (other, k) :: rest
      | .eq => (other, k) :: rest
      | .gt => (other, k) :: insertMember name j rest

end

end Json

end SymbolIndex
