/-!
# Positions counted in bytes

Positions in a text may be counted in the bytes of its characters. Such a position can lie inside a
character, and then the text cannot be cut there.
-/

namespace SymbolIndex.Text

def byteLength : List Char → Nat
  | [] => 0
  | c :: cs => c.utf8Size + byteLength cs

/-- Cut a text behind its first `n` bytes, if no character goes across. -/
def splitBytes? (n : Nat) : List Char → Option (List Char × List Char)
  | [] => if n = 0 then some ([], []) else none
  | c :: cs =>
    if n = 0 then some ([], c :: cs)
    else if n < c.utf8Size then none
    else (splitBytes? (n - c.utf8Size) cs).map (fun (head, rest) => (c :: head, rest))

/-- The characters between two positions, or the first position where the text cannot be cut. -/
def slice (cs : List Char) (first last : Nat) : Except Nat (List Char) :=
  match splitBytes? first cs with
  | none => .error first
  | some (_, rest) =>
    match splitBytes? (last - first) rest with
    | none => .error last
    | some (part, _) => .ok part

def fitting (n : Nat) : List Char → List Char
  | [] => []
  | c :: cs => if c.utf8Size ≤ n then c :: fitting (n - c.utf8Size) cs else []

end SymbolIndex.Text
