/-!
# Beginnings and occurrences of texts
-/

namespace SymbolIndex.Text

def after? (start s : String) : Option String :=
  (List.isPrefixOf? start.toList s.toList).map String.ofList

def charsBefore? (mark : List Char) : List Char → Option (List Char)
  | [] => if mark = [] then some [] else none
  | c :: cs =>
    if mark.isPrefixOf (c :: cs) then some []
    else (charsBefore? mark cs).map (c :: ·)

def before? (mark s : String) : Option String :=
  (charsBefore? mark.toList s.toList).map String.ofList

def cutAt (mark : Char) : List Char → List (List Char)
  | [] => [[]]
  | c :: cs =>
    if c = mark then [] :: cutAt mark cs
    else match cutAt mark cs with
      | [] => [[c]]
      | s :: rest => (c :: s) :: rest

/-- The lines of a text: a newline ends a line, and a carriage return before it belongs to it. -/
def lines (s : String) : List String :=
  let pieces := cutAt '\n' s.toList
  let closed := pieces.dropLast.map (fun l => if l.getLast? = some '\r' then l.dropLast else l)
  let last := (pieces.getLast?.getD [])
  (closed ++ (if last = [] then [] else [last])).map String.ofList

end SymbolIndex.Text
