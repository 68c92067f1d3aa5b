/-!
# Paths

A path keeps the text it was written with, while two paths are compared by what they name: the
text is cut at each slash, empty segments and `.` segments are dropped (a leading `.` of a relative
path stays), and the remaining components are compared in order. So `/a//b`, `/a/./b` and `/a/b/`
are equal, and `/a/b` comes before `/a.h`.
-/

namespace SymbolIndex

structure Path where
  text : String
deriving DecidableEq, Inhabited

namespace Path

inductive Component where
  | root
  | current
  | parent
  | name (text : String)
deriving DecidableEq

namespace Component

def rank : Component → Nat
  | .root => 0
  | .current => 1
  | .parent => 2
  | .name _ => 3

def label : Component → String
  | .name text => text
  | _ => ""

def spelling : Component → String
  | .root => "/"
  | .current => "."
  | .parent => ".."
  | .name text => text

instance : Ord Component where
  compare := compareLex (compareOn rank) (compareOn label)

instance : Std.TransOrd Component :=
  inferInstanceAs (Std.TransCmp (compareLex (compareOn rank) (compareOn label)))

end Component

def segments : List Char → List (List Char)
  | [] => [[]]
  | c :: cs =>
    if c = '/' then [] :: segments cs
    else match segments cs with
      | [] => [[c]]
      | s :: rest => (c :: s) :: rest

def joinSegments : List (List Char) → List Char
  | [] => []
  | [s] => s
  | s :: rest => s ++ '/' :: joinSegments rest

def isAbsolute (p : Path) : Bool := p.text.toList.head? == some '/'

def component? (segment : List Char) : Option Component :=
  if segment = [] then none
  else if segment = ['.'] then none
  else if segment = ['.', '.'] then some .parent
  else some (.name (String.ofList segment))

def components (p : Path) : List Component :=
  match segments p.text.toList with
  | [] => []
  | first :: rest =>
    let tail := rest.filterMap component?
    if p.isAbsolute then .root :: tail
    else if first = ['.'] then .current :: tail
    else match component? first with
      | some c => c :: tail
      | none => tail

instance : Ord Path where
  compare := compareOn components

instance : Std.TransOrd Path := inferInstanceAs (Std.TransCmp (compareOn components))

def same (p q : Path) : Bool := p.components == q.components

def startsWith (p base : Path) : Bool := base.components.isPrefixOf p.components

def join (p q : Path) : Path :=
  if q.isAbsolute then q
  else match p.text.toList.getLast? with
    | none => q
    | some '/' => ⟨p.text ++ q.text⟩
    | some _ => ⟨p.text ++ "/" ++ q.text⟩

def child (p : Path) (text : String) : Path := p.join ⟨text⟩

/-- The segments up to the last one that names a component, with the first one of a relative path
counted also when it is `.`. -/
def trimSegments (absolute : Bool) : List (List Char) → List (List Char)
  | [] => []
  | first :: rest =>
    match (rest.reverse.dropWhile (fun s => (component? s).isNone)).reverse with
    | [] => if absolute ∨ first ≠ [] then [first] else []
    | kept => first :: kept

def parent? (p : Path) : Option Path :=
  let kept := trimSegments p.isAbsolute (segments p.text.toList)
  match kept.dropLast with
  | [] => if p.isAbsolute ∨ kept = [] then none else some ⟨""⟩
  | above =>
    match joinSegments (trimSegments p.isAbsolute above) with
    | [] => if p.isAbsolute then some ⟨"/"⟩ else some ⟨""⟩
    | text => some ⟨String.ofList text⟩

def fileName? (p : Path) : Option String :=
  match p.components.getLast? with
  | some (.name text) => some text
  | _ => none

/-- A name cut at its last dot into stem and extension; a dot at the start does not count. -/
def splitName (name : List Char) : List Char × Option (List Char) :=
  let after := name.reverse.takeWhile (· ≠ '.')
  match (name.reverse.dropWhile (· ≠ '.')).drop 1 with
  | [] => (name, none)
  | before => (before.reverse, some after.reverse)

def stem? (p : Path) : Option String :=
  p.fileName?.map (fun n => String.ofList (splitName n.toList).1)

def extension? (p : Path) : Option String :=
  p.fileName?.bind (fun n => (splitName n.toList).2.map String.ofList)

def withFileName (p : Path) (name : String) : Path :=
  if p.fileName?.isSome then (p.parent?.getD ⟨""⟩).child name else p.child name

/-- The path from the root with the same components, seen from the absolute directory `cwd`; two
leading slashes and a trailing one are kept. The empty path has none. -/
def absoluteFrom? (p cwd : Path) : Option Path :=
  if p.text = "" then none
  else
    let chars := p.text.toList
    let twoSlashes := chars.take 2 = ['/', '/'] ∧ chars.take 3 ≠ ['/', '/', '/']
    let steps := p.components.filter (fun c => c ≠ .root ∧ c ≠ .current)
    let start : Path := if twoSlashes then ⟨"//"⟩ else if p.isAbsolute then ⟨"/"⟩ else cwd
    let full := steps.foldl (fun acc c => acc.child c.spelling) start
    some (if chars.getLast? = some '/' then full.child "" else full)

end Path

end SymbolIndex
