import SymbolIndex.Json.Codec

/-!
# Source languages
-/

namespace SymbolIndex

inductive Language where
  | c
  | cPlusPlus
  | cHeader
  | cPlusPlusHeader
  | objectiveC
  | objectiveCPlusPlus
  | undefined
deriving DecidableEq, Inhabited

namespace Language

def all : List Language :=
  [.c, .cPlusPlus, .cHeader, .cPlusPlusHeader, .objectiveC, .objectiveCPlusPlus, .undefined]

def name : Language → String
  | .c => "c"
  | .cPlusPlus => "c-plus-plus"
  | .cHeader => "c-header"
  | .cPlusPlusHeader => "c-plus-plus-header"
  | .objectiveC => "objective-c"
  | .objectiveCPlusPlus => "objective-c-plus-plus"
  | .undefined => "undefined"

def flag? : Language → Option String
  | .c => some "c"
  | .cPlusPlus => some "c++"
  | .cHeader => some "c-header"
  | .cPlusPlusHeader => some "c++-header"
  | .objectiveC => some "objective-c"
  | .objectiveCPlusPlus => some "objective-c++"
  | .undefined => none

def ofFlag (value : String) : Language :=
  (all.find? (fun l => l.flag? == some value)).getD .undefined

def guess (p : Path) : Language :=
  match p.extension?.getD "" with
  | "c" => .c
  | "cpp" | "cc" | "cxx" | "c++" | "C" => .cPlusPlus
  | "h" => .cHeader
  | "hpp" | "hh" | "hxx" | "h++" | "H" | "tcc" => .cPlusPlusHeader
  | "m" => .objectiveC
  | "mm" => .objectiveCPlusPlus
  | _ => .undefined

def isHeader : Language → Bool
  | .cHeader | .cPlusPlusHeader => true
  | _ => false

def text (l : Language) : String := l.flag?.getD "undefined"

def encode (l : Language) : Json := .str l.name

def decode? (j : Json) : Option Language := j.named? name all

def describe (l : Language) : Json :=
  .obj [("name", .str l.name), ("x_flag", .ofOption .str l.flag?), ("display", .str l.text),
    ("is_header", .bool l.isHeader)]

end Language

end SymbolIndex
