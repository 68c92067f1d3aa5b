import SymbolIndex.Json.Codec

/-!
# Kinds of symbol and severities of diagnostic
-/

namespace SymbolIndex

inductive SymbolKind where
  | «namespace»
  | «class»
  | struct
  | union
  | enum
  | enumConstant
  | typedef
  | function
  | instanceMethod
  | staticMethod
  | constructor
  | destructor
  | conversionFunction
  | variable
  | field
  | parameter
  | templateTypeParameter
  | classTemplate
  | functionTemplate
  | preprocessor
  | other
deriving DecidableEq, Inhabited

namespace SymbolKind

def all : List SymbolKind :=
  [.namespace, .class, .struct, .union, .enum, .enumConstant, .typedef, .function, .instanceMethod,
    .staticMethod, .constructor, .destructor, .conversionFunction, .variable, .field, .parameter,
    .templateTypeParameter, .classTemplate, .functionTemplate, .preprocessor, .other]

def name : SymbolKind → String
  | .namespace => "namespace"
  | .class => "class"
  | .struct => "struct"
  | .union => "union"
  | .enum => "enum"
  | .enumConstant => "enum_constant"
  | .typedef => "typedef"
  | .function => "function"
  | .instanceMethod => "instance_method"
  | .staticMethod => "static_method"
  | .constructor => "constructor"
  | .destructor => "destructor"
  | .conversionFunction => "conversion_function"
  | .variable => "variable"
  | .field => "field"
  | .parameter => "parameter"
  | .templateTypeParameter => "template_type_parameter"
  | .classTemplate => "class_template"
  | .functionTemplate => "function_template"
  | .preprocessor => "macro"
  | .other => "other"

def scansChildren : SymbolKind → Bool
  | .function | .instanceMethod | .variable | .field | .constructor => true
  | _ => false

def canOverride : SymbolKind → Bool
  | .instanceMethod | .destructor => true
  | _ => false

def isScope : SymbolKind → Bool
  | .namespace | .class | .struct => true
  | _ => false

def encode (k : SymbolKind) : Json := .str k.name

def decode? (j : Json) : Option SymbolKind := j.named? name all

def decodePart? (j : Json) : Option SymbolKind := j.namedPart? name all

def describe (k : SymbolKind) : Json :=
  .obj [("kind", k.encode), ("scans_children", .bool k.scansChildren),
    ("can_override", .bool k.canOverride), ("is_scope", .bool k.isScope)]

end SymbolKind

inductive Severity where
  | ignored
  | note
  | warning
  | error
  | fatal
deriving DecidableEq, Inhabited

namespace Severity

def all : List Severity := [.ignored, .note, .warning, .error, .fatal]

def name : Severity → String
  | .ignored => "ignored"
  | .note => "note"
  | .warning => "warning"
  | .error => "error"
  | .fatal => "fatal"

def isError : Severity → Bool
  | .error | .fatal => true
  | _ => false

def encode (s : Severity) : Json := .str s.name

def decode? (j : Json) : Option Severity := j.named? name all

def decodePart? (j : Json) : Option Severity := j.namedPart? name all

def describe (s : Severity) : Json :=
  .obj [("display", .str s.name), ("is_error", .bool s.isError)]

end Severity

end SymbolIndex
