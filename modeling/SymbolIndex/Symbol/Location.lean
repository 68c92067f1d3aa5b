import SymbolIndex.Json.Codec

/-!
# Places in source files

A front end names a place by path, line and column; the index stores it by file number, line and
column. Both are ordered by file first.
-/

namespace SymbolIndex

structure FileId where
  val : UInt32
deriving DecidableEq, Inhabited

namespace FileId

instance : Ord FileId where
  compare := compareOn val

instance : Std.TransOrd FileId := inferInstanceAs (Std.TransCmp (compareOn val))

def text (id : FileId) : String := toString id.val.toNat

def encode (id : FileId) : Json := .ofUInt32 id.val

def decode? (j : Json) : Option FileId := j.uint32?.map FileId.mk

end FileId

structure Location where
  file : FileId
  line : UInt32
  column : UInt32
deriving DecidableEq, Inhabited

namespace Location

instance : Ord Location where
  compare := compareLex (compareOn file) (compareLex (compareOn line) (compareOn column))

instance : Std.TransOrd Location :=
  inferInstanceAs (Std.TransCmp
    (compareLex (compareOn file) (compareLex (compareOn line) (compareOn column))))

def text (l : Location) : String :=
  l.file.text ++ ":" ++ toString l.line.toNat ++ ":" ++ toString l.column.toNat

def encode (l : Location) : Json :=
  .obj [("file", l.file.encode), ("line", .ofUInt32 l.line), ("column", .ofUInt32 l.column)]

def decode? (j : Json) : Option Location := do
  match ← j.record? ["file", "line", "column"] 0 with
  | [file, line, column] =>
    return { file := ← Json.required FileId.decode? file
             line := ← Json.required Json.uint32? line
             column := ← Json.required Json.uint32? column }
  | _ => none

end Location

structure SourcePosition where
  path : Path
  line : UInt32
  column : UInt32
deriving DecidableEq, Inhabited

namespace SourcePosition

instance : Ord SourcePosition where
  compare := compareLex (compareOn path) (compareLex (compareOn line) (compareOn column))

instance : Std.TransOrd SourcePosition :=
  inferInstanceAs (Std.TransCmp
    (compareLex (compareOn path) (compareLex (compareOn line) (compareOn column))))

def text (p : SourcePosition) : String :=
  p.path.text ++ ":" ++ toString p.line.toNat ++ ":" ++ toString p.column.toNat

def encode (p : SourcePosition) : Json :=
  .obj [("path", p.path.encode), ("line", .ofUInt32 p.line), ("column", .ofUInt32 p.column)]

def decode? (j : Json) : Option SourcePosition := do
  match ← j.record? ["path", "line", "column"] 0 with
  | [path, line, column] =>
    return { path := ← Json.required Path.decode? path
             line := ← Json.required Json.uint32? line
             column := ← Json.required Json.uint32? column }
  | _ => none

end SourcePosition

end SymbolIndex
