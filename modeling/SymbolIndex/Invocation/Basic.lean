import SymbolIndex.Invocation.Language
import SymbolIndex.Text.Affix

/-!
# Compiler invocations

An invocation is one file and the flags it is compiled with: the unit of work of the index. Two
invocations with the same file, language and macro definitions compile the same unit.
-/

namespace SymbolIndex

structure Signature where
  input : Path
  language : Language
  defines : SortedSet String

def Signature.same (s t : Signature) : Bool :=
  s.input.same t.input && s.language == t.language && s.defines == t.defines

structure Invocation where
  directory : Path
  compiler : String
  input : Path
  output : Option Path := none
  language : Language
  /-- The flags, without input, output and what only steers the compiler's own output. -/
  arguments : List String := []
deriving DecidableEq, Inhabited

namespace Invocation

def forSource (source : Path) : Invocation :=
  let language := Language.guess source
  { directory := source.parent?.getD ⟨"."⟩
    compiler := "gcc"
    input := source
    language
    arguments := match language.flag? with
      | some x => ["-x", x]
      | none => [] }

/-- The values of a flag among some arguments: the argument after the flag, and for a flag of two
characters also what is written directly behind it. -/
def flagValuesIn (flag : String) : List String → List String
  | [] => []
  | arg :: rest =>
    if arg = flag then
      match rest with
      | [] => []
      | value :: rest => value :: flagValuesIn flag rest
    else
      match (if flag.utf8ByteSize = 2 then Text.after? flag arg else none) with
      | some value => value :: flagValuesIn flag rest
      | none => flagValuesIn flag rest

def flagValues (i : Invocation) (flag : String) : List String := flagValuesIn flag i.arguments

def defines (i : Invocation) : SortedSet String := SortedSet.ofList (i.flagValues "-D")

def includes (i : Invocation) : List String := i.flagValues "-include"

def signature (i : Invocation) : Signature :=
  { input := i.input, language := i.language, defines := i.defines }

def headerKey? (i : Invocation) : Option String :=
  i.output.bind (fun o => Text.before? ".gch" o.text)

def includedHeaderKeys (i : Invocation) : List String :=
  i.includes.map (fun name => (i.directory.child name).text)

def text (i : Invocation) : String :=
  String.intercalate " " (i.compiler :: i.arguments ++ [i.input.text])

def describeSignature (s : Signature) : Json :=
  .obj [("input", s.input.encode), ("language", s.language.encode),
    ("defines", .ofSet .str s.defines)]

def encode (i : Invocation) : Json :=
  .obj [("directory", i.directory.encode), ("compiler", .str i.compiler),
    ("input", i.input.encode), ("output", .ofOption Path.encode i.output),
    ("language", i.language.encode), ("arguments", .ofList .str i.arguments)]

def decode? (j : Json) : Option Invocation := do
  match ← j.record? ["directory", "compiler", "input", "output", "language", "arguments"] 0 with
  | [directory, compiler, input, output, language, arguments] =>
    return { directory := ← Json.required Path.decode? directory
             compiler := ← Json.required Json.str? compiler
             input := ← Json.required Path.decode? input
             output := ← Json.optional Path.decode? output
             language := ← Json.required Language.decode? language
             arguments := ← Json.required (Json.list? Json.str?) arguments }
  | _ => none

def describe (i : Invocation) (flags : List String) : List (String × Json) :=
  [("invocation", i.encode), ("display", .str i.text), ("defines", .ofSet .str i.defines),
    ("includes", .ofList .str i.includes),
    ("flags", .ofList (fun f => .ofList .str (i.flagValues f)) flags),
    ("signature", describeSignature i.signature), ("pch_key", .ofOption .str i.headerKey?)]

end Invocation

end SymbolIndex
